import AnvilReth.Mining.Detailed
import AnvilReth.Mining.Interval
import AnvilReth.Transition.Tally

/-! # Every trigger is accounted for

Any number of mine requests interleave with the miner and with whoever else
issues triggers. Each request is over after a bounded number of its own steps.
Each trigger that was issued for somebody has been mined for them, was lost with
a failed block or is still to be served, and every block that a request reports
is on the chain.
-/

namespace AnvilReth

namespace Mining

/-- The event is a step of the request. -/
def Event.isStepOf (r : ℕ) : Event → Bool
  | .step r' _ => r' = r
  | _ => false

def Event.isTrigger : Event → Bool
  | .trigger => true
  | _ => false

/-- Apart from its own steps, a request only changes when it arrives. -/
theorem Node.requests_step {s : Node} {r : ℕ} {e : Event} (he : e.isStepOf r = false) :
    (s.step e).requests r = s.requests r ∨ (s.requests r).phase = .idle ∧
      ∃ numBlocks interval, (s.step e).requests r = .arrive numBlocks interval := by
  cases e with
  | mine r' numBlocks interval =>
    simp only [Node.step]
    split
    · rename_i hp
      by_cases hr : r = r'
      · subst hr
        exact Or.inr ⟨hp, numBlocks, interval, s.setRequest_self r _⟩
      · exact Or.inl (s.setRequest_of_ne hr _)
    · exact Or.inl rfl
  | step r' read =>
    have hr : r ≠ r' := by
      rintro rfl
      exact absurd he (by simp [Event.isStepOf])
    exact Or.inl (s.requests_advance_of_ne hr read)
  | trigger => exact Or.inl rfl
  | serve now => exact Or.inl (congrFun (s.requests_serve now) r)
  | finishBlock => exact Or.inl (congrFun s.requests_finishBlock r)
  | failBlock => exact Or.inl (congrFun s.requests_failBlock r)

/-- What a step makes of the request that takes it, where the manager has the
interval and the head number is read. -/
inductive Request.Advances (q : Request) (found : Option U64) (read : RpcResult U64) :
    Request → Prop where
  | stay (hp : q.Over) : Advances q found read q
  | readInterval {interval} (hp : q.phase = .readInterval interval) :
    Advances q found read { q with previousInterval := found, phase := .setInterval interval }
  | setInterval {interval} (hp : q.phase = .setInterval interval) :
    Advances q found read q.mineBlocks
  | refuseInterval {interval} (hp : q.phase = .setInterval interval) :
    Advances q found read { q with phase := .panicked }
  | loseHead {error} (hp : q.phase = .readHead) (hread : read = .error error) :
    Advances q found read (q.finish (.error error))
  | readHead {start} (hp : q.phase = .readHead) (hread : read = .ok start) :
    Advances q found read { q with start := some start, phase := .trigger q.blocks.toNat }
  | triggered (hp : q.phase = .trigger 0) : Advances q found read { q with phase := .poll 200 }
  | trigger {left} (hp : q.phase = .trigger (left + 1)) :
    Advances q found read { q with phase := .trigger left }
  | timeOut (hp : q.phase = .poll 0) : Advances q found read (q.finish q.timedOut)
  | poll {left} (hp : q.phase = .poll (left + 1)) : Advances q found read (q.pollHead left read)
  | restore {result} (hp : q.phase = .restore result) :
    Advances q found read { q with phase := .returned result }

theorem Node.advances (s : Node) (r : ℕ) (read : ProviderResult U64) :
    (s.requests r).Advances s.time.interval
      (mapProviderError "failed to read latest block number: " read)
      ((s.advance r read).requests r) := by
  unfold Node.advance
  dsimp only
  split <;> rename_i hp
  · exact .stay (by rw [Request.Over, hp]; trivial)
  · exact .stay (by rw [Request.Over, hp]; trivial)
  · exact .stay (by rw [Request.Over, hp]; trivial)
  · rw [setRequest_self]
    exact .readInterval hp
  · unfold Node.setInterval
    split <;> rw [setRequest_self]
    · exact .setInterval hp
    · exact .refuseInterval hp
  · split <;> rename_i hread <;> rw [setRequest_self]
    · exact .loseHead hp hread
    · exact .readHead hp hread
  · rw [setRequest_self]
    exact .triggered hp
  · rw [setRequest_self]
    exact .trigger hp
  · rw [setRequest_self]
    exact .timeOut hp
  · rw [setRequest_self]
    exact .poll hp
  · rw [Node.restore, setRequest_self]
    exact .restore hp

theorem Event.eq_step {r : ℕ} {e : Event} (he : e.isStepOf r = true) :
    ∃ read, e = .step r read := by
  cases e with
  | step r' read =>
    obtain rfl : r' = r := of_decide_eq_true he
    exact ⟨read, rfl⟩
  | mine | trigger | serve | finishBlock | failBlock => cases he

section Termination

namespace Request

/-- A request that has arrived is over after one more step than this. -/
def remaining (q : Request) : ℕ :=
  match q.phase with
  | .idle | .returned _ | .panicked | .restore _ => 0
  | .poll left => left + 1
  | .trigger left => left + 202
  | .readHead => q.blocks.toNat + 203
  | .setInterval _ => q.blocks.toNat + 204
  | .readInterval _ => q.blocks.toNat + 205

variable {q : Request}

theorem phase_finish (result : RpcResult Unit) : (q.finish result).phase ≠ .idle ∧
    ((q.finish result).remaining = 0) := by
  unfold finish remaining
  cases q.timed <;> exact ⟨by simp, rfl⟩

theorem remaining_mineBlocks :
    q.mineBlocks.phase ≠ .idle ∧ q.mineBlocks.remaining ≤ q.blocks.toNat + 203 := by
  unfold mineBlocks
  split
  · obtain ⟨hphase, hzero⟩ := phase_finish (q := q) (.ok ())
    exact ⟨hphase, hzero.trans_le (Nat.zero_le _)⟩
  · exact ⟨by simp, le_rfl⟩

theorem remaining_pollHead {left : ℕ} (read : RpcResult U64) :
    (q.pollHead left read).phase ≠ .idle ∧ (q.pollHead left read).remaining ≤ left + 1 := by
  have hfinish : ∀ result, (q.finish result).phase ≠ .idle ∧
      (q.finish result).remaining ≤ left + 1 := by
    intro result
    obtain ⟨hphase, hzero⟩ := phase_finish (q := q) result
    exact ⟨hphase, hzero.trans_le (Nat.zero_le _)⟩
  unfold pollHead
  split
  · exact hfinish _
  · split
    · exact hfinish _
    · exact ⟨by simp, le_rfl⟩

theorem remaining_arrive (numBlocks interval : Option U256) :
    (arrive numBlocks interval).phase ≠ .idle ∧
      (arrive numBlocks interval).remaining ≤ (numBlocks.getD 1).toNat + 205 := by
  unfold arrive
  dsimp only
  split
  · rename_i hlt
    have hblocks : ((numBlocks.getD 1).setWidth 64).toNat = (numBlocks.getD 1).toNat := by
      rw [BitVec.toNat_setWidth, Nat.mod_eq_of_lt hlt]
    split
    · exact ⟨by simp, le_of_eq (congrArg (· + 205) hblocks)⟩
    · obtain ⟨hphase, hle⟩ :=
        remaining_mineBlocks (q := { blocks := (numBlocks.getD 1).setWidth 64 })
      refine ⟨hphase, hle.trans ?_⟩
      rw [hblocks]
      omega
  · exact ⟨by simp, Nat.zero_le _⟩

end Request

/-- A step of a request takes it one step on or ends it. -/
theorem Node.remaining_advance {s : Node} {r : ℕ} (h : (s.requests r).phase ≠ .idle)
    (read : ProviderResult U64) :
    ((s.advance r read).requests r).phase ≠ .idle ∧
      (((s.advance r read).requests r).remaining < (s.requests r).remaining ∨
        ((s.advance r read).requests r).Over) := by
  have hadvances := s.advances r read
  generalize (s.advance r read).requests r = q at hadvances ⊢
  cases hadvances with
  | stay hover => exact ⟨h, Or.inr hover⟩
  | readInterval hp =>
    refine ⟨by simp, Or.inl ?_⟩
    simp only [Request.remaining, hp]
    omega
  | setInterval hp =>
    obtain ⟨hphase, hle⟩ := Request.remaining_mineBlocks (q := s.requests r)
    refine ⟨hphase, Or.inl (Nat.lt_of_le_of_lt hle ?_)⟩
    simp only [Request.remaining, hp]
    omega
  | refuseInterval => exact ⟨by simp, Or.inr trivial⟩
  | loseHead hp =>
    obtain ⟨hphase, hzero⟩ := Request.phase_finish (q := s.requests r) (.error _)
    refine ⟨hphase, Or.inl (hzero.trans_lt ?_)⟩
    simp only [Request.remaining, hp]
    omega
  | readHead hp =>
    refine ⟨by simp, Or.inl ?_⟩
    simp only [Request.remaining, hp]
    omega
  | triggered hp =>
    refine ⟨by simp, Or.inl ?_⟩
    simp only [Request.remaining, hp]
    omega
  | trigger hp =>
    refine ⟨by simp, Or.inl ?_⟩
    simp only [Request.remaining, hp]
    omega
  | timeOut hp =>
    obtain ⟨hphase, hzero⟩ := Request.phase_finish (q := s.requests r) (s.requests r).timedOut
    refine ⟨hphase, Or.inl (hzero.trans_lt ?_)⟩
    simp only [Request.remaining, hp]
    omega
  | poll hp =>
    obtain ⟨hphase, hle⟩ := Request.remaining_pollHead (q := s.requests r) _
    refine ⟨hphase, Or.inl (Nat.lt_of_le_of_lt hle ?_)⟩
    simp only [Request.remaining, hp]
    omega
  | restore => exact ⟨by simp, Or.inr trivial⟩

/-- A request that is over stays as it is. -/
theorem Node.advance_of_over {s : Node} {r : ℕ} (h : (s.requests r).Over)
    (read : ProviderResult U64) : s.advance r read = s := by
  unfold Node.advance
  dsimp only
  unfold Request.Over at h
  split <;> rename_i hp <;> rw [hp] at h <;> first | rfl | exact h.elim

/-- A request that has arrived stays arrived, and its own steps take it to its end,
where it stays. -/
theorem Node.remaining_step {s : Node} {r : ℕ} (h : (s.requests r).phase ≠ .idle) (e : Event) :
    ((s.step e).requests r).phase ≠ .idle ∧
      ((s.requests r).Over → ((s.step e).requests r).Over) ∧
      (((s.step e).requests r).remaining + (if e.isStepOf r then 1 else 0) ≤
          (s.requests r).remaining ∨ ((s.step e).requests r).Over) := by
  cases he : e.isStepOf r with
  | true =>
    obtain ⟨read, rfl⟩ := Event.eq_step he
    obtain ⟨hphase, hless⟩ := Node.remaining_advance h read
    refine ⟨hphase, fun hover => ?_, hless⟩
    rw [Node.step, Node.advance_of_over hover]
    exact hover
  | false =>
    rcases Node.requests_step he with heq | ⟨hp, -⟩
    · rw [heq]
      exact ⟨h, id, Or.inl le_rfl⟩
    · exact absurd hp h

/-- Whatever the miner and the others do, a mine request is over after 206 of its
own steps and one for each of its blocks. -/
theorem mine_returns (s : Node) (r : ℕ) (numBlocks interval : Option U256) (es : List Event)
    (hidle : (s.requests r).phase = .idle)
    (hsteps : (numBlocks.getD 1).toNat + 206 ≤ es.countP (Event.isStepOf r)) :
    let q := (Transition.run Node.step s (.mine r numBlocks interval :: es)).requests r
    q.phase = .panicked ∨ ∃ result, q.phase = .returned result := by
  have harrive : (s.step (.mine r numBlocks interval)).requests r = .arrive numBlocks interval := by
    simp only [Node.step, hidle, Node.setRequest_self]
  obtain ⟨hphase, hle⟩ := Request.remaining_arrive numBlocks interval
  rw [← harrive] at hphase hle
  rw [Transition.run_cons]
  set t := s.step (.mine r numBlocks interval)
  have hstarted : ((Transition.run Node.step t es).requests r).phase ≠ .idle :=
    (Transition.always_of_step (P := fun s : Node => (s.requests r).phase ≠ .idle) hphase
      fun s e h => (Node.remaining_step h e).1).last
  have hover : ((Transition.run Node.step t es).requests r).Over := by
    refine Transition.done_of_tally (P := fun s : Node => (s.requests r).phase ≠ .idle)
      (C := fun _ _ => True) (w := fun _ e => if Event.isStepOf r e then 1 else 0)
      (fun s : Node => (s.requests r).Over) (fun s : Node => (s.requests r).remaining) hphase
      (fun s e h _ => (Node.remaining_step h e).1) (fun s e h _ => (Node.remaining_step h e).2.1)
      (fun s e h _ _ => (Node.remaining_step h e).2.2) (fun _ _ _ => trivial) ?_
    rw [Transition.tally_countP]
    omega
  unfold Request.Over at hover
  split at hover <;> rename_i hp
  · exact absurd hp hstarted
  · exact Or.inr ⟨_, hp⟩
  · exact Or.inl hp
  · exact hover.elim

/-- Nothing is mined for a request that looks again and again. -/
theorem mine_returns_stuck :
    let q := (Transition.run Node.step (.start (.new 1000 1000) 0 0)
      (.mine 0 none none :: List.replicate 207 (.step 0 (.ok 0)))).requests 0
    q.phase = .panicked ∨ ∃ result, q.phase = .returned result := by
  refine mine_returns _ 0 none none _ rfl ?_
  rw [List.countP_replicate]
  exact le_rfl

end Termination

section Conservation

/-- The triggers that an event issues for somebody. -/
def Event.issues (i : Option ℕ) (s : Node) : Event → ℕ
  | .step r _ =>
    match (s.requests r).phase with
    | .trigger (_ + 1) => if some r = i then 1 else 0
    | _ => 0
  | .trigger => if none = i then 1 else 0
  | _ => 0

/-- The triggers of somebody whose block fails with an event. -/
def Event.loses (i : Option ℕ) (s : Node) : Event → ℕ
  | .failBlock => (s.building.map Prod.fst).toList.count i
  | _ => 0

namespace Node

/-- The blocks that were mined for somebody. -/
def minedFor (s : Node) (i : Option ℕ) : ℕ := (s.mined.map Prod.fst).count i

/-- The triggers of somebody that were lost along a run. -/
def lostFor (s : Node) (es : List Event) (i : Option ℕ) : ℕ :=
  Transition.tally step (Event.loses i) s es

/-- A step of a request leaves the chain alone. -/
theorem chain_advance (s : Node) (r : ℕ) (read : ProviderResult U64) :
    (s.advance r read).head = s.head ∧ (s.advance r read).mined = s.mined := by
  unfold advance
  dsimp only
  split
  · exact ⟨rfl, rfl⟩
  · exact ⟨rfl, rfl⟩
  · exact ⟨rfl, rfl⟩
  · exact ⟨rfl, rfl⟩
  · unfold setInterval
    split <;> exact ⟨rfl, rfl⟩
  · split <;> exact ⟨rfl, rfl⟩
  all_goals exact ⟨rfl, rfl⟩

/-- A step of a request leaves the queue alone unless it issues a trigger. -/
theorem count_unserved_advance (s : Node) (r : ℕ) (read : ProviderResult U64) (i : Option ℕ) :
    (s.advance r read).unserved.count i =
      s.unserved.count i + (Event.step r read).issues i s := by
  unfold advance
  dsimp only
  split <;> rename_i hp <;> simp only [Event.issues, hp, Nat.add_zero]
  · rfl
  · unfold setInterval
    split <;> rfl
  · split <;> rfl
  · rfl
  · change ((s.building.map Prod.fst).toList ++ (s.triggers ++ [some r])).count i = _
    rw [← List.append_assoc, List.count_append, List.count_singleton]
    simp only [unserved, beq_iff_eq]
  · rfl
  · rfl
  · rfl

/-- What is mined or unserved grows with the triggers that are issued, and shrinks with
those that are lost. -/
theorem balance_step (s : Node) (e : Event) (i : Option ℕ) :
    (s.step e).minedFor i + (s.step e).unserved.count i + e.loses i s =
      s.minedFor i + s.unserved.count i + e.issues i s := by
  cases e with
  | mine r numBlocks interval =>
    simp only [step]
    split <;> rfl
  | step r read =>
    rw [step, minedFor, (s.chain_advance r read).2, s.count_unserved_advance r read i]
    exact (Nat.add_assoc _ _ _).symm
  | trigger =>
    change _ + ((s.building.map Prod.fst).toList ++ (s.triggers ++ [none])).count i + 0 = _
    rw [← List.append_assoc, List.count_append, List.count_singleton]
    simp only [step, unserved, Event.issues, beq_iff_eq, minedFor]
    omega
  | serve now =>
    simp only [step, serve]
    split
    · rename_i hb ht
      simp only [unserved, minedFor, hb, ht]
      rfl
    · rfl
  | finishBlock =>
    simp only [step, finishBlock]
    split
    · rename_i block hb
      simp only [unserved, minedFor, hb, Event.loses, Event.issues, List.map_cons,
        List.count_cons, Option.map_some, Option.toList_some, List.cons_append, List.nil_append,
        Option.map_none, Option.toList_none]
      omega
    · rfl
  | failBlock =>
    simp only [step, failBlock]
    split
    · rename_i block hb
      simp only [unserved, minedFor, hb, Event.loses, Event.issues, Option.map_some,
        Option.toList_some, List.cons_append, List.nil_append, Option.map_none,
        Option.toList_none, List.count_cons, List.count_nil]
      omega
    · rename_i hb
      simp only [Event.loses, hb]
      rfl

end Node

namespace Request

/-- Triggers are issued when they should be, and a request that went well issued all. -/
structure Accounted (q : Request) : Prop where
  issuing : q.Issuing
  complete : ∀ u, q.phase = .restore (.ok u) ∨ q.phase = .returned (.ok u) →
    q.start.isSome ∨ q.blocks = 0

variable {q : Request}

theorem Accounted.of_ne (h : q.Issuing) (hr : ∀ result, q.phase ≠ .restore result)
    (hd : ∀ result, q.phase ≠ .returned result) : q.Accounted := by
  refine ⟨h, fun u hp => ?_⟩
  rcases hp with hp | hp
  · exact absurd hp (hr _)
  · exact absurd hp (hd _)

theorem Accounted.default : ({} : Request).Accounted := of_ne rfl (by simp) (by simp)

theorem Accounted.finish (h : q.start.isSome → q.blocks ≠ 0) {result : RpcResult Unit}
    (hr : ∀ u, result = .ok u → q.start.isSome ∨ q.blocks = 0) : (q.finish result).Accounted := by
  refine ⟨issuing_finish h result, fun u hp => hr u ?_⟩
  unfold Request.finish at hp
  cases ht : q.timed <;> simp only [ht] at hp <;> rcases hp with hp | hp <;> cases hp <;> rfl

theorem Accounted.mineBlocks (h : q.start = none) : q.mineBlocks.Accounted := by
  unfold Request.mineBlocks
  split
  · rename_i hb
    refine Accounted.finish ?_ fun _ _ => Or.inr hb
    rw [h]
    nofun
  · rename_i hb
    exact Accounted.of_ne ⟨h, hb⟩ (by simp) (by simp)

theorem Accounted.arrive (numBlocks interval : Option U256) :
    (arrive numBlocks interval).Accounted := by
  unfold Request.arrive
  dsimp only
  split
  · split
    · exact Accounted.of_ne rfl (by simp) (by simp)
    · exact Accounted.mineBlocks rfl
  · exact Accounted.of_ne rfl (by simp) (by simp)

theorem Accounted.pollHead {left k : ℕ} (h : q.Accounted) (hp : q.phase = .poll k)
    (read : RpcResult U64) : (q.pollHead left read).Accounted := by
  have hissuing := h.issuing
  rw [Issuing, hp] at hissuing
  obtain ⟨hstart, hblocks⟩ := hissuing
  unfold Request.pollHead
  split
  · exact Accounted.finish (fun _ => hblocks) (by simp)
  · split
    · exact Accounted.finish (fun _ => hblocks) fun _ _ => Or.inl hstart
    · exact Accounted.of_ne ⟨hstart, hblocks⟩ (by simp) (by simp)

theorem issued_pollHead {left k : ℕ} (hp : q.phase = .poll k) (read : RpcResult U64) :
    (q.pollHead left read).issued = q.issued := by
  have hne : ∀ left, q.phase ≠ .trigger left := by simp [hp]
  unfold Request.pollHead
  split
  · exact issued_finish hne _
  · split
    · exact issued_finish hne _
    · exact issued_congr rfl rfl hne fun _ => by simp

/-- A request that went well has issued a trigger for each of its blocks. -/
theorem Accounted.issued_eq (h : q.Accounted) {u : Unit} (hp : q.phase = .returned (.ok u)) :
    q.issued = q.blocks.toNat := by
  rw [issued_of_ne (by simp [hp])]
  rcases h.complete u (Or.inr hp) with hstart | hblocks
  · rw [if_pos hstart]
  · rw [hblocks]
    exact ite_self _

end Request

theorem Event.issues_step_of_ne {s : Node} {r : ℕ} {i : Option ℕ} {read : ProviderResult U64}
    (h : ∀ left, (s.requests r).phase ≠ .trigger (left + 1)) :
    (Event.step r read).issues i s = 0 := by
  unfold Event.issues
  dsimp only
  split
  · rename_i left hp
    exact absurd hp (h left)
  · rfl

/-- A request counts the triggers it issues. -/
theorem Node.issued_advance {s : Node} {r : ℕ} (h : (s.requests r).Accounted)
    (read : ProviderResult U64) :
    ((s.advance r read).requests r).Accounted ∧
      ((s.advance r read).requests r).issued =
        (s.requests r).issued + (Event.step r read).issues (some r) s := by
  have hissuing := h.issuing
  have hadvances := s.advances r read
  generalize (s.advance r read).requests r = q at hadvances ⊢
  cases hadvances with
  | stay hover =>
    refine ⟨h, ?_⟩
    rw [Event.issues_step_of_ne, Nat.add_zero]
    intro left hp
    rw [Request.Over, hp] at hover
    exact hover
  | readInterval hp =>
    rw [Request.Issuing, hp] at hissuing
    refine ⟨Request.Accounted.of_ne hissuing (by simp) (by simp), ?_⟩
    rw [Event.issues_step_of_ne (by simp [hp]), Request.issued_of_none hissuing]
    exact Request.issued_of_none hissuing
  | setInterval hp =>
    rw [Request.Issuing, hp] at hissuing
    obtain ⟨-, hstart⟩ := Request.mineBlocks_issuing hissuing
    refine ⟨Request.Accounted.mineBlocks hissuing, ?_⟩
    rw [Event.issues_step_of_ne (by simp [hp]), Request.issued_of_none hissuing]
    exact Request.issued_of_none hstart
  | refuseInterval hp =>
    rw [Request.Issuing, hp] at hissuing
    refine ⟨Request.Accounted.of_ne hissuing (by simp) (by simp), ?_⟩
    rw [Event.issues_step_of_ne (by simp [hp]), Request.issued_of_none hissuing]
    exact Request.issued_of_none hissuing
  | loseHead hp =>
    rw [Request.Issuing, hp] at hissuing
    rw [Event.issues_step_of_ne (by simp [hp])]
    exact ⟨Request.Accounted.finish (fun _ => hissuing.2) (by simp),
      Request.issued_finish (by simp [hp]) _⟩
  | readHead hp =>
    rw [Request.Issuing, hp] at hissuing
    obtain ⟨hstart, hblocks⟩ := hissuing
    refine ⟨Request.Accounted.of_ne ⟨rfl, hblocks, le_rfl⟩ (by simp) (by simp), ?_⟩
    rw [Event.issues_step_of_ne (by simp [hp]), Request.issued_of_none hstart]
    exact Nat.sub_self _
  | triggered hp =>
    rw [Request.Issuing, hp] at hissuing
    obtain ⟨hstart, hblocks, -⟩ := hissuing
    refine ⟨Request.Accounted.of_ne ⟨hstart, hblocks⟩ (by simp) (by simp), ?_⟩
    rw [Event.issues_step_of_ne (by simp [hp])]
    simp only [Request.issued, hp]
    cases (s.requests r).start <;> rfl
  | trigger hp =>
    rw [Request.Issuing, hp] at hissuing
    obtain ⟨hstart, hblocks, hle⟩ := hissuing
    obtain ⟨head, hhead⟩ := Option.isSome_iff_exists.mp hstart
    have hleft := Nat.le_of_succ_le hle
    refine ⟨Request.Accounted.of_ne ⟨hstart, hblocks, hleft⟩ (by simp) (by simp), ?_⟩
    simp only [Request.issued, Event.issues, hhead, hp, if_true]
    omega
  | timeOut hp =>
    rw [Request.Issuing, hp] at hissuing
    rw [Event.issues_step_of_ne (by simp [hp])]
    exact ⟨Request.Accounted.finish (fun _ => hissuing.2) (by simp [Request.timedOut]),
      Request.issued_finish (by simp [hp]) _⟩
  | poll hp =>
    rw [Event.issues_step_of_ne (by simp [hp])]
    exact ⟨h.pollHead hp _, Request.issued_pollHead hp _⟩
  | restore hp =>
    rw [Request.Issuing, hp] at hissuing
    rw [Event.issues_step_of_ne (by simp [hp])]
    refine ⟨⟨hissuing, fun u hu => h.complete u (Or.inl ?_)⟩, ?_⟩
    · rcases hu with hu | hu <;> cases hu
      exact hp
    · exact Request.issued_congr rfl rfl (by simp [hp]) fun _ => by simp

theorem Node.issued_step {s : Node} {r : ℕ} (h : (s.requests r).Accounted) (e : Event) :
    ((s.step e).requests r).Accounted ∧
      ((s.step e).requests r).issued = (s.requests r).issued + e.issues (some r) s := by
  cases he : e.isStepOf r with
  | true =>
    obtain ⟨read, rfl⟩ := Event.eq_step he
    exact Node.issued_advance h read
  | false =>
    have hzero : e.issues (some r) s = 0 := by
      unfold Event.issues
      split
      · rename_i r' read
        have hr : r' ≠ r := by
          rintro rfl
          exact absurd he (by simp [Event.isStepOf])
        split
        · exact if_neg fun heq => hr (Option.some.inj heq)
        · rfl
      · rfl
      · rfl
    rw [hzero, Nat.add_zero]
    rcases Node.requests_step he with heq | ⟨hp, numBlocks, interval, heq⟩
    · rw [heq]
      exact ⟨h, rfl⟩
    · have hstart := h.issuing
      rw [Request.Issuing, hp] at hstart
      rw [heq, Request.issued_of_none hstart]
      exact ⟨Request.Accounted.arrive numBlocks interval,
        Request.issued_of_none (Request.arrive_issuing numBlocks interval).2⟩

/-- A block is mined and becomes the head, or the chain stays. -/
theorem Node.chain_step (s : Node) (e : Event) :
    (s.step e).head = s.head ∧ (s.step e).mined = s.mined ∨
      ∃ block, (s.step e).head = s.head + 1 ∧ (s.step e).mined = block :: s.mined := by
  cases e with
  | mine r numBlocks interval =>
    refine Or.inl ?_
    simp only [step]
    split <;> exact ⟨rfl, rfl⟩
  | step r read => exact Or.inl (s.chain_advance r read)
  | trigger => exact Or.inl ⟨rfl, rfl⟩
  | serve now =>
    refine Or.inl ?_
    simp only [step, serve]
    split <;> exact ⟨rfl, rfl⟩
  | finishBlock =>
    simp only [step, finishBlock]
    split
    · exact Or.inr ⟨_, rfl, rfl⟩
    · exact Or.inl ⟨rfl, rfl⟩
  | failBlock =>
    refine Or.inl ?_
    simp only [step, failBlock]
    split <;> exact ⟨rfl, rfl⟩

/-- The head number counts the mined blocks. -/
theorem Node.head_step {s : Node} {head : U64} (h : s.head = head + BitVec.ofNat 64 s.mined.length)
    (e : Event) : (s.step e).head = head + BitVec.ofNat 64 (s.step e).mined.length := by
  rcases s.chain_step e with ⟨hhead, hmined⟩ | ⟨block, hhead, hmined⟩
  · rwa [hhead, hmined]
  · rw [hhead, hmined, h, List.length_cons, BitVec.ofNat_add, BitVec.add_assoc]
    rfl

theorem Event.issues_none : Event.issues none = fun _ e => if e.isTrigger then 1 else 0 := by
  funext s e
  cases e with
  | step r read =>
    simp only [Event.issues, reduceCtorEq, if_false]
    split <;> rfl
  | mine | trigger | serve | finishBlock | failBlock => rfl

/-- However the requests, the miner and the others interleave, the triggers of a
request are those that were mined for it, those that were lost with a failed
block and those that are still to be served. They are as many as its blocks if it went
well. The triggers of the others are accounted for, too, and the head number counts
the mined blocks. -/
theorem triggers_accounted (time : TimeManager) (head : U64) (pending : ℕ) (es : List Event) :
    let s := Transition.run Node.step (.start time head pending) es
    let lost := (Node.start time head pending).lostFor es
    (∀ r, s.minedFor (some r) + s.unserved.count (some r) + lost (some r) =
      (s.requests r).issued) ∧
    (∀ r u, (s.requests r).phase = .returned (.ok u) →
      (s.requests r).issued = (s.requests r).blocks.toNat) ∧
    s.minedFor none + s.unserved.count none + lost none =
      pending + es.countP Event.isTrigger ∧
    s.head = head + BitVec.ofNat 64 s.mined.length := by
  intro s lost
  have hbalance : ∀ i, s.minedFor i + s.unserved.count i + lost i =
      (List.replicate pending none).count i +
        Transition.tally Node.step (Event.issues i) (.start time head pending) es := by
    intro i
    have h := Transition.tally_eq (P := fun _ => True) (C := fun _ _ => True)
      (φ := fun s : Node => s.minedFor i + s.unserved.count i) (w := Event.loses i)
      (v := Event.issues i) (s := .start time head pending) trivial
      (fun _ _ _ _ => trivial) (fun s e _ _ => s.balance_step e i)
      (fun _ _ _ => trivial : Transition.Each Node.step (fun _ _ => True) _ es)
    refine h.trans ?_
    simp only [Node.start, Node.minedFor, Node.unserved, List.map_nil, List.count_nil,
      Option.map_none, Option.toList_none, List.nil_append, Nat.zero_add]
  have haccounted : ∀ r, (s.requests r).Accounted := fun r =>
    (Transition.always_of_step (P := fun s : Node => (s.requests r).Accounted)
      Request.Accounted.default fun s e h => (Node.issued_step h e).1).last
  refine ⟨fun r => ?_, fun r u hp => (haccounted r).issued_eq hp, ?_, ?_⟩
  · have h : (s.requests r).issued + Transition.tally Node.step (fun _ _ => 0)
          (.start time head pending) es =
        0 + Transition.tally Node.step (Event.issues (some r)) (.start time head pending) es :=
      Transition.tally_eq (P := fun s : Node => (s.requests r).Accounted) (C := fun _ _ => True)
        (φ := fun s : Node => (s.requests r).issued) Request.Accounted.default
        (fun s e h _ => (Node.issued_step h e).1) (fun s e h _ => (Node.issued_step h e).2)
        (fun _ _ _ => trivial)
    rw [Transition.tally_zero, Nat.add_zero] at h
    rw [hbalance, h, List.count_replicate]
    rfl
  · rw [hbalance, Event.issues_none, Transition.tally_countP, List.count_replicate_self]
  · exact (Transition.always_of_step (P := fun s : Node =>
      s.head = head + BitVec.ofNat 64 s.mined.length) (BitVec.add_zero head).symm
        fun s e h => Node.head_step h e).last

end Conservation

section Numbers

/-- The head number is read as it is, if it can be read. -/
def Event.Sees (s : Node) : Event → Prop
  | .step _ read => read = .ok s.head ∨ ∃ error, read = .error error
  | _ => True

/-- What a request has seen of the chain, whose first block comes after a head number. -/
structure Request.Seen (first head : ℕ) (q : Request) : Prop where
  first_le : ∀ start ∈ q.start, first ≤ start.toNat
  target_le : ∀ u, q.phase = .restore (.ok u) ∨ q.phase = .returned (.ok u) →
    q.start.isSome → q.target.toNat ≤ head

namespace Request.Seen

variable {first head : ℕ} {q : Request}

theorem mono (h : q.Seen first head) {head' : ℕ} (hle : head ≤ head') : q.Seen first head' :=
  ⟨h.first_le, fun u hp hs => (h.target_le u hp hs).trans hle⟩

theorem of_ne (h : ∀ start ∈ q.start, first ≤ start.toNat)
    (hr : ∀ result, q.phase ≠ .restore result) (hd : ∀ result, q.phase ≠ .returned result) :
    q.Seen first head := by
  refine ⟨h, fun u hp => ?_⟩
  rcases hp with hp | hp
  · exact absurd hp (hr _)
  · exact absurd hp (hd _)

theorem of_none (h : q.start = none) : q.Seen first head := by
  refine ⟨fun start hs => ?_, fun u _ hs => ?_⟩ <;> rw [h] at hs <;> cases hs

theorem finish (h : ∀ start ∈ q.start, first ≤ start.toNat) {result : RpcResult Unit}
    (hr : ∀ u, result = .ok u → q.target.toNat ≤ head) : (q.finish result).Seen first head := by
  refine ⟨h, fun u hp _ => hr u ?_⟩
  unfold Request.finish at hp
  cases ht : q.timed <;> simp only [ht] at hp <;> rcases hp with hp | hp <;> cases hp <;> rfl

end Request.Seen

/-- A request that reads the head number as it is sees its blocks before it returns. -/
theorem Node.seen_advance {s : Node} {r first : ℕ} (h : (s.requests r).Seen first s.head.toNat)
    (hi : (s.requests r).Issuing) (hfirst : first ≤ s.head.toNat) {read : ProviderResult U64}
    (hread : (Event.step r read).Sees s) :
    ((s.advance r read).requests r).Seen first s.head.toNat := by
  have hadvances := s.advances r read
  generalize (s.advance r read).requests r = q at hadvances ⊢
  cases hadvances with
  | stay => exact h
  | readInterval hp =>
    rw [Request.Issuing, hp] at hi
    exact Request.Seen.of_none hi
  | setInterval hp =>
    rw [Request.Issuing, hp] at hi
    exact Request.Seen.of_none (Request.mineBlocks_issuing hi).2
  | refuseInterval hp =>
    rw [Request.Issuing, hp] at hi
    exact Request.Seen.of_none hi
  | loseHead => exact Request.Seen.finish h.first_le (by simp)
  | readHead _ hok =>
    refine Request.Seen.of_ne (fun start hs => ?_) (by simp) (by simp)
    obtain rfl := Option.some.inj hs
    rcases hread with rfl | ⟨error, rfl⟩ <;> cases hok
    exact hfirst
  | triggered | trigger => exact Request.Seen.of_ne h.first_le (by simp) (by simp)
  | timeOut => exact Request.Seen.finish h.first_le (by simp [Request.timedOut])
  | poll =>
    rcases hread with rfl | ⟨error, rfl⟩ <;> dsimp only [mapProviderError, Request.pollHead]
    · split
      · rename_i hle
        exact Request.Seen.finish h.first_le fun _ _ => hle
      · exact Request.Seen.of_ne h.first_le (by simp) (by simp)
    · exact Request.Seen.finish h.first_le (by simp)
  | restore hp =>
    refine ⟨h.first_le, fun u hu => h.target_le u (Or.inl ?_)⟩
    rcases hu with hu | hu <;> cases hu
    exact hp

/-- As long as the head numbers do not run out, the head counts the mined blocks and
every request has seen what is there. -/
structure Sighted (head : U64) (s : Node) : Prop where
  accounted : ∀ r, (s.requests r).Accounted
  head_eq : head.toNat + s.mined.length < 2 ^ 64 → s.head.toNat = head.toNat + s.mined.length
  seen : head.toNat + s.mined.length < 2 ^ 64 → ∀ r, (s.requests r).Seen head.toNat s.head.toNat

namespace Sighted

variable {head : U64} {s : Node}

theorem start (time : TimeManager) (head : U64) (pending : ℕ) :
    Sighted head (.start time head pending) :=
  ⟨fun _ => Request.Accounted.default, fun _ => rfl, fun _ _ => Request.Seen.of_none rfl⟩

theorem step (h : Sighted head s) (e : Event) (he : e.Sees s) : Sighted head (s.step e) := by
  refine ⟨fun r => (Node.issued_step (h.accounted r) e).1, fun hroom => ?_, fun hroom r => ?_⟩
  · rcases s.chain_step e with ⟨hhead, hmined⟩ | ⟨block, hhead, hmined⟩
    · rw [hmined] at hroom
      rw [hhead, hmined, h.head_eq hroom]
    · rw [hmined, List.length_cons] at hroom
      have hs := h.head_eq (by omega)
      rw [hhead, hmined, BitVec.toNat_add, hs, List.length_cons]
      change (_ + 1) % 2 ^ 64 = _
      omega
  · have hgrows : head.toNat + s.mined.length < 2 ^ 64 ∧ s.head.toNat ≤ (s.step e).head.toNat := by
      rcases s.chain_step e with ⟨hhead, hmined⟩ | ⟨block, hhead, hmined⟩
      · rw [hmined] at hroom
        exact ⟨hroom, hhead ▸ le_rfl⟩
      · rw [hmined, List.length_cons] at hroom
        have hs := h.head_eq (by omega)
        refine ⟨by omega, ?_⟩
        rw [hhead, BitVec.toNat_add, hs]
        change _ ≤ (_ + 1) % 2 ^ 64
        omega
    obtain ⟨hroom', hle⟩ := hgrows
    have hseen := h.seen hroom' r
    cases hown : e.isStepOf r with
    | true =>
      obtain ⟨read, rfl⟩ := Event.eq_step hown
      have hfirst : head.toNat ≤ s.head.toNat := (h.head_eq hroom').symm ▸ Nat.le_add_right _ _
      exact (Node.seen_advance hseen (h.accounted r).issuing hfirst he).mono hle
    | false =>
      rcases Node.requests_step hown with heq | ⟨-, numBlocks, interval, heq⟩
      · rw [heq]
        exact hseen.mono hle
      · rw [heq]
        exact Request.Seen.of_none (Request.arrive_issuing numBlocks interval).2

/-- The numbers after the first head up to the present one have blocks. -/
theorem blockAt (h : Sighted head s) (hroom : head.toNat + s.mined.length < 2 ^ 64) {number : U64}
    (hlt : head.toNat < number.toNat) (hle : number.toNat ≤ s.head.toNat) :
    ∃ block, s.blockAt number = some block := by
  have hhead := h.head_eq hroom
  have hnot : ¬ s.head < number := by
    rw [BitVec.lt_def]
    omega
  have hindex : (s.head - number).toNat < s.mined.length := by
    rw [BitVec.toNat_sub]
    omega
  rw [Node.blockAt, if_neg hnot, List.getElem?_eq_getElem hindex]
  exact ⟨_, rfl⟩

end Sighted

theorem Request.mem_numbers {q : Request} {number : U64} (h : number ∈ q.numbers) :
    ∃ start ∈ q.start, start.toNat < number.toNat ∧ number.toNat ≤ q.target.toNat := by
  unfold Request.numbers at h
  split at h
  · cases h
  · rename_i start hs
    obtain ⟨i, hi, rfl⟩ := List.mem_map.mp h
    rw [List.mem_range] at hi
    have hlt := q.target.isLt
    refine ⟨start, hs, ?_⟩
    rw [BitVec.toNat_add, BitVec.toNat_add, BitVec.toNat_ofNat]
    change _ < ((start.toNat + 1) % 2 ^ 64 + _) % 2 ^ 64 ∧
      ((start.toNat + 1) % 2 ^ 64 + _) % 2 ^ 64 ≤ _
    omega

/-- However the requests, the miner and the others interleave, the numbers that a
request has returned are of blocks that are on the chain. -/
theorem numbers_mined (time : TimeManager) (head : U64) (pending : ℕ) (es : List Event)
    (hes : Transition.Each Node.step (fun s e => e.Sees s) (.start time head pending) es)
    (hroom : head.toNat + (Transition.run Node.step (.start time head pending) es).mined.length <
      2 ^ 64) :
    let s := Transition.run Node.step (.start time head pending) es
    ∀ r u, (s.requests r).phase = .returned (.ok u) →
      ∀ number ∈ (s.requests r).numbers, ∃ block, s.blockAt number = some block := by
  intro s r u hp number hm
  have h : Sighted head s :=
    (Transition.always_of_each (Sighted.start time head pending) (fun s e h he => h.step e he)
      hes).last
  obtain ⟨start, hstart, hlt, hle⟩ := Request.mem_numbers hm
  have hseen := h.seen hroom r
  have hfirst := hseen.first_le start hstart
  have htarget := hseen.target_le u (Or.inr hp) (Option.isSome_iff_exists.mpr ⟨start, hstart⟩)
  exact h.blockAt hroom (hfirst.trans_lt hlt) (hle.trans htarget)

/-- Two requests for a block each that see the same block. -/
def sameBlock : List Event :=
  [.mine 0 none none, .mine 1 none none, .step 0 (.ok 0), .step 1 (.ok 0), .step 0 (.ok 0),
    .step 1 (.ok 0), .step 0 (.ok 0), .step 1 (.ok 0), .serve 1000, .finishBlock, .step 0 (.ok 1),
    .step 1 (.ok 1)]

theorem numbers_mined_sameBlock :
    let s := Transition.run Node.step (.start (.new 1000 1000) 0 0) sameBlock
    1 ∈ (s.requests 1).numbers ∧ ∃ block, s.blockAt 1 = some block := by
  have hes : Transition.Each Node.step (fun s e => e.Sees s) (.start (.new 1000 1000) 0 0)
      sameBlock := by
    simp only [sameBlock, Transition.each_cons, Transition.each_nil, and_true]
    exact ⟨trivial, trivial, Or.inl rfl, Or.inl rfl, Or.inl rfl, Or.inl rfl, Or.inl rfl, Or.inl rfl,
      trivial, trivial, Or.inl rfl, Or.inl rfl⟩
  have hmem : (1 : U64) ∈ ((Transition.run Node.step (.start (.new 1000 1000) 0 0)
      sameBlock).requests 1).numbers := by decide
  exact ⟨hmem, numbers_mined (.new 1000 1000) 0 0 sameBlock hes (by decide) 1 () rfl 1 hmem⟩

end Numbers

end Mining

end AnvilReth
