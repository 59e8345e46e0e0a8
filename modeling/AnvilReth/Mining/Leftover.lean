import AnvilReth.Mining.Mine

/-! # What a failed mine request leaves behind

A request issues all its triggers before it waits, and takes none of them back.
If it fails while it waits, the triggers that the miner has not come to stay.
-/

namespace AnvilReth

namespace Mining

namespace Request

/-- How many triggers the request has issued. -/
def issued (q : Request) : ℕ :=
  match q.start, q.phase with
  | none, _ => 0
  | some _, .trigger left => q.blocks.toNat - left
  | some _, _ => q.blocks.toNat

/-- Triggers are issued after the head number was read, and for some block. -/
def Issuing (q : Request) : Prop :=
  match q.phase with
  | .idle | .readInterval _ | .setInterval _ | .panicked => q.start = none
  | .readHead => q.start = none ∧ q.blocks ≠ 0
  | .trigger left => q.start.isSome ∧ q.blocks ≠ 0 ∧ left ≤ q.blocks.toNat
  | .poll _ => q.start.isSome ∧ q.blocks ≠ 0
  | .restore _ | .returned _ => q.start.isSome → q.blocks ≠ 0

variable {q : Request}

theorem issued_of_none (h : q.start = none) : q.issued = 0 := by
  rw [issued, h]

theorem issued_of_ne (h : ∀ left, q.phase ≠ .trigger left) :
    q.issued = if q.start.isSome then q.blocks.toNat else 0 := by
  unfold issued
  cases q.start with
  | none => rfl
  | some head => cases hp : q.phase <;> first | rfl | exact absurd hp (h _)

theorem issued_le : q.issued ≤ q.blocks.toNat := by
  unfold issued
  split
  · exact Nat.zero_le _
  · exact Nat.sub_le _ _
  · exact le_rfl

/-- Outside the issuing loop the number does not depend on the phase. -/
theorem issued_congr {q' : Request} (hs : q'.start = q.start) (hb : q'.blocks = q.blocks)
    (hq : ∀ left, q.phase ≠ .trigger left) (hq' : ∀ left, q'.phase ≠ .trigger left) :
    q'.issued = q.issued := by
  rw [issued_of_ne hq, issued_of_ne hq', hs, hb]

theorem issued_finish (h : ∀ left, q.phase ≠ .trigger left) (result : RpcResult Unit) :
    (q.finish result).issued = q.issued := by
  refine issued_congr rfl rfl h fun left => ?_
  unfold finish
  cases q.timed <;> simp

theorem issuing_finish (h : q.start.isSome → q.blocks ≠ 0) (result : RpcResult Unit) :
    (q.finish result).Issuing := by
  unfold Issuing finish
  cases q.timed <;> exact h

/-- Nothing has been issued when the triggers are about to be. -/
theorem mineBlocks_issuing (h : q.start = none) :
    q.mineBlocks.Issuing ∧ q.mineBlocks.start = none := by
  unfold mineBlocks
  split
  · refine ⟨issuing_finish ?_ _, h⟩
    rw [h]
    nofun
  · rename_i hb
    exact ⟨⟨h, hb⟩, h⟩

theorem arrive_issuing (numBlocks interval : Option U256) :
    (arrive numBlocks interval).Issuing ∧ (arrive numBlocks interval).start = none := by
  unfold arrive
  dsimp only
  split
  · split
    · exact ⟨rfl, rfl⟩
    · exact mineBlocks_issuing rfl
  · exact ⟨rfl, rfl⟩

end Request

/-- The miner comes to the triggers in the order they were issued: those that
were pending at first, then those of the request. -/
structure Queued (pending r : ℕ) (s : Node) : Prop where
  issuing : (s.requests r).Issuing
  unserved : s.unserved = (List.replicate pending none ++
    List.replicate (s.requests r).issued (some r)).drop s.finished
  finished : s.finished ≤ pending + (s.requests r).issued

namespace Queued

variable {pending r : ℕ} {s : Node}

theorem start (time : TimeManager) (head : U64) (pending r : ℕ) :
    Queued pending r (.start time head pending) := by
  refine ⟨rfl, ?_, Nat.zero_le _⟩
  change List.replicate pending none = (List.replicate pending none ++ []).drop 0
  rw [List.append_nil, List.drop_zero]

/-- Every trigger is over, being served or still to be taken. -/
theorem served_add (h : Queued pending r s) :
    s.finished + s.building.toList.length + s.triggers.length =
      pending + (s.requests r).issued := by
  have hlen := congrArg List.length h.unserved
  have hfinished := h.finished
  have hb : (s.building.map Prod.fst).toList.length = s.building.toList.length := by
    cases s.building <;> rfl
  rw [List.length_drop, List.length_append, List.length_replicate, List.length_replicate,
    Node.unserved, List.length_append, hb] at hlen
  omega

/-- A step of the request that issues no trigger. -/
theorem move (h : Queued pending r s) {q : Request} (hq : q.Issuing)
    (hi : q.issued = (s.requests r).issued) (time : TimeManager) (restored : Option ℕ) :
    Queued pending r ({ s with time, restored }.setRequest r q) := by
  refine ⟨?_, ?_, ?_⟩
  · rwa [Node.setRequest_self]
  · rw [Node.setRequest_self, hi]
    exact h.unserved
  · rw [Node.setRequest_self, hi]
    exact h.finished

/-- The request issues its next trigger. -/
theorem trigger (h : Queued pending r s) {left : ℕ}
    (hp : (s.requests r).phase = .trigger (left + 1)) :
    Queued pending r ({ s with triggers := s.triggers ++ [some r] }.setRequest r
      { s.requests r with phase := .trigger left }) := by
  have hissuing := h.issuing
  rw [Request.Issuing, hp] at hissuing
  obtain ⟨hstart, hblocks, hle⟩ := hissuing
  obtain ⟨head, hhead⟩ := Option.isSome_iff_exists.mp hstart
  have hissued : ({ s.requests r with phase := .trigger left } : Request).issued =
      (s.requests r).issued + 1 := by
    simp only [Request.issued, hhead, hp]
    omega
  have hfinished := h.finished
  refine ⟨?_, ?_, ?_⟩
  · rw [Node.setRequest_self]
    exact ⟨hstart, hblocks, Nat.le_of_succ_le hle⟩
  · rw [Node.setRequest_self, hissued, List.replicate_succ', ← List.append_assoc,
      List.drop_append_of_le_length]
    · refine Eq.trans ?_ (congrArg (· ++ [some r]) h.unserved)
      exact (List.append_assoc _ _ _).symm
    · rwa [List.length_append, List.length_replicate, List.length_replicate]
  · rw [Node.setRequest_self, hissued]
    exact Nat.le_succ_of_le hfinished

theorem advance (h : Queued pending r s) (read : ProviderResult U64) :
    Queued pending r (s.advance r read) := by
  have hissuing := h.issuing
  unfold Node.advance
  dsimp only
  split <;> rename_i hp <;> rw [Request.Issuing, hp] at hissuing
  · exact h
  · exact h
  · exact h
  · refine h.move ?_ ?_ s.time s.restored
    · exact hissuing
    · rw [Request.issued_of_none hissuing]
      exact Request.issued_of_none hissuing
  · unfold Node.setInterval
    split
    · obtain ⟨hm, hs⟩ := Request.mineBlocks_issuing hissuing
      refine h.move hm ?_ _ s.restored
      rw [Request.issued_of_none hissuing, Request.issued_of_none hs]
    · refine h.move ?_ ?_ s.time s.restored
      · exact hissuing
      · rw [Request.issued_of_none hissuing]
        exact Request.issued_of_none hissuing
  · obtain ⟨hstart, hblocks⟩ := hissuing
    split
    · refine h.move (Request.issuing_finish (fun _ => hblocks) _) ?_ s.time s.restored
      exact Request.issued_finish (by simp [hp]) _
    · refine h.move ?_ ?_ s.time s.restored
      · exact ⟨rfl, hblocks, le_rfl⟩
      · rw [Request.issued_of_none hstart]
        exact Nat.sub_self _
  · obtain ⟨hstart, hblocks, -⟩ := hissuing
    refine h.move ?_ ?_ s.time s.restored
    · exact ⟨hstart, hblocks⟩
    · simp only [Request.issued, hp]
      cases (s.requests r).start <;> rfl
  · exact h.trigger hp
  · obtain ⟨hstart, hblocks⟩ := hissuing
    refine h.move (Request.issuing_finish (fun _ => hblocks) _) ?_ s.time s.restored
    exact Request.issued_finish (by simp [hp]) _
  · obtain ⟨hstart, hblocks⟩ := hissuing
    have hfinish : ∀ result, Queued pending r (s.setRequest r ((s.requests r).finish result)) := by
      intro result
      refine h.move (Request.issuing_finish (fun _ => hblocks) _) ?_ s.time s.restored
      exact Request.issued_finish (by simp [hp]) _
    unfold Request.pollHead
    split
    · exact hfinish _
    · split
      · exact hfinish _
      · refine h.move ?_ ?_ s.time s.restored
        · exact ⟨hstart, hblocks⟩
        · exact Request.issued_congr rfl rfl (by simp [hp]) fun _ => nofun
  · refine h.move ?_ ?_ _ (some r)
    · exact hissuing
    · exact Request.issued_congr rfl rfl (by simp [hp]) fun _ => nofun

/-- The miner is done with the trigger it has taken. -/
theorem finish (h : Queued pending r s) {block : Option ℕ × U64} (hb : s.building = some block)
    {t : Node} (hq : t.requests = s.requests) (hbuilding : t.building = none)
    (ht : t.triggers = s.triggers) (hf : t.finished = s.finished + 1) : Queued pending r t := by
  have hunserved := h.unserved
  have hs : s.unserved = block.1 :: t.unserved := by
    rw [Node.unserved, Node.unserved, hb, hbuilding, ht]
    rfl
  rw [hs] at hunserved
  refine ⟨hq ▸ h.issuing, ?_, ?_⟩
  · rw [hq, hf, ← List.drop_drop, ← hunserved]
    rfl
  · have hlen := congrArg List.length hunserved
    simp only [List.length_cons, List.length_drop, List.length_append,
      List.length_replicate] at hlen
    rw [hq, hf]
    omega

theorem serve (h : Queued pending r s) (now : U64) : Queued pending r (s.serve now) := by
  unfold Node.serve
  split
  · rename_i issuer triggers hb ht
    refine ⟨h.issuing, Eq.trans ?_ h.unserved, h.finished⟩
    simp only [Node.unserved, hb, ht]
    rfl
  · exact h

end Queued

/-- The events of a node where one request runs and nobody else issues triggers. -/
def Event.By (r : ℕ) : Event → Prop
  | .mine r' _ _ | .step r' _ => r' = r
  | .trigger => False
  | .serve _ | .finishBlock | .failBlock => True

theorem Queued.step {pending r : ℕ} {s : Node} (h : Queued pending r s) (e : Event)
    (he : e.By r) : Queued pending r (s.step e) := by
  cases e with
  | mine r' numBlocks interval =>
    obtain rfl : r' = r := he
    simp only [Node.step]
    split
    · rename_i hp
      have hstart := h.issuing
      rw [Request.Issuing, hp] at hstart
      obtain ⟨hm, hs⟩ := Request.arrive_issuing numBlocks interval
      refine h.move hm ?_ s.time s.restored
      rw [Request.issued_of_none hstart, Request.issued_of_none hs]
    · exact h
  | step r' read =>
    obtain rfl : r' = r := he
    exact h.advance read
  | trigger => exact he.elim
  | serve now => exact h.serve now
  | finishBlock =>
    simp only [Node.step, Node.finishBlock]
    split
    · rename_i hb
      exact h.finish hb rfl rfl rfl rfl
    · exact h
  | failBlock =>
    simp only [Node.step, Node.failBlock]
    split
    · rename_i hb
      exact h.finish hb rfl rfl rfl rfl
    · exact h

theorem mem_drop_queue {pending n r finished : ℕ} (hn : n ≠ 0) :
    some r ∈ (List.replicate pending none ++ List.replicate n (some r)).drop finished ↔
      finished < pending + n := by
  rw [List.drop_append, List.drop_replicate, List.drop_replicate, List.length_replicate,
    List.mem_append, List.mem_replicate, List.mem_replicate]
  simp only [reduceCtorEq, and_false, and_true, false_or]
  omega

/-- When a request has failed, none of its triggers is unserved exactly if it
could not read the head number at first, and so issued none, or the miner was
done with all that had been pending and with as many as the request has blocks. -/
theorem no_leftover_iff (time : TimeManager) (head : U64) (pending r : ℕ) (es : List Event)
    (hes : ∀ e ∈ es, e.By r) {error : RpcError}
    (hfail : ((Transition.run Node.step (.start time head pending) es).requests r).phase =
      .returned (.error error)) :
    let s := Transition.run Node.step (.start time head pending) es
    some r ∉ s.unserved ↔
      (s.requests r).start = none ∨ pending + (s.requests r).blocks.toNat ≤ s.finished := by
  intro s
  have hq : Queued pending r s := by
    refine (Transition.always_of_each (Queued.start time head pending r)
      (fun s e h he => h.step e he) ?_).last
    exact fun pre e hp => hes e (hp.subset (List.mem_append_right _ (List.mem_singleton_self e)))
  have hfail' : (s.requests r).phase = .returned (.error error) := hfail
  rw [hq.unserved]
  cases hs : (s.requests r).start with
  | none =>
    rw [Request.issued_of_none hs]
    refine iff_of_true (fun hm => ?_) (Or.inl rfl)
    have hmem := List.mem_of_mem_drop hm
    rw [List.replicate_zero, List.append_nil] at hmem
    exact absurd (List.eq_of_mem_replicate hmem) (by simp)
  | some start =>
    have hissued : (s.requests r).issued = (s.requests r).blocks.toNat := by
      rw [Request.issued, hs, hfail']
    have hissuing := hq.issuing
    rw [Request.Issuing, hfail', hs] at hissuing
    have hne : (s.requests r).blocks.toNat ≠ 0 := by
      intro h0
      exact hissuing rfl (BitVec.eq_of_toNat_eq h0)
    rw [hissued, mem_drop_queue hne, Nat.not_lt]
    simp only [reduceCtorEq, false_or]

/-- A request for one block whose first look at the head number fails. -/
theorem no_leftover_iff_unread :
    some 0 ∉ (Transition.run Node.step (.start (.new 1000 1000) 0 1)
      [.mine 0 none none, .step 0 (.error "unavailable")]).unserved := by
  refine (no_leftover_iff (.new 1000 1000) 0 1 0 _ ?_ rfl).mpr (Or.inl rfl)
  intro e he
  simp only [List.mem_cons, List.not_mem_nil, or_false] at he
  rcases he with rfl | rfl <;> rfl

/-- A request for one block that fails while it waits leaves its trigger behind. -/
theorem trigger_left_behind :
    ¬ ∀ (time : TimeManager) (head : U64) (pending r : ℕ) (es : List Event) (error : RpcError),
      (∀ e ∈ es, e.By r) →
      let s := Transition.run Node.step (.start time head pending) es
      (s.requests r).phase = .returned (.error error) → some r ∉ s.unserved := by
  intro h
  have hleft := h (.new 1000 1000) 0 0 0
    [.mine 0 none none, .step 0 (.ok 0), .step 0 (.ok 0), .step 0 (.ok 0),
      .step 0 (.error "unavailable")] _ ?_ rfl
  · exact hleft (by decide)
  · intro e he
    simp only [List.mem_cons, List.not_mem_nil, or_false] at he
    rcases he with rfl | rfl | rfl | rfl | rfl <;> rfl

end Mining

end AnvilReth
