import AnvilReth.Mining.Spacing
import AnvilReth.Mining.Triggers
import AnvilReth.Transition.Simulation
import AnvilReth.Transition.Tally

/-! # The miner on the trigger stream

The miner takes its triggers from the stream, which it only polls between two
blocks. A node that works with a queue of triggers is what is seen of a node that
works with the counter and the notifier.
-/

namespace AnvilReth

namespace Mining

/-- The step issues a trigger. -/
def Event.adds (s : Node) : Event → Bool
  | .trigger => true
  | .step r _ =>
    match (s.requests r).phase with
    | .trigger (_ + 1) => true
    | _ => false
  | _ => false

def Event.isServe : Event → Bool
  | .serve _ => true
  | _ => false

namespace Node

variable {s : Node} {e : Event}

theorem queue_of_not_adds (he : e.adds s = false) (hs : e.isServe = false) :
    (s.step e).triggers = s.triggers ∧ (s.step e).taken = s.taken := by
  cases e with
  | mine r numBlocks interval =>
    simp only [step]
    split <;> exact ⟨rfl, rfl⟩
  | step r read =>
    simp only [step]
    unfold advance
    dsimp only
    split <;> rename_i hp
    · exact ⟨rfl, rfl⟩
    · exact ⟨rfl, rfl⟩
    · exact ⟨rfl, rfl⟩
    · exact ⟨rfl, rfl⟩
    · unfold setInterval
      split <;> exact ⟨rfl, rfl⟩
    · split <;> exact ⟨rfl, rfl⟩
    · exact ⟨rfl, rfl⟩
    · simp [Event.adds, hp] at he
    all_goals exact ⟨rfl, rfl⟩
  | trigger => cases he
  | serve now => cases hs
  | finishBlock =>
    simp only [step, finishBlock]
    split
    · rename_i hb
      simp [taken, hb]
    · exact ⟨rfl, rfl⟩
  | failBlock =>
    simp only [step, failBlock]
    split
    · rename_i hb
      simp [taken, hb]
    · exact ⟨rfl, rfl⟩

theorem queue_of_adds (he : e.adds s = true) :
    (s.step e).triggers.length = s.triggers.length + 1 ∧ (s.step e).taken = s.taken := by
  unfold Event.adds at he
  split at he
  · exact ⟨List.length_append, rfl⟩
  · rename_i r read
    split at he
    · rename_i left hp
      simp only [step, advance, hp]
      exact ⟨List.length_append, rfl⟩
    · cases he
  · cases he

theorem queue_of_serve {issuer : Option ℕ} {triggers : List (Option ℕ)} (hb : s.building = none)
    (ht : s.triggers = issuer :: triggers) (now : U64) :
    (s.serve now).triggers = triggers ∧ (s.serve now).taken = s.taken + 1 := by
  simp [serve, taken, hb, ht]

theorem length_triggers_serve (s : Node) (now : U64) :
    (s.serve now).triggers.length ≤ s.triggers.length := by
  unfold serve
  split
  · rename_i ht
    rw [ht]
    exact Nat.le_succ _
  · exact le_rfl

end Node

namespace Stream

/-- The node, and the counter and the notifier its triggers go through. -/
structure State where
  triggers : MiningTriggers.State
  node : Node

/-- A step that has nothing to do with triggers, the two steps of a call to `trigger`,
of which the first is a step of whoever makes the call, or a step of the stream. -/
inductive Event where
  | node (e : Mining.Event)
  | fetchAdd (t : ℕ) (e : Mining.Event)
  | notifyOne (t : ℕ)
  | pollNext (now : U64)

def Event.isFetchAdd : Event → Bool
  | .fetchAdd _ _ => true
  | _ => false

namespace State

def start (time : TimeManager) (head : U64) : State := ⟨.start, .start time head 0⟩

variable (s : State)

/-- The next step of the stream delivers an item. -/
def delivers : Bool :=
  match s.triggers.stream with
  | .compareExchange pending => s.triggers.pending = pending
  | _ => false

/-- The miner polls the stream again as soon as it has nothing to build. -/
def pollNext (now : U64) : State :=
  match s.node.building with
  | some _ => s
  | none =>
    { triggers := s.triggers.pollNext
      node := if s.delivers then s.node.serve now else s.node }

def step (s : State) : Event → State
  | .node e => if e.adds s.node || e.isServe then s else { s with node := s.node.step e }
  | .fetchAdd t e =>
    if e.adds s.node && s.triggers.calls t = .fetchAdd then
      { triggers := s.triggers.trigger t, node := s.node.step e }
    else s
  | .notifyOne t =>
    if s.triggers.calls t = .notifyOne then { s with triggers := s.triggers.trigger t } else s
  | .pollNext now => s.pollNext now

/-- What the node does in a step. -/
def steps (s : State) : Event → List Mining.Event
  | .node e => if e.adds s.node || e.isServe then [] else [e]
  | .fetchAdd t e => if e.adds s.node && s.triggers.calls t = .fetchAdd then [e] else []
  | .notifyOne _ => []
  | .pollNext now =>
    match s.node.building with
    | some _ => []
    | none => if s.delivers then [.serve now] else []

end State

/-- The node works as if it had a queue. -/
theorem projects_node : Transition.Projects State.step Node.step State.node State.steps := by
  intro s e
  cases e with
  | node e =>
    simp only [State.step, State.steps]
    split <;> rfl
  | fetchAdd t e =>
    simp only [State.step, State.steps]
    split <;> rfl
  | notifyOne t =>
    simp only [State.step]
    split <;> rfl
  | pollNext now =>
    simp only [State.step, State.pollNext, State.steps]
    cases s.node.building with
    | some block => rfl
    | none => cases s.delivers <;> rfl

/-- The counter counts the queue of the node, and what was delivered has been taken. -/
structure Coupled (s : State) : Prop where
  sound : MiningTriggers.Invariant s.triggers
  pending : s.triggers.pending.toNat = s.node.triggers.length
  delivered : s.triggers.delivered = s.node.taken

namespace Coupled

variable {s : State}

theorem start (time : TimeManager) (head : U64) : Coupled (.start time head) :=
  ⟨.start, rfl, rfl⟩

/-- An item that is delivered is one of the queue. -/
theorem pollNext (h : Coupled s) (now : U64) : Coupled (s.pollNext now) := by
  unfold State.pollNext
  cases hb : s.node.building with
  | some block => exact h
  | none =>
    let node := if s.delivers then s.node.serve now else s.node
    suffices hcounts : s.triggers.pollNext.pending.toNat = node.triggers.length ∧
        s.triggers.pollNext.delivered = node.taken from
      ⟨h.sound.pollNext, hcounts.1, hcounts.2⟩
    unfold node State.delivers MiningTriggers.State.pollNext
    cases hs : s.triggers.stream with
    | compareExchange n =>
      have hpos : 0 < n := h.sound.loaded n hs
      dsimp only
      by_cases heq : s.triggers.pending = n
      · have hlen := h.pending
        rw [heq] at hlen
        have hsub : (n - 1).toNat + 1 = n.toNat := by bv_omega
        cases ht : s.node.triggers with
        | nil =>
          rw [ht, List.length_nil] at hlen
          omega
        | cons issuer triggers =>
          rw [ht, List.length_cons] at hlen
          obtain ⟨hqueue, htaken⟩ := Node.queue_of_serve hb ht now
          simp only [heq, if_true, decide_true, hqueue, htaken, h.delivered, and_true]
          omega
      · simp only [heq, if_false, decide_false, Bool.false_eq_true]
        exact ⟨h.pending, h.delivered⟩
    | poll =>
      dsimp only
      split <;> exact ⟨h.pending, h.delivered⟩
    | unpolled | load | create | returned result => exact ⟨h.pending, h.delivered⟩

theorem step (h : Coupled s) (e : Event)
    (hroom : e.isFetchAdd = true → s.node.triggers.length + 1 < 2 ^ 64) : Coupled (s.step e) := by
  cases e with
  | node e =>
    simp only [State.step]
    split
    · exact h
    · rename_i he
      rw [Bool.not_eq_true, Bool.or_eq_false_iff] at he
      obtain ⟨hqueue, htaken⟩ := Node.queue_of_not_adds he.1 he.2
      exact ⟨h.sound, h.pending.trans (congrArg List.length hqueue).symm,
        h.delivered.trans htaken.symm⟩
  | fetchAdd t e =>
    simp only [State.step]
    split
    · rename_i he
      rw [Bool.and_eq_true, decide_eq_true_iff] at he
      obtain ⟨hadds, hcall⟩ := he
      obtain ⟨hqueue, htaken⟩ := Node.queue_of_adds hadds
      have hroom := hroom rfl
      refine ⟨h.sound.trigger t fun _ => h.pending ▸ hroom, ?_, ?_⟩
      · rw [MiningTriggers.State.trigger, hcall, hqueue, ← h.pending]
        change (s.triggers.pending + 1).toNat = _
        rw [BitVec.toNat_add]
        exact Nat.mod_eq_of_lt (h.pending ▸ hroom)
      · rw [MiningTriggers.State.trigger, hcall, htaken]
        exact h.delivered
    · exact h
  | notifyOne t =>
    simp only [State.step]
    split
    · rename_i hcall
      have hnot : s.triggers.calls t ≠ .fetchAdd := by simp [hcall]
      refine ⟨h.sound.trigger t fun hf => absurd hf hnot, ?_, ?_⟩
      · rw [MiningTriggers.State.trigger, hcall]
        exact h.pending
      · rw [MiningTriggers.State.trigger, hcall]
        exact h.delivered
    · exact h
  | pollNext now => exact h.pollNext now

end Coupled

/-- No step adds more than one trigger. -/
theorem length_triggers_step (s : State) (e : Event) :
    (s.step e).node.triggers.length ≤ s.node.triggers.length + 1 := by
  cases e with
  | node e =>
    simp only [State.step]
    split
    · exact Nat.le_succ _
    · rename_i he
      rw [Bool.not_eq_true, Bool.or_eq_false_iff] at he
      rw [(Node.queue_of_not_adds he.1 he.2).1]
      exact Nat.le_succ _
  | fetchAdd t e =>
    simp only [State.step]
    split
    · rename_i he
      rw [Bool.and_eq_true] at he
      exact (Node.queue_of_adds he.1).1.le
    · exact Nat.le_succ _
  | notifyOne t =>
    simp only [State.step]
    split <;> exact Nat.le_succ _
  | pollNext now =>
    simp only [State.step, State.pollNext]
    cases s.node.building with
    | some block => exact Nat.le_succ _
    | none =>
      dsimp only
      split
      · exact (Node.length_triggers_serve s.node now).trans (Nat.le_succ _)
      · exact Nat.le_succ _

/-- A run with fewer steps than the counter can count keeps the two sides together. -/
theorem coupled_run (time : TimeManager) (head : U64) {es : List Event} (hes : es.length < 2 ^ 64) :
    Coupled (Transition.run State.step (.start time head) es) := by
  have hroom : Transition.Each State.step
      (fun s _ => s.node.triggers.length + 1 < 2 ^ 64) (.start time head) es := by
    intro pre e hp
    have hle : (Transition.run State.step (.start time head) pre).node.triggers.length ≤
        0 + Transition.tally State.step (fun _ _ => if true then 1 else 0) (.start time head) pre :=
      Transition.run_le_tally (φ := fun s : State => s.node.triggers.length)
        length_triggers_step
    have htally : Transition.tally State.step (fun _ _ => if true then 1 else 0)
        (.start time head) pre = pre.countP fun _ => true := Transition.tally_countP
    have hlen := hp.length_le
    rw [htally, List.countP_true] at hle
    rw [List.length_append, List.length_singleton] at hlen
    omega
  exact (Transition.always_of_each (Coupled.start time head)
    (fun s e h hr => h.step e fun _ => hr) hroom).last

/-- A node that takes its triggers from the stream does what one with a queue does:
the counter counts the queue, and every item that the stream delivers is a trigger that
was issued. The stream does not sleep over a trigger unless some call is about to
wake it. -/
theorem stream_refines (time : TimeManager) (head : U64) (es : List Event)
    (hes : es.length < 2 ^ 64) :
    let s := Transition.run State.step (.start time head) es
    s.node = Transition.run Node.step (.start time head 0)
      (Transition.trace State.step State.steps (.start time head) es) ∧
    s.triggers.pending.toNat = s.node.triggers.length ∧
    s.triggers.delivered = s.node.taken ∧
    (s.triggers.stream = .returned .pending → s.node.triggers ≠ [] →
      s.triggers.notify.future = some .notified ∨ ∃ t, s.triggers.calls t = .notifyOne) := by
  intro s
  have h : Coupled s := coupled_run time head hes
  refine ⟨projects_node.run_eq, h.pending, h.delivered, fun hsleeps hne => ?_⟩
  have hpos : 0 < s.triggers.pending := by
    rw [BitVec.lt_def, h.pending]
    exact List.length_pos_of_ne_nil hne
  exact (MiningTriggers.delivers_of_invariant h.sound).2.2 hsleeps hpos

/-- Two triggers of another party, of which the stream takes the second after a block. -/
def twoTriggers : List Event :=
  [.fetchAdd 0 .trigger, .notifyOne 0, .fetchAdd 1 .trigger, .pollNext 1000, .pollNext 1000]

theorem stream_refines_twoTriggers :
    (Transition.run State.step (.start (.new 1000 1000) 0)
      (twoTriggers ++ [.pollNext 1000])).node.triggers.length = 1 := by
  have h := stream_refines (.new 1000 1000) 0 (twoTriggers ++ [.pollNext 1000]) (by decide)
  obtain ⟨-, hpending, -⟩ := h
  exact hpending.symm

section Drain

/-- A step of the stream while nothing is built. -/
def Event.idlePoll (s : State) : Event → ℕ
  | .pollNext _ => if s.node.building.isNone then 1 else 0
  | _ => 0

/-- How many steps of the stream lead to the next item but one. -/
def awaits (s : MiningTriggers.State) : ℕ :=
  match s.stream with
  | .compareExchange pending => if s.pending = pending then 0 else 2
  | .load => 1
  | .unpolled | .returned _ => 2
  | .poll => 3
  | .create => 4

/-- Three steps for each trigger, and those to the next item. -/
def State.toDrain (s : State) : ℕ :=
  match s.node.triggers with
  | [] => 0
  | _ :: triggers => 3 * triggers.length + awaits s.triggers

/-- A step of the stream over a positive counter delivers an item or brings it nearer. -/
theorem awaits_pollNext {s : State} (hd : s.delivers = false) (hpos : 0 < s.triggers.pending) :
    awaits s.triggers.pollNext + 1 ≤ awaits s.triggers := by
  unfold State.delivers at hd
  unfold MiningTriggers.State.pollNext awaits
  cases hs : s.triggers.stream with
  | unpolled | returned result => exact le_rfl
  | load =>
    dsimp only
    rw [if_pos hpos]
    simp
  | compareExchange n =>
    rw [hs] at hd
    have hne : ¬ s.triggers.pending = n := of_decide_eq_false hd
    simp [hne]
  | create => exact le_rfl
  | poll =>
    cases hp : s.triggers.notify.poll with
    | mk result notify =>
      cases result with
      | ready => exact Nat.le_succ 2
      | pending => exact le_rfl

theorem awaits_of_delivers {s : State} (hd : s.delivers = true) :
    awaits s.triggers.pollNext = 2 := by
  unfold State.delivers at hd
  split at hd
  · rename_i n hs
    have heq : s.triggers.pending = n := of_decide_eq_true hd
    simp only [MiningTriggers.State.pollNext, hs, heq, if_true]
    rfl
  · cases hd

theorem pollNext_of_idle {s : State} (hb : s.node.building = none) (now : U64) :
    s.pollNext now =
      ⟨s.triggers.pollNext, if s.delivers then s.node.serve now else s.node⟩ := by
  rw [State.pollNext, hb]

/-- A poll brings a longer queue nearer to its end. -/
theorem toDrain_pollNext {s : State} (h : Coupled s) (hb : s.node.building = none)
    (hne : s.node.triggers ≠ []) (now : U64) :
    (s.pollNext now).toDrain + 1 ≤ s.toDrain ∨ (s.pollNext now).node.triggers = [] := by
  obtain ⟨issuer, triggers, ht⟩ := List.exists_cons_of_ne_nil hne
  have hpos : 0 < s.triggers.pending := by
    rw [BitVec.lt_def, h.pending, ht]
    exact Nat.succ_pos _
  rw [pollNext_of_idle hb]
  cases hd : s.delivers with
  | true =>
    obtain ⟨hqueue, -⟩ := Node.queue_of_serve hb ht now
    cases triggers with
    | nil => exact Or.inr hqueue
    | cons issuer' triggers =>
      left
      simp only [State.toDrain, if_true, hqueue, ht, awaits_of_delivers hd, List.length_cons]
      omega
  | false =>
    left
    have hawaits := awaits_pollNext hd hpos
    simp only [State.toDrain, Bool.false_eq_true, if_false, ht]
    omega

/-- As long as nobody adds a trigger, an empty queue stays empty and every step of the
idle stream brings a longer one nearer to its end. -/
theorem toDrain_step {s : State} (h : Coupled s) {e : Event} (he : e.isFetchAdd = false) :
    (s.node.triggers = [] → (s.step e).node.triggers = []) ∧
      (s.node.triggers ≠ [] →
        (s.step e).toDrain + e.idlePoll s ≤ s.toDrain ∨ (s.step e).node.triggers = []) := by
  cases e with
  | node e =>
    simp only [State.step]
    split
    · exact ⟨id, fun _ => Or.inl le_rfl⟩
    · rename_i he
      rw [Bool.not_eq_true, Bool.or_eq_false_iff] at he
      obtain ⟨hqueue, -⟩ := Node.queue_of_not_adds he.1 he.2
      refine ⟨hqueue.trans, fun _ => Or.inl ?_⟩
      simp only [State.toDrain, hqueue, Event.idlePoll]
      exact le_rfl
  | fetchAdd t e => cases he
  | notifyOne t =>
    simp only [State.step]
    split
    · rename_i hcall
      refine ⟨id, fun _ => Or.inl ?_⟩
      simp only [State.toDrain, MiningTriggers.State.trigger, hcall, Event.idlePoll]
      exact le_rfl
    · exact ⟨id, fun _ => Or.inl le_rfl⟩
  | pollNext now =>
    simp only [State.step, Event.idlePoll]
    cases hb : s.node.building with
    | some block =>
      simp only [State.pollNext, hb]
      exact ⟨id, fun _ => Or.inl le_rfl⟩
    | none =>
      refine ⟨fun hnil => ?_, fun hne => toDrain_pollNext h hb hne now⟩
      have hle := Node.length_triggers_serve s.node now
      rw [hnil, List.length_nil] at hle
      rw [pollNext_of_idle hb]
      dsimp only
      split
      · exact List.eq_nil_of_length_eq_zero (Nat.le_zero.mp hle)
      · exact hnil

/-- Once nobody adds triggers any more, the miner has taken all of them as soon as it has
polled the stream three times for each of them, and twice more, between its blocks. -/
theorem stream_drains (time : TimeManager) (head : U64) (es ds : List Event)
    (hes : es.length < 2 ^ 64) (hds : ∀ e ∈ ds, e.isFetchAdd = false) :
    let s := Transition.run State.step (.start time head) es
    3 * s.node.triggers.length + 2 ≤ Transition.tally State.step (fun s e => e.idlePoll s) s ds →
      (Transition.run State.step s ds).node.triggers = [] := by
  intro s htally
  have hstep : ∀ (s : State) e, Coupled s → e.isFetchAdd = false → Coupled (s.step e) := by
    intro s e h he
    refine h.step e fun hadd => ?_
    rw [he] at hadd
    cases hadd
  refine Transition.done_of_tally (P := Coupled) (C := fun _ e => e.isFetchAdd = false)
    (fun s : State => s.node.triggers = []) State.toDrain (coupled_run time head hes) hstep
    (fun s e h he => (toDrain_step h he).1) (fun s e h he => (toDrain_step h he).2) ?_
    (lt_of_lt_of_le ?_ htally)
  · exact fun pre e hp =>
      hds e (hp.subset (List.mem_append_right _ (List.mem_singleton_self e)))
  · have hawaits : awaits s.triggers ≤ 4 := by
      unfold awaits
      split
      · split <;> omega
      all_goals omega
    unfold State.toDrain
    split
    · omega
    · rename_i ht
      rw [ht, List.length_cons]
      omega

theorem stream_drains_twoTriggers :
    (Transition.run State.step (Transition.run State.step (.start (.new 1000 1000) 0) twoTriggers)
      ([.pollNext 1000, .node .finishBlock] ++ List.replicate 3 (.pollNext 1000) ++
        .node .finishBlock :: List.replicate 4 (.pollNext 1000))).node.triggers = [] := by
  refine stream_drains (.new 1000 1000) 0 twoTriggers _ (by decide) ?_ (by decide)
  intro e he
  simp only [List.mem_append, List.mem_cons, List.not_mem_nil, or_false] at he
  rcases he with ((rfl | rfl) | he) | rfl | he
  · rfl
  · rfl
  · rw [List.eq_of_mem_replicate he]
    rfl
  · rfl
  · rw [List.eq_of_mem_replicate he]
    rfl

end Drain

end Stream

end Mining

end AnvilReth
