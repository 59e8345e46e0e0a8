import Mathlib.Data.Fin.VecNotation
import AnvilReth.Sync.Cells
import AnvilReth.Time.Log

/-! # The locks of the time manager

Each cell of the manager has a lock of its own, taken and released for every
look and every write, so concurrent calls interleave at these accesses. Where
no call comes both before and after another by conflicting accesses, the
answers and the final cells are those of a serial execution.
-/

namespace AnvilReth

open Saturating Sync

namespace TimeLog

inductive Cell where
  | last
  | exact
  | interval
  | offset
  deriving DecidableEq

abbrev Cell.Value : Cell → Type
  | last => U64
  | exact => Option U64
  | interval => Option U64
  | offset => I128

instance (c : Cell) : DecidableEq c.Value :=
  match c with
  | .last => inferInstanceAs (DecidableEq U64)
  | .exact => inferInstanceAs (DecidableEq (Option U64))
  | .interval => inferInstanceAs (DecidableEq (Option U64))
  | .offset => inferInstanceAs (DecidableEq I128)

/-- The contents of the cells. -/
def cells (m : TimeManager) : (c : Cell) → c.Value
  | .last => m.lastTimestamp
  | .exact => m.nextExactTimestamp
  | .interval => m.interval
  | .offset => m.offset

/-- The looks of `compute_next_timestamp`, where it finds the values of the view. -/
def computeLooks (view : TimeManager) : List (Access Cell.Value) :=
  .look .last view.lastTimestamp :: .look .exact view.nextExactTimestamp ::
    match view.nextExactTimestamp with
    | some _ => []
    | none => .look .interval view.interval ::
      match view.interval with
      | some _ => []
      | none => [.look .offset view.offset]

/-- The accesses of a call that finds the values of the view in the cells it
looks at, in their order. -/
def Call.accesses (view : TimeManager) (now : U64) : Call → List (Access Cell.Value)
  | increaseTime seconds => [.swap .offset view.offset (view.increaseTime seconds).1]
  | setTime timestamp =>
    [.put .last timestamp, .put .offset (Signed.diff (by decide) timestamp now), .put .exact none]
  | setNextBlockTimestamp timestamp =>
    .look .last view.lastTimestamp ::
      if timestamp < view.lastTimestamp then [] else [.put .exact (some timestamp)]
  | setBlockTimestampInterval interval => [.put .interval (some interval)]
  | removeBlockTimestampInterval => [.swap .interval view.interval none]
  | currentCallTimestamp => computeLooks view
  | nextTimestamp =>
    let (next, nextOffset) := view.computeNextTimestamp now
    computeLooks view ++
      (.put .exact none :: (nextOffset.toList.map (Access.put Cell.offset) ++ [.put .last next]))

variable {n : ℕ} {view m : TimeManager} {now : U64} {i : Fin n} {s : (c : Cell) → c.Value}

theorem path_computeLooks
    (h : Transition.path Access.step (cells m) ((computeLooks view).map (i, ·)) = some s)
    (now : U64) : s = cells m ∧ view.computeNextTimestamp now = m.computeNextTimestamp now := by
  simp only [computeLooks, List.map_cons, Access.path_look] at h
  obtain ⟨hl, he, h⟩ := h
  simp only [cells] at hl he
  unfold TimeManager.computeNextTimestamp TimeManager.regularTimestamp TimeManager.bumped
  rw [he, hl]
  cases hx : view.nextExactTimestamp with
  | some t =>
    rw [hx] at h
    exact ⟨(Option.some.inj h).symm, rfl⟩
  | none =>
    simp only [hx, List.map_cons, Access.path_look] at h
    obtain ⟨hi, h⟩ := h
    simp only [cells] at hi
    rw [hi]
    cases hv : view.interval with
    | some i =>
      rw [hv] at h
      exact ⟨(Option.some.inj h).symm, rfl⟩
    | none =>
      simp only [hv, List.map_cons, List.map_nil, Access.path_look] at h
      obtain ⟨ho, h⟩ := h
      simp only [cells] at ho
      rw [ho]
      exact ⟨(Option.some.inj h).symm, rfl⟩

/-- The accesses of a call made in a row do what the call does at once. -/
theorem path_accesses {call : Call}
    (h : Transition.path Access.step (cells m) ((call.accesses view now).map (i, ·)) = some s) :
    (call.perform view now).1 = (call.perform m now).1 ∧ s = cells (call.perform m now).2 := by
  cases call with
  | increaseTime seconds =>
    simp only [Call.accesses, List.map_cons, List.map_nil, Access.path_swap] at h
    obtain ⟨ho, h⟩ := h
    obtain rfl := Option.some.inj h
    have hv : (view.increaseTime seconds).1 = (m.increaseTime seconds).1 := by
      simp only [cells] at ho
      simp only [TimeManager.increaseTime, TimeManager.addOffset, ho]
    refine ⟨congrArg Answer.offset hv, ?_⟩
    rw [hv]
    funext c
    cases c <;> rfl
  | setTime timestamp =>
    simp only [Call.accesses, List.map_cons, List.map_nil, Access.path_put] at h
    obtain rfl := Option.some.inj h
    refine ⟨rfl, ?_⟩
    funext c
    cases c <;> rfl
  | setNextBlockTimestamp timestamp =>
    simp only [Call.accesses, List.map_cons, Access.path_look] at h
    obtain ⟨hl, h⟩ := h
    simp only [cells] at hl
    simp only [Call.perform, TimeManager.setNextBlockTimestamp, hl]
    split at h
    · rename_i hlt
      obtain rfl := Option.some.inj h
      simp only [if_pos hlt, and_self]
    · rename_i hlt
      simp only [List.map_cons, List.map_nil, Access.path_put] at h
      obtain rfl := Option.some.inj h
      simp only [if_neg hlt, true_and]
      funext c
      cases c <;> first | rfl | exact hl
  | setBlockTimestampInterval interval =>
    simp only [Call.accesses, List.map_cons, List.map_nil, Access.path_put] at h
    obtain rfl := Option.some.inj h
    refine ⟨rfl, ?_⟩
    funext c
    cases c <;> rfl
  | removeBlockTimestampInterval =>
    simp only [Call.accesses, List.map_cons, List.map_nil, Access.path_swap] at h
    obtain ⟨hi, h⟩ := h
    obtain rfl := Option.some.inj h
    simp only [cells] at hi
    constructor
    · simp only [Call.perform, TimeManager.removeBlockTimestampInterval, hi]
    · funext c
      cases c <;> rfl
  | currentCallTimestamp =>
    obtain ⟨rfl, hv⟩ := path_computeLooks h now
    refine ⟨?_, rfl⟩
    simp only [Call.perform, TimeManager.currentCallTimestamp, hv]
  | nextTimestamp =>
    simp only [Call.accesses, List.map_append, List.map_cons] at h
    obtain ⟨s₁, hs, h⟩ := Transition.path_append_iff.mp h
    obtain ⟨rfl, hv⟩ := path_computeLooks hs now
    rw [hv] at h
    simp only [Call.perform, TimeManager.nextTimestamp, hv, true_and]
    cases ho : (m.computeNextTimestamp now).2 with
    | none =>
      simp only [ho, Option.toList_none, List.map_nil, List.nil_append, Access.path_put] at h
      obtain rfl := Option.some.inj h
      funext c
      cases c <;> rfl
    | some offset =>
      simp only [ho, Option.toList_some, List.map_cons, List.map_nil, List.cons_append,
        List.nil_append, Access.path_put] at h
      obtain rfl := Option.some.inj h
      funext c
      cases c <;> rfl

/-- Concurrent calls with what they found, and their accesses as they interleave. -/
structure Interleaving (n : ℕ) where
  calls : Fin n → U64 × Call
  views : Fin n → TimeManager
  accesses : List (Fin n × Access Cell.Value)
  /-- Every call runs to its end. -/
  complete : ∀ i, Transition.eventsOf Prod.fst accesses i =
    ((calls i).2.accesses (views i) (calls i).1).map (i, ·)

namespace Interleaving

/-- What a call returned. -/
def answer (o : Interleaving n) (i : Fin n) : Answer :=
  ((o.calls i).2.perform (o.views i) (o.calls i).1).1

def entry (o : Interleaving n) (i : Fin n) : Entry :=
  ⟨(o.calls i).1, (o.calls i).2, o.answer i⟩

/-- A call made an access before a conflicting one of another call. -/
abbrev Before (o : Interleaving n) : Fin n → Fin n → Prop :=
  Transition.Precedes Prod.fst (fun a b => Access.Conflict a.2 b.2) o.accesses

/-- What becomes of an accepted exact timestamp: the next block, set or
`set_time` after it uses, replaces or clears it, or it is still to come. -/
def Settled (o : Interleaving n) (t : U64) (after : List (Fin n)) (final : TimeManager) : Prop :=
  match after.find? fun j => (o.entry j).exact.isSome with
  | some j =>
    ((o.calls j).2 = .nextTimestamp ∧ o.answer j = .timestamp t) ∨
      (∃ t', (o.calls j).2 = .setNextBlockTimestamp t' ∧ o.answer j = .accepted) ∨
      ∃ t', (o.calls j).2 = .setTime t'
  | none => final.nextExactTimestamp = some t

end Interleaving

/-- Calls one after the other, and their answers. -/
def serially (calls : Fin n → U64 × Call) (m : TimeManager) :
    List (Fin n) → List Answer × TimeManager
  | [] => ([], m)
  | i :: order =>
    let (answer, m) := (calls i).2.perform m (calls i).1
    let (answers, m) := serially calls m order
    (answer :: answers, m)

theorem serially_cons (calls : Fin n → U64 × Call) (i : Fin n) (order : List (Fin n)) :
    serially calls m (i :: order) =
      (((calls i).2.perform m (calls i).1).1 ::
          (serially calls ((calls i).2.perform m (calls i).1).2 order).1,
        (serially calls ((calls i).2.perform m (calls i).1).2 order).2) := rfl

/-- The accesses of calls run one after the other do what the calls do at once. -/
theorem path_order (o : Interleaving n) {order : List (Fin n)} {m : TimeManager}
    (h : Transition.path Access.step (cells m)
      (order.flatMap (Transition.eventsOf Prod.fst o.accesses)) = some s) :
    ∃ final, cells final = s ∧ serially o.calls m order = (order.map o.answer, final) := by
  induction order generalizing m with
  | nil => exact ⟨m, Option.some.inj h, rfl⟩
  | cons i order ih =>
    rw [List.flatMap_cons, o.complete i] at h
    obtain ⟨r, hr, h⟩ := Transition.path_append_iff.mp h
    obtain ⟨hanswer, rfl⟩ := path_accesses hr
    obtain ⟨final, hfinal, hs⟩ := ih h
    refine ⟨final, hfinal, ?_⟩
    rw [serially_cons, hs, ← hanswer]
    rfl

/-- A call that neither consumes nor assigns the exact timestamp leaves it, and
the last timestamp, alone. -/
theorem perform_of_exact_eq_none {call : Call}
    (h : (Entry.mk now call (call.perform m now).1).exact = none) :
    (call.perform m now).2.nextExactTimestamp = m.nextExactTimestamp ∧
      (call.perform m now).2.lastTimestamp = m.lastTimestamp := by
  cases call with
  | setNextBlockTimestamp t =>
    simp only [Call.perform, TimeManager.setNextBlockTimestamp] at h ⊢
    split at h <;> rename_i hset <;> split at hset <;> cases hset
    · cases h
    · exact ⟨rfl, rfl⟩
  | setTime t | nextTimestamp => cases h
  | _ => exact ⟨rfl, rfl⟩

theorem perform_of_exact_eq_some {call : Call} {t : U64}
    (h : (Entry.mk now call (call.perform m now).1).exact = some (some t)) :
    (call.perform m now).2.nextExactTimestamp = some t ∧
      (call.perform m now).2.lastTimestamp ≤ t := by
  cases call with
  | setNextBlockTimestamp t' =>
    simp only [Call.perform, TimeManager.setNextBlockTimestamp] at h ⊢
    split at h <;> rename_i hset <;> split at hset <;> cases hset
    · rename_i hlt
      obtain rfl := Option.some.inj (Option.some.inj h)
      exact ⟨rfl, BitVec.not_lt.mp hlt⟩
    · cases h
  | _ => cases h

theorem Entry.exact_eq_some {e : Entry} {x : Option U64} (h : e.exact = some x) :
    e.call = .nextTimestamp ∨ (∃ t, e.call = .setNextBlockTimestamp t ∧ e.answer = .accepted) ∨
      ∃ t, e.call = .setTime t := by
  unfold Entry.exact at h
  split at h
  · rename_i t hcall hanswer
    exact Or.inr (Or.inl ⟨t, hcall, hanswer⟩)
  · rename_i hcall
    exact Or.inl hcall
  · rename_i t hcall
    exact Or.inr (Or.inr ⟨t, hcall⟩)
  · cases h

/-- From a pending exact timestamp on, serial calls settle it. -/
theorem settled_of_pending (o : Interleaving n) {t : U64} {after : List (Fin n)}
    {m final : TimeManager} (hexact : m.nextExactTimestamp = some t) (hlast : m.lastTimestamp ≤ t)
    (h : serially o.calls m after = (after.map o.answer, final)) : o.Settled t after final := by
  induction after generalizing m with
  | nil =>
    obtain rfl := (Prod.mk.inj h).2
    exact hexact
  | cons j after ih =>
    rw [serially_cons, List.map_cons] at h
    obtain ⟨hanswers, hfinal⟩ := Prod.mk.inj h
    obtain ⟨hanswer, hanswers⟩ := List.cons.inj hanswers
    unfold Interleaving.Settled
    rw [List.find?_cons]
    cases hx : (o.entry j).exact with
    | none =>
      rw [Interleaving.entry, ← hanswer] at hx
      obtain ⟨he, hl⟩ := perform_of_exact_eq_none hx
      exact ih (he.trans hexact) (hl ▸ hlast) (Prod.ext hanswers hfinal)
    | some x =>
      rcases Entry.exact_eq_some hx with hcall | hset | htime
      · refine Or.inl ⟨hcall, ?_⟩
        have hcall' : (o.calls j).2 = .nextTimestamp := hcall
        rw [← hanswer, hcall', Call.perform, TimeManager.nextTimestamp_of_exact hexact hlast]
      · exact Or.inr (Or.inl hset)
      · exact Or.inr (Or.inr htime)

/-- Serial calls settle every exact timestamp they accept. -/
theorem settled (o : Interleaving n) {t : U64} {before after : List (Fin n)} {i : Fin n}
    {m final : TimeManager}
    (h : serially o.calls m (before ++ i :: after) = ((before ++ i :: after).map o.answer, final))
    (hi : (o.entry i).exact = some (some t)) : o.Settled t after final := by
  induction before generalizing m with
  | nil =>
    rw [List.nil_append, serially_cons, List.map_cons] at h
    obtain ⟨hanswers, hfinal⟩ := Prod.mk.inj h
    obtain ⟨hanswer, hanswers⟩ := List.cons.inj hanswers
    rw [Interleaving.entry, ← hanswer] at hi
    obtain ⟨he, hl⟩ := perform_of_exact_eq_some hi
    exact settled_of_pending o he hl (Prod.ext hanswers hfinal)
  | cons j before ih =>
    rw [List.cons_append, serially_cons, List.map_cons] at h
    obtain ⟨hanswers, hfinal⟩ := Prod.mk.inj h
    exact ih (Prod.ext (List.cons.inj hanswers).2 hfinal)

/-- An interleaving that orders no call both before and after another answers
and ends as a serial execution does, which settles every accepted timestamp. -/
theorem serial_of_not_before_after (o : Interleaving n) (m : TimeManager)
    (hrun : Transition.path Access.step (cells m) o.accesses = some s)
    (hc : ∀ i, ¬ Relation.TransGen o.Before i i) :
    ∃ (order : List (Fin n)) (final : TimeManager), order.Perm (List.finRange n) ∧
      cells final = s ∧ serially o.calls m order = (order.map o.answer, final) ∧
      ∀ before i after t, order = before ++ i :: after →
        (o.calls i).2 = .setNextBlockTimestamp t → o.answer i = .accepted →
        o.Settled t after final := by
  obtain ⟨order, hperm, hserial⟩ := Access.exists_serial hc (List.nodup_finRange n)
    (fun e _ => List.mem_finRange _) (cells m)
  rw [hserial] at hrun
  obtain ⟨final, hfinal, hs⟩ := path_order o hrun
  refine ⟨order, final, hperm, hfinal, hs, ?_⟩
  rintro before i after t rfl hcall hanswer
  refine settled o hs (i := i) ?_
  simp only [Interleaving.entry, Entry.exact, hcall, hanswer]

/-- A timestamp set and a block, one after the other. -/
def setThenBlock : Interleaving 2 where
  calls := ![(1000, .setNextBlockTimestamp 5000), (1000, .nextTimestamp)]
  views := ![.new 1000 1000, (TimeManager.new 1000 1000).setNextBlockTimestamp 5000 |>.2]
  accesses :=
    [(0, .look .last 1000), (0, .put .exact (some 5000)),
      (1, .look .last 1000), (1, .look .exact (some 5000)), (1, .put .exact none),
      (1, .put .offset (Signed.diff (by decide) (5000 : U64) (1000 : U64))),
      (1, .put .last 5000)]
  complete := Fin.forall_fin_two.mpr ⟨rfl, rfl⟩

theorem serial_of_not_before_after_setThenBlock :
    ∃ (order : List (Fin 2)) (final : TimeManager), order.Perm (List.finRange 2) ∧
      final.lastTimestamp = 5000 ∧
      serially setThenBlock.calls (.new 1000 1000) order =
        (order.map setThenBlock.answer, final) := by
  have hc : ∀ i, ¬ Relation.TransGen setThenBlock.Before i i :=
    Transition.not_transGen_precedes_of_pairwise (by decide)
  obtain ⟨order, final, hperm, hfinal, hs, -⟩ :=
    serial_of_not_before_after setThenBlock (.new 1000 1000) rfl hc
  exact ⟨order, final, hperm, congrFun hfinal .last, hs⟩

/-- A timestamp accepted between a block's look for one and its clearing of it. -/
def setWithinBlock : Interleaving 2 where
  calls := ![(1000, .setNextBlockTimestamp 5000), (1000, .nextTimestamp)]
  views := fun _ => .new 1000 1000
  accesses :=
    [(1, .look .last 1000), (1, .look .exact none), (1, .look .interval none),
      (1, .look .offset (TimeManager.new 1000 1000).offset), (0, .look .last 1000),
      (0, .put .exact (some 5000)), (1, .put .exact none), (1, .put .last 1001)]
  complete := Fin.forall_fin_two.mpr ⟨rfl, rfl⟩

/-- A timestamp accepted while a block computes its own is dropped. -/
theorem accepted_timestamp_dropped :
    ¬ ∀ (n : ℕ) (o : Interleaving n) (m : TimeManager) (s : (c : Cell) → c.Value),
      (∀ i, (o.calls i).2 = .nextTimestamp ∨ (∃ t, (o.calls i).2 = .setNextBlockTimestamp t) ∨
        (∃ t, (o.calls i).2 = .setTime t) ∨ ∃ seconds, (o.calls i).2 = .increaseTime seconds) →
      Transition.path Access.step (cells m) o.accesses = some s →
      ∃ (order : List (Fin n)) (final : TimeManager), order.Perm (List.finRange n) ∧
        cells final = s ∧ serially o.calls m order = (order.map o.answer, final) := by
  intro h
  have hkind : ∀ i, (setWithinBlock.calls i).2 = .nextTimestamp ∨
      (∃ t, (setWithinBlock.calls i).2 = .setNextBlockTimestamp t) ∨
      (∃ t, (setWithinBlock.calls i).2 = .setTime t) ∨
      ∃ seconds, (setWithinBlock.calls i).2 = .increaseTime seconds :=
    Fin.forall_fin_two.mpr ⟨Or.inr (Or.inl ⟨5000, rfl⟩), Or.inl rfl⟩
  obtain ⟨order, final, hperm, hfinal, hs⟩ := h 2 setWithinBlock (.new 1000 1000) _ hkind rfl
  obtain ⟨i, j, rfl⟩ := List.length_eq_two.mp hperm.length_eq
  -- Set first, the block would be at 5000; set last, the timestamp would still be to come.
  have hserial : ∀ i j : Fin 2, [i, j].Perm (List.finRange 2) →
      (serially setWithinBlock.calls (.new 1000 1000) [i, j]).2.lastTimestamp = 5000 ∨
        (serially setWithinBlock.calls (.new 1000 1000) [i, j]).2.nextExactTimestamp =
          some 5000 := by
    decide
  rcases hserial i j hperm with hlast | hexact
  · rw [hs] at hlast
    have hl : final.lastTimestamp = 1001 := congrFun hfinal .last
    exact absurd (hl.symm.trans hlast) (by decide)
  · rw [hs] at hexact
    have he : final.nextExactTimestamp = none := congrFun hfinal .exact
    exact absurd (he.symm.trans hexact) (by decide)

end TimeLog

end AnvilReth
