import Mathlib.Data.Fintype.Card
import Mathlib.Data.Fintype.List
import Mathlib.Data.List.Perm.Basic
import Mathlib.Logic.Relation
import AnvilReth.Transition.Runs

/-! # Serial orders of interleaved runs

Every event belongs to an owner, and events of different owners that do not
conflict commute. One owner precedes another in a run if it has an event before
a conflicting event of the other. A run in which no owner precedes itself this
way, however indirectly, equals one that runs the owners one after the other.
-/

namespace Transition

variable {σ ε ι : Type*} {step : σ → ε → σ}

/-- The order of the two events does not matter. -/
def Commutes (step : σ → ε → σ) (a b : ε) : Prop := ∀ s, step (step s a) b = step (step s b) a

theorem run_swap {a : ε} {l : List ε} (h : ∀ b ∈ l, Commutes step a b) (s : σ) :
    run step (step s a) l = step (run step s l) a := by
  induction l generalizing s with
  | nil => rfl
  | cons b l ih =>
    rw [run_cons, run_cons, h b List.mem_cons_self s]
    exact ih (fun c hc => h c (List.mem_cons_of_mem _ hc)) (step s b)

/-- Among finitely many owners one is preceded by no other, if none precedes itself. -/
theorem exists_first [Finite ι] {R : ι → ι → Prop} (hR : ∀ i, ¬ Relation.TransGen R i i)
    {ids : List ι} (hids : ids ≠ []) : ∃ i ∈ ids, ∀ j ∈ ids, ¬ R j i := by
  have : Std.Irrefl (Relation.TransGen R) := ⟨hR⟩
  have hwf := Finite.wellFounded_of_trans_of_irrefl (Relation.TransGen R)
  obtain ⟨k, hk⟩ := List.exists_mem_of_ne_nil ids hids
  obtain ⟨i, hi, hmin⟩ := hwf.has_min {i | i ∈ ids} ⟨k, hk⟩
  exact ⟨i, hi, fun j hj h => hmin j hj (.single h)⟩

section Owners

variable (owner : ε → ι) (Conflict : ε → ε → Prop)

/-- The first owner has an event before a conflicting event of the second. -/
def Precedes (es : List ε) (i j : ι) : Prop :=
  i ≠ j ∧ ∃ a b, [a, b].Sublist es ∧ owner a = i ∧ owner b = j ∧ Conflict a b

variable {owner Conflict}

theorem Precedes.mono {es es' : List ε} (h : es.Sublist es') {i j : ι}
    (hp : Precedes owner Conflict es i j) : Precedes owner Conflict es' i j := by
  obtain ⟨hne, a, b, hs, hrest⟩ := hp
  exact ⟨hne, a, b, hs.trans h, hrest⟩

/-- A run in the order of its owners has no cyclic precedence. -/
theorem not_transGen_precedes_of_pairwise [PartialOrder ι] {es : List ε}
    (h : (es.map owner).Pairwise (· ≤ ·)) (i : ι) :
    ¬ Relation.TransGen (Precedes owner Conflict es) i i := by
  have hlt : ∀ j k, Precedes owner Conflict es j k → j < k := by
    rintro j k ⟨hne, a, b, hs, rfl, rfl, -⟩
    have hpair : [owner a, owner b].Pairwise (· ≤ ·) := h.sublist (hs.map owner)
    exact lt_of_le_of_ne (List.rel_of_pairwise_cons hpair (List.mem_singleton_self _)) hne
  intro hi
  exact lt_irrefl i (Relation.transGen_minimal hlt i i hi)

variable [DecidableEq ι]

/-- The events of one owner, in order. -/
def eventsOf (owner : ε → ι) (es : List ε) (i : ι) : List ε := es.filter fun e => owner e = i

/-- The events of an owner that no other precedes can be run first. -/
theorem run_first (hcomm : ∀ a b, owner a ≠ owner b → ¬ Conflict a b → Commutes step a b)
    {es : List ε} {i : ι} (hi : ∀ j, ¬ Precedes owner Conflict es j i) (s : σ) :
    run step s es = run step (run step s (eventsOf owner es i))
      (es.filter fun e => ¬ owner e = i) := by
  induction es generalizing s with
  | nil => rfl
  | cons e es ih =>
    have hrest : ∀ j, ¬ Precedes owner Conflict es j i :=
      fun j h => hi j (h.mono (List.sublist_cons_self e es))
    rw [run_cons, ih hrest]
    by_cases he : owner e = i
    · simp [eventsOf, he]
    · have hswap : ∀ b ∈ eventsOf owner es i, Commutes step e b := by
        intro b hb
        obtain ⟨hm, ho⟩ := List.mem_filter.mp hb
        have hob : owner b = i := of_decide_eq_true ho
        refine hcomm e b (hob.symm ▸ he) fun hc => hi (owner e) ⟨he, e, b, ?_, rfl, hob, hc⟩
        exact (List.singleton_sublist.mpr hm).cons_cons e
      rw [run_swap hswap]
      simp [eventsOf, he]

/-- A run without cyclic precedence equals a serial one. -/
theorem exists_serial [Finite ι]
    (hcomm : ∀ a b, owner a ≠ owner b → ¬ Conflict a b → Commutes step a b)
    {es : List ε} (hc : ∀ i, ¬ Relation.TransGen (Precedes owner Conflict es) i i)
    {ids : List ι} (hnodup : ids.Nodup) (hids : ∀ e ∈ es, owner e ∈ ids) (s : σ) :
    ∃ order : List ι, order.Perm ids ∧
      run step s es = run step s (order.flatMap (eventsOf owner es)) := by
  induction hn : ids.length generalizing es ids s with
  | zero =>
    obtain rfl := List.eq_nil_of_length_eq_zero hn
    obtain rfl := List.eq_nil_iff_forall_not_mem.mpr fun e he => absurd (hids e he) List.not_mem_nil
    exact ⟨[], .refl [], rfl⟩
  | succ n ih =>
    have hne : ids ≠ [] := List.ne_nil_of_length_eq_add_one hn
    obtain ⟨i, hi, hfirst⟩ := exists_first hc hne
    have hfirst' : ∀ j, ¬ Precedes owner Conflict es j i := by
      intro j hp
      obtain ⟨-, a, b, hs, rfl, -⟩ := id hp
      exact hfirst _ (hids a (hs.subset List.mem_cons_self)) hp
    set rest := es.filter fun e => ¬ owner e = i with hrest
    have hids' : ∀ e ∈ rest, owner e ∈ ids.erase i := by
      intro e he
      obtain ⟨hm, ho⟩ := List.mem_filter.mp he
      exact (List.mem_erase_of_ne (of_decide_eq_true ho)).mpr (hids e hm)
    have hc' : ∀ j, ¬ Relation.TransGen (Precedes owner Conflict rest) j j :=
      fun j h => hc j (Relation.TransGen.mono (fun _ _ hp => hp.mono List.filter_sublist) _ _ h)
    have hlen : (ids.erase i).length = n := by
      rw [List.length_erase_of_mem hi, hn]
      rfl
    obtain ⟨order, hperm, hrun⟩ :=
      ih hc' (hnodup.erase i) hids' (run step s (eventsOf owner es i)) hlen
    have hevents : ∀ j ∈ order, eventsOf owner rest j = eventsOf owner es j := by
      intro j hj
      have hji : j ≠ i := fun h => hnodup.not_mem_erase (h ▸ hperm.subset hj)
      rw [eventsOf, eventsOf, hrest, List.filter_filter]
      refine List.filter_congr fun e _ => ?_
      by_cases he : owner e = j <;> simp [he, hji]
    refine ⟨i :: order, (hperm.cons i).trans (List.perm_cons_erase hi).symm, ?_⟩
    rw [run_first hcomm hfirst', ← hrest, hrun, List.flatMap_cons, run_append,
      List.flatMap_congr hevents]

/-- A partial run without cyclic precedence equals a serial one. -/
theorem exists_serial_path [Finite ι] {step : σ → ε → Option σ}
    (hcomm : ∀ a b, owner a ≠ owner b → ¬ Conflict a b →
      ∀ s, (step s a).bind (step · b) = (step s b).bind (step · a))
    {es : List ε} (hc : ∀ i, ¬ Relation.TransGen (Precedes owner Conflict es) i i)
    {ids : List ι} (hnodup : ids.Nodup) (hids : ∀ e ∈ es, owner e ∈ ids) (s : σ) :
    ∃ order : List ι, order.Perm ids ∧
      path step s es = path step s (order.flatMap (eventsOf owner es)) := by
  have hcomm' : ∀ a b, owner a ≠ owner b → ¬ Conflict a b →
      Commutes (fun (o : Option σ) e => o.bind (step · e)) a b := by
    intro a b hne hab o
    cases o with
    | none => rfl
    | some s => exact hcomm a b hne hab s
  simp only [path_eq_run]
  exact exists_serial hcomm' hc hnodup hids (some s)

end Owners

end Transition
