import AnvilReth.Transition.Serial

/-! # Separately locked cells

A store of cells, each behind a lock of its own. Under a lock a party looks at
the value of the cell, or replaces it, or both. An access carries the value it
found, so a list of accesses is a run of the store if every value found is the
one that is there.
-/

namespace Sync

variable {κ : Type*} {V : κ → Type*}

/-- What happens under the lock of a cell: the value found, if one looks, and
the value left, if one writes. -/
structure Access (V : κ → Type*) where
  cell : κ
  found : Option (V cell)
  left : Option (V cell)

namespace Access

def look (c : κ) (v : V c) : Access V := ⟨c, some v, none⟩

def put (c : κ) (v : V c) : Access V := ⟨c, none, some v⟩

def swap (c : κ) (v w : V c) : Access V := ⟨c, some v, some w⟩

variable [DecidableEq κ] [∀ c, DecidableEq (V c)] {s t : (c : κ) → V c} {a b : Access V}

/-- The store after an access, if the value it found is there. -/
def perform (s : (c : κ) → V c) (a : Access V) : Option ((c : κ) → V c) :=
  if ∀ v ∈ a.found, s a.cell = v then some (a.left.elim s (Function.update s a.cell)) else none

theorem perform_eq_some :
    a.perform s = some t ↔
      (∀ v ∈ a.found, s a.cell = v) ∧ a.left.elim s (Function.update s a.cell) = t := by
  unfold perform
  split
  · rename_i h
    rw [Option.some_inj, and_iff_right h]
  · rename_i h
    exact iff_of_false nofun fun ⟨hf, _⟩ => h hf

/-- The accesses are to one cell, and one of them writes. -/
def Conflict (a b : Access V) : Prop := a.cell = b.cell ∧ (a.left.isSome ∨ b.left.isSome)

omit [∀ c, DecidableEq (V c)] in
/-- An access leaves every other cell alone. -/
theorem elim_update_of_ne {c : κ} (h : c ≠ a.cell) :
    a.left.elim s (Function.update s a.cell) c = s c := by
  cases a.left with
  | none => rfl
  | some v => exact Function.update_of_ne h v s

theorem perform_comm (h : ¬ Conflict a b) (s : (c : κ) → V c) :
    (a.perform s).bind (perform · b) = (b.perform s).bind (perform · a) := by
  have hleft : ∀ t, (a.perform s).bind (perform · b) = some t ↔
      (b.perform s).bind (perform · a) = some t := by
    intro t
    simp only [Option.bind_eq_some_iff, perform_eq_some]
    by_cases hc : a.cell = b.cell
    · have hw : ¬ (a.left.isSome ∨ b.left.isSome) := fun hw => h ⟨hc, hw⟩
      simp only [not_or, Option.not_isSome_iff_eq_none] at hw
      obtain ⟨ha, hb⟩ := hw
      simp only [ha, hb, Option.elim_none]
      constructor <;> rintro ⟨r, ⟨hf, rfl⟩, hf', rfl⟩ <;> exact ⟨s, ⟨hf', rfl⟩, hf, rfl⟩
    · have hcomm : b.left.elim (a.left.elim s (Function.update s a.cell))
            (Function.update (a.left.elim s (Function.update s a.cell)) b.cell) =
          a.left.elim (b.left.elim s (Function.update s b.cell))
            (Function.update (b.left.elim s (Function.update s b.cell)) a.cell) := by
        cases a.left with
        | none => rfl
        | some v =>
          cases b.left with
          | none => rfl
          | some w => exact Function.update_comm hc v w s
      constructor
      · rintro ⟨r, ⟨hf, rfl⟩, hf', rfl⟩
        rw [elim_update_of_ne (Ne.symm hc)] at hf'
        exact ⟨_, ⟨hf', rfl⟩, by rwa [elim_update_of_ne hc], hcomm.symm⟩
      · rintro ⟨r, ⟨hf, rfl⟩, hf', rfl⟩
        rw [elim_update_of_ne hc] at hf'
        exact ⟨_, ⟨hf', rfl⟩, by rwa [elim_update_of_ne (Ne.symm hc)], hcomm⟩
  exact Option.ext hleft

section Runs

variable {ι : Type*} {i : ι} {es : List (ι × Access V)}

/-- An access of one of several parties. -/
def step (s : (c : κ) → V c) (e : ι × Access V) : Option ((c : κ) → V c) := e.2.perform s

@[simp] theorem path_look {c : κ} {v : V c} :
    Transition.path step s ((i, look c v) :: es) = some t ↔
      s c = v ∧ Transition.path step s es = some t := by
  simp [Transition.path_cons_iff, step, perform_eq_some, look]

@[simp] theorem path_put {c : κ} {v : V c} :
    Transition.path step s ((i, put c v) :: es) = some t ↔
      Transition.path step (Function.update s c v) es = some t := by
  simp [Transition.path_cons_iff, step, perform_eq_some, put]

@[simp] theorem path_swap {c : κ} {v w : V c} :
    Transition.path step s ((i, swap c v w) :: es) = some t ↔
      s c = v ∧ Transition.path step (Function.update s c w) es = some t := by
  simp [Transition.path_cons_iff, step, perform_eq_some, swap, and_assoc]

/-- Of a run, the accesses to one cell are a run, also without looks that are left out. -/
theorem path_filter {c : κ} {p : ι × Access V → Bool} {s' : (c : κ) → V c} (hs : s' c = s c)
    (hp : ∀ e ∈ es, p e = true → e.2.cell = c)
    (hn : ∀ e ∈ es, p e = false → e.2.cell = c → e.2.left = none)
    (h : Transition.path step s es = some t) :
    ∃ t', Transition.path step s' (es.filter p) = some t' ∧ t' c = t c := by
  induction es generalizing s s' with
  | nil =>
    obtain rfl := Option.some.inj h
    exact ⟨s', rfl, hs⟩
  | cons e es ih =>
    obtain ⟨r, hr, h⟩ := Transition.path_cons_iff.mp h
    obtain ⟨hfound, hleft⟩ := perform_eq_some.mp hr
    have hp' := fun d hd => hp d (List.mem_cons_of_mem e hd)
    have hn' := fun d hd => hn d (List.mem_cons_of_mem e hd)
    cases he : p e with
    | true =>
      obtain rfl := hp e List.mem_cons_self he
      have hs' : e.2.left.elim s' (Function.update s' e.2.cell) e.2.cell = r e.2.cell := by
        rw [← hleft]
        cases e.2.left with
        | none => exact hs
        | some v => rw [Option.elim_some, Option.elim_some, Function.update_self,
            Function.update_self]
      obtain ⟨t', ht, hc⟩ := ih hs' hp' hn' h
      refine ⟨t', ?_, hc⟩
      rw [List.filter_cons_of_pos he]
      exact Transition.path_cons_iff.mpr ⟨_, perform_eq_some.mpr ⟨by rwa [hs], rfl⟩, ht⟩
    | false =>
      rw [List.filter_cons_of_neg (by simp [he])]
      refine ih ?_ hp' hn' h
      rw [hs, ← hleft]
      by_cases hc : c = e.2.cell
      · rw [hn e List.mem_cons_self he hc.symm, Option.elim_none]
      · exact (elim_update_of_ne hc).symm

/-- Interleaved accesses of parties among which conflicts are not cyclic equal
those of the parties one after the other. -/
theorem exists_serial [DecidableEq ι] [Finite ι]
    (hc : ∀ i, ¬ Relation.TransGen
      (Transition.Precedes Prod.fst (fun a b => Conflict a.2 b.2) es) i i)
    {ids : List ι} (hnodup : ids.Nodup) (hids : ∀ e ∈ es, e.1 ∈ ids) (s : (c : κ) → V c) :
    ∃ order : List ι, order.Perm ids ∧
      Transition.path step s es =
        Transition.path step s (order.flatMap (Transition.eventsOf Prod.fst es)) :=
  Transition.exists_serial_path (fun _ _ _ h s => perform_comm h s) hc hnodup hids s

end Runs

end Access

end Sync
