import Std.Data.ExtTreeMap.Lemmas
import Mathlib.Data.List.Lookmap
import Mathlib.Data.List.Nodup
import AnvilReth.Transition.Runs

/-! # Extensional maps and loops over their entries

Lookups after insertions, and after the loop that updates one entry for each
pair of a list with distinct keys.
-/

namespace Maps

open Std

section Lists

variable {α γ : Type*} [DecidableEq α] {k : α}

theorem lookup_eq_none_iff_not_mem {l : List (α × γ)} :
    l.lookup k = none ↔ k ∉ l.map Prod.fst := by
  rw [List.lookup_eq_none_iff, List.mem_map]
  constructor
  · rintro h ⟨p, hp, rfl⟩
    simpa using h p hp
  · intro h p hp
    have hne : k ≠ p.1 := fun he => h ⟨p, hp, he.symm⟩
    simpa using hne

theorem lookup_eq_some_iff_mem {l : List (α × γ)} (h : (l.map Prod.fst).Nodup) {c : γ} :
    l.lookup k = some c ↔ (k, c) ∈ l := by
  induction l with
  | nil => simp
  | cons p l ih =>
    obtain ⟨j, d⟩ := p
    rw [List.map_cons, List.nodup_cons] at h
    rw [List.lookup_cons, List.mem_cons, Prod.mk.injEq]
    by_cases he : k = j
    · subst he
      have hn : (k, c) ∉ l := fun hm => h.1 (List.mem_map.mpr ⟨_, hm, rfl⟩)
      simp [hn, eq_comm]
    · rw [beq_false_of_ne he]
      simp only [he, false_and, false_or]
      exact ih h.2

theorem lookup_map_snd {δ : Type*} (g : γ → δ) (l : List (α × γ)) :
    (l.map fun e => (e.1, g e.2)).lookup k = (l.lookup k).map g := by
  induction l with
  | nil => rfl
  | cons p l ih =>
    rw [List.map_cons, List.lookup_cons, List.lookup_cons]
    split <;> simp [ih]

end Lists

variable {α β γ : Type*} [Ord α] [TransOrd α] {t : ExtTreeMap α β} {k a : α} {v : β}

section Loops

/-- The loop that updates, for each pair of the list, the entry under its key. -/
def upsertAll (f : α → Option β → γ → β) (t : ExtTreeMap α β) (l : List (α × γ)) :
    ExtTreeMap α β :=
  l.foldl (fun t p => t.insert p.1 (f p.1 t[p.1]? p.2)) t

@[simp] theorem upsertAll_nil (f : α → Option β → γ → β) : upsertAll f t [] = t := rfl

@[simp] theorem upsertAll_cons (f : α → Option β → γ → β) (p : α × γ) (l : List (α × γ)) :
    upsertAll f t (p :: l) = upsertAll f (t.insert p.1 (f p.1 t[p.1]? p.2)) l := rfl

/-- The loop that inserts every pair of the list. -/
def insertAll (t : ExtTreeMap α β) (l : List (α × β)) : ExtTreeMap α β :=
  upsertAll (fun _ _ v => v) t l

@[simp] theorem insertAll_nil : insertAll t [] = t := rfl

@[simp] theorem insertAll_cons (p : α × β) (l : List (α × β)) :
    insertAll t (p :: l) = insertAll (t.insert p.1 p.2) l := rfl

end Loops

variable [LawfulEqOrd α]

theorem nodup_keys (t : ExtTreeMap α β) : (t.toList.map Prod.fst).Nodup := by
  rw [List.Nodup, List.pairwise_map]
  refine t.distinct_keys_toList.imp fun h he => ?_
  exact h (Std.compare_eq_iff_eq.mpr he)

theorem mem_toList : (k, v) ∈ t.toList ↔ t[k]? = some v :=
  ExtTreeMap.mem_toList_iff_getElem?_eq_some

theorem getElem?_erase_ne (h : a ≠ k) : (t.erase k)[a]? = t[a]? := by
  rw [ExtTreeMap.getElem?_erase, if_neg fun he => h (Std.compare_eq_iff_eq.mp he).symm]

variable [DecidableEq α]

theorem getElem?_insert : (t.insert k v)[a]? = if a = k then some v else t[a]? := by
  rw [ExtTreeMap.getElem?_insert]
  exact if_congr (Std.compare_eq_iff_eq.trans eq_comm) rfl rfl

@[simp] theorem getElem?_insert_self : (t.insert k v)[k]? = some v := by
  rw [getElem?_insert, if_pos rfl]

theorem getElem?_insert_ne (h : a ≠ k) : (t.insert k v)[a]? = t[a]? := by
  rw [getElem?_insert, if_neg h]

/-- Writing the value a map already has leaves it as it is. -/
theorem insert_eq_self_iff : t.insert k v = t ↔ t[k]? = some v := by
  constructor
  · intro h
    rw [← h, getElem?_insert_self]
  · intro h
    refine ExtTreeMap.ext_getElem? fun a => ?_
    rw [getElem?_insert]
    split
    · rename_i he
      rw [he, h]
    · rfl

theorem insert_comm {k' : α} {v' : β} (h : k ≠ k') :
    (t.insert k v).insert k' v' = (t.insert k' v').insert k v := by
  refine ExtTreeMap.ext_getElem? fun a => ?_
  simp only [getElem?_insert]
  grind

/-- A map's entry list, searched by key, is its lookup. -/
theorem lookup_toList (t : ExtTreeMap α β) (k : α) : t.toList.lookup k = t[k]? := by
  cases h : t[k]? with
  | some v => exact (lookup_eq_some_iff_mem (nodup_keys t)).mpr (mem_toList.mpr h)
  | none =>
    rw [lookup_eq_none_iff_not_mem, List.mem_map]
    rintro ⟨p, hp, rfl⟩
    rw [mem_toList.mp hp] at h
    cases h

/-- Distinct keys are updated independently, each from its old entry. -/
theorem getElem?_upsertAll (f : α → Option β → γ → β) {l : List (α × γ)}
    (h : (l.map Prod.fst).Nodup) (k : α) :
    (upsertAll f t l)[k]? = ((l.lookup k).map (f k t[k]?)).or t[k]? := by
  induction l generalizing t with
  | nil => simp
  | cons p l ih =>
    obtain ⟨j, c⟩ := p
    rw [List.map_cons, List.nodup_cons] at h
    rw [upsertAll_cons, ih h.2, List.lookup_cons]
    by_cases he : k = j
    · subst he
      rw [lookup_eq_none_iff_not_mem.mpr h.1]
      simp
    · rw [beq_false_of_ne he, getElem?_insert_ne he]

/-- The loop changes nothing when every entry already is what it would become. -/
theorem upsertAll_eq_self_iff (f : α → Option β → γ → β) {l : List (α × γ)}
    (h : (l.map Prod.fst).Nodup) :
    upsertAll f t l = t ↔ ∀ e ∈ l, t[e.1]? = some (f e.1 t[e.1]? e.2) := by
  constructor
  · rintro he ⟨k, c⟩ hm
    have hget := getElem?_upsertAll (t := t) f h k
    rw [he, (lookup_eq_some_iff_mem h).mpr hm] at hget
    exact hget
  · intro he
    refine ExtTreeMap.ext_getElem? fun k => ?_
    rw [getElem?_upsertAll f h]
    cases hl : l.lookup k with
    | none => rfl
    | some c => exact (he (k, c) ((lookup_eq_some_iff_mem h).mp hl)).symm

theorem getElem?_insertAll {l : List (α × β)} (h : (l.map Prod.fst).Nodup) (k : α) :
    (insertAll t l)[k]? = (l.lookup k).or t[k]? := by
  rw [insertAll, getElem?_upsertAll _ h]
  simp

/-- Of several values under one key, the last one stays. -/
theorem getElem?_insertAll_last (l : List (α × β)) (k : α) :
    (insertAll t l)[k]? =
      (Transition.last (fun e => if e.1 = k then some e.2 else none) l).or t[k]? := by
  induction l generalizing t with
  | nil => rfl
  | cons e l ih =>
    rw [insertAll_cons, ih, Transition.last_cons, getElem?_insert, Option.or_assoc]
    congr 1
    by_cases h : k = e.1
    · subst h
      simp
    · simp [h, Ne.symm h]

/-- Inserting values changes nothing when the last one under each key is there. -/
theorem insertAll_eq_self_iff {l : List (α × β)} :
    insertAll t l = t ↔ ∀ k v,
      Transition.last (fun e => if e.1 = k then some e.2 else none) l = some v →
        t[k]? = some v := by
  constructor
  · intro h k v hv
    rw [← h, getElem?_insertAll_last, hv, Option.some_or]
  · intro h
    refine ExtTreeMap.ext_getElem? fun k => ?_
    rw [getElem?_insertAll_last]
    cases hv : Transition.last (fun e => if e.1 = k then some e.2 else none) l with
    | none => rfl
    | some v => exact (h k v hv).symm

/-- Inserting every entry of a map on top of another. -/
theorem getElem?_insertAll_toList (t u : ExtTreeMap α β) (k : α) :
    (insertAll t u.toList)[k]? = u[k]?.or t[k]? := by
  rw [getElem?_insertAll (nodup_keys u), lookup_toList]

/-- Inserting the converted entries of a map on top of another. -/
theorem getElem?_insertAll_map {t : ExtTreeMap α β} (u : ExtTreeMap α γ) (g : γ → β) (k : α) :
    (insertAll t (u.toList.map fun e => (e.1, g e.2)))[k]? = (u[k]?.map g).or t[k]? := by
  have hkeys : (u.toList.map fun e => (e.1, g e.2)).map Prod.fst = u.toList.map Prod.fst := by
    simp [Function.comp_def]
  rw [getElem?_insertAll (hkeys ▸ nodup_keys u), lookup_map_snd, lookup_toList]

/-- Building a map from its own entries gives it back. -/
theorem insertAll_empty_toList (u : ExtTreeMap α β) : insertAll ∅ u.toList = u := by
  refine ExtTreeMap.ext_getElem? fun k => ?_
  rw [getElem?_insertAll_toList, ExtTreeMap.getElem?_empty, Option.or_none]

end Maps
