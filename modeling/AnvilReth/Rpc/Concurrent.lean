import Mathlib.Algebra.BigOperators.Fin
import AnvilReth.Rpc.Sections
import AnvilReth.State.Format
import AnvilReth.State.Memory
import AnvilReth.Transition.Serial

/-! # Concurrent state requests

Requests interleave at their lock sections. Sections on different parts of the
state commute, so an interleaving in which no request is ordered both before
and after another by conflicting sections ends as a serial execution does. The
read and write sections of one request are not held together, so others may
come between them.
-/

namespace AnvilReth

open Std

variable {Bytecode : Type} [Code Bytecode]

section Footprint

theorem Section.mem_writes_of_sets {s : Section} {l : Local} {p : AccountOverride}
    (h : s.patch Bytecode l = some p) {k : Key} (hk : p.Sets k) : k ∈ s.writes Bytecode := by
  have hempty : ∀ j : StorageKey, ((∅ : ExtTreeMap StorageKey StorageValue)[j]?).isSome = false :=
    fun j => by rw [ExtTreeMap.getElem?_empty]; rfl
  cases s with
  | readBalance a => cases h
  | readNonce a => cases h
  | addBalance a amount | setBalance a balance | setNonce a nonce =>
    obtain rfl := Option.some.inj h
    cases k <;> simp_all [AccountOverride.Sets, writes]
  | setStorageAt a slot value =>
    obtain rfl := Option.some.inj h
    cases k with
    | slot j =>
      simp only [AccountOverride.Sets, Maps.getElem?_insert] at hk
      split at hk
      · rename_i hj
        simp [writes, hj]
      · rw [hempty] at hk
        cases hk
    | _ => simp [AccountOverride.Sets] at hk
  | writeRecord a record =>
    simp only [patch] at h
    split at h
    · rename_i hc
      obtain rfl := Option.some.inj h
      simp only [writes, if_pos hc]
      cases k with
      | slot j =>
        simp only [AccountOverride.Sets, AccountOverride.load, Maps.getElem?_insertAll_map,
          ExtTreeMap.getElem?_empty, Option.or_none, Option.isSome_map] at hk
        obtain ⟨v, hv⟩ := Option.isSome_iff_exists.mp hk
        have hm : Key.slot j ∈ record.storage.toList.map fun e => Key.slot e.1 :=
          List.mem_map.mpr ⟨(j, v), Maps.mem_toList.mpr hv, rfl⟩
        simp [hm]
      | _ => simp
    · rename_i hc
      obtain rfl := Option.some.inj h
      simp only [writes, if_neg hc]
      cases k <;> simp_all [AccountOverride.Sets]

omit [Code Bytecode] in
/-- A look does not see a patch of other parts. -/
theorem Section.look_patchEntry {provider : NodeProvider Bytecode} {t : Section}
    {st : AnvilState Bytecode} {a : Address} {p : Option AccountOverride}
    (h : a = t.address → ∀ x ∈ p, ∀ k ∈ t.reads, ¬ x.Sets k) (l : Local) :
    t.look provider ((st.patchEntry a p).overrides t.address) l =
      t.look provider (st.overrides t.address) l := by
  rw [AnvilState.overrides_patchEntry]
  split
  · rename_i ha
    cases p with
    | none => rw [ha, Option.elim_none]
    | some x =>
      rw [Option.elim_some, ← ha]
      cases t with
      | readBalance b =>
        have hx := h ha.symm x rfl .balance (List.mem_singleton_self _)
        simp only [AccountOverride.Sets, Option.not_isSome_iff_eq_none] at hx
        simp only [look, AccountOverride.patch, hx, Option.none_or]
      | readNonce b =>
        have hx := h ha.symm x rfl .nonce (List.mem_singleton_self _)
        simp only [AccountOverride.Sets, Option.not_isSome_iff_eq_none] at hx
        simp only [look, AccountOverride.patch, hx, Option.none_or]
      | _ => rfl
  · rfl

end Footprint

/-- The shared state and what each handler remembers. -/
structure Shared (n : ℕ) (Bytecode : Type) where
  anvilState : AnvilState Bytecode
  locals : Fin n → Local := fun _ => {}

variable {n : ℕ}

def Shared.step (provider : NodeProvider Bytecode) (s : Shared n Bytecode) (e : Fin n × Section) :
    Shared n Bytecode :=
  let r := e.2.exec provider s.anvilState (s.locals e.1)
  { anvilState := r.1, locals := Function.update s.locals e.1 r.2 }

/-- The sections of every request run in their order. -/
def Interleaves (Bytecode : Type) [Code Bytecode] (f : DumpFormat) (requests : Fin n → Request)
    (es : List (Fin n × Section)) : Prop :=
  ∀ i, Transition.eventsOf Prod.fst es i = ((requests i).sections Bytecode f).map (i, ·)

/-- A request has run a section before a conflicting one of another request. -/
abbrev Before (Bytecode : Type) [Code Bytecode] (es : List (Fin n × Section)) :
    Fin n → Fin n → Prop :=
  Transition.Precedes Prod.fst (fun a b => a.2.Conflict Bytecode b.2) es

section Serial

variable {provider : NodeProvider Bytecode} (hread : ∀ a, (provider.basicAccount a).isOk = true)
  {f : DumpFormat} {requests : Fin n → Request}

include hread

theorem commutes_of_not_conflict {a b : Fin n × Section} (hne : a.1 ≠ b.1)
    (h : ¬ a.2.Conflict Bytecode b.2) : Transition.Commutes (Shared.step provider) a b := by
  intro s
  obtain ⟨i, x⟩ := a
  obtain ⟨j, y⟩ := b
  simp only [Section.Conflict, not_or, not_and, not_exists] at h
  obtain ⟨hkeys, hstore⟩ := h
  have hxy : ∀ (l : Local), x.address = y.address → ∀ p ∈ x.patch Bytecode l, ∀ k ∈ y.reads,
      ¬ p.Sets k :=
    fun l ha p hp k hk hs => ((hkeys ha).1 k (Section.mem_writes_of_sets hp hs)).1 hk
  have hyx : ∀ (l : Local), y.address = x.address → ∀ p ∈ y.patch Bytecode l, ∀ k ∈ x.reads,
      ¬ p.Sets k :=
    fun l ha p hp k hk hs => (hkeys ha.symm).2 k (Section.mem_writes_of_sets hp hs) hk
  have hww : ∀ l l' : Local, x.address = y.address → ∀ p ∈ x.patch Bytecode l,
      ∀ q ∈ y.patch Bytecode l', ∀ k, ¬ (p.Sets k ∧ q.Sets k) :=
    fun l l' ha p hp q hq k hs => ((hkeys ha).1 k (Section.mem_writes_of_sets hp hs.1)).2
      (Section.mem_writes_of_sets hq hs.2)
  have hee : ∀ e ∈ x.store Bytecode, ∀ e' ∈ y.store Bytecode, e.1 = e'.1 → e.2 = e'.2 :=
    fun e he e' he' hk => not_not.mp (hstore e he e' he' hk)
  have hij : i ≠ j := hne
  simp only [Shared.step, Section.exec_eq hread, Function.update_of_ne hij,
    Function.update_of_ne hij.symm, Section.look_patchEntry (hxy _),
    Section.look_patchEntry (hyx _), Shared.mk.injEq]
  refine ⟨?_, Function.update_comm hij _ _ _⟩
  rw [AnvilState.storeEntry_patchEntry, AnvilState.storeEntry_comm _ hee,
    AnvilState.patchEntry_comm _ (hww _ _), AnvilState.storeEntry_patchEntry]

/-- The sections of one request run in a row do what its handler does. -/
theorem run_eventsOf (s : Shared n Bytecode) (i : Fin n) (r : Request) :
    (Transition.run (Shared.step provider) s ((r.sections Bytecode f).map (i, ·))).anvilState =
      r.handle f provider s.anvilState := by
  have h : ∀ (l : List Section) (s : Shared n Bytecode),
      (Transition.run (Shared.step provider) s (l.map (i, ·))).anvilState =
        (execAll provider s.anvilState (s.locals i) l).1 := by
    intro l
    induction l with
    | nil => exact fun s => rfl
    | cons x l ih =>
      intro s
      rw [List.map_cons, Transition.run_cons, ih]
      simp only [Shared.step, Function.update_self]
      rfl
  rw [h, execAll_sections hread]

variable (requests) in
theorem run_order (s : Shared n Bytecode) (order : List (Fin n)) :
    (Transition.run (Shared.step provider) s
      (order.flatMap fun i => ((requests i).sections Bytecode f).map (i, ·))).anvilState =
      order.foldl (fun st i => (requests i).handle f provider st) s.anvilState := by
  induction order generalizing s with
  | nil => rfl
  | cons i order ih =>
    rw [List.flatMap_cons, Transition.run_append, ih, run_eventsOf hread, List.foldl_cons]

theorem accountBalance_handle (a : Address) (amount : U256) (st : AnvilState Bytecode) {b : U256}
    (h : accountBalance provider st a = .ok b) :
    accountBalance provider ((Request.addBalance a amount).handle f provider st) a =
      .ok (Saturating.add b amount) := by
  simp only [Request.handle, anvilAddBalance, h]
  rw [accountBalance_of_ok (hread a), AnvilState.setBalance, AnvilState.overrides_modifyEntry,
    Function.update_self]
  rfl

/-- Additions one after the other clamp the exact sum. -/
theorem accountBalance_foldl (a : Address) (amounts : Fin n → U256) (order : List (Fin n))
    (st : AnvilState Bytecode) {b : U256} (h : accountBalance provider st a = .ok b) :
    accountBalance provider
        (order.foldl (fun st i => (Request.addBalance a (amounts i)).handle f provider st) st) a =
      .ok ((order.map amounts).foldl Saturating.add b) := by
  induction order generalizing st b with
  | nil => exact h
  | cons i order ih =>
    rw [List.foldl_cons, List.map_cons, List.foldl_cons]
    exact ih _ (accountBalance_handle hread a (amounts i) st h)

/-- An interleaving that orders no request both before and after another ends
as a serial execution does. Additions to one account then add up. -/
theorem serial_of_acyclic {es : List (Fin n × Section)} (hes : Interleaves Bytecode f requests es)
    (hc : ∀ i, ¬ Relation.TransGen (Before Bytecode es) i i) (st : AnvilState Bytecode) :
    let final := (Transition.run (Shared.step provider) { anvilState := st } es).anvilState
    (∃ order : List (Fin n), order.Perm (List.finRange n) ∧
      final = order.foldl (fun st i => (requests i).handle f provider st) st) ∧
    ∀ (a : Address) (amounts : Fin n → U256) (initial : U256),
      (∀ i, requests i = .addBalance a (amounts i)) →
      accountBalance provider st a = .ok initial →
      ∃ balance, accountBalance provider final a = .ok balance ∧
        balance.toNat = min (initial.toNat + ∑ i, (amounts i).toNat) (2 ^ 256 - 1) := by
  intro final
  have hserial : ∃ order : List (Fin n), order.Perm (List.finRange n) ∧
      final = order.foldl (fun st i => (requests i).handle f provider st) st := by
    obtain ⟨order, hperm, hrun⟩ := Transition.exists_serial
      (fun a b hne h => commutes_of_not_conflict hread hne h) hc (List.nodup_finRange n)
      (fun e _ => List.mem_finRange _) ({ anvilState := st } : Shared n Bytecode)
    refine ⟨order, hperm, ?_⟩
    rw [← run_order hread requests { anvilState := st } order (f := f)]
    simp only [final, hrun, List.flatMap_congr fun i _ => hes i]
  refine ⟨hserial, fun a amounts initial ha hinit => ?_⟩
  obtain ⟨order, hperm, hfinal⟩ := hserial
  refine ⟨(order.map amounts).foldl Saturating.add initial, ?_, ?_⟩
  · rw [hfinal]
    simp only [ha]
    exact accountBalance_foldl hread a amounts order st hinit
  · rw [Saturating.toNat_foldl_add, List.map_map, (hperm.map _).sum_eq, Fin.sum_univ_def]
    rfl

end Serial

section Additions

/-- Two additions to one account. -/
def twoAdditions : Fin 2 → Request := ![.addBalance 1 1, .addBalance 1 2]

theorem serial_of_acyclic_twoAdditions :
    let provider := NodeProvider.ofDump RawBytecode { accounts := [] } 0
    let es : List (Fin 2 × Section) :=
      [(0, .readBalance 1), (0, .addBalance 1 1), (1, .readBalance 1), (1, .addBalance 1 2)]
    ∃ order : List (Fin 2), order.Perm (List.finRange 2) ∧
      (Transition.run (Shared.step provider) { anvilState := {} } es).anvilState =
        order.foldl (fun st i => (twoAdditions i).handle (.forDocument .null) provider st) {} := by
  intro provider es
  have hes : Interleaves RawBytecode (.forDocument .null) twoAdditions es :=
    Fin.forall_fin_two.mpr ⟨rfl, rfl⟩
  have hc : ∀ i, ¬ Relation.TransGen (Before RawBytecode es) i i :=
    Transition.not_transGen_precedes_of_pairwise (by decide)
  exact (serial_of_acyclic (fun a => rfl) hes hc {}).1

/-- Two additions that both read before either writes lose the first one. -/
theorem addition_lost :
    ¬ ∀ (n : ℕ) (f : DumpFormat) (provider : NodeProvider RawBytecode)
        (requests : Fin n → Request) (es : List (Fin n × Section)) (st : AnvilState RawBytecode),
      (∀ a, (provider.basicAccount a).isOk = true) → Interleaves RawBytecode f requests es →
      ∃ order : List (Fin n), order.Perm (List.finRange n) ∧
        (Transition.run (Shared.step provider) { anvilState := st } es).anvilState =
          order.foldl (fun st i => (requests i).handle f provider st) st := by
  intro h
  set provider := NodeProvider.ofDump RawBytecode { accounts := [] } 0
  obtain ⟨order, hperm, hrun⟩ := h 2 (.forDocument .null) provider twoAdditions
    [(0, .readBalance 1), (1, .readBalance 1), (0, .addBalance 1 1), (1, .addBalance 1 2)] {}
    (fun a => rfl) (Fin.forall_fin_two.mpr ⟨rfl, rfl⟩)
  obtain ⟨i, j, rfl⟩ := List.length_eq_two.mp hperm.length_eq
  have hboth : ∀ i j : Fin 2, [i, j].Perm (List.finRange 2) →
      accountBalance provider ([i, j].foldl (fun st i =>
        (twoAdditions i).handle (.forDocument .null) provider st) {}) 1 = .ok 3 := by
    decide
  have hlost : accountBalance provider (Transition.run (Shared.step provider)
      { anvilState := {} } [((0 : Fin 2), .readBalance 1), (1, .readBalance 1),
        (0, .addBalance 1 1), (1, .addBalance 1 2)]).anvilState 1 = .ok 2 := by
    decide
  rw [hrun, hboth i j hperm] at hlost
  exact absurd (Except.ok.inj hlost) (by decide)

end Additions

end AnvilReth
