import AnvilReth.State.Memory

/-! # Histories of overrides and mined blocks

Override requests write the local state, mined blocks the base state, and reads
at the latest block lay the first over the second. So a read gives the last
override of the field, and what the last block wrote only where there is none.
-/

namespace AnvilReth

variable {Bytecode : Type}

/-- The fields of the base state. -/
abbrev BaseFields := (f : Field) → f.Value

/-- One field a mined block assigns. -/
structure BlockWrite where
  field : Field
  value : field.Value

/-- The value a block's write gives a field. -/
def BlockWrite.assigns (b : BlockWrite) (f : Field) : Option f.Value :=
  if h : b.field = f then some (h ▸ b.value) else none

/-- The base fields after a mined block. -/
def mineBlock (base : BaseFields) (writes : List BlockWrite) : BaseFields :=
  writes.foldl (fun base b => Function.update base b.field b.value) base

/-- No account exists. -/
def noFields : BaseFields
  | .balance _ => 0#256
  | .nonce _ => 0#64
  | .slot _ _ => 0#256

/-- The provider that answers with the given fields. -/
def StateProvider.ofFields (base : BaseFields) : StateProvider Bytecode where
  basicAccount a := .ok (some { nonce := base (.nonce a), balance := base (.balance a) })
  storage a k := .ok (some (base (.slot a k)))
  bytecodeByHash _ := .ok none

namespace History

inductive Event where
  | override (o : Override)
  | mined (writes : List BlockWrite)

/-- The two stores reads go through. -/
structure Stores (Bytecode : Type) where
  anvilState : AnvilState Bytecode
  base : BaseFields

def step [Code Bytecode] (s : Stores Bytecode) : Event → Option (Stores Bytecode)
  | .override o => (o.apply s.anvilState).map fun anvilState => { s with anvilState }
  | .mined writes => some { s with base := mineBlock s.base writes }

/-- The provider reads give the base fields at the latest block. -/
def AtLatest (inner : StateProvider Bytecode) (base : BaseFields) : Prop :=
  ∀ f, inner.read f = .ok (base f)

theorem atLatest_ofFields (base : BaseFields) :
    AtLatest (StateProvider.ofFields base : StateProvider Bytecode) base := by
  intro f
  cases f <;> rfl

/-- The value an event gives a field as an override. -/
def Event.overrides (f : Field) : Event → Option f.Value
  | override o => o.assigns f
  | mined _ => none

/-- The value an event gives a field as a mined block. -/
def Event.mines (f : Field) : Event → Option f.Value
  | override _ => none
  | mined writes => Transition.last (BlockWrite.assigns · f) writes

/-- The value an event of either kind gives a field. -/
def Event.assigns (f : Field) (e : Event) : Option f.Value := (e.overrides f).or (e.mines f)

theorem mineBlock_apply (base : BaseFields) (writes : List BlockWrite) (f : Field) :
    some (mineBlock base writes f) =
      (Transition.last (BlockWrite.assigns · f) writes).or (some (base f)) := by
  induction writes generalizing base with
  | nil => rfl
  | cons b writes ih =>
    rw [mineBlock, List.foldl_cons, ← mineBlock, ih, Transition.last_cons, Option.or_assoc]
    congr 1
    unfold BlockWrite.assigns Function.update
    by_cases h : b.field = f
    · subst h
      simp
    · simp [h, Ne.symm h]

variable [Code Bytecode] {s t : Stores Bytecode} {es : List Event}

/-- The override of a field is the last one the history made. -/
theorem overridden_path (h : Transition.path step s es = some t) (f : Field) :
    t.anvilState.overridden f =
      (Transition.last (Event.overrides f) es).or (s.anvilState.overridden f) := by
  refine Transition.path_register (fun s : Stores Bytecode => s.anvilState.overridden f)
    (fun s e t he => ?_) h
  cases e with
  | override o =>
    obtain ⟨anvilState, ha, rfl⟩ := Option.map_eq_some_iff.mp he
    exact AnvilState.overridden_apply ha f
  | mined writes =>
    obtain rfl := Option.some.inj he
    rfl

/-- A base field is the last one a block of the history wrote. -/
theorem base_path (h : Transition.path step s es = some t) (f : Field) :
    some (t.base f) = (Transition.last (Event.mines f) es).or (some (s.base f)) := by
  refine Transition.path_register
    (fun s : Stores Bytecode => some (s.base f)) (fun s e t he => ?_) h
  cases e with
  | override o =>
    obtain ⟨anvilState, -, rfl⟩ := Option.map_eq_some_iff.mp he
    rfl
  | mined writes =>
    obtain rfl := Option.some.inj he
    exact mineBlock_apply s.base writes f

/-- After a history, a field read at the latest block gives the last override
of the field, else what the last block that wrote it gave, else the start value. -/
theorem read_after {base : BaseFields} {f : Field}
    (h : Transition.path step { anvilState := ({} : AnvilState Bytecode), base } es = some t)
    {inner : StateProvider Bytecode} (hi : AtLatest inner t.base) :
    (AnvilStateProvider.mk t.anvilState inner).toStateProvider.read f =
      .ok (((Transition.last (Event.overrides f) es).or
        (Transition.last (Event.mines f) es)).getD (base f)) := by
  have hover := overridden_path h f
  have hbase := base_path h f
  rw [AnvilStateProvider.read_eq (p := AnvilStateProvider.mk t.anvilState inner) (hi f), hover]
  have hnone : ({} : AnvilState Bytecode).overridden f = none := by
    cases f <;> rfl
  rw [hnone, Option.or_none]
  cases Transition.last (Event.overrides f) es with
  | some v => rfl
  | none =>
    rw [Option.none_or, Option.getD_none]
    cases hm : Transition.last (Event.mines f) es with
    | some v =>
      rw [hm, Option.some_or] at hbase
      exact congrArg Except.ok (Option.some.inj hbase)
    | none =>
      rw [hm, Option.none_or] at hbase
      exact congrArg Except.ok (Option.some.inj hbase)

theorem read_after_sample :
    ∃ t : Stores RawBytecode, Transition.path step { anvilState := {}, base := noFields }
        [.mined [⟨.slot 1 2, 7⟩], .override (.setStorageAt 1 2 5), .mined [⟨.slot 1 2, 9⟩]] =
          some t ∧
      (AnvilStateProvider.mk t.anvilState (.ofFields t.base)).toStateProvider.read (.slot 1 2) =
        .ok 5#256 := by
  obtain ⟨t, h⟩ : ∃ t : Stores RawBytecode,
      Transition.path step { anvilState := {}, base := noFields }
        [.mined [⟨.slot 1 2, 7⟩], .override (.setStorageAt 1 2 5), .mined [⟨.slot 1 2, 9⟩]] =
          some t := ⟨_, rfl⟩
  exact ⟨t, h, (read_after h (atLatest_ofFields _)).trans (by decide)⟩

/-- A block's write does not show through an earlier override of the field. -/
theorem mined_write_hidden :
    ¬ ∀ (es : List Event) (t : Stores RawBytecode) (inner : StateProvider RawBytecode) (f : Field)
        (v : f.Value),
      Transition.path step { anvilState := {}, base := noFields } es = some t →
      AtLatest inner t.base → Transition.last (Event.assigns f) es = some v →
      (AnvilStateProvider.mk t.anvilState inner).toStateProvider.read f = .ok v := by
  intro h
  have hread := h [.override (.setBalance 1 5), .mined [⟨.balance 1, 7⟩]] _ _ (.balance 1) 7 rfl
    (atLatest_ofFields _) (by decide)
  exact absurd (Except.ok.inj hread) (by decide)

end History

end AnvilReth
