import AnvilReth.State.Dump

/-! # What a dump describes

The records of a serializable state describe a world. A dump of the base state
describes the world of the base, and merging the overrides acts on the
described world as laying them over a provider does.
-/

namespace AnvilReth

open Std Serde

variable {Bytecode : Type} [Code Bytecode]

/-- The world the records of a serializable state describe. -/
def SerializableState.world (state : SerializableState) : World where
  balance a := (state.accounts[a]?.getD default).balance
  nonce a := (state.accounts[a]?.getD default).nonce
  code a := (state.accounts[a]?.getD default).code
  storage a k := (((state.accounts[a]?.getD default).storage[k]?).map B256.toU256).getD 0

/-- The dump has every account of the world once, with all its fields and its
nonzero slots. -/
structure DumpedState.Lists (dump : DumpedState) (w : World) : Prop where
  nodup : (dump.accounts.map DumpedAccount.address).Nodup
  account : ∀ d ∈ dump.accounts, d.balance = w.balance d.address ∧
    d.nonce = w.nonce d.address ∧ d.code.getD [] = w.code d.address ∧
    ∀ k : StorageKey, ((d.storage[k]?).map B256.toU256).getD 0 = w.storage d.address k
  complete : ∀ a, a ∉ dump.accounts.map DumpedAccount.address → w.balance a = 0 ∧
    w.nonce a = 0 ∧ w.code a = [] ∧ ∀ k, w.storage a k = 0

namespace SerializableState

variable {anvilState : AnvilState Bytecode} {w : World}

/-- A dump that lists the world describes it. -/
theorem fromDump_world {dump : DumpedState} (hd : dump.Lists w) (best : Option U64) :
    (fromDump dump best).world = w := by
  have hkeys : (dump.accounts.map fun d => (d.address, d.toRecord)).map Prod.fst =
      dump.accounts.map DumpedAccount.address := by simp [Function.comp_def]
  have hget : ∀ a : Address, (fromDump dump best).accounts[a]? =
      (dump.accounts.map fun d => (d.address, d.toRecord)).lookup a := by
    intro a
    simp only [fromDump]
    rw [Maps.getElem?_insertAll (hkeys ▸ hd.nodup), ExtTreeMap.getElem?_empty, Option.or_none]
  have hcases : ∀ a, (∃ d ∈ dump.accounts, d.address = a ∧
      (fromDump dump best).accounts[a]? = some d.toRecord) ∨
      (a ∉ dump.accounts.map DumpedAccount.address ∧
        (fromDump dump best).accounts[a]? = none) := by
    intro a
    by_cases ha : a ∈ dump.accounts.map DumpedAccount.address
    · obtain ⟨d, hd', rfl⟩ := List.mem_map.mp ha
      refine Or.inl ⟨d, hd', rfl, ?_⟩
      rw [hget, Maps.lookup_eq_some_iff_mem (hkeys ▸ hd.nodup)]
      exact List.mem_map.mpr ⟨d, hd', rfl⟩
    · refine Or.inr ⟨ha, ?_⟩
      rw [hget, Maps.lookup_eq_none_iff_not_mem, hkeys]
      exact ha
  ext1 <;> funext a <;> simp only [world]
  · rcases hcases a with ⟨d, hm, rfl, h⟩ | ⟨hn, h⟩
    · rw [h]
      exact (hd.account d hm).1
    · rw [h]
      exact (hd.complete a hn).1.symm
  · rcases hcases a with ⟨d, hm, rfl, h⟩ | ⟨hn, h⟩
    · rw [h]
      exact (hd.account d hm).2.1
    · rw [h]
      exact (hd.complete a hn).2.1.symm
  · rcases hcases a with ⟨d, hm, rfl, h⟩ | ⟨hn, h⟩
    · rw [h]
      exact (hd.account d hm).2.2.1
    · rw [h]
      exact (hd.complete a hn).2.2.1.symm
  · funext k
    rcases hcases a with ⟨d, hm, rfl, h⟩ | ⟨hn, h⟩
    · rw [h]
      exact (hd.account d hm).2.2.2 k
    · rw [h, Option.getD_none, (hd.complete a hn).2.2.2 k]
      rfl

omit [Code Bytecode] in
theorem fromDump_nil (best : Option U64) :
    (fromDump { accounts := [] } best).world = World.empty := rfl

/-- Merging the overrides acts on the described world as the overrides do. -/
theorem mergeAnvilState_world (state : SerializableState) :
    (state.mergeAnvilState anvilState).world = anvilState.overlay state.world := by
  have hget : ∀ a : Address, (state.mergeAnvilState anvilState).accounts[a]? =
      ((anvilState.account a).map (mergeAccount anvilState state.accounts[a]?)).or
        state.accounts[a]? := by
    intro a
    simp only [mergeAnvilState]
    rw [Maps.getElem?_upsertAll _ (Maps.nodup_keys _), Maps.lookup_toList]
    rfl
  have hslot : ∀ (record : Option SerializableAccountRecord) (account : AccountOverride)
      (k : StorageKey),
      (((mergeAccount anvilState record account).storage[k]?).map B256.toU256).getD 0 =
        account.storage[k]?.getD
          ((((record.getD default).storage[k]?).map B256.toU256).getD 0) := by
    intro record account k
    rw [(mergeAccount_fields anvilState record account).2.2.2, Maps.getElem?_insertAll_map]
    cases account.storage[k]? <;> rfl
  ext1 <;> funext a <;> simp only [world, AnvilState.overlay, AnvilState.overrides, hget]
  · cases anvilState.account a with
    | none => rfl
    | some o => exact (mergeAccount_fields anvilState state.accounts[a]? o).1
  · cases anvilState.account a with
    | none => rfl
    | some o => exact (mergeAccount_fields anvilState state.accounts[a]? o).2.1
  · cases anvilState.account a with
    | none => rfl
    | some o => exact (mergeAccount_fields anvilState state.accounts[a]? o).2.2.1
  · funext k
    cases anvilState.account a with
    | none =>
      have hd : (default : AccountOverride).storage[k]? = none := ExtTreeMap.getElem?_empty
      simp [hd]
    | some o => exact hslot state.accounts[a]? o k

end SerializableState

end AnvilReth
