import AnvilReth.State.Provider
import AnvilReth.Transition.Runs

/-! # Account fields

Balances, nonces and slots read and overridden one by one. A field read through
the override layer is the override if there is one, whatever else is stored.
-/

namespace AnvilReth

open Std

inductive Field where
  | balance (address : Address)
  | nonce (address : Address)
  | slot (address : Address) (key : StorageKey)
  deriving DecidableEq

/-- What a field holds. -/
abbrev Field.Value : Field → Type
  | balance _ => U256
  | nonce _ => U64
  | slot _ _ => U256

variable {Bytecode : Type}

def StateProvider.read (p : StateProvider Bytecode) : (f : Field) → ProviderResult f.Value
  | .balance a => p.balance a
  | .nonce a => p.nonce a
  | .slot a k => p.slot a k

/-- The override of a field. -/
def AnvilState.overridden (st : AnvilState Bytecode) : (f : Field) → Option f.Value
  | .balance a => (st.overrides a).balance
  | .nonce a => (st.overrides a).nonce
  | .slot a k => (st.overrides a).storage[k]?

/-- The value an override request gives a field. -/
def Override.assigns : Override → (f : Field) → Option f.Value
  | setBalance a v, .balance b => if b = a then some v else none
  | setNonce a n, .nonce b => if b = a then some n else none
  | setStorageAt a k v, .slot b j => if b = a ∧ j = k then some v else none
  | _, _ => none

/-- The layered provider reads the override of a field, else the inner field. -/
theorem AnvilStateProvider.read_eq {p : AnvilStateProvider Bytecode} {f : Field} {v : f.Value}
    (h : p.inner.read f = .ok v) :
    p.toStateProvider.read f = .ok ((p.state.overridden f).getD v) := by
  cases f with
  | balance a =>
    obtain ⟨inner, hi⟩ := StateProvider.basicAccount_of_balance h
    obtain ⟨shown, hs, hb, -, -⟩ := basicAccount_eq hi
    have hv := (StateProvider.balance_of_basicAccount hi).symm.trans h
    refine (StateProvider.balance_of_basicAccount (p := p.toStateProvider) hs).trans ?_
    rw [hb, Except.ok.inj hv]
    rfl
  | nonce a =>
    obtain ⟨inner, hi⟩ := StateProvider.basicAccount_of_nonce h
    obtain ⟨shown, hs, -, hb, -⟩ := basicAccount_eq hi
    have hv := (StateProvider.nonce_of_basicAccount hi).symm.trans h
    refine (StateProvider.nonce_of_basicAccount (p := p.toStateProvider) hs).trans ?_
    rw [hb, Except.ok.inj hv]
    rfl
  | slot a k =>
    change (p.storage a k >>= fun v => Except.ok (v.getD 0)) = _
    unfold storage
    rw [AnvilState.storage_eq]
    simp only [AnvilState.overridden]
    cases (p.state.overrides a).storage[k]? with
    | some v => rfl
    | none => exact h

namespace AnvilState

variable {st st' : AnvilState Bytecode}

/-- An override request gives each field the value it assigns and keeps the others. -/
theorem overridden_apply [Code Bytecode] {o : Override} (h : o.apply st = some st') (f : Field) :
    st'.overridden f = (o.assigns f).or (st.overridden f) := by
  cases o with
  | setBalance a v =>
    obtain rfl := Option.some.inj h
    cases f <;> simp only [setBalance, Override.assigns, overridden, overrides_modifyEntry,
      Function.update_apply] <;> split <;> simp_all
  | setNonce a n =>
    obtain rfl := Option.some.inj h
    cases f <;> simp only [setNonce, Override.assigns, overridden, overrides_modifyEntry,
      Function.update_apply] <;> split <;> simp_all
  | setCode a code =>
    rcases setCode_cases h with ⟨-, rfl⟩ | ⟨-, bytecode, -, rfl⟩ <;>
      cases f <;> simp only [Override.assigns, overridden, overrides_modifyEntry,
        overrides_storeBytecode, Function.update_apply] <;> split <;> simp_all
  | setStorageAt a k v =>
    obtain rfl := Option.some.inj h
    cases f with
    | slot b j =>
      simp only [setStorageAt, Override.assigns, overridden, overrides_modifyEntry,
        Function.update_apply]
      by_cases hb : b = a
      · subst hb
        rw [if_pos rfl, Maps.getElem?_insert]
        by_cases hj : j = k <;> simp [hj]
      · simp [hb]
    | _ =>
      simp only [setStorageAt, Override.assigns, overridden, overrides_modifyEntry,
        Function.update_apply]
      split <;> simp_all

end AnvilState

end AnvilReth
