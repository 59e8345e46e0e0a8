import Mathlib.Logic.Function.Basic
import AnvilReth.Maps.Basic
import AnvilReth.Words.Types

/-! # The local override state

`AnvilState` holds the account overrides of the node: for each touched account
the overridden fields, and next to them the overridden bytecodes by code hash.
Hash maps are extensional tree maps, so that two states are equal when all
their lookups agree.
-/

namespace AnvilReth

open Std

abbrev StorageKey := B256
abbrev StorageValue := U256

/-- What the overrides use of the hashing and bytecode libraries. -/
class Code (Bytecode : Type) where
  /-- `keccak256`. -/
  keccak256 : Bytes → B256
  /-- `Bytecode::new_raw`, with `none` where it panics on a malformed delegation designator. -/
  newRaw : Bytes → Option Bytecode
  /-- `Bytecode::original_bytes`. -/
  originalBytes : Bytecode → Bytes

export Code (keccak256 newRaw originalBytes)

/-- `KECCAK_EMPTY`, the hash of the empty code. -/
def keccakEmpty (Bytecode : Type) [Code Bytecode] : B256 := keccak256 Bytecode []

structure CodeOverride where
  hash : B256
  deriving DecidableEq

structure AccountOverride where
  balance : Option U256 := none
  nonce : Option U64 := none
  code : Option CodeOverride := none
  storage : ExtTreeMap StorageKey StorageValue := ∅
  deriving DecidableEq

instance : Inhabited AccountOverride := ⟨{}⟩

/-- The overridden code hash. -/
def AccountOverride.codeHash (account : AccountOverride) : Option B256 :=
  account.code.map CodeOverride.hash

structure AnvilState (Bytecode : Type) where
  accounts : ExtTreeMap Address AccountOverride := ∅
  bytecodes : ExtTreeMap B256 Bytecode := ∅
  deriving DecidableEq

namespace AnvilState

variable {Bytecode : Type}

instance : Inhabited (AnvilState Bytecode) := ⟨{}⟩

@[ext] theorem ext {st st' : AnvilState Bytecode}
    (ha : ∀ a : Address, st.accounts[a]? = st'.accounts[a]?)
    (hb : ∀ h : B256, st.bytecodes[h]? = st'.bytecodes[h]?) : st = st' := by
  cases st
  cases st'
  simp only [mk.injEq]
  exact ⟨ExtTreeMap.ext_getElem? ha, ExtTreeMap.ext_getElem? hb⟩

/-- `accounts.entry(address).or_default()`, changed in place. -/
def modifyEntry (st : AnvilState Bytecode) (address : Address)
    (f : AccountOverride → AccountOverride) : AnvilState Bytecode :=
  { st with accounts := st.accounts.insert address (f (st.accounts[address]?.getD default)) }

/-- Override the balance for the given account. -/
def setBalance (st : AnvilState Bytecode) (address : Address) (balance : U256) :
    AnvilState Bytecode :=
  st.modifyEntry address fun account => { account with balance := some balance }

/-- Override the nonce for the given account. -/
def setNonce (st : AnvilState Bytecode) (address : Address) (nonce : U64) : AnvilState Bytecode :=
  st.modifyEntry address fun account => { account with nonce := some nonce }

/-- `bytecodes.insert(hash, bytecode)`. -/
def storeBytecode (st : AnvilState Bytecode) (hash : B256) (bytecode : Bytecode) :
    AnvilState Bytecode :=
  { st with bytecodes := st.bytecodes.insert hash bytecode }

/-- Override the code for the given account; `none` when building the bytecode panics. -/
def setCode [Code Bytecode] (st : AnvilState Bytecode) (address : Address) (code : Bytes) :
    Option (AnvilState Bytecode) :=
  if code.isEmpty then
    some (st.modifyEntry address fun account =>
      { account with code := some { hash := keccakEmpty Bytecode } })
  else
    let hash := keccak256 Bytecode code
    (newRaw code).map fun bytecode =>
      (st.storeBytecode hash bytecode).modifyEntry address fun account =>
        { account with code := some { hash } }

/-- Override a single storage slot for the given account. -/
def setStorageAt (st : AnvilState Bytecode) (address : Address) (slot : StorageKey)
    (value : StorageValue) : AnvilState Bytecode :=
  st.modifyEntry address fun account =>
    { account with storage := account.storage.insert slot value }

/-- The local account state for the given address, if any. -/
def account (st : AnvilState Bytecode) (address : Address) : Option AccountOverride :=
  st.accounts[address]?

/-- The locally overridden bytecode for the given code hash, if any. -/
def bytecodeByHash (st : AnvilState Bytecode) (codeHash : B256) : Option Bytecode :=
  st.bytecodes[codeHash]?

/-- The locally overridden storage for the given account and slot, if any. -/
def storage (st : AnvilState Bytecode) (address : Address) (slot : StorageKey) :
    Option StorageValue :=
  st.accounts[address]?.bind fun account => account.storage[slot]?

variable (st : AnvilState Bytecode) (address a : Address) (f : AccountOverride → AccountOverride)

theorem account_modifyEntry :
    (st.modifyEntry address f).account a =
      if a = address then some (f ((st.account address).getD default)) else st.account a := by
  exact Maps.getElem?_insert

@[simp] theorem account_modifyEntry_self :
    (st.modifyEntry address f).account address =
      some (f ((st.account address).getD default)) := by
  rw [account_modifyEntry, if_pos rfl]

variable {a} in
theorem account_modifyEntry_ne (h : a ≠ address) :
    (st.modifyEntry address f).account a = st.account a := by
  rw [account_modifyEntry, if_neg h]

/-- The overridden fields of an account, all absent where it has no entry. -/
def overrides (address : Address) : AccountOverride := (st.account address).getD default

theorem overrides_modifyEntry :
    (st.modifyEntry address f).overrides =
      Function.update st.overrides address (f (st.overrides address)) := by
  funext a
  rw [overrides, account_modifyEntry, Function.update_apply]
  split <;> rfl

/-- A change of an entry is none exactly if the entry is there and is its own image. -/
theorem modifyEntry_eq_self_iff :
    st.modifyEntry address f = st ↔ st.account address = some (f (st.overrides address)) := by
  constructor
  · intro h
    have hself := st.account_modifyEntry_self address f
    rwa [h] at hself
  · intro h
    exact congrArg (fun accounts => { st with accounts }) (Maps.insert_eq_self_iff.mpr h)

variable {st} in
/-- A change that restores the one entry it touches has changed nothing else. -/
theorem eq_of_modifyEntry_eq {st' : AnvilState Bytecode} (h : st'.modifyEntry address f = st)
    (ha : st'.account address = st.account address) : st' = st := by
  ext1 b
  · by_cases hb : b = address
    · rw [hb]
      exact ha
    · have hne := account_modifyEntry_ne st' address f hb
      rw [h] at hne
      exact hne.symm
  · change (st'.modifyEntry address f).bytecodes[b]? = _
    rw [h]

variable {a} in
/-- An account with an overridden balance has an entry. -/
theorem account_of_balance {balance : U256} (h : (st.overrides a).balance = some balance) :
    st.account a = some (st.overrides a) := by
  unfold overrides at h ⊢
  cases ha : st.account a with
  | some account => rfl
  | none =>
    rw [ha] at h
    cases h

theorem account_bind_balance :
    (st.account address).bind AccountOverride.balance = (st.overrides address).balance := by
  unfold overrides
  cases st.account address <;> rfl

theorem account_bind_nonce :
    (st.account address).bind AccountOverride.nonce = (st.overrides address).nonce := by
  unfold overrides
  cases st.account address <;> rfl

@[simp] theorem overrides_storeBytecode (hash : B256) (bytecode : Bytecode) :
    (st.storeBytecode hash bytecode).overrides = st.overrides := rfl

theorem bytecodeByHash_storeBytecode (hash h : B256) (bytecode : Bytecode) :
    (st.storeBytecode hash bytecode).bytecodeByHash h =
      if h = hash then some bytecode else st.bytecodeByHash h :=
  Maps.getElem?_insert

theorem storage_eq (slot : StorageKey) : st.storage a slot = (st.overrides a).storage[slot]? := by
  change (st.account a).bind _ = _
  unfold overrides
  cases st.account a with
  | none => exact ExtTreeMap.getElem?_empty.symm
  | some account => rfl

/-- Changes of one entry compose. -/
theorem modifyEntry_modifyEntry (g : AccountOverride → AccountOverride) :
    (st.modifyEntry address f).modifyEntry address g = st.modifyEntry address (g ∘ f) := by
  ext1
  · rename_i a
    change ((st.modifyEntry address f).modifyEntry address g).account a =
      (st.modifyEntry _ _).account a
    simp only [account_modifyEntry, if_true, Option.getD_some, Function.comp]
    split <;> rfl
  · rfl

/-- Changes of different entries do not see each other. -/
theorem modifyEntry_comm {b : Address} (h : a ≠ b) (g : AccountOverride → AccountOverride) :
    (st.modifyEntry a f).modifyEntry b g = (st.modifyEntry b g).modifyEntry a f := by
  ext1
  · rename_i c
    change ((st.modifyEntry a f).modifyEntry b g).account c =
      ((st.modifyEntry b g).modifyEntry a f).account c
    simp only [account_modifyEntry]
    grind
  · rfl

/-- What an accepted code override does: it points the account at the hash of
the code, which is that of the empty code or has just been stored. -/
theorem setCode_cases [Code Bytecode] {st st' : AnvilState Bytecode} {a : Address} {code : Bytes}
    (h : st.setCode a code = some st') :
    (code = [] ∧ st' = st.modifyEntry a fun account =>
      { account with code := some { hash := keccakEmpty Bytecode } }) ∨
    (code ≠ [] ∧ ∃ bytecode, newRaw code = some bytecode ∧
      st' = (st.storeBytecode (keccak256 Bytecode code) bytecode).modifyEntry a fun account =>
        { account with code := some { hash := keccak256 Bytecode code } }) := by
  unfold setCode at h
  split at h
  · rename_i he
    exact Or.inl ⟨List.isEmpty_iff.mp he, (Option.some.inj h).symm⟩
  · rename_i he
    obtain ⟨bytecode, hb, rfl⟩ := Option.map_eq_some_iff.mp h
    exact Or.inr ⟨fun hc => he (List.isEmpty_iff.mpr hc), bytecode, hb, rfl⟩

end AnvilState

/-- One request that overrides a field. -/
inductive Override where
  | setBalance (address : Address) (balance : U256)
  | setNonce (address : Address) (nonce : U64)
  | setCode (address : Address) (code : Bytes)
  | setStorageAt (address : Address) (slot : StorageKey) (value : StorageValue)
  deriving DecidableEq

/-- The setter an override request calls; `none` when it panics. -/
def Override.apply {Bytecode : Type} [Code Bytecode] (st : AnvilState Bytecode) :
    Override → Option (AnvilState Bytecode)
  | setBalance address balance => some (st.setBalance address balance)
  | setNonce address nonce => some (st.setNonce address nonce)
  | setCode address code => st.setCode address code
  | setStorageAt address slot value => some (st.setStorageAt address slot value)

end AnvilReth
