import AnvilReth.State.Basic

/-! # State providers and the override layer

A state provider answers account, storage and bytecode reads and may fail.
`AnvilStateProvider` lays the local overrides over an inner provider and is a
state provider itself. What a client sees of a provider are the four readers
`balance`, `nonce`, `code` and `slot`, in which a missing account or slot
counts as empty.
-/

namespace AnvilReth

open Std

structure Account where
  nonce : U64 := 0
  balance : U256 := 0
  bytecodeHash : Option B256 := none
  deriving DecidableEq

instance : Inhabited Account := ⟨{}⟩

abbrev ProviderError := String

abbrev ProviderResult := Except ProviderError

/-- The reads of a state provider that the overrides take part in. -/
structure StateProvider (Bytecode : Type) where
  basicAccount : Address → ProviderResult (Option Account)
  storage : Address → StorageKey → ProviderResult (Option StorageValue)
  bytecodeByHash : B256 → ProviderResult (Option Bytecode)

namespace StateProvider

variable {Bytecode : Type} (p : StateProvider Bytecode)

def balance (address : Address) : ProviderResult U256 := do
  return ((← p.basicAccount address).getD default).balance

def nonce (address : Address) : ProviderResult U64 := do
  return ((← p.basicAccount address).getD default).nonce

/-- The code bytes of an account. The empty code hash stands for empty code. -/
def code [Code Bytecode] (address : Address) : ProviderResult Bytes := do
  match ((← p.basicAccount address).getD default).bytecodeHash with
  | none => return []
  | some hash =>
    if hash = keccakEmpty Bytecode then
      return []
    else
      return ((← p.bytecodeByHash hash).map originalBytes).getD []

def slot (address : Address) (key : StorageKey) : ProviderResult U256 := do
  return (← p.storage address key).getD 0

variable {p} {address : Address} {account : Option Account}

theorem balance_of_basicAccount (h : p.basicAccount address = .ok account) :
    p.balance address = .ok (account.getD default).balance := by
  rw [balance, h]
  rfl

theorem nonce_of_basicAccount (h : p.basicAccount address = .ok account) :
    p.nonce address = .ok (account.getD default).nonce := by
  rw [nonce, h]
  rfl

/-- The read of a code goes on from the account's code hash. -/
theorem code_of_basicAccount [Code Bytecode] (h : p.basicAccount address = .ok account) :
    p.code address = (account.getD default).bytecodeHash.elim (.ok []) fun hash =>
      if hash = keccakEmpty Bytecode then .ok []
      else (p.bytecodeByHash hash).map fun found => (found.map originalBytes).getD [] := by
  rw [code, h]
  change (match (account.getD default).bytecodeHash with
    | none => _
    | some hash => _) = _
  cases (account.getD default).bytecodeHash with
  | none => rfl
  | some hash =>
    rw [Option.elim_some]
    dsimp only
    split
    · rfl
    · cases p.bytecodeByHash hash <;> rfl

theorem code_of_basicAccount_none [Code Bytecode] (h : p.basicAccount address = .ok account)
    (hc : (account.getD default).bytecodeHash = none) : p.code address = .ok [] := by
  rw [code_of_basicAccount h, hc]
  rfl

theorem code_of_basicAccount_some [Code Bytecode] (h : p.basicAccount address = .ok account)
    {hash : B256} (hc : (account.getD default).bytecodeHash = some hash)
    {found : Option Bytecode} (hf : p.bytecodeByHash hash = .ok found) :
    p.code address =
      .ok (if hash = keccakEmpty Bytecode then [] else (found.map originalBytes).getD []) := by
  rw [code_of_basicAccount h, hc, Option.elim_some, hf]
  split <;> rfl

theorem code_of_empty [Code Bytecode] (h : p.basicAccount address = .ok account)
    (hc : (account.getD default).bytecodeHash = some (keccakEmpty Bytecode)) :
    p.code address = .ok [] := by
  rw [code_of_basicAccount h, hc]
  exact if_pos rfl

/-- A readable balance means a readable account. -/
theorem basicAccount_of_balance {balance : U256} (h : p.balance address = .ok balance) :
    ∃ account, p.basicAccount address = .ok account := by
  unfold StateProvider.balance at h
  cases hb : p.basicAccount address with
  | error e =>
    rw [hb] at h
    cases h
  | ok account => exact ⟨account, rfl⟩

theorem basicAccount_of_nonce {nonce : U64} (h : p.nonce address = .ok nonce) :
    ∃ account, p.basicAccount address = .ok account := by
  unfold StateProvider.nonce at h
  cases hb : p.basicAccount address with
  | error e =>
    rw [hb] at h
    cases h
  | ok account => exact ⟨account, rfl⟩

end StateProvider

/-- The override layer over an inner provider. -/
structure AnvilStateProvider (Bytecode : Type) where
  state : AnvilState Bytecode
  inner : StateProvider Bytecode

namespace AnvilStateProvider

variable {Bytecode : Type} (p : AnvilStateProvider Bytecode)

/-- The account read: overridden fields replace those of the inner account. -/
def basicAccount (address : Address) : ProviderResult (Option Account) :=
  match p.state.account address with
  | none => p.inner.basicAccount address
  | some accountOverride => do
    let account := (← p.inner.basicAccount address).getD default
    let account := match accountOverride.balance with
      | some balance => { account with balance }
      | none => account
    let account := match accountOverride.nonce with
      | some nonce => { account with nonce }
      | none => account
    let account := match accountOverride.codeHash with
      | some codeHash => { account with bytecodeHash := some codeHash }
      | none => account
    return some account

def storage (address : Address) (key : StorageKey) : ProviderResult (Option StorageValue) :=
  match p.state.storage address key with
  | some value => .ok (some value)
  | none => p.inner.storage address key

def bytecodeByHash (codeHash : B256) : ProviderResult (Option Bytecode) :=
  match p.state.bytecodeByHash codeHash with
  | some bytecode => .ok (some bytecode)
  | none => p.inner.bytecodeByHash codeHash

/-- The override layer as a state provider. -/
def toStateProvider : StateProvider Bytecode where
  basicAccount := p.basicAccount
  storage := p.storage
  bytecodeByHash := p.bytecodeByHash

variable {p} {address : Address} {account : Account}

/-- Over a successful inner read the account read never fails, and each field
is the override if there is one. -/
theorem basicAccount_eq {inner : Option Account} (h : p.inner.basicAccount address = .ok inner) :
    ∃ shown, p.basicAccount address = .ok shown ∧
      (shown.getD default).balance =
        (p.state.overrides address).balance.getD (inner.getD default).balance ∧
      (shown.getD default).nonce =
        (p.state.overrides address).nonce.getD (inner.getD default).nonce ∧
      (shown.getD default).bytecodeHash =
        (p.state.overrides address).codeHash.or (inner.getD default).bytecodeHash := by
  unfold basicAccount AnvilState.overrides
  cases p.state.account address with
  | none => exact ⟨inner, h, rfl, rfl, rfl⟩
  | some o =>
    simp only [h, Option.getD_some]
    refine ⟨_, rfl, ?_⟩
    cases o.balance <;> cases o.nonce <;> cases o.codeHash <;> simp

theorem bytecodeByHash_of_stored {hash : B256} {bytecode : Bytecode}
    (h : p.state.bytecodeByHash hash = some bytecode) :
    p.bytecodeByHash hash = .ok (some bytecode) := by
  rw [bytecodeByHash, h]

end AnvilStateProvider

end AnvilReth
