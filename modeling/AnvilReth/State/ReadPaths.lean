import AnvilReth.State.Memory

/-! # The read paths of the override layer

An account and its slots can be read from the override layer itself, from the
provider it hands out as a reference, and from the proofs it gives. Only the
first of the three goes through the overrides.
-/

namespace AnvilReth

structure StorageProof where
  key : StorageKey
  value : StorageValue

/-- A proof with the account and the slots it is about; the tries are left out. -/
structure AccountProof where
  info : Option Account
  storageProofs : List StorageProof

/-- A state provider that gives proofs, which may depend on some trie input. -/
structure ProvingProvider (Bytecode TrieInput : Type) extends StateProvider Bytecode where
  proof : TrieInput → Address → List StorageKey → ProviderResult AccountProof

/-- What a client sees of an account. An absent account is an empty one. -/
structure AccountView where
  balance : U256
  nonce : U64
  codeHash : B256
  deriving DecidableEq

def AccountView.of (Bytecode : Type) [Code Bytecode] (account : Option Account) : AccountView where
  balance := (account.getD default).balance
  nonce := (account.getD default).nonce
  codeHash := (account.getD default).bytecodeHash.getD (keccakEmpty Bytecode)

variable {Bytecode TrieInput : Type} [Code Bytecode]

/-- The account and slot reads give this account and these values. -/
structure StateProvider.Reads (p : StateProvider Bytecode) (address : Address)
    (slots : List StorageKey) (view : AccountView) (value : StorageKey → U256) : Prop where
  account : ∃ account, p.basicAccount address = .ok account ∧ AccountView.of Bytecode account = view
  slot : ∀ key ∈ slots, p.slot address key = .ok (value key)

/-- The proof for an account and some slots reports this account and these values. -/
def ProvingProvider.Proves (p : ProvingProvider Bytecode TrieInput) (input : TrieInput)
    (address : Address) (slots : List StorageKey) (view : AccountView)
    (value : StorageKey → U256) : Prop :=
  ∃ proof, p.proof input address slots = .ok proof ∧
    AccountView.of Bytecode proof.info = view ∧
    proof.storageProofs = slots.map fun key => { key, value := value key }

/-- What is read twice is the same. -/
theorem StateProvider.Reads.unique {p : StateProvider Bytecode} {address : Address}
    {slots : List StorageKey} {view view' : AccountView} {value value' : StorageKey → U256}
    (h : p.Reads address slots view value) (h' : p.Reads address slots view' value') :
    view = view' ∧ ∀ key ∈ slots, value key = value' key := by
  obtain ⟨account, ha, hv⟩ := h.account
  obtain ⟨account', ha', hv'⟩ := h'.account
  obtain rfl := Except.ok.inj (ha.symm.trans ha')
  refine ⟨hv.symm.trans hv', fun key hk => ?_⟩
  exact Except.ok.inj ((h.slot key hk).symm.trans (h'.slot key hk))

/-- The override layer over a provider that gives proofs. -/
structure AnvilProvingProvider (Bytecode TrieInput : Type) where
  state : AnvilState Bytecode
  inner : ProvingProvider Bytecode TrieInput

namespace AnvilProvingProvider

variable (p : AnvilProvingProvider Bytecode TrieInput)

/-- The reference that is handed out is the inner provider. -/
def asRef : ProvingProvider Bytecode TrieInput := p.inner

def proof (input : TrieInput) (address : Address) (slots : List StorageKey) :
    ProviderResult AccountProof :=
  p.inner.proof input address slots

/-- The reads go through the overrides, the proofs do not. -/
def toProvingProvider : ProvingProvider Bytecode TrieInput where
  toStateProvider := (AnvilStateProvider.mk p.state p.inner.toStateProvider).toStateProvider
  proof := p.proof

/-- All read paths show one account, and the same values of its slots. -/
def ReadsAlike (input : TrieInput) (address : Address) (slots : List StorageKey) : Prop :=
  ∃ view value,
    p.toProvingProvider.Reads address slots view value ∧
    p.asRef.Reads address slots view value ∧
    p.toProvingProvider.Proves input address slots view value

/-- The overrides of an account, as far as they are read, repeat what the inner
provider has. -/
structure Redundant (address : Address) (slots : List StorageKey) (view : AccountView)
    (value : StorageKey → U256) : Prop where
  balance : ∀ v, (p.state.overrides address).balance = some v → v = view.balance
  nonce : ∀ v, (p.state.overrides address).nonce = some v → v = view.nonce
  codeHash : ∀ v, (p.state.overrides address).codeHash = some v → v = view.codeHash
  slot : ∀ key ∈ slots, ∀ v, (p.state.overrides address).storage[key]? = some v → v = value key

variable {p} {input : TrieInput} {address : Address} {slots : List StorageKey}
  {view : AccountView} {value : StorageKey → U256}

/-- What the layer reads: the overrides where there are any. -/
theorem reads_overlay (h : p.inner.Reads address slots view value) :
    p.toProvingProvider.Reads address slots
      { balance := (p.state.overrides address).balance.getD view.balance
        nonce := (p.state.overrides address).nonce.getD view.nonce
        codeHash := (p.state.overrides address).codeHash.getD view.codeHash }
      fun key => (p.state.overrides address).storage[key]?.getD (value key) := by
  obtain ⟨account, ha, rfl⟩ := h.account
  obtain ⟨shown, hs, hb, hn, hc⟩ := AnvilStateProvider.basicAccount_eq
    (p := ⟨p.state, p.inner.toStateProvider⟩) ha
  refine ⟨⟨shown, hs, ?_⟩, fun key hk => ?_⟩
  · rw [AccountView.of, hb, hn, hc, AccountView.of, AccountView.mk.injEq]
    refine ⟨rfl, rfl, ?_⟩
    cases (p.state.overrides address).codeHash <;> rfl
  · exact AnvilStateProvider.read_eq (p := ⟨p.state, p.inner.toStateProvider⟩)
      (f := .slot address key) (h.slot key hk)

theorem getD_eq_iff {α : Type} {o : Option α} {a : α} : o.getD a = a ↔ ∀ v, o = some v → v = a := by
  cases o with
  | none => exact iff_of_true rfl nofun
  | some v => simp

/-- All read paths show the same exactly if the overrides say nothing new. -/
theorem readsAlike_iff (p : AnvilProvingProvider Bytecode TrieInput) (input : TrieInput)
    (address : Address) (slots : List StorageKey) (view : AccountView)
    (value : StorageKey → U256) (hr : p.inner.Reads address slots view value)
    (hp : p.inner.Proves input address slots view value) :
    p.ReadsAlike input address slots ↔ p.Redundant address slots view value := by
  have hlayer := reads_overlay hr
  constructor
  · rintro ⟨view', value', hdirect, href, -⟩
    obtain ⟨rfl, hvalue⟩ := hr.unique href
    obtain ⟨hview, hslots⟩ := hlayer.unique hdirect
    obtain ⟨hb, hn, hc⟩ := (AccountView.mk.injEq ..).mp hview
    refine ⟨getD_eq_iff.mp hb, getD_eq_iff.mp hn, getD_eq_iff.mp hc, fun key hk => ?_⟩
    exact getD_eq_iff.mp ((hslots key hk).trans (hvalue key hk).symm)
  · rintro ⟨hb, hn, hc, hs⟩
    rw [getD_eq_iff.mpr hb, getD_eq_iff.mpr hn, getD_eq_iff.mpr hc] at hlayer
    refine ⟨view, value, ⟨hlayer.account, fun key hk => ?_⟩, hr, hp⟩
    rw [hlayer.slot key hk, getD_eq_iff.mpr (hs key hk)]

/-- A provider without accounts, whose proofs report none. -/
def emptyProvider : ProvingProvider RawBytecode Unit where
  basicAccount _ := .ok none
  storage _ _ := .ok none
  bytecodeByHash _ := .ok none
  proof _ _ slots := .ok { info := none, storageProofs := slots.map fun key => ⟨key, 0⟩ }

theorem emptyProvider_reads (address : Address) (slots : List StorageKey) :
    emptyProvider.Reads address slots (.of RawBytecode none) fun _ => 0 :=
  ⟨⟨none, rfl, rfl⟩, fun _ _ => rfl⟩

theorem emptyProvider_proves (address : Address) (slots : List StorageKey) :
    emptyProvider.Proves () address slots (.of RawBytecode none) fun _ => 0 :=
  ⟨_, rfl, rfl, rfl⟩

/-- An override of another slot is not seen. -/
theorem readsAlike_iff_otherSlot :
    (AnvilProvingProvider.mk (({} : AnvilState RawBytecode).setStorageAt 1 7 5)
      emptyProvider).ReadsAlike () 1 [8] := by
  refine (readsAlike_iff _ () 1 [8] _ _ (emptyProvider_reads 1 [8])
    (emptyProvider_proves 1 [8])).mpr ⟨fun _ => nofun, fun _ => nofun, fun _ => nofun, ?_⟩
  intro key hk v hv
  obtain rfl := List.mem_singleton.mp hk
  have hnone : ((({} : AnvilState RawBytecode).setStorageAt 1 7 5).overrides 1).storage[
      (8 : StorageKey)]? = none := by decide
  rw [hnone] at hv
  cases hv

/-- An overridden balance is read directly and on no other path. -/
theorem balance_reads_differ :
    ¬ ∀ (p : AnvilProvingProvider RawBytecode Unit) (input : Unit) (address : Address)
      (slots : List StorageKey) (view : AccountView) (value : StorageKey → U256),
      p.inner.Reads address slots view value → p.inner.Proves input address slots view value →
      p.ReadsAlike input address slots := by
  intro h
  obtain ⟨view, value, hdirect, href, -⟩ := h
    ⟨({} : AnvilState RawBytecode).setBalance 1 5, emptyProvider⟩ () 1 [] _ _
    (emptyProvider_reads 1 []) (emptyProvider_proves 1 [])
  obtain ⟨account, ha, hview⟩ := hdirect.account
  obtain ⟨inner, hi, hinner⟩ := href.account
  cases ha
  cases hi
  exact absurd (congrArg AccountView.balance (hview.trans hinner.symm)) (by decide)

end AnvilProvingProvider

end AnvilReth
