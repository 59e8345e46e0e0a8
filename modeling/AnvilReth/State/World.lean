import Mathlib.Data.Set.Function
import Mathlib.Logic.Function.Basic
import AnvilReth.State.Fields

/-! # The world a state provider shows

A world is a plain assignment of balances, nonces, code bytes and slots. The
override state acts on worlds by replacing the overridden fields, an override
request by one update, and the layered provider shows the world the overrides
make of the inner one.
-/

namespace AnvilReth

/-- Balance, nonce, code bytes and storage of every address. -/
@[ext] structure World where
  balance : Address → U256
  nonce : Address → U64
  code : Address → Bytes
  storage : Address → StorageKey → U256

/-- The empty chain: no account exists. -/
def World.empty : World where
  balance _ := 0
  nonce _ := 0
  code _ := []
  storage _ _ := 0

/-- The provider answers every read with the world's value. -/
structure StateProvider.Shows {Bytecode : Type} [Code Bytecode] (p : StateProvider Bytecode)
    (w : World) : Prop where
  balance : ∀ address, p.balance address = .ok (w.balance address)
  nonce : ∀ address, p.nonce address = .ok (w.nonce address)
  code : ∀ address, p.code address = .ok (w.code address)
  slot : ∀ address key, p.slot address key = .ok (w.storage address key)

/-- The write an override request stands for. -/
def Override.write (w : World) : Override → World
  | setBalance address balance => { w with balance := Function.update w.balance address balance }
  | setNonce address nonce => { w with nonce := Function.update w.nonce address nonce }
  | setCode address code => { w with code := Function.update w.code address code }
  | setStorageAt address slot value =>
    let slots := Function.update (w.storage address) slot value
    { w with storage := Function.update w.storage address slots }

/-- The code bytes an override request brings in. -/
def Override.codes : Override → Set Bytes
  | setCode _ code => {code}
  | _ => ∅

/-- `Bytecode::original_bytes` gives back what `Bytecode::new_raw` accepted. -/
class LawfulCode (Bytecode : Type) [Code Bytecode] : Prop where
  originalBytes_newRaw : ∀ {code : Bytes} {bytecode : Bytecode},
    newRaw code = some bytecode → originalBytes bytecode = code

export LawfulCode (originalBytes_newRaw)

variable {Bytecode : Type} [Code Bytecode]

/-- No two different codes of the set have one hash. -/
def NoCollision (Bytecode : Type) [Code Bytecode] (codes : Set Bytes) : Prop :=
  Set.InjOn (keccak256 Bytecode) codes

/-- A code store maps hashes to codes of the set that have them. -/
def StoresCodes (lookup : B256 → Option Bytecode) (codes : Set Bytes) : Prop :=
  ∀ hash bytecode, lookup hash = some bytecode →
    originalBytes bytecode ∈ codes ∧ keccak256 Bytecode (originalBytes bytecode) = hash

/-- A provider whose code store is consistent and complete for its accounts. -/
structure StateProvider.CodeSound (p : StateProvider Bytecode) (codes : Set Bytes) : Prop where
  stored : ∀ hash, ∃ found, p.bytecodeByHash hash = .ok found ∧
    ∀ bytecode, found = some bytecode →
      originalBytes bytecode ∈ codes ∧ keccak256 Bytecode (originalBytes bytecode) = hash
  resolved : ∀ address account hash, p.basicAccount address = .ok (some account) →
    account.bytecodeHash = some hash → hash ≠ keccakEmpty Bytecode →
      ∃ bytecode, p.bytecodeByHash hash = .ok (some bytecode)

theorem StateProvider.CodeSound.resolves {p : StateProvider Bytecode} {codes : Set Bytes}
    (hp : p.CodeSound codes) {address : Address} {account : Option Account}
    (ha : p.basicAccount address = .ok account) {hash : B256}
    (hc : (account.getD default).bytecodeHash = some hash) (he : hash ≠ keccakEmpty Bytecode) :
    ∃ bytecode, p.bytecodeByHash hash = .ok (some bytecode) := by
  cases account with
  | none => cases hc
  | some account => exact hp.resolved address account hash ha hc he

/-- The codes a provider shows are among those its store may hold. -/
theorem StateProvider.Shows.code_mem {p : StateProvider Bytecode} {w : World} {codes : Set Bytes}
    (hw : p.Shows w) (hp : p.CodeSound codes) (hnil : [] ∈ codes) (a : Address) :
    w.code a ∈ codes := by
  obtain ⟨account, h⟩ := StateProvider.basicAccount_of_balance (hw.balance a)
  cases hc : (account.getD default).bytecodeHash with
  | none =>
    have he := (StateProvider.code_of_basicAccount_none h hc).symm.trans (hw.code a)
    rwa [← Except.ok.inj he]
  | some hash =>
    obtain ⟨found, hf, hstored⟩ := hp.stored hash
    have he := (StateProvider.code_of_basicAccount_some h hc hf).symm.trans (hw.code a)
    rw [← Except.ok.inj he]
    split
    · exact hnil
    · cases found with
      | none => exact hnil
      | some bytecode => exact (hstored bytecode rfl).1

namespace AnvilState

variable (st : AnvilState Bytecode)

/-- The code bytes behind an overridden code hash. -/
def codeBytes (hash : B256) : Bytes :=
  if hash = keccakEmpty Bytecode then []
  else ((st.bytecodeByHash hash).map originalBytes).getD []

/-- The world with the overridden fields replaced. -/
def overlay (w : World) : World where
  balance a := (st.overrides a).balance.getD (w.balance a)
  nonce a := (st.overrides a).nonce.getD (w.nonce a)
  code a := ((st.overrides a).codeHash.map st.codeBytes).getD (w.code a)
  storage a k := (st.overrides a).storage[k]?.getD (w.storage a k)

/-- The bytecodes are stored under their hashes, and every overridden code hash
is that of the empty code or stored. -/
structure CodeSound (codes : Set Bytes) : Prop where
  stored : StoresCodes st.bytecodeByHash codes
  resolved : ∀ a hash, (st.overrides a).codeHash = some hash →
    hash = keccakEmpty Bytecode ∨ ∃ bytecode, st.bytecodeByHash hash = some bytecode

theorem codeSound_empty (codes : Set Bytes) : CodeSound ({} : AnvilState Bytecode) codes where
  stored hash bytecode h := by
    simp [bytecodeByHash] at h
  resolved a hash h := by
    have hd : (({} : AnvilState Bytecode).overrides a).codeHash = none := rfl
    rw [hd] at h
    cases h

variable {st} {w : World} {codes : Set Bytes}

theorem codeBytes_of_stored {hash : B256} {bytecode : Bytecode} (hn : hash ≠ keccakEmpty Bytecode)
    (h : st.bytecodeByHash hash = some bytecode) : st.codeBytes hash = originalBytes bytecode := by
  rw [codeBytes, if_neg hn, h]
  rfl

theorem CodeSound.code_mem (hs : st.CodeSound codes) (hnil : [] ∈ codes)
    (hw : ∀ a, w.code a ∈ codes) (a : Address) : (st.overlay w).code a ∈ codes := by
  simp only [overlay]
  cases (st.overrides a).codeHash with
  | none => exact hw a
  | some hash =>
    simp only [Option.map_some, Option.getD_some, codeBytes]
    split
    · exact hnil
    · cases hb : st.bytecodeByHash hash with
      | none => exact hnil
      | some bytecode => exact (hs.stored hash bytecode hb).1

/-- The code behind a resolved hash is the code that has it. -/
theorem CodeSound.codeBytes_keccak (hs : st.CodeSound codes) (hn : NoCollision Bytecode codes)
    (hnil : [] ∈ codes) {code : Bytes} (hc : code ∈ codes)
    (hr : keccak256 Bytecode code = keccakEmpty Bytecode ∨
      ∃ bytecode, st.bytecodeByHash (keccak256 Bytecode code) = some bytecode) :
    st.codeBytes (keccak256 Bytecode code) = code := by
  by_cases he : keccak256 Bytecode code = keccakEmpty Bytecode
  · rw [codeBytes, if_pos he]
    exact (hn hc hnil he).symm
  · obtain ⟨bytecode, hb⟩ := hr.resolve_left he
    obtain ⟨hm, hk⟩ := hs.stored _ bytecode hb
    rw [codeBytes_of_stored he hb]
    exact hn hm hc hk

/-- Changing one entry changes the world at that address only. -/
theorem overlay_modifyEntry (a : Address) (f : AccountOverride → AccountOverride) :
    (st.modifyEntry a f).overlay w =
      let o := f (st.overrides a)
      { balance := Function.update (st.overlay w).balance a (o.balance.getD (w.balance a))
        nonce := Function.update (st.overlay w).nonce a (o.nonce.getD (w.nonce a))
        code := Function.update (st.overlay w).code a
          ((o.codeHash.map st.codeBytes).getD (w.code a))
        storage := Function.update (st.overlay w).storage a
          fun k => o.storage[k]?.getD (w.storage a k) } := by
  have hc : (st.modifyEntry a f).codeBytes = st.codeBytes := rfl
  ext1 <;> funext b <;>
    simp only [overlay, hc, overrides_modifyEntry, Function.update_apply] <;>
    split <;> simp_all

theorem overlay_setBalance (a : Address) (v : U256) :
    (st.setBalance a v).overlay w = (Override.setBalance a v).write (st.overlay w) := by
  rw [setBalance, overlay_modifyEntry]
  ext1
  · rfl
  · exact Function.update_eq_self a (st.overlay w).nonce
  · exact Function.update_eq_self a (st.overlay w).code
  · exact Function.update_eq_self a (st.overlay w).storage

theorem overlay_setNonce (a : Address) (n : U64) :
    (st.setNonce a n).overlay w = (Override.setNonce a n).write (st.overlay w) := by
  rw [setNonce, overlay_modifyEntry]
  ext1
  · exact Function.update_eq_self a (st.overlay w).balance
  · rfl
  · exact Function.update_eq_self a (st.overlay w).code
  · exact Function.update_eq_self a (st.overlay w).storage

theorem overlay_setStorageAt (a : Address) (k : StorageKey) (v : StorageValue) :
    (st.setStorageAt a k v).overlay w = (Override.setStorageAt a k v).write (st.overlay w) := by
  rw [setStorageAt, overlay_modifyEntry]
  ext1
  · exact Function.update_eq_self a (st.overlay w).balance
  · exact Function.update_eq_self a (st.overlay w).nonce
  · exact Function.update_eq_self a (st.overlay w).code
  · change Function.update _ a _ = Function.update _ a _
    congr 1
    funext j
    rw [Maps.getElem?_insert, Function.update_apply]
    split <;> rfl

/-- Storing a bytecode under its hash changes no code that was already there. -/
theorem overlay_storeBytecode (hs : st.CodeSound codes) (hn : NoCollision Bytecode codes)
    {bytecode : Bytecode} (hb : originalBytes bytecode ∈ codes) :
    (st.storeBytecode (keccak256 Bytecode (originalBytes bytecode)) bytecode).overlay w =
      st.overlay w := by
  ext1
  · rfl
  · rfl
  · funext a
    simp only [overlay, overrides_storeBytecode]
    cases ho : (st.overrides a).codeHash with
    | none => rfl
    | some hash =>
      simp only [Option.map_some, Option.getD_some, codeBytes, bytecodeByHash_storeBytecode]
      by_cases he : hash = keccakEmpty Bytecode
      · rw [if_pos he, if_pos he]
      · obtain ⟨old, hold⟩ := (hs.resolved a hash ho).resolve_left he
        obtain ⟨hm, hk⟩ := hs.stored hash old hold
        rw [if_neg he, if_neg he]
        split
        · rename_i heq
          rw [hold]
          exact hn hb hm (heq.symm.trans hk.symm)
        · rfl
  · rfl

/-- Changing an entry keeps the code store sound if the new code hash resolves. -/
theorem CodeSound.modifyEntry (hs : st.CodeSound codes) {a : Address}
    {f : AccountOverride → AccountOverride}
    (hf : ∀ hash, (f (st.overrides a)).codeHash = some hash →
      hash = keccakEmpty Bytecode ∨ ∃ bytecode, st.bytecodeByHash hash = some bytecode) :
    (st.modifyEntry a f).CodeSound codes where
  stored := hs.stored
  resolved b hash h := by
    rw [overrides_modifyEntry, Function.update_apply] at h
    split at h
    · exact hf hash h
    · exact hs.resolved b hash h

theorem CodeSound.storeBytecode (hs : st.CodeSound codes) {bytecode : Bytecode}
    (hb : originalBytes bytecode ∈ codes) :
    (st.storeBytecode (keccak256 Bytecode (originalBytes bytecode)) bytecode).CodeSound codes where
  stored hash found h := by
    rw [bytecodeByHash_storeBytecode] at h
    split at h
    · rename_i he
      obtain rfl := Option.some.inj h
      exact ⟨hb, he.symm⟩
    · exact hs.stored hash found h
  resolved a hash h := by
    rw [bytecodeByHash_storeBytecode]
    rcases hs.resolved a hash h with he | ⟨old, hold⟩
    · exact Or.inl he
    · by_cases he : hash = keccak256 Bytecode (originalBytes bytecode)
      · exact Or.inr ⟨bytecode, if_pos he⟩
      · exact Or.inr ⟨old, by rw [if_neg he, hold]⟩

variable [LawfulCode Bytecode]

theorem CodeSound.setCode (hs : st.CodeSound codes) {st' : AnvilState Bytecode} {a : Address}
    {code : Bytes} (hc : code ∈ codes) (h : st.setCode a code = some st') :
    st'.CodeSound codes := by
  rcases setCode_cases h with ⟨-, rfl⟩ | ⟨-, bytecode, hb, rfl⟩
  · exact hs.modifyEntry fun hash hh => Or.inl (Option.some.inj hh).symm
  · obtain rfl := originalBytes_newRaw hb
    refine (hs.storeBytecode hc).modifyEntry fun hash hh => Or.inr ⟨bytecode, ?_⟩
    rw [bytecodeByHash_storeBytecode, if_pos (Option.some.inj hh).symm]

theorem overlay_setCode (hs : st.CodeSound codes) (hn : NoCollision Bytecode codes)
    (hnil : [] ∈ codes) {st' : AnvilState Bytecode} {a : Address} {code : Bytes}
    (hc : code ∈ codes) (h : st.setCode a code = some st') :
    st'.overlay w = (Override.setCode a code).write (st.overlay w) := by
  rcases setCode_cases h with ⟨rfl, rfl⟩ | ⟨hne, bytecode, hb, rfl⟩
  · rw [overlay_modifyEntry]
    ext1
    · exact Function.update_eq_self a (st.overlay w).balance
    · exact Function.update_eq_self a (st.overlay w).nonce
    · refine congrArg (Function.update (st.overlay w).code a) ?_
      exact if_pos rfl
    · exact Function.update_eq_self a (st.overlay w).storage
  · obtain rfl := originalBytes_newRaw hb
    have hstore := overlay_storeBytecode (w := w) hs hn hc
    have hk : keccak256 Bytecode (originalBytes bytecode) ≠ keccakEmpty Bytecode :=
      fun he => hne (hn hc hnil he)
    rw [overlay_modifyEntry, hstore]
    ext1
    · exact Function.update_eq_self a (st.overlay w).balance
    · exact Function.update_eq_self a (st.overlay w).nonce
    · refine congrArg (Function.update (st.overlay w).code a) ?_
      exact codeBytes_of_stored hk (by rw [bytecodeByHash_storeBytecode, if_pos rfl])
    · exact Function.update_eq_self a (st.overlay w).storage

/-- An override request that is not refused acts on the world as its write, and
keeps the code store sound. -/
theorem overlay_apply (hs : st.CodeSound codes) (hn : NoCollision Bytecode codes)
    (hnil : [] ∈ codes) {o : Override} (ho : o.codes ⊆ codes) {st' : AnvilState Bytecode}
    (h : o.apply st = some st') :
    st'.overlay w = o.write (st.overlay w) ∧ st'.CodeSound codes := by
  cases o with
  | setBalance a v =>
    obtain rfl := Option.some.inj h
    exact ⟨overlay_setBalance a v, hs.modifyEntry fun hash hh => hs.resolved a hash hh⟩
  | setNonce a n =>
    obtain rfl := Option.some.inj h
    exact ⟨overlay_setNonce a n, hs.modifyEntry fun hash hh => hs.resolved a hash hh⟩
  | setCode a code =>
    have hc : code ∈ codes := ho (Set.mem_singleton code)
    exact ⟨overlay_setCode hs hn hnil hc h, hs.setCode hc h⟩
  | setStorageAt a k v =>
    obtain rfl := Option.some.inj h
    exact ⟨overlay_setStorageAt a k v, hs.modifyEntry fun hash hh => hs.resolved a hash hh⟩

/-- A sequence of override requests acts on the world as their writes in order. -/
theorem overlay_path (hn : NoCollision Bytecode codes) (hnil : [] ∈ codes) {os : List Override}
    (hos : ∀ o ∈ os, o.codes ⊆ codes) (hs : st.CodeSound codes) {st' : AnvilState Bytecode}
    (h : Transition.path (fun st o => Override.apply st o) st os = some st') :
    st'.overlay w = os.foldl Override.write (st.overlay w) ∧ st'.CodeSound codes := by
  induction os generalizing st with
  | nil =>
    obtain rfl := Option.some.inj h
    exact ⟨rfl, hs⟩
  | cons o os ih =>
    obtain ⟨mid, hm, h⟩ := Transition.path_cons_iff.mp h
    obtain ⟨hw, hs'⟩ := overlay_apply (w := w) hs hn hnil (hos o List.mem_cons_self) hm
    rw [List.foldl_cons, ← hw]
    exact ih (fun o ho => hos o (List.mem_cons_of_mem _ ho)) hs' h

end AnvilState

namespace AnvilStateProvider

variable {p : AnvilStateProvider Bytecode} {codes : Set Bytes}

/-- Where the inner provider resolves a code hash, the layered one finds a
bytecode with the same original bytes: a locally stored one has the same hash. -/
theorem bytecodeByHash_of_inner (hi : p.inner.CodeSound codes) (hs : p.state.CodeSound codes)
    (hn : NoCollision Bytecode codes) {hash : B256} {bytecode : Bytecode}
    (h : p.inner.bytecodeByHash hash = .ok (some bytecode)) :
    ∃ found, p.bytecodeByHash hash = .ok (some found) ∧
      originalBytes found = originalBytes bytecode := by
  cases hl : p.state.bytecodeByHash hash with
  | none => exact ⟨bytecode, by rw [bytecodeByHash, hl]; exact h, rfl⟩
  | some found =>
    obtain ⟨hm, hk⟩ := hs.stored hash found hl
    obtain ⟨inner, hinner, hstored⟩ := hi.stored hash
    obtain rfl := Except.ok.inj (hinner.symm.trans h)
    obtain ⟨hm', hk'⟩ := hstored bytecode rfl
    exact ⟨found, bytecodeByHash_of_stored hl, hn hm hm' (hk.trans hk'.symm)⟩

/-- The override layer shows the world its overrides make of the inner one. -/
theorem shows_overlay {w : World} (hw : p.inner.Shows w) (hi : p.inner.CodeSound codes)
    (hs : p.state.CodeSound codes) (hn : NoCollision Bytecode codes) :
    p.toStateProvider.Shows (p.state.overlay w) where
  balance a := read_eq (f := .balance a) (hw.balance a)
  nonce a := read_eq (f := .nonce a) (hw.nonce a)
  slot a k := read_eq (f := .slot a k) (hw.slot a k)
  code a := by
    obtain ⟨inner, h⟩ := StateProvider.basicAccount_of_balance (hw.balance a)
    obtain ⟨shown, hp, -, -, hb⟩ := basicAccount_eq h
    have hwa := hw.code a
    cases ho : (p.state.overrides a).codeHash with
    | some hash =>
      rw [ho, Option.some_or] at hb
      simp only [AnvilState.overlay, ho, Option.map_some, Option.getD_some, AnvilState.codeBytes]
      rcases hs.resolved a hash ho with he | ⟨bytecode, hst⟩
      · rw [StateProvider.code_of_empty (p := p.toStateProvider) hp (he ▸ hb), if_pos he]
      · rw [StateProvider.code_of_basicAccount_some (p := p.toStateProvider) hp hb
          (bytecodeByHash_of_stored hst), hst]
    | none =>
      rw [ho, Option.none_or] at hb
      simp only [AnvilState.overlay, ho, Option.map_none, Option.getD_none]
      rw [← hwa]
      cases hc : (inner.getD default).bytecodeHash with
      | none =>
        rw [StateProvider.code_of_basicAccount_none h hc]
        exact StateProvider.code_of_basicAccount_none (p := p.toStateProvider) hp (hb.trans hc)
      | some hash =>
        by_cases he : hash = keccakEmpty Bytecode
        · rw [he] at hc
          rw [StateProvider.code_of_empty h hc]
          exact StateProvider.code_of_empty (p := p.toStateProvider) hp (hb.trans hc)
        · obtain ⟨bytecode, hfound⟩ := hi.resolves h hc he
          obtain ⟨found, hf, hbytes⟩ := bytecodeByHash_of_inner hi hs hn hfound
          rw [StateProvider.code_of_basicAccount_some h hc hfound,
            StateProvider.code_of_basicAccount_some (p := p.toStateProvider) hp (hb.trans hc) hf]
          simp only [Option.map_some, hbytes]

end AnvilStateProvider

end AnvilReth
