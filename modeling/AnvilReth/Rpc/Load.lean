import Mathlib.Data.List.TakeWhile
import AnvilReth.Rpc.State

/-! # What the load loop does

Each account of a dump is replayed by one change of its entry and one bytecode
store. The loop replays the accounts up to the first one whose base account
cannot be read or whose code is refused, and stops there.
-/

namespace AnvilReth

open Std

/-- Slot overrides after a change of the entry are part of that change. -/
theorem AnvilState.foldl_setStorageAt {Bytecode : Type} (st : AnvilState Bytecode) (a : Address)
    (g : AccountOverride → AccountOverride) (l : List (B256 × B256)) :
    l.foldl (fun st e => st.setStorageAt a e.1 (B256.toU256 e.2)) (st.modifyEntry a g) =
      st.modifyEntry a fun account =>
        { g account with
          storage :=
            Maps.insertAll (g account).storage (l.map fun e => (e.1, B256.toU256 e.2)) } := by
  induction l generalizing g with
  | nil => rfl
  | cons e l ih =>
    rw [List.foldl_cons, setStorageAt, modifyEntry_modifyEntry, ih]
    rfl

/-- The nonce of the base account, where it can be read. -/
def baseNonce {Bytecode : Type} (provider : NodeProvider Bytecode) (a : Address) : U64 :=
  match provider.basicAccount a with
  | .ok account => (account.getD default).nonce
  | .error _ => 0

/-- The balance of the base account, where it can be read. -/
def baseBalance {Bytecode : Type} (provider : NodeProvider Bytecode) (a : Address) : U256 :=
  match provider.basicAccount a with
  | .ok account => (account.getD default).balance
  | .error _ => 0

theorem accountBalance_of_ok {Bytecode : Type} {provider : NodeProvider Bytecode}
    {st : AnvilState Bytecode} {a : Address} (h : (provider.basicAccount a).isOk = true) :
    accountBalance provider st a =
      .ok ((st.overrides a).balance.getD (baseBalance provider a)) := by
  rw [accountBalance, AnvilState.account_bind_balance, baseBalance]
  cases (st.overrides a).balance with
  | some balance => rfl
  | none =>
    cases hb : provider.basicAccount a with
    | ok account => rfl
    | error e =>
      rw [hb] at h
      cases h

theorem accountNonce_of_ok {Bytecode : Type} {provider : NodeProvider Bytecode}
    {st : AnvilState Bytecode} {a : Address} (h : (provider.basicAccount a).isOk = true) :
    accountNonce provider st a = .ok ((st.overrides a).nonce.getD (baseNonce provider a)) := by
  rw [accountNonce, AnvilState.account_bind_nonce, baseNonce]
  cases hb : provider.basicAccount a with
  | ok account => rfl
  | error e =>
    rw [hb] at h
    cases h

variable {Bytecode : Type} [Code Bytecode]

/-- The entry the write section makes of an account's entry. -/
def AccountOverride.load (Bytecode : Type) [Code Bytecode] (account : AccountOverride)
    (nonce : U64) (record : SerializableAccountRecord) : AccountOverride where
  balance := some record.balance
  nonce := some nonce
  code := some { hash := keccak256 Bytecode record.code }
  storage := Maps.insertAll account.storage
    (record.storage.toList.map fun e => (e.1, B256.toU256 e.2))

/-- The setter does not refuse the code. -/
def Accepted (Bytecode : Type) [Code Bytecode] (code : Bytes) : Prop :=
  code = [] ∨ (newRaw code : Option Bytecode).isSome

instance (code : Bytes) : Decidable (Accepted Bytecode code) :=
  inferInstanceAs (Decidable (_ ∨ _))

/-- The bytecode a code override stores, under its hash. -/
def codeEntry (Bytecode : Type) [Code Bytecode] (code : Bytes) : Option (B256 × Bytecode) :=
  if code.isEmpty then none
  else (newRaw code).map fun bytecode => (keccak256 Bytecode code, bytecode)

theorem codeEntry_eq_some {code : Bytes} {hash : B256} {bytecode : Bytecode} :
    codeEntry Bytecode code = some (hash, bytecode) ↔
      code ≠ [] ∧ newRaw code = some bytecode ∧ keccak256 Bytecode code = hash := by
  unfold codeEntry
  split
  · rename_i h
    simp [List.isEmpty_iff.mp h]
  · rename_i h
    rw [List.isEmpty_iff] at h
    constructor
    · intro he
      obtain ⟨found, hf, hp⟩ := Option.map_eq_some_iff.mp he
      obtain ⟨rfl, rfl⟩ := Prod.mk.inj hp
      exact ⟨h, hf, rfl⟩
    · rintro ⟨-, hf, rfl⟩
      exact Option.map_eq_some_iff.mpr ⟨bytecode, hf, rfl⟩

namespace AnvilState

variable (st : AnvilState Bytecode) (a : Address)

def storeCode (code : Bytes) : AnvilState Bytecode :=
  { st with bytecodes := Maps.insertAll st.bytecodes (codeEntry Bytecode code).toList }

theorem setCode_of_accepted {code : Bytes} (h : Accepted Bytecode code) :
    st.setCode a code = some ((st.storeCode code).modifyEntry a fun account =>
      { account with code := some { hash := keccak256 Bytecode code } }) := by
  unfold setCode storeCode codeEntry
  by_cases he : code = []
  · subst he
    rfl
  · obtain ⟨bytecode, hb⟩ := Option.isSome_iff_exists.mp (h.resolve_left he)
    rw [if_neg (by simpa using he), if_neg (by simpa using he), hb]
    rfl

theorem setCode_of_not_accepted {code : Bytes} (h : ¬ Accepted Bytecode code) :
    st.setCode a code = none := by
  simp only [Accepted, not_or, Option.not_isSome_iff_eq_none] at h
  rw [setCode, if_neg (by simpa using h.1)]
  exact Option.map_eq_none_iff.mpr h.2

end AnvilState

variable (st : AnvilState Bytecode) (a : Address) (nonce : U64)
  (record : SerializableAccountRecord)

theorem writeRecord_of_accepted (h : Accepted Bytecode record.code) :
    writeRecord st a nonce record =
      ((st.storeCode record.code).modifyEntry a fun account =>
        account.load Bytecode nonce record, true) := by
  have hstore : ((st.setBalance a record.balance).setNonce a nonce).storeCode record.code =
      ((st.storeCode record.code).setBalance a record.balance).setNonce a nonce := rfl
  simp only [writeRecord, AnvilState.setCode_of_accepted _ a h, hstore,
    AnvilState.foldl_setStorageAt]
  simp only [AnvilState.setNonce, AnvilState.setBalance, AnvilState.modifyEntry_modifyEntry]
  rfl

theorem writeRecord_of_not_accepted (h : ¬ Accepted Bytecode record.code) :
    writeRecord st a nonce record =
      ((st.setBalance a record.balance).setNonce a nonce, false) := by
  simp only [writeRecord, AnvilState.setCode_of_not_accepted _ a h]

section Loop

variable (provider : NodeProvider Bytecode)

/-- The nonce the loop gives an account: the current one if it is larger. -/
def loadedNonce (account : AccountOverride) (e : Address × SerializableAccountRecord) : U64 :=
  U64.max (account.nonce.getD (baseNonce provider e.1)) e.2.nonce

/-- The base account can be read and the code is accepted. -/
def Loadable (e : Address × SerializableAccountRecord) : Prop :=
  (provider.basicAccount e.1).isOk = true ∧ Accepted Bytecode e.2.code

instance : DecidablePred (Loadable provider) := fun _ => inferInstanceAs (Decidable (_ ∧ _))

/-- The state after the loop has written the accounts of a list. -/
def replay (st : AnvilState Bytecode) (l : List (Address × SerializableAccountRecord)) :
    AnvilState Bytecode where
  accounts := Maps.upsertAll
    (fun a account record =>
      let account := account.getD default
      account.load Bytecode (loadedNonce provider account (a, record)) record) st.accounts l
  bytecodes := Maps.insertAll st.bytecodes (l.filterMap fun e => codeEntry Bytecode e.2.code)

variable {provider} {st : AnvilState Bytecode} {e : Address × SerializableAccountRecord}
  {l : List (Address × SerializableAccountRecord)}

theorem loadAccounts_cons (h : Loadable provider e) :
    loadAccounts provider (e :: l) st = loadAccounts provider l (replay provider st [e]) := by
  obtain ⟨a, record⟩ := e
  rw [loadAccounts, accountNonce_of_ok h.1]
  simp only [writeRecord_of_accepted _ _ _ _ h.2]
  congr 1

theorem replay_append (l' : List (Address × SerializableAccountRecord)) :
    replay provider st (l ++ l') = replay provider (replay provider st l) l' := by
  simp only [replay, Maps.insertAll, Maps.upsertAll, List.filterMap_append, List.foldl_append]

/-- Accounts that can be loaded are replayed. -/
theorem loadAccounts_append (st : AnvilState Bytecode) (h : ∀ e ∈ l, Loadable provider e)
    (l' : List (Address × SerializableAccountRecord)) :
    loadAccounts provider (l ++ l') st = loadAccounts provider l' (replay provider st l) := by
  induction l generalizing st with
  | nil => rfl
  | cons e l ih =>
    rw [List.cons_append, loadAccounts_cons (h e List.mem_cons_self),
      ih _ fun e he => h e (List.mem_cons_of_mem _ he), ← replay_append, List.singleton_append]

variable (provider) in
/-- How the loop ends at an account that cannot be loaded. A refused code is
noticed after the balance and the nonce have been written. -/
def failAt (st : AnvilState Bytecode) (e : Address × SerializableAccountRecord) :
    Outcome Bool × AnvilState Bytecode :=
  match provider.basicAccount e.1 with
  | .error err => (.returned (.error (internalError ("failed to read account: " ++ err))), st)
  | .ok _ => (.panicked,
      (st.setBalance e.1 e.2.balance).setNonce e.1 (loadedNonce provider (st.overrides e.1) e))

theorem loadAccounts_fail (h : ¬ Loadable provider e) :
    loadAccounts provider (e :: l) st = failAt provider st e := by
  obtain ⟨a, record⟩ := e
  unfold failAt
  cases hb : provider.basicAccount a with
  | error err =>
    have hn : accountNonce provider st a =
        .error (internalError ("failed to read account: " ++ err)) := by
      rw [accountNonce, hb]
      rfl
    rw [loadAccounts, hn]
  | ok account =>
    have hok : (provider.basicAccount a).isOk = true := by
      rw [hb]
      rfl
    rw [loadAccounts, accountNonce_of_ok hok]
    simp only [writeRecord_of_not_accepted _ _ _ _ fun hc => h ⟨hok, hc⟩]
    rfl

/-- The loop replays the accounts up to the first one that cannot be loaded. -/
theorem loadAccounts_eq (l : List (Address × SerializableAccountRecord)) :
    loadAccounts provider l st =
      match l.dropWhile (Loadable provider) with
      | [] => (.returned (.ok true), replay provider st l)
      | e :: _ => failAt provider (replay provider st (l.takeWhile (Loadable provider))) e := by
  have hload : ∀ e ∈ l.takeWhile (Loadable provider), Loadable provider e := by
    intro e he
    simpa using List.mem_takeWhile_imp he
  have hsplit := loadAccounts_append st hload (l.dropWhile (Loadable provider))
  rw [List.takeWhile_append_dropWhile] at hsplit
  rw [hsplit]
  cases hd : l.dropWhile (Loadable provider) with
  | nil =>
    have hl : l.takeWhile (Loadable provider) = l := by
      simpa [hd] using List.takeWhile_append_dropWhile (p := Loadable provider) (l := l)
    rw [hl]
    rfl
  | cons e rest =>
    refine loadAccounts_fail fun he => ?_
    have hhead := List.head?_dropWhile_not (fun e => decide (Loadable provider e)) l
    rw [hd] at hhead
    exact of_decide_eq_false hhead he

end Loop

end AnvilReth
