import AnvilReth.Rpc.Load

/-! # Handlers as lock sections

Each read or write of the shared state happens under a lock of its own. A
request is the list of its lock sections, between which other requests may run;
run in one go, the sections do what the handler does. Every section reads one
field of an entry or patches one entry, and stores at most one bytecode.
-/

namespace AnvilReth

open Std

section Patch

/-- The fields a patch sets replace those of the account. -/
def AccountOverride.patch (account p : AccountOverride) : AccountOverride where
  balance := p.balance.or account.balance
  nonce := p.nonce.or account.nonce
  code := p.code.or account.code
  storage := Maps.insertAll account.storage p.storage.toList

/-- A part of an account entry. -/
inductive Key where
  | balance
  | nonce
  | code
  | slot (key : StorageKey)
  deriving DecidableEq

def AccountOverride.Sets (p : AccountOverride) : Key → Prop
  | .balance => p.balance.isSome
  | .nonce => p.nonce.isSome
  | .code => p.code.isSome
  | .slot k => (p.storage[k]?).isSome

theorem or_comm_of_disjoint {α : Type} {a b : Option α} (h : ¬ (a.isSome ∧ b.isSome))
    (c : Option α) :
    a.or (b.or c) = b.or (a.or c) := by
  cases a <;> cases b <;> simp_all

/-- Patches that set different parts commute. -/
theorem AccountOverride.patch_comm {p q : AccountOverride} (h : ∀ k, ¬ (p.Sets k ∧ q.Sets k))
    (account : AccountOverride) :
    (account.patch p).patch q = (account.patch q).patch p := by
  have hpq : ∀ k, ¬ (q.Sets k ∧ p.Sets k) := fun k hk => h k hk.symm
  simp only [patch, AccountOverride.mk.injEq]
  refine ⟨or_comm_of_disjoint (hpq .balance) _, or_comm_of_disjoint (hpq .nonce) _,
    or_comm_of_disjoint (hpq .code) _, ExtTreeMap.ext_getElem? fun k => ?_⟩
  simp only [Maps.getElem?_insertAll_toList]
  exact or_comm_of_disjoint (hpq (.slot k)) _

namespace AccountOverride

variable (account : AccountOverride)

theorem patch_head (balance : U256) (nonce : U64) :
    account.patch { balance := some balance, nonce := some nonce } =
      { account with balance := some balance, nonce := some nonce } := rfl

theorem patch_balance (balance : U256) :
    account.patch { balance := some balance } = { account with balance := some balance } := rfl

theorem patch_nonce (nonce : U64) :
    account.patch { nonce := some nonce } = { account with nonce := some nonce } := rfl

theorem patch_slot (slot : StorageKey) (value : StorageValue) :
    account.patch { storage := (∅ : ExtTreeMap _ _).insert slot value } =
      { account with storage := account.storage.insert slot value } := by
  simp only [patch, Option.none_or, AccountOverride.mk.injEq, true_and]
  refine ExtTreeMap.ext_getElem? fun k => ?_
  rw [Maps.getElem?_insertAll_toList, Maps.getElem?_insert, Maps.getElem?_insert,
    ExtTreeMap.getElem?_empty]
  split <;> rfl

theorem patch_load {Bytecode : Type} [Code Bytecode] (nonce : U64)
    (record : SerializableAccountRecord) :
    account.patch (AccountOverride.load Bytecode {} nonce record) =
      account.load Bytecode nonce record := by
  simp only [patch, load, Option.some_or, AccountOverride.mk.injEq, true_and]
  refine ExtTreeMap.ext_getElem? fun k => ?_
  rw [Maps.getElem?_insertAll_toList, Maps.getElem?_insertAll_map, Maps.getElem?_insertAll_map,
    ExtTreeMap.getElem?_empty, Option.or_none]

end AccountOverride

end Patch

namespace AnvilState

variable {Bytecode : Type} (st : AnvilState Bytecode)

def patchEntry (a : Address) :
    Option AccountOverride → AnvilState Bytecode
  | none => st
  | some p => st.modifyEntry a fun account => account.patch p

def storeEntry (e : Option (B256 × Bytecode)) :
    AnvilState Bytecode :=
  { st with bytecodes := Maps.insertAll st.bytecodes e.toList }

theorem storeEntry_patchEntry (a : Address) (p : Option AccountOverride)
    (e : Option (B256 × Bytecode)) :
    (st.patchEntry a p).storeEntry e = (st.storeEntry e).patchEntry a p := by
  cases p <;> rfl

theorem storeEntry_comm {e e' : Option (B256 × Bytecode)}
    (h : ∀ x ∈ e, ∀ y ∈ e', x.1 = y.1 → x.2 = y.2) :
    (st.storeEntry e).storeEntry e' = (st.storeEntry e').storeEntry e := by
  cases e with
  | none => rfl
  | some x =>
    cases e' with
    | none => rfl
    | some y =>
      simp only [storeEntry, Option.toList_some, Maps.insertAll_cons, Maps.insertAll_nil]
      by_cases hk : x.1 = y.1
      · obtain rfl : x = y := Prod.ext hk (h x rfl y rfl hk)
        rfl
      · rw [Maps.insert_comm hk]

theorem patchEntry_comm {a b : Address} {p q : Option AccountOverride}
    (h : a = b → ∀ x ∈ p, ∀ y ∈ q, ∀ k, ¬ (x.Sets k ∧ y.Sets k)) :
    (st.patchEntry a p).patchEntry b q = (st.patchEntry b q).patchEntry a p := by
  cases p with
  | none => rfl
  | some x =>
    cases q with
    | none => rfl
    | some y =>
      simp only [patchEntry]
      by_cases hab : a = b
      · subst hab
        rw [modifyEntry_modifyEntry, modifyEntry_modifyEntry]
        congr 1
        funext account
        exact AccountOverride.patch_comm (h rfl x rfl y rfl) account
      · exact modifyEntry_comm _ _ _ hab _

theorem overrides_patchEntry (a b : Address) (p : Option AccountOverride) :
    (st.patchEntry a p).overrides b =
      if b = a then p.elim (st.overrides a) (st.overrides a).patch else st.overrides b := by
  cases p with
  | none =>
    split
    · rename_i h
      rw [h]
      rfl
    · rfl
  | some x => exact (congrFun (overrides_modifyEntry st a _) b).trans (Function.update_apply ..)

end AnvilState

variable {Bytecode : Type} [Code Bytecode]

inductive Request where
  | addBalance (address : Address) (balance : U256)
  | setBalance (address : Address) (balance : U256)
  | setNonce (address : Address) (nonce : U256)
  | setStorageAt (address : Address) (slot : U256) (value : B256)
  | loadState (buf : Bytes)

/-- The state after a request has run in one go. -/
def Request.handle (f : DumpFormat) (provider : NodeProvider Bytecode) (st : AnvilState Bytecode) :
    Request → AnvilState Bytecode
  | addBalance a balance => (anvilAddBalance st a provider balance).2
  | setBalance a balance => (anvilSetBalance st a balance).2
  | setNonce a nonce => (anvilSetNonce st a nonce).2
  | setStorageAt a slot value => (anvilSetStorageAt st a slot value).2
  | .loadState buf => (AnvilReth.loadState f provider st buf).2

/-- A section of a handler that runs under one lock. -/
inductive Section where
  | readBalance (address : Address)
  | addBalance (address : Address) (amount : U256)
  | setBalance (address : Address) (balance : U256)
  | setNonce (address : Address) (nonce : U64)
  | setStorageAt (address : Address) (slot : StorageKey) (value : StorageValue)
  | readNonce (address : Address)
  | writeRecord (address : Address) (record : SerializableAccountRecord)
  deriving DecidableEq

/-- What a handler remembers from one section to the next. -/
structure Local where
  current : U256 := 0
  nonce : U64 := 0
  deriving DecidableEq

instance : Inhabited Local := ⟨{}⟩

def Section.exec (provider : NodeProvider Bytecode) (st : AnvilState Bytecode) (l : Local) :
    Section → AnvilState Bytecode × Local
  | readBalance a =>
    match accountBalance provider st a with
    | .ok current => (st, { l with current })
    | .error _ => (st, l)
  | addBalance a amount => (st.setBalance a (Saturating.add l.current amount), l)
  | setBalance a balance => (st.setBalance a balance, l)
  | setNonce a nonce => (st.setNonce a nonce, l)
  | setStorageAt a slot value => (st.setStorageAt a slot value, l)
  | readNonce a =>
    match accountNonce provider st a with
    | .ok nonce => (st, { l with nonce })
    | .error _ => (st, l)
  | .writeRecord a record =>
    ((AnvilReth.writeRecord st a (U64.max l.nonce record.nonce) record).1, l)

/-- The load loop ends at an account whose code is refused. -/
def loadSections (Bytecode : Type) [Code Bytecode] :
    List (Address × SerializableAccountRecord) → List Section
  | [] => []
  | (a, record) :: rest =>
    .readNonce a :: .writeRecord a record ::
      if Accepted Bytecode record.code then loadSections Bytecode rest else []

/-- The sections of a request, over base reads that do not fail. -/
def Request.sections (Bytecode : Type) [Code Bytecode] (f : DumpFormat) : Request → List Section
  | addBalance a balance => [.readBalance a, .addBalance a balance]
  | setBalance a balance => [.setBalance a balance]
  | setNonce a nonce =>
    if nonce > (BitVec.allOnes 64).setWidth 256 then [] else [.setNonce a (nonce.setWidth 64)]
  | setStorageAt a slot value => [.setStorageAt a (U256.toBeBytes slot) (B256.toU256 value)]
  | loadState buf =>
    match SerializableState.decode f buf with
    | .error _ => []
    | .ok state => loadSections Bytecode state.accounts.toList

/-- Sections of one request run in one go. -/
def execAll (provider : NodeProvider Bytecode) (st : AnvilState Bytecode) (l : Local)
    (sections : List Section) : AnvilState Bytecode × Local :=
  sections.foldl (fun s sec => sec.exec provider s.1 s.2) (st, l)

variable {provider : NodeProvider Bytecode}

theorem execAll_loadSections (hread : ∀ a, (provider.basicAccount a).isOk = true)
    (accounts : List (Address × SerializableAccountRecord)) (st : AnvilState Bytecode) (l : Local) :
    (execAll provider st l (loadSections Bytecode accounts)).1 =
      (loadAccounts provider accounts st).2 := by
  induction accounts generalizing st l with
  | nil => rfl
  | cons e rest ih =>
    obtain ⟨a, record⟩ := e
    rw [loadAccounts, accountNonce_of_ok (hread a)]
    simp only [loadSections, execAll, List.foldl_cons, Section.exec, accountNonce_of_ok (hread a)]
    by_cases hc : Accepted Bytecode record.code
    · simp only [if_pos hc, writeRecord_of_accepted _ _ _ _ hc]
      exact ih _ _
    · simp only [if_neg hc, writeRecord_of_not_accepted _ _ _ _ hc]
      rfl

/-- A request run in one go through its sections does what its handler does. -/
theorem execAll_sections (hread : ∀ a, (provider.basicAccount a).isOk = true) (f : DumpFormat)
    (r : Request) (st : AnvilState Bytecode) (l : Local) :
    (execAll provider st l (r.sections Bytecode f)).1 = r.handle f provider st := by
  cases r with
  | addBalance a amount =>
    simp only [Request.sections, Request.handle, anvilAddBalance, execAll, List.foldl_cons,
      List.foldl_nil, Section.exec, accountBalance_of_ok (hread a)]
  | setBalance a balance => rfl
  | setNonce a nonce =>
    simp only [Request.sections, Request.handle, anvilSetNonce]
    split <;> rfl
  | setStorageAt a slot value => rfl
  | loadState buf =>
    simp only [Request.sections, Request.handle, loadState]
    cases SerializableState.decode f buf with
    | error e => rfl
    | ok state => exact execAll_loadSections hread _ st l

section Footprint

/-- The account a section is about. -/
def Section.address : Section → Address
  | readBalance a | addBalance a _ | setBalance a _ | setNonce a _ | setStorageAt a _ _
  | readNonce a | writeRecord a _ => a

/-- The part of its account a section reads. -/
def Section.reads : Section → List Key
  | readBalance _ => [.balance]
  | readNonce _ => [.nonce]
  | _ => []

/-- The parts of its account a section writes. -/
def Section.writes (Bytecode : Type) [Code Bytecode] : Section → List Key
  | readBalance _ | readNonce _ => []
  | addBalance _ _ | setBalance _ _ => [.balance]
  | setNonce _ _ => [.nonce]
  | setStorageAt _ slot _ => [.slot slot]
  | writeRecord _ record =>
    .balance :: .nonce ::
      if Accepted Bytecode record.code then .code :: record.storage.toList.map fun e => .slot e.1
      else []

/-- The bytecode a section stores. -/
def Section.store (Bytecode : Type) [Code Bytecode] : Section → Option (B256 × Bytecode)
  | writeRecord _ record => codeEntry Bytecode record.code
  | _ => none

/-- One section writes what the other reads or writes, or they store different
bytecodes under one hash. -/
def Section.Conflict (Bytecode : Type) [Code Bytecode] (s t : Section) : Prop :=
  (s.address = t.address ∧
    ((∃ k ∈ s.writes Bytecode, k ∈ t.reads ∨ k ∈ t.writes Bytecode) ∨
      ∃ k ∈ t.writes Bytecode, k ∈ s.reads)) ∨
  ∃ e ∈ s.store Bytecode, ∃ e' ∈ t.store Bytecode, e.1 = e'.1 ∧ e.2 ≠ e'.2

/-- What a section makes of its account, given what the handler remembers. -/
def Section.patch (Bytecode : Type) [Code Bytecode] (l : Local) : Section → Option AccountOverride
  | readBalance _ | readNonce _ => none
  | addBalance _ amount => some { balance := some (Saturating.add l.current amount) }
  | setBalance _ balance => some { balance := some balance }
  | setNonce _ nonce => some { nonce := some nonce }
  | setStorageAt _ slot value => some { storage := (∅ : ExtTreeMap _ _).insert slot value }
  | writeRecord _ record =>
    if Accepted Bytecode record.code then
      some (AccountOverride.load Bytecode {} (U64.max l.nonce record.nonce) record)
    else
      some { balance := some record.balance, nonce := some (U64.max l.nonce record.nonce) }

/-- What a section remembers of its account. -/
def Section.look (provider : NodeProvider Bytecode) (account : AccountOverride) (l : Local) :
    Section → Local
  | readBalance a => { l with current := account.balance.getD (baseBalance provider a) }
  | readNonce a => { l with nonce := account.nonce.getD (baseNonce provider a) }
  | _ => l

/-- Every section is a look at its account, a store and a patch. -/
theorem Section.exec_eq (hread : ∀ a, (provider.basicAccount a).isOk = true) (s : Section)
    (st : AnvilState Bytecode) (l : Local) :
    s.exec provider st l =
      ((st.storeEntry (s.store Bytecode)).patchEntry s.address (s.patch Bytecode l),
        s.look provider (st.overrides s.address) l) := by
  cases s with
  | readBalance a =>
    simp only [exec, accountBalance_of_ok (hread a)]
    rfl
  | readNonce a =>
    simp only [exec, accountNonce_of_ok (hread a)]
    rfl
  | addBalance a amount =>
    simp only [exec, patch, AnvilState.patchEntry, AccountOverride.patch_balance]
    rfl
  | setBalance a balance =>
    simp only [exec, patch, AnvilState.patchEntry, AccountOverride.patch_balance]
    rfl
  | setNonce a nonce =>
    simp only [exec, patch, AnvilState.patchEntry, AccountOverride.patch_nonce]
    rfl
  | setStorageAt a slot value =>
    simp only [exec, patch, AnvilState.patchEntry, AccountOverride.patch_slot]
    rfl
  | writeRecord a record =>
    simp only [exec, patch]
    by_cases hc : Accepted Bytecode record.code
    · simp only [writeRecord_of_accepted _ _ _ _ hc, if_pos hc, AnvilState.patchEntry,
        AccountOverride.patch_load]
      rfl
    · have hnone : codeEntry Bytecode record.code = none := by
        simp only [Accepted, not_or, Option.not_isSome_iff_eq_none] at hc
        rw [codeEntry, if_neg (by simpa using hc.1), hc.2]
        rfl
      simp only [writeRecord_of_not_accepted _ _ _ _ hc, if_neg hc, AnvilState.patchEntry,
        AccountOverride.patch_head, store, hnone, AnvilState.setBalance, AnvilState.setNonce,
        AnvilState.modifyEntry_modifyEntry]
      rfl

end Footprint

end AnvilReth
