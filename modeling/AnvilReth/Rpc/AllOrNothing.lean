import AnvilReth.Rpc.Load
import AnvilReth.State.Format
import AnvilReth.State.Memory

/-! # When a failed load leaves no trace

The load loop writes account by account, so a load that fails keeps what it has
written. The state is unchanged exactly when every value written before the
failure was already there.
-/

namespace AnvilReth

open Std

variable {Bytecode : Type} [Code Bytecode] {provider : NodeProvider Bytecode}
  {st : AnvilState Bytecode} {l : List (Address × SerializableAccountRecord)}

/-- The balance and nonce of a record are already overridden so; a current
nonce may be larger. -/
structure AnvilState.CarriesHead (st : AnvilState Bytecode) (a : Address)
    (record : SerializableAccountRecord) : Prop where
  balance : (st.overrides a).balance = some record.balance
  nonce : ∃ n, (st.overrides a).nonce = some n ∧ record.nonce ≤ n

/-- All values of a record are already overridden so. -/
structure AnvilState.Carries (st : AnvilState Bytecode) (a : Address)
    (record : SerializableAccountRecord) : Prop extends st.CarriesHead a record where
  code : (st.overrides a).code = some { hash := keccak256 Bytecode record.code }
  storage : ∀ (k : StorageKey) v, record.storage[k]? = some v →
    (st.overrides a).storage[k]? = some (B256.toU256 v)

/-- The bytecode the last account of a list stores under a hash. -/
def lastCode (Bytecode : Type) [Code Bytecode] (l : List (Address × SerializableAccountRecord))
    (hash : B256) : Option Bytecode :=
  Transition.last (fun e => if e.1 = hash then some e.2 else none)
    (l.filterMap fun e => codeEntry Bytecode e.2.code)

/-- The accounts before the first one that cannot be loaded, and what the loop
writes of that one, are already there. -/
def LeavesNoTrace (provider : NodeProvider Bytecode) (st : AnvilState Bytecode)
    (l : List (Address × SerializableAccountRecord)) : Prop :=
  ∀ e rest, l.dropWhile (Loadable provider) = e :: rest →
    (∀ d ∈ l.takeWhile (Loadable provider), st.Carries d.1 d.2) ∧
    (∀ hash bytecode, lastCode Bytecode (l.takeWhile (Loadable provider)) hash = some bytecode →
      st.bytecodeByHash hash = some bytecode) ∧
    ((provider.basicAccount e.1).isOk = true → st.CarriesHead e.1 e.2)

omit [Code Bytecode] in
variable (provider) in
/-- The loop keeps a nonce exactly if it is overridden and no smaller. -/
theorem nonce_eq_loaded_iff {o : AccountOverride} {e : Address × SerializableAccountRecord} :
    o.nonce = some (loadedNonce provider o e) ↔ ∃ n, o.nonce = some n ∧ e.2.nonce ≤ n := by
  constructor
  · intro h
    exact ⟨_, h, U64.le_max_right _ _⟩
  · rintro ⟨n, h, hle⟩
    rw [loadedNonce, h, Option.getD_some, U64.max_eq_left hle]

theorem account_eq_load_iff {a : Address} {record : SerializableAccountRecord} :
    st.account a = some ((st.overrides a).load Bytecode
      (loadedNonce provider (st.overrides a) (a, record)) record) ↔ st.Carries a record := by
  constructor
  · intro h
    have ho : st.overrides a = (st.overrides a).load Bytecode
        (loadedNonce provider (st.overrides a) (a, record)) record := by
      conv_lhs => rw [AnvilState.overrides, h, Option.getD_some]
    refine ⟨⟨congrArg AccountOverride.balance ho,
      (nonce_eq_loaded_iff provider).mp (congrArg AccountOverride.nonce ho)⟩,
      congrArg AccountOverride.code ho, fun k v hv => ?_⟩
    have hs := congrArg (fun o : AccountOverride => o.storage[k]?) ho
    rw [AccountOverride.load, Maps.getElem?_insertAll_map, hv] at hs
    exact hs
  · intro h
    rw [st.account_of_balance h.balance]
    congr 1
    have hs : Maps.insertAll (st.overrides a).storage
        (record.storage.toList.map fun e => (e.1, B256.toU256 e.2)) =
          (st.overrides a).storage := by
      refine ExtTreeMap.ext_getElem? fun k => ?_
      rw [Maps.getElem?_insertAll_map]
      cases hv : record.storage[k]? with
      | none => rfl
      | some v => exact (h.storage k v hv).symm
    have hn : (st.overrides a).nonce =
        some (loadedNonce provider (st.overrides a) (a, record)) :=
      (nonce_eq_loaded_iff provider).mpr h.nonce
    rw [AccountOverride.load, hs, ← h.balance, ← hn, ← h.code]

/-- A replay changes nothing exactly when the accounts and their codes are there. -/
theorem replay_eq_self_iff (hl : (l.map Prod.fst).Nodup) :
    replay provider st l = st ↔ (∀ d ∈ l, st.Carries d.1 d.2) ∧
      ∀ hash bytecode, lastCode Bytecode l hash = some bytecode →
        st.bytecodeByHash hash = some bytecode := by
  have hparts : replay provider st l = st ↔ (replay provider st l).accounts = st.accounts ∧
      (replay provider st l).bytecodes = st.bytecodes := by
    constructor
    · intro h
      rw [h]
      exact ⟨rfl, rfl⟩
    · rintro ⟨ha, hb⟩
      cases st
      exact congrArg₂ AnvilState.mk ha hb
  rw [hparts]
  refine and_congr ?_ Maps.insertAll_eq_self_iff
  simp only [replay]
  rw [Maps.upsertAll_eq_self_iff _ hl]
  exact forall₂_congr fun d _ => account_eq_load_iff

theorem replay_account_of_not_mem (hl : (l.map Prod.fst).Nodup) {a : Address}
    (ha : a ∉ l.map Prod.fst) : (replay provider st l).account a = st.account a := by
  refine (Maps.getElem?_upsertAll _ hl a).trans ?_
  rw [Maps.lookup_eq_none_iff_not_mem.mpr ha]
  rfl

omit [Code Bytecode] in
/-- Writing a balance and a loaded nonce changes nothing exactly when they are there. -/
theorem writeHead_eq_self_iff {e : Address × SerializableAccountRecord} :
    (st.setBalance e.1 e.2.balance).setNonce e.1 (loadedNonce provider (st.overrides e.1) e) = st ↔
      st.CarriesHead e.1 e.2 := by
  rw [AnvilState.setBalance, AnvilState.setNonce, AnvilState.modifyEntry_modifyEntry,
    AnvilState.modifyEntry_eq_self_iff]
  constructor
  · intro h
    have ho := congrArg (Option.getD · default) h
    exact ⟨congrArg AccountOverride.balance ho,
      (nonce_eq_loaded_iff provider).mp (congrArg AccountOverride.nonce ho)⟩
  · intro h
    rw [st.account_of_balance h.balance]
    have hn := (nonce_eq_loaded_iff provider).mpr h.nonce
    simp only [Function.comp, ← h.balance, ← hn]

/-- The loop leaves no trace at an account it fails on exactly when the replay
before it left none and the values written there were already there. -/
theorem failAt_eq_self_iff {e : Address × SerializableAccountRecord}
    (hl : (l.map Prod.fst).Nodup) (ha : e.1 ∉ l.map Prod.fst) :
    (failAt provider (replay provider st l) e).2 = st ↔ replay provider st l = st ∧
      ((provider.basicAccount e.1).isOk = true → st.CarriesHead e.1 e.2) := by
  unfold failAt
  cases provider.basicAccount e.1 with
  | error err => simp [Except.isOk, Except.toBool]
  | ok account =>
    have hpre : ∀ n, ((replay provider st l).setBalance e.1 e.2.balance).setNonce e.1 n = st →
        replay provider st l = st := by
      intro n h
      rw [AnvilState.setBalance, AnvilState.setNonce, AnvilState.modifyEntry_modifyEntry] at h
      exact AnvilState.eq_of_modifyEntry_eq _ _ h (replay_account_of_not_mem hl ha)
    have hok : (Except.ok account : ProviderResult (Option Account)).isOk = true := rfl
    simp only [hok, true_imp_iff]
    constructor
    · intro h
      have hr := hpre _ h
      rw [hr] at h
      exact ⟨hr, writeHead_eq_self_iff.mp h⟩
    · rintro ⟨hr, hc⟩
      rw [hr]
      exact writeHead_eq_self_iff.mpr hc

/-- A load that does not succeed leaves the state as it was exactly when the
buffer does not decode or what it wrote before failing was already there. -/
theorem load_fails_unchanged_iff (f : DumpFormat) (buf : Bytes) :
    ((loadState f provider st buf).1 ≠ .returned (.ok true) →
      (loadState f provider st buf).2 = st) ↔
    ∀ state, SerializableState.decode f buf = .ok state →
      LeavesNoTrace provider st state.accounts.toList := by
  unfold loadState
  cases SerializableState.decode f buf with
  | error err => simp
  | ok state =>
    simp only [Except.ok.injEq, forall_eq']
    set l := state.accounts.toList
    have hl : (l.map Prod.fst).Nodup := Maps.nodup_keys state.accounts
    rw [loadAccounts_eq, LeavesNoTrace]
    cases hd : l.dropWhile (Loadable provider) with
    | nil => simp
    | cons e rest =>
      have hsplit : l.takeWhile (Loadable provider) ++ e :: rest = l := by
        rw [← hd, List.takeWhile_append_dropWhile]
      have hkeys := hl
      rw [← hsplit, List.map_append, List.map_cons, List.nodup_append] at hkeys
      obtain ⟨hpre, -, hdisj⟩ := hkeys
      have hnot : e.1 ∉ (l.takeWhile (Loadable provider)).map Prod.fst :=
        fun hm => hdisj e.1 hm e.1 List.mem_cons_self rfl
      have hfails : (failAt provider (replay provider st (l.takeWhile (Loadable provider))) e).1 ≠
          .returned (.ok true) := by
        unfold failAt
        cases provider.basicAccount e.1 <;> simp
      simp only [ne_eq, hfails, not_false_eq_true, true_imp_iff]
      rw [failAt_eq_self_iff hpre hnot, replay_eq_self_iff hpre, and_assoc]
      constructor
      · intro h e' rest' he
        obtain ⟨rfl, rfl⟩ := List.cons.inj he
        exact h
      · intro h
        exact h e rest rfl

/-- A dump of one account whose code is a malformed delegation designator. -/
def malformedDump : SerializableState where
  accounts := (∅ : ExtTreeMap Address SerializableAccountRecord).insert 1
    { balance := 5, code := [0xef, 0x01, 0x00] }

/-- Loading it on an empty node panics with the balance written. -/
theorem load_panic_keeps_writes :
    ∃ (f : DumpFormat) (buf : Bytes), f.Lawful ∧
      (loadState f (.ofDump RawBytecode { accounts := [] } 0) {} buf).1 ≠ .returned (.ok true) ∧
      (loadState f (.ofDump RawBytecode { accounts := [] } 0) {} buf).2 ≠ {} := by
  set f := DumpFormat.forDocument (malformedDump.encode (DumpFormat.forDocument .null))
  have hnull : malformedDump.NullFree := by
    simp [SerializableState.NullFree, malformedDump]
  obtain ⟨buf, hdecode⟩ : ∃ buf, SerializableState.decode f buf = .ok malformedDump :=
    ⟨gzipStored (asciiBytes (print (malformedDump.encode f))),
      SerializableState.decode_of_encodeGzipped (DumpFormat.forDocument_lawful _) hnull
        (DumpFormat.forDocument_inverts _) rfl⟩
  have hlist : malformedDump.accounts.toList =
      [(1, { balance := 5, code := [0xef, 0x01, 0x00] })] := by decide
  refine ⟨f, buf, DumpFormat.forDocument_lawful _, ?_, ?_⟩
  · rw [loadState, hdecode]
    simp only [hlist]
    nofun
  · rw [loadState, hdecode]
    simp only [hlist]
    decide

end AnvilReth
