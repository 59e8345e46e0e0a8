import AnvilReth.Rpc.Load
import AnvilReth.State.World

/-! # What a replay leaves behind

A replay keeps a sound code store sound, whatever the state it starts from:
codes that are stored already stay the same codes, and those of the replayed
accounts join them.
-/

namespace AnvilReth

open Std

variable {Bytecode : Type} [Code Bytecode] {codes : Set Bytes} {provider : NodeProvider Bytecode}
  {st : AnvilState Bytecode} {l : List (Address × SerializableAccountRecord)}

/-- A bytecode stored after a replay is that of a replayed account's code, or was stored before. -/
theorem replay_bytecodeByHash {hash : B256} {bytecode : Bytecode}
    (h : (replay provider st l).bytecodeByHash hash = some bytecode) :
    (∃ e ∈ l, newRaw e.2.code = some bytecode ∧ keccak256 Bytecode e.2.code = hash) ∨
      st.bytecodeByHash hash = some bytecode := by
  change (Maps.insertAll st.bytecodes _)[hash]? = some bytecode at h
  rw [Maps.getElem?_insertAll_last, Option.or_eq_some_iff] at h
  rcases h with h | ⟨-, h⟩
  · obtain ⟨⟨hash', found⟩, hp, hv⟩ := Transition.last_eq_some h
    obtain ⟨e, he, hc⟩ := List.mem_filterMap.mp hp
    obtain ⟨rfl, hfound⟩ := Option.ite_none_right_eq_some.mp hv
    obtain rfl := Option.some.inj hfound
    exact Or.inl ⟨e, he, (codeEntry_eq_some.mp hc).2⟩
  · exact Or.inr h

/-- The code of every replayed account is stored. -/
theorem replay_stores {e : Address × SerializableAccountRecord} (he : e ∈ l)
    (ha : Accepted Bytecode e.2.code) (hne : e.2.code ≠ []) :
    ∃ bytecode, (replay provider st l).bytecodeByHash (keccak256 Bytecode e.2.code) =
      some bytecode := by
  obtain ⟨bytecode, hb⟩ := Option.isSome_iff_exists.mp (ha.resolve_left hne)
  have hm : (keccak256 Bytecode e.2.code, bytecode) ∈
      l.filterMap fun e => codeEntry Bytecode e.2.code :=
    List.mem_filterMap.mpr ⟨e, he, codeEntry_eq_some.mpr ⟨hne, hb, rfl⟩⟩
  rw [← Option.isSome_iff_exists]
  change ((Maps.insertAll st.bytecodes _)[_]?).isSome = true
  rw [Maps.getElem?_insertAll_last, Option.isSome_or, Transition.last_isSome hm (if_pos rfl)]
  rfl

/-- What was stored under a hash stays stored, or another bytecode is. -/
theorem replay_keeps {hash : B256} {bytecode : Bytecode}
    (h : st.bytecodeByHash hash = some bytecode) :
    ∃ found, (replay provider st l).bytecodeByHash hash = some found := by
  rw [← Option.isSome_iff_exists]
  change ((Maps.insertAll st.bytecodes _)[hash]?).isSome = true
  have hst : st.bytecodes[hash]? = some bytecode := h
  rw [Maps.getElem?_insertAll_last, Option.isSome_or, hst, Option.isSome_some, Bool.or_true]

variable {accounts : ExtTreeMap Address SerializableAccountRecord}

theorem replay_account (a : Address) :
    (replay provider st accounts.toList).account a =
      ((accounts[a]?).map fun record => (st.overrides a).load Bytecode
        (loadedNonce provider (st.overrides a) (a, record)) record).or (st.account a) := by
  simp only [AnvilState.account, replay]
  rw [Maps.getElem?_upsertAll _ (Maps.nodup_keys _), Maps.lookup_toList]
  rfl

theorem replay_overrides_of_some {a : Address} {record : SerializableAccountRecord}
    (h : accounts[a]? = some record) :
    (replay provider st accounts.toList).overrides a = (st.overrides a).load Bytecode
      (loadedNonce provider (st.overrides a) (a, record)) record := by
  rw [AnvilState.overrides, replay_account, h]
  rfl

theorem replay_overrides_of_none {a : Address} (h : accounts[a]? = none) :
    (replay provider st accounts.toList).overrides a = st.overrides a := by
  rw [AnvilState.overrides, replay_account, h]
  rfl

theorem replay_codeSound [LawfulCode Bytecode] (hs : st.CodeSound codes)
    (hl : ∀ e ∈ accounts.toList, e.2.code ∈ codes)
    (hraw : ∀ e ∈ accounts.toList, Accepted Bytecode e.2.code) :
    (replay provider st accounts.toList).CodeSound codes where
  stored hash bytecode h := by
    rcases replay_bytecodeByHash h with ⟨e, he, hb, hh⟩ | h
    · rw [originalBytes_newRaw hb]
      exact ⟨hl e he, hh⟩
    · exact hs.stored hash bytecode h
  resolved a hash h := by
    cases hr : accounts[a]? with
    | none =>
      rw [replay_overrides_of_none hr] at h
      refine (hs.resolved a hash h).imp_right ?_
      rintro ⟨bytecode, hb⟩
      exact replay_keeps hb
    | some record =>
      rw [replay_overrides_of_some hr] at h
      obtain rfl : keccak256 Bytecode record.code = hash := Option.some.inj h
      have he : (a, record) ∈ accounts.toList := Maps.mem_toList.mpr hr
      by_cases hne : record.code = []
      · exact Or.inl (by rw [hne]; rfl)
      · exact Or.inr (replay_stores he (hraw _ he) hne)

variable {f : DumpFormat} {buf : Bytes} {state : SerializableState}

/-- A decoded dump whose accounts can all be loaded is replayed. -/
theorem loadState_of_loadable (hdecode : SerializableState.decode f buf = .ok state)
    (hload : ∀ e ∈ state.accounts.toList, Loadable provider e) :
    loadState f provider st buf =
      (.returned (.ok true), replay provider st state.accounts.toList) := by
  have happ := loadAccounts_append st hload []
  rw [List.append_nil] at happ
  rw [loadState, hdecode]
  exact happ

/-- A load that returns true has replayed the whole dump. -/
theorem loadable_of_loadState {loaded : AnvilState Bytecode}
    (hdecode : SerializableState.decode f buf = .ok state)
    (h : loadState f provider st buf = (.returned (.ok true), loaded)) :
    (∀ e ∈ state.accounts.toList, Loadable provider e) ∧
      loaded = replay provider st state.accounts.toList := by
  rw [loadState, hdecode] at h
  have heq : loadAccounts provider state.accounts.toList st = _ := loadAccounts_eq _
  cases hd : state.accounts.toList.dropWhile (Loadable provider) with
  | nil =>
    rw [hd] at heq
    refine ⟨fun e he => ?_, (Prod.mk.inj (h.symm.trans heq)).2⟩
    simpa using List.dropWhile_eq_nil_iff.mp hd e he
  | cons e rest =>
    rw [hd] at heq
    have hfail := (Prod.mk.inj (h.symm.trans heq)).1
    split at hfail <;> cases hfail

theorem baseNonce_of_shows {w : World} (hw : provider.Shows w) (a : Address) :
    baseNonce provider a = w.nonce a := by
  obtain ⟨account, h⟩ := StateProvider.basicAccount_of_nonce (hw.nonce a)
  rw [baseNonce, h]
  exact Except.ok.inj ((StateProvider.nonce_of_basicAccount h).symm.trans (hw.nonce a))

end AnvilReth
