import AnvilReth.Rpc.Replay
import AnvilReth.State.Format
import AnvilReth.State.Memory

/-! # What a load changes

A load that succeeds gives the listed accounts and slots the values of the
dump, takes the larger nonce, and leaves everything else as it reads.
-/

namespace AnvilReth

open Std

/-- The world with the records of a dump written over it. -/
def World.load (w : World) (state : SerializableState) : World where
  balance a := ((state.accounts[a]?).map (·.balance)).getD (w.balance a)
  nonce a := ((state.accounts[a]?).map fun record => U64.max (w.nonce a) record.nonce).getD
    (w.nonce a)
  code a := ((state.accounts[a]?).map (·.code)).getD (w.code a)
  storage a k := ((state.accounts[a]?).bind fun record =>
    (record.storage[k]?).map B256.toU256).getD (w.storage a k)

theorem U64.max_max (a b : U64) : U64.max (U64.max a b) b = U64.max a b :=
  U64.max_eq_left (U64.le_max_right a b)

/-- Written over again, the records change nothing. -/
theorem World.load_load (w : World) (state : SerializableState) :
    (w.load state).load state = w.load state := by
  ext1
  · funext a
    simp only [World.load]
    cases state.accounts[a]? <;> rfl
  · funext a
    simp only [World.load]
    cases state.accounts[a]? with
    | none => rfl
    | some record => exact U64.max_max _ _
  · funext a
    simp only [World.load]
    cases state.accounts[a]? <;> rfl
  · funext a k
    simp only [World.load]
    cases (state.accounts[a]?).bind fun record => (record.storage[k]?).map B256.toU256 <;> rfl

variable {Bytecode : Type} [Code Bytecode] [LawfulCode Bytecode] {codes : Set Bytes}
  {provider : NodeProvider Bytecode} {st : AnvilState Bytecode} {w : World}

omit [LawfulCode Bytecode] in
/-- The code of an account whose entry a replay leaves alone. -/
theorem codeBytes_replay {l : List (Address × SerializableAccountRecord)}
    (hs : st.CodeSound codes) (hr : (replay provider st l).CodeSound codes)
    (hn : NoCollision Bytecode codes) (hnil : [] ∈ codes) {a : Address} {hash : B256}
    (h : (st.overrides a).codeHash = some hash) :
    (replay provider st l).codeBytes hash = st.codeBytes hash := by
  rcases hs.resolved a hash h with rfl | ⟨bytecode, hb⟩
  · rw [AnvilState.codeBytes, AnvilState.codeBytes, if_pos rfl, if_pos rfl]
  · obtain ⟨hm, rfl⟩ := hs.stored hash bytecode hb
    rw [hs.codeBytes_keccak hn hnil hm (Or.inr ⟨bytecode, hb⟩),
      hr.codeBytes_keccak hn hnil hm (Or.inr (replay_keeps hb))]

/-- A replay writes the records over the world the overrides show. -/
theorem overlay_replay {state : SerializableState} (hs : st.CodeSound codes)
    (hn : NoCollision Bytecode codes) (hnil : [] ∈ codes) (hw : provider.Shows w)
    (hl : ∀ e ∈ state.accounts.toList, e.2.code ∈ codes)
    (hraw : ∀ e ∈ state.accounts.toList, Accepted Bytecode e.2.code) :
    (replay provider st state.accounts.toList).overlay w = (st.overlay w).load state := by
  have hr : (replay provider st state.accounts.toList).CodeSound codes :=
    replay_codeSound hs hl hraw
  ext1
  · funext a
    simp only [AnvilState.overlay, World.load]
    cases ha : state.accounts[a]? with
    | none => rw [replay_overrides_of_none ha]; rfl
    | some record => rw [replay_overrides_of_some ha]; rfl
  · funext a
    simp only [AnvilState.overlay, World.load]
    cases ha : state.accounts[a]? with
    | none => rw [replay_overrides_of_none ha]; rfl
    | some record =>
      rw [replay_overrides_of_some ha, ← baseNonce_of_shows hw a]
      rfl
  · funext a
    simp only [AnvilState.overlay, World.load]
    cases ha : state.accounts[a]? with
    | none =>
      rw [replay_overrides_of_none ha]
      cases ho : (st.overrides a).codeHash with
      | none => rfl
      | some hash => exact codeBytes_replay hs hr hn hnil ho
    | some record =>
      have he : (a, record) ∈ state.accounts.toList := Maps.mem_toList.mpr ha
      have hres := hr.resolved a (keccak256 Bytecode record.code)
      rw [replay_overrides_of_some ha] at hres ⊢
      exact hr.codeBytes_keccak hn hnil (hl _ he) (hres rfl)
  · funext a k
    simp only [AnvilState.overlay, World.load]
    cases ha : state.accounts[a]? with
    | none => rw [replay_overrides_of_none ha]; rfl
    | some record =>
      rw [replay_overrides_of_some ha, AccountOverride.load, Maps.getElem?_insertAll_map]
      change (((record.storage[k]?).map _).or _).getD _ = ((record.storage[k]?).map _).getD _
      cases record.storage[k]? <;> rfl

/-- A load that returns true writes the records of the dump over the world the
node shows, and a second load returns true and shows the same world. -/
theorem load_shows {f : DumpFormat} {os : List Override} {buf : Bytes} {state : SerializableState}
    {loaded : AnvilState Bytecode} (hn : NoCollision Bytecode codes) (hnil : [] ∈ codes)
    (hw : provider.Shows w) (hc : provider.CodeSound codes) (hos : ∀ o ∈ os, o.codes ⊆ codes)
    (h : Transition.path (fun st o => Override.apply st o) {} os = some st)
    (hdecode : SerializableState.decode f buf = .ok state)
    (hl : ∀ e ∈ state.accounts.toList, e.2.code ∈ codes)
    (hload : loadState f provider st buf = (.returned (.ok true), loaded)) :
    ∃ before again, (AnvilStateProvider.mk st provider.toStateProvider).toStateProvider.Shows
        before ∧
      (AnvilStateProvider.mk loaded provider.toStateProvider).toStateProvider.Shows
        (before.load state) ∧
      loadState f provider loaded buf = (.returned (.ok true), again) ∧
      (AnvilStateProvider.mk again provider.toStateProvider).toStateProvider.Shows
        (before.load state) := by
  have hpath := AnvilState.overlay_path (w := w) hn hnil hos (AnvilState.codeSound_empty codes) h
  obtain ⟨-, hs⟩ := hpath
  obtain ⟨hloadable, rfl⟩ := loadable_of_loadState hdecode hload
  have hraw : ∀ e ∈ state.accounts.toList, Accepted Bytecode e.2.code :=
    fun e he => (hloadable e he).2
  have hr : (replay provider st state.accounts.toList).CodeSound codes :=
    replay_codeSound hs hl hraw
  have hfirst := overlay_replay hs hn hnil hw hl hraw
  have hsecond := overlay_replay hr hn hnil hw hl hraw
  rw [hfirst, World.load_load] at hsecond
  refine ⟨st.overlay w, _, AnvilStateProvider.shows_overlay hw hc hs hn, ?_,
    loadState_of_loadable hdecode hloadable, ?_⟩
  · rw [← hfirst]
    exact AnvilStateProvider.shows_overlay hw hc hr hn
  · rw [← hsecond]
    exact AnvilStateProvider.shows_overlay hw hc (replay_codeSound hr hl hraw) hn

/-- A dump of the one contract with another code, balance and slot. -/
def changedContract : SerializableState where
  accounts := (∅ : ExtTreeMap Address SerializableAccountRecord).insert 1
    { nonce := 2, balance := 5, code := [0x00], storage := (∅ : ExtTreeMap B256 B256).insert 5 9 }

open RawBytecode in
theorem load_shows_changedContract :
    let provider := NodeProvider.ofDump RawBytecode oneContract 0
    let st := AnvilState.setStorageAt {} 1 6 8
    ∃ f buf loaded, loadState f provider st buf = (.returned (.ok true), loaded) ∧
      let shown := (AnvilStateProvider.mk loaded provider.toStateProvider).toStateProvider
      shown.code 1 = .ok [0x00] ∧ shown.nonce 1 = .ok 3 ∧ shown.slot 1 6 = .ok 8 := by
  intro provider st
  set f := DumpFormat.forDocument (changedContract.encode (DumpFormat.forDocument .null))
  have hnull : changedContract.NullFree := by
    simp [SerializableState.NullFree, changedContract]
  obtain ⟨buf, hdecode⟩ : ∃ buf, SerializableState.decode f buf = .ok changedContract :=
    ⟨gzipStored (asciiBytes (print (changedContract.encode f))),
      SerializableState.decode_of_encodeGzipped (DumpFormat.forDocument_lawful _) hnull
        (DumpFormat.forDocument_inverts _) rfl⟩
  obtain ⟨hw, hc, -⟩ := oneContract_node
  have hos : ∀ o ∈ [Override.setStorageAt 1 6 8], o.codes ⊆ knownCodes := by
    simp [Override.codes]
  have hl : ∀ e ∈ changedContract.accounts.toList, e.2.code ∈ knownCodes := by
    rintro ⟨a, record⟩ he
    have hget := Maps.mem_toList.mp he
    simp only [changedContract, Maps.getElem?_insert] at hget
    split at hget
    · obtain rfl := Option.some.inj hget
      exact Or.inr (Or.inl rfl)
    · cases hget
  have hloadable : ∀ e ∈ changedContract.accounts.toList, Loadable provider e := by
    decide
  have hload : loadState f provider st buf = (.returned (.ok true), _) :=
    loadState_of_loadable hdecode hloadable
  obtain ⟨before, -, hbefore, hshows, -⟩ := load_shows noCollision_knownCodes nil_mem_knownCodes
    hw hc hos rfl hdecode hl hload
  have hnonce : before.nonce 1 = 3 := (Except.ok.inj (hbefore.nonce 1)).symm
  have hslot : before.storage 1 6 = 8 := (Except.ok.inj (hbefore.slot 1 6)).symm
  refine ⟨f, buf, _, hload, hshows.code 1, (hshows.nonce 1).trans ?_, (hshows.slot 1 6).trans ?_⟩
  · change Except.ok (U64.max (before.nonce 1) 2) = _
    rw [hnonce]
    rfl
  · change Except.ok (before.storage 1 6) = _
    rw [hslot]

end AnvilReth
