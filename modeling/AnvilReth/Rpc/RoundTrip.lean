import AnvilReth.Rpc.Replay
import AnvilReth.State.Format
import AnvilReth.State.Memory

/-! # Dump and load

A dump of one node loaded on an empty one. The loaded entries are the records
again, so both nodes show the same world and dump the same accounts.
-/

namespace AnvilReth

open Std

variable {Bytecode : Type} [Code Bytecode] {codes : Set Bytes} {fresh : NodeProvider Bytecode}

variable {accounts : ExtTreeMap Address SerializableAccountRecord}

/-- A loaded entry on its own merges to the record it came from. -/
theorem mergeAccount_load {st : AnvilState Bytecode} {nonce : U64}
    {record : SerializableAccountRecord}
    (hc : st.codeBytes (keccak256 Bytecode record.code) = record.code) :
    SerializableState.mergeAccount st none (AccountOverride.load Bytecode default nonce record) =
      { record with nonce } := by
  obtain ⟨hb, hn, hcode, hs⟩ := SerializableState.mergeAccount_fields st none
    (AccountOverride.load Bytecode default nonce record)
  ext1
  · exact hn
  · exact hb
  · exact hcode.trans hc
  · rw [hs]
    refine ExtTreeMap.ext_getElem? fun k => ?_
    have hload : (AccountOverride.load Bytecode default nonce record).storage[k]? =
        (record.storage[k]?).map B256.toU256 := by
      change (Maps.insertAll ∅ _)[k]? = _
      rw [Maps.getElem?_insertAll_map, ExtTreeMap.getElem?_empty, Option.or_none]
    have hempty : (default : SerializableAccountRecord).storage[k]? = none :=
      ExtTreeMap.getElem?_empty
    rw [Maps.getElem?_insertAll_map, hload, Option.getD_none, hempty, Option.or_none]
    cases record.storage[k]? <;> rfl

theorem loadedNonce_empty (hfresh : fresh.Shows World.empty) (a : Address)
    (record : SerializableAccountRecord) :
    loadedNonce fresh default (a, record) = record.nonce := by
  have hbase : baseNonce fresh a = 0 := baseNonce_of_shows hfresh a
  have hle : (0 : U64) ≤ record.nonce := BitVec.le_def.mpr (Nat.zero_le _)
  change U64.max (baseNonce fresh a) record.nonce = _
  rw [hbase, U64.max, if_pos hle]

theorem loadState_of_decode {f : DumpFormat} {buf : Bytes} {state : SerializableState}
    (hraw : ∀ code ∈ codes, Accepted Bytecode code) (hfresh : fresh.Shows World.empty)
    (hdecode : SerializableState.decode f buf = .ok state)
    (hl : ∀ e ∈ state.accounts.toList, e.2.code ∈ codes) :
    loadState f fresh {} buf =
      (.returned (.ok true), replay fresh {} state.accounts.toList) := by
  have hload : ∀ e ∈ state.accounts.toList, Loadable fresh e := by
    intro e he
    obtain ⟨account, ha⟩ := StateProvider.basicAccount_of_nonce (hfresh.nonce e.1)
    exact ⟨by rw [ha]; rfl, hraw _ (hl e he)⟩
  exact loadState_of_loadable hdecode hload

section Empty

variable [LawfulCode Bytecode] (hn : NoCollision Bytecode codes) (hnil : [] ∈ codes)
  (hraw : ∀ code ∈ codes, Accepted Bytecode code) (hfresh : fresh.Shows World.empty)

include hn hnil hraw hfresh

/-- A node that is empty but for the replayed records dumps those records. -/
theorem mergeAnvilState_replay (hl : ∀ e ∈ accounts.toList, e.2.code ∈ codes)
    (best : Option U64) :
    ((SerializableState.fromDump { accounts := [] } best).mergeAnvilState
      (replay fresh {} accounts.toList)).accounts = accounts := by
  refine ExtTreeMap.ext_getElem? fun a => ?_
  simp only [SerializableState.mergeAnvilState]
  rw [Maps.getElem?_upsertAll _ (Maps.nodup_keys _), Maps.lookup_toList]
  have hbase : (SerializableState.fromDump { accounts := [] } best).accounts[a]? = none :=
    ExtTreeMap.getElem?_empty
  change (((replay fresh {} accounts.toList).account a).map _).or _ = _
  have hs : (replay fresh {} accounts.toList).CodeSound codes :=
    replay_codeSound (AnvilState.codeSound_empty codes) hl fun e he => hraw _ (hl e he)
  have hnone : ({} : AnvilState Bytecode).account a = none := ExtTreeMap.getElem?_empty
  rw [hbase, Option.or_none, replay_account, hnone, Option.or_none]
  cases hr : accounts[a]? with
  | none => rfl
  | some record =>
    have he : (a, record) ∈ accounts.toList := Maps.mem_toList.mpr hr
    have ho : ({} : AnvilState Bytecode).overrides a = default := rfl
    have hc : (replay fresh {} accounts.toList).codeBytes (keccak256 Bytecode record.code) =
        record.code := by
      refine hs.codeBytes_keccak hn hnil (hl _ he) (hs.resolved a _ ?_)
      rw [replay_overrides_of_some hr]
      rfl
    rw [ho]
    rw [Option.map_some, Option.map_some, mergeAccount_load hc, loadedNonce_empty hfresh]

/-- The replayed records on an empty node show the world they describe. -/
theorem replay_shows {state : SerializableState} (hfc : fresh.CodeSound codes)
    (hl : ∀ e ∈ state.accounts.toList, e.2.code ∈ codes) :
    (AnvilStateProvider.mk (replay fresh {} state.accounts.toList)
      fresh.toStateProvider).toStateProvider.Shows state.world := by
  set loaded := replay fresh {} state.accounts.toList
  have hmerge := mergeAnvilState_replay hn hnil hraw hfresh hl none
  have hworld : loaded.overlay World.empty = state.world := by
    rw [← SerializableState.fromDump_nil none, ← SerializableState.mergeAnvilState_world]
    simp only [SerializableState.world]
    rw [hmerge]
  rw [← hworld]
  exact AnvilStateProvider.shows_overlay hfresh hfc (replay_codeSound
    (AnvilState.codeSound_empty codes) hl fun e he => hraw _ (hl e he)) hn

end Empty

/-- A dump that is returned is the encoding of the collected state. -/
theorem collectState_of_dumpState {f : DumpFormat} {provider : NodeProvider Bytecode}
    {st : AnvilState Bytecode} {preserve : Option Bool} {buf : Bytes}
    (h : dumpState f provider st preserve = .ok buf) :
    ∃ state, collectState provider st = .ok state ∧ state.encodeGzipped f = .ok buf := by
  unfold dumpState at h
  cases hp : preserve.getD false with
  | true =>
    rw [hp] at h
    cases h
  | false =>
    rw [hp] at h
    cases hs : collectState provider st with
    | error e =>
      rw [hs] at h
      cases h
    | ok state =>
      rw [hs] at h
      refine ⟨state, rfl, ?_⟩
      dsimp only [bind, Except.bind] at h
      cases he : state.encodeGzipped f with
      | error e =>
        rw [he] at h
        cases h
      | ok buf' =>
        rw [he] at h
        exact congrArg Except.ok (Except.ok.inj h)

theorem collectState_eq {provider : NodeProvider Bytecode} {st : AnvilState Bytecode}
    {dump : DumpedState} {state : SerializableState}
    (hdump : provider.dumpStateCollect = .ok dump) (h : collectState provider st = .ok state) :
    ∃ best, state = (SerializableState.fromDump dump best).mergeAnvilState st := by
  unfold collectState at h
  rw [hdump] at h
  cases hb : bestBlockNumber provider with
  | error e =>
    rw [hb] at h
    cases h
  | ok number =>
    rw [hb] at h
    exact ⟨some number, (Except.ok.inj h).symm⟩

/-- The dump of a node, loaded on an empty one, is accepted; both nodes then
show the same world, and dumping the second gives the accounts of the first dump. -/
theorem load_dump [LawfulCode Bytecode] {f : DumpFormat} {first : NodeProvider Bytecode}
    {w : World} {dump : DumpedState} {os : List Override} {st : AnvilState Bytecode}
    {preserve : Option Bool} {buf : Bytes} (hn : NoCollision Bytecode codes) (hnil : [] ∈ codes)
    (hraw : ∀ code ∈ codes, Accepted Bytecode code) (hos : ∀ o ∈ os, o.codes ⊆ codes)
    (hw : first.Shows w) (hc : first.CodeSound codes)
    (hdump : first.dumpStateCollect = .ok dump) (hd : dump.Lists w)
    (h : Transition.path (fun st o => Override.apply st o) {} os = some st)
    (hf : f.Lawful)
    (hi : ∀ state, collectState first st = .ok state → f.Inverts (state.encode f))
    (hbuf : dumpState f first st preserve = .ok buf)
    (hfresh : fresh.Shows World.empty) (hfc : fresh.CodeSound codes)
    (hempty : fresh.dumpStateCollect = .ok { accounts := [] }) :
    let shown := os.foldl Override.write w
    ∃ loaded state, loadState f fresh {} buf = (.returned (.ok true), loaded) ∧
      (AnvilStateProvider.mk st first.toStateProvider).toStateProvider.Shows shown ∧
      (AnvilStateProvider.mk loaded fresh.toStateProvider).toStateProvider.Shows shown ∧
      collectState first st = .ok state ∧
      ∀ state', collectState fresh loaded = .ok state' → state'.accounts = state.accounts := by
  intro shown
  obtain ⟨hoverlay, hs⟩ :=
    AnvilState.overlay_path (w := w) hn hnil hos (AnvilState.codeSound_empty codes) h
  obtain ⟨state, hstate, hgz⟩ := collectState_of_dumpState hbuf
  have href : st.overlay w = shown := hoverlay
  have hworld : state.world = shown := by
    obtain ⟨best, rfl⟩ := collectState_eq hdump hstate
    rw [SerializableState.mergeAnvilState_world, SerializableState.fromDump_world hd, href]
  have hl : ∀ e ∈ state.accounts.toList, e.2.code ∈ codes := by
    intro e he
    have hcode : state.world.code e.1 = e.2.code := by
      simp only [SerializableState.world]
      rw [Maps.mem_toList.mp he]
      rfl
    rw [← hcode, hworld, ← href]
    exact hs.code_mem hnil (hw.code_mem hc hnil) e.1
  have hdecode : SerializableState.decode f buf = .ok state := by
    refine SerializableState.decode_of_encodeGzipped hf ?_ (hi state hstate) hgz
    obtain ⟨best, rfl⟩ := collectState_eq hdump hstate
    exact SerializableState.nullFree_merge
  refine ⟨replay fresh {} state.accounts.toList, state, ?_, ?_, ?_, hstate, fun state' h' => ?_⟩
  · exact loadState_of_decode hraw hfresh hdecode hl
  · rw [← href]
    exact AnvilStateProvider.shows_overlay hw hc hs hn
  · rw [← hworld]
    exact replay_shows hn hnil hraw hfresh hfc hl
  · obtain ⟨best, rfl⟩ := collectState_eq hempty h'
    exact mergeAnvilState_replay hn hnil hraw hfresh hl best

open RawBytecode in
theorem load_dump_oneContract :
    let first := NodeProvider.ofDump RawBytecode oneContract 0
    let fresh := NodeProvider.ofDump RawBytecode { accounts := [] } 0
    ∃ f st buf loaded, Transition.path (fun st o => Override.apply st o) {}
        [.setCode 2 [0x00], .setStorageAt 1 5 0, .setBalance 1 20] = some st ∧
      dumpState f first st none = .ok buf ∧
      loadState f fresh {} buf = (.returned (.ok true), loaded) ∧
      (AnvilStateProvider.mk loaded fresh.toStateProvider).toStateProvider.code 2 = .ok [0x00] := by
  intro first fresh
  obtain ⟨st, h⟩ : ∃ st, Transition.path
      (fun (st : AnvilState RawBytecode) o => Override.apply st o) {}
      [.setCode 2 [0x00], .setStorageAt 1 5 0, .setBalance 1 20] = some st := ⟨_, rfl⟩
  obtain ⟨state, hstate⟩ : ∃ state, collectState first st = .ok state := ⟨_, rfl⟩
  set f := DumpFormat.forDocument (state.encode (DumpFormat.forDocument .null))
  have hf : f.Lawful := DumpFormat.forDocument_lawful _
  have hi : ∀ s, collectState first st = .ok s → f.Inverts (s.encode f) := by
    intro s hs
    obtain rfl := Except.ok.inj (hstate.symm.trans hs)
    exact DumpFormat.forDocument_inverts _
  obtain ⟨buf, hbuf⟩ : ∃ buf, dumpState f first st none = .ok buf := by
    have hd : dumpState f first st none = collectState first st >>= fun s =>
      .ok (gzipStored (asciiBytes (print (s.encode f)))) := rfl
    rw [hd, hstate]
    exact ⟨_, rfl⟩
  have hos : ∀ o ∈ [Override.setCode 2 [0x00], .setStorageAt 1 5 0, .setBalance 1 20],
      o.codes ⊆ knownCodes := by
    simp [Override.codes, knownCodes]
  have hraw : ∀ code ∈ knownCodes, Accepted RawBytecode code := by
    rintro code (rfl | rfl | rfl) <;> decide
  obtain ⟨hw, hc, hd⟩ := oneContract_node
  obtain ⟨loaded, -, hload, -, hshows, -⟩ := load_dump noCollision_knownCodes nil_mem_knownCodes
    hraw hos hw hc rfl hd h hf hi hbuf empty_node.1 empty_node.2 rfl
  exact ⟨f, st, buf, loaded, h, hbuf, hload, hshows.code 2⟩

end AnvilReth
