import AnvilReth.Rpc.LoadFrame
import AnvilReth.Rpc.RoundTrip

/-! # Going back to a dump

A dump is loaded again on the node it came from, after further overrides and
blocks. The load never lowers a nonce and never removes an account or a slot, so
it brings the old world back exactly if none of them has to be.
-/

namespace AnvilReth

open Std

/-- Nothing has changed since that a load cannot undo: no nonce of a listed account has
grown, and nothing that is not listed has changed. -/
def SerializableState.Restores (state : SerializableState) (old new : World) : Prop :=
  ∀ a, match state.accounts[a]? with
    | none => new.balance a = old.balance a ∧ new.nonce a = old.nonce a ∧
      new.code a = old.code a ∧ new.storage a = old.storage a
    | some record => new.nonce a ≤ old.nonce a ∧
      ∀ k : StorageKey, record.storage[k]? = none → new.storage a k = old.storage a k

theorem U64.max_eq_right_iff {a b : U64} : U64.max a b = b ↔ a ≤ b := by
  unfold U64.max
  split
  · rename_i h
    exact iff_of_true rfl h
  · rename_i h
    refine iff_of_false (fun he => h ?_) h
    rw [he]
    exact BitVec.le_refl b

theorem SerializableState.world_of_some {state : SerializableState} {a : Address}
    {record : SerializableAccountRecord} (h : state.accounts[a]? = some record) :
    state.world.balance a = record.balance ∧ state.world.nonce a = record.nonce ∧
      state.world.code a = record.code ∧
      ∀ k : StorageKey,
        state.world.storage a k = ((record.storage[k]?).map B256.toU256).getD 0 := by
  simp only [world, h]
  exact ⟨rfl, rfl, rfl, fun _ => rfl⟩

theorem World.ext_account {v w : World} : v = w ↔ ∀ a, v.balance a = w.balance a ∧
    v.nonce a = w.nonce a ∧ v.code a = w.code a ∧ v.storage a = w.storage a := by
  constructor
  · rintro rfl a
    exact ⟨rfl, rfl, rfl, rfl⟩
  · intro h
    ext1
    · exact funext fun a => (h a).1
    · exact funext fun a => (h a).2.1
    · exact funext fun a => (h a).2.2.1
    · exact funext fun a => (h a).2.2.2

/-- A loaded account has its old slots back if those that its record does not list
are as they were. -/
theorem World.storage_load_eq_iff {state : SerializableState} {new : World} {a : Address}
    {record : SerializableAccountRecord} (h : state.accounts[a]? = some record) :
    (new.load state).storage a = state.world.storage a ↔
      ∀ k : StorageKey, record.storage[k]? = none →
        new.storage a k = state.world.storage a k := by
  obtain ⟨-, -, -, hworld⟩ := SerializableState.world_of_some h
  rw [funext_iff]
  refine forall_congr' fun k => ?_
  simp only [World.load, h, Option.bind_some]
  cases hk : record.storage[k]? with
  | none =>
    rw [Option.map_none, Option.getD_none, forall_prop_of_true rfl]
  | some value =>
    refine iff_of_true ?_ fun h => by cases h
    rw [hworld k, hk]
    rfl

/-- Writing the records of a world over another gives the world back exactly if the
other one differs in nothing that stays. -/
theorem World.load_eq_iff {state : SerializableState} {old new : World} (h : state.world = old) :
    new.load state = old ↔ state.Restores old new := by
  subst h
  rw [World.ext_account]
  refine forall_congr' fun a => ?_
  cases ha : state.accounts[a]? with
  | none => simp only [World.load, ha, Option.map_none, Option.getD_none, Option.bind_none]
  | some record =>
    obtain ⟨hbalance, hnonce, hcode, -⟩ := SerializableState.world_of_some ha
    rw [World.storage_load_eq_iff ha]
    simp only [World.load, ha, Option.map_some, Option.getD_some, hbalance, hnonce, hcode,
      U64.max_eq_right_iff, true_and]

theorem StateProvider.Shows.unique {Bytecode : Type} [Code Bytecode] {p : StateProvider Bytecode}
    {w v : World} (hw : p.Shows w) (hv : p.Shows v) : w = v := by
  refine World.ext_account.mpr fun a => ⟨?_, ?_, ?_, funext fun k => ?_⟩
  · exact Except.ok.inj ((hw.balance a).symm.trans (hv.balance a))
  · exact Except.ok.inj ((hw.nonce a).symm.trans (hv.nonce a))
  · exact Except.ok.inj ((hw.code a).symm.trans (hv.code a))
  · exact Except.ok.inj ((hw.slot a k).symm.trans (hv.slot a k))

variable {Bytecode : Type} [Code Bytecode] [LawfulCode Bytecode] {codes : Set Bytes}
  {first later : NodeProvider Bytecode} {w w' : World} {dump : DumpedState}
  {os ds : List Override} {st st' : AnvilState Bytecode} {f : DumpFormat} {buf : Bytes}

/-- A dump that is loaded again after further overrides and blocks is accepted, and
brings the old world back exactly if no nonce of a dumped account has grown since and
nothing that the dump does not list has changed. -/
theorem rollback_iff (hn : NoCollision Bytecode codes) (hnil : [] ∈ codes)
    (hraw : ∀ code ∈ codes, Accepted Bytecode code)
    (hos : ∀ o ∈ os, o.codes ⊆ codes) (hds : ∀ o ∈ ds, o.codes ⊆ codes)
    (hw : first.Shows w) (hc : first.CodeSound codes)
    (hdump : first.dumpStateCollect = .ok dump) (hd : dump.Lists w)
    (h : Transition.path (fun st o => Override.apply st o) {} os = some st)
    (hf : f.Lawful)
    (hi : ∀ state, collectState first st = .ok state → f.Inverts (state.encode f))
    {preserve : Option Bool} (hbuf : dumpState f first st preserve = .ok buf)
    (hw' : later.Shows w') (hc' : later.CodeSound codes)
    (h' : Transition.path (fun st o => Override.apply st o) st ds = some st') :
    let old := os.foldl Override.write w
    ∃ state loaded, collectState first st = .ok state ∧
      loadState f later st' buf = (.returned (.ok true), loaded) ∧
      ((AnvilStateProvider.mk loaded later.toStateProvider).toStateProvider.Shows old ↔
        state.Restores old ((os ++ ds).foldl Override.write w')) := by
  intro old
  obtain ⟨hfirst, hs⟩ :=
    AnvilState.overlay_path (w := w) hn hnil hos (AnvilState.codeSound_empty codes) h
  obtain ⟨hlater, -⟩ :=
    AnvilState.overlay_path (w := w') hn hnil hos (AnvilState.codeSound_empty codes) h
  obtain ⟨hsince, hs'⟩ := AnvilState.overlay_path (w := w') hn hnil hds hs h'
  have hold : st.overlay w = old := hfirst
  have hnew : st'.overlay w' = (os ++ ds).foldl Override.write w' := by
    rw [hsince, List.foldl_append, hlater]
    rfl
  obtain ⟨state, hstate, hgz⟩ := collectState_of_dumpState hbuf
  have hworld : state.world = old := by
    obtain ⟨best, rfl⟩ := collectState_eq hdump hstate
    rw [SerializableState.mergeAnvilState_world, SerializableState.fromDump_world hd]
    exact hold
  have hl : ∀ e ∈ state.accounts.toList, e.2.code ∈ codes := by
    intro e he
    obtain ⟨-, -, hcode, -⟩ := SerializableState.world_of_some (Maps.mem_toList.mp he)
    rw [← hcode, hworld, ← hold]
    exact hs.code_mem hnil (hw.code_mem hc hnil) e.1
  have hdecode : SerializableState.decode f buf = .ok state := by
    refine SerializableState.decode_of_encodeGzipped hf ?_ (hi state hstate) hgz
    obtain ⟨best, rfl⟩ := collectState_eq hdump hstate
    exact SerializableState.nullFree_merge
  have haccepted : ∀ e ∈ state.accounts.toList, Accepted Bytecode e.2.code :=
    fun e he => hraw _ (hl e he)
  have hload : ∀ e ∈ state.accounts.toList, Loadable later e := by
    intro e he
    obtain ⟨account, ha⟩ := StateProvider.basicAccount_of_nonce (hw'.nonce e.1)
    exact ⟨by rw [ha]; rfl, haccepted e he⟩
  have hshows := AnvilStateProvider.shows_overlay
    (p := ⟨replay later st' state.accounts.toList, later.toStateProvider⟩) hw' hc'
    (replay_codeSound hs' hl haccepted) hn
  rw [overlay_replay hs' hn hnil hw' hl haccepted, hnew] at hshows
  refine ⟨state, _, hstate, loadState_of_loadable hdecode hload, ?_⟩
  rw [← World.load_eq_iff hworld]
  constructor
  · exact hshows.unique
  · intro heq
    rwa [heq] at hshows

/-- The changes of a test: the balance, the code and the slot of a contract. -/
def changes : List Override := [.setBalance 1 5, .setCode 1 [0x00], .setStorageAt 1 5 9]

open RawBytecode in
/-- They are undone. -/
theorem rollback_iff_oneContract :
    let node := NodeProvider.ofDump RawBytecode oneContract 0
    ∃ f buf st loaded, dumpState f node {} none = .ok buf ∧
      Transition.path (fun st o => Override.apply st o) {} changes = some st ∧
      loadState f node st buf = (.returned (.ok true), loaded) ∧
      (AnvilStateProvider.mk loaded node.toStateProvider).toStateProvider.Shows
        oneContract.world := by
  intro node
  obtain ⟨st, h⟩ : ∃ st, Transition.path
      (fun (st : AnvilState RawBytecode) o => Override.apply st o) {} changes = some st := ⟨_, rfl⟩
  obtain ⟨state, hstate⟩ : ∃ state, collectState node {} = .ok state := ⟨_, rfl⟩
  set f := DumpFormat.forDocument (state.encode (DumpFormat.forDocument .null))
  have hi : ∀ s, collectState node {} = .ok s → f.Inverts (s.encode f) := by
    intro s hs
    obtain rfl := Except.ok.inj (hstate.symm.trans hs)
    exact DumpFormat.forDocument_inverts _
  obtain ⟨buf, hbuf⟩ : ∃ buf, dumpState f node {} none = .ok buf := by
    have hd : dumpState f node {} none = collectState node {} >>= fun s =>
      .ok (gzipStored (asciiBytes (print (s.encode f)))) := rfl
    rw [hd, hstate]
    exact ⟨_, rfl⟩
  have hds : ∀ o ∈ changes, o.codes ⊆ knownCodes := by
    simp [changes, Override.codes, knownCodes]
  have hraw : ∀ code ∈ knownCodes, Accepted RawBytecode code := by
    rintro code (rfl | rfl | rfl) <;> decide
  obtain ⟨hw, hc, hd⟩ := oneContract_node
  have hos : ∀ o ∈ ([] : List Override), o.codes ⊆ knownCodes :=
    fun o ho => absurd ho List.not_mem_nil
  obtain ⟨state', loaded, hstate', hload, hiff⟩ := rollback_iff noCollision_knownCodes
    nil_mem_knownCodes hraw hos hds hw hc rfl hd rfl (DumpFormat.forDocument_lawful _) hi hbuf
    hw hc h
  refine ⟨f, buf, st, loaded, hbuf, h, hload, hiff.mpr fun a => ?_⟩
  have hget : state'.accounts[a]? = if a = 1 then some (DumpedAccount.toRecord
      { address := 1, nonce := 3, balance := 10, code := some [0xfe],
        storage := (∅ : ExtTreeMap B256 B256).insert 5 7 }) else none := by
    obtain rfl := Except.ok.inj hstate'
    change ((∅ : ExtTreeMap Address SerializableAccountRecord).insert 1 _)[a]? = _
    rw [Maps.getElem?_insert, ExtTreeMap.getElem?_empty]
    rfl
  rw [hget]
  by_cases ha : a = 1
  · subst ha
    rw [if_pos rfl]
    refine ⟨BitVec.le_refl _, fun k hk => ?_⟩
    have hne : k ≠ 5 := by
      rintro rfl
      rw [DumpedAccount.toRecord, Maps.getElem?_insert_self] at hk
      cases hk
    simp only [changes, List.nil_append, List.foldl_cons, List.foldl_nil, Override.write,
      Function.update_self, Function.update_of_ne hne]
  · rw [if_neg ha]
    exact ⟨Function.update_of_ne ha .., rfl, Function.update_of_ne ha ..,
      Function.update_of_ne ha ..⟩

end AnvilReth
