import AnvilReth.State.Format
import AnvilReth.State.Memory

/-! # The two containers of a dump

A dump is read from gzipped or from plain JSON. Every state that a dump can hold
comes back from its gzipped form, and a document is read alike from both.
-/

namespace AnvilReth

open Std Serde

/-- Gzip and its header as documented. Writing to memory does not fail, and no
JSON text begins with the first byte of a gzip header. -/
structure DumpFormat.Containers (f : DumpFormat) : Prop where
  gzip_ok : ∀ text, ∃ buf, f.gzip text = .ok buf
  gunzip_gzip : ∀ text buf, f.gzip text = .ok buf → f.gunzip buf = .ok text
  header_gzip : ∀ text buf, f.gzip text = .ok buf → f.gzHeader buf = true
  magic : ∀ buf, f.gzHeader buf = true → [0x1f, 0x8b] <+: buf
  json : ∀ text j, f.fromSlice text = .ok j → text.head? ≠ some 0x1f

/-- The document is written as a text that reads back as it. -/
def DumpFormat.Writes (f : DumpFormat) (j : Json) : Prop :=
  ∃ text, f.toVec j = .ok text ∧ f.fromSlice text = .ok j

namespace DumpFormat

variable {f : DumpFormat} {text : Bytes} {j : Json}

theorem Containers.inverts (hc : f.Containers) (hw : f.Writes j) : f.Inverts j := by
  obtain ⟨text, htext, hslice⟩ := hw
  intro text' htext'
  obtain rfl := Except.ok.inj (htext.symm.trans htext')
  exact ⟨hslice, fun buf hb => ⟨hc.header_gzip text buf hb, hc.gunzip_gzip text buf hb⟩⟩

/-- A JSON text is not taken for gzip. -/
theorem Containers.header_json (hc : f.Containers) (h : f.fromSlice text = .ok j) :
    f.gzHeader text = false := by
  rw [← Bool.not_eq_true]
  intro hheader
  obtain ⟨rest, rfl⟩ := hc.magic text hheader
  exact hc.json _ j h rfl

theorem forDocument_containers (fields : List (String × Json)) :
    (forDocument (.object fields)).Containers where
  gzip_ok text := ⟨_, rfl⟩
  gunzip_gzip text buf h := by
    obtain rfl := Except.ok.inj h
    exact gunzipStored_gzipStored text
  header_gzip text buf h := by
    obtain rfl := Except.ok.inj h
    rfl
  magic buf h := by
    have htake : buf.take 3 = [0x1f, 0x8b, 0x08] := of_decide_eq_true h
    have hprefix : [0x1f, 0x8b] <+: buf.take 3 := htake ▸ ⟨[0x08], rfl⟩
    exact hprefix.trans (List.take_prefix 3 buf)
  json text j h := by
    have htext : text = asciiBytes (print (.object fields)) := by
      by_contra hne
      rw [forDocument] at h
      dsimp only at h
      rw [if_neg hne] at h
      cases h
    have hopen : "\x7b".toList = [Char.ofNat 0x7b] := by decide
    rw [htext, print, asciiBytes, String.toList_append, String.toList_append, hopen]
    exact fun h => absurd (Option.some.inj h) (by decide)

end DumpFormat

namespace SerializableState

/-- The states that decoding returns, and those a node builds for its dump. -/
inductive Arises (f : DumpFormat) (Bytecode : Type) [Code Bytecode] : SerializableState → Prop
  | decoded {buf : Bytes} {state : SerializableState} (h : decode f buf = .ok state) :
      Arises f Bytecode state
  | built (dump : DumpedState) (best : Option U64) (anvilState : AnvilState Bytecode) :
      Arises f Bytecode ((fromDump dump best).mergeAnvilState anvilState)

variable {f : DumpFormat} {Bytecode : Type} [Code Bytecode] {state : SerializableState}

theorem nullFree_of_decodeJson {j : Json} (h : decodeJson f j = .ok state) : state.NullFree := by
  obtain ⟨-, -, h⟩ := ok_of_bind h
  obtain ⟨block, hblock, h⟩ := ok_of_bind h
  obtain ⟨accounts, -, h⟩ := ok_of_bind h
  obtain ⟨best, -, h⟩ := ok_of_bind h
  obtain ⟨blocks, -, h⟩ := ok_of_bind h
  obtain ⟨transactions, -, h⟩ := ok_of_bind h
  obtain ⟨historicalStates, hhistorical, h⟩ := ok_of_bind h
  obtain rfl := Except.ok.inj h
  have hfield : ∀ {index : ℕ} {name : String} {value : Option Json},
      fieldOr index name Codec.raw.option none j = .ok value → value ≠ some .null :=
    fun h => fieldOr_ok (P := fun value => value ≠ some .null) (Option.some_ne_none _).symm
      (fun _ _ => Codec.option_raw_ne_null) h
  exact ⟨hfield hblock, hfield hhistorical⟩

theorem nullFree_of_decode {buf : Bytes} (h : decode f buf = .ok state) : state.NullFree := by
  unfold decode at h
  split at h
  · obtain ⟨decoded, -, h⟩ := ok_of_bind h
    obtain ⟨j, -, h⟩ := ok_of_bind h
    exact nullFree_of_decodeJson h
  · obtain ⟨j, -, h⟩ := ok_of_bind h
    exact nullFree_of_decodeJson h

/-- No state that arises holds a null where it would read back as absent. -/
theorem Arises.nullFree (h : Arises f Bytecode state) : state.NullFree := by
  cases h with
  | decoded h => exact nullFree_of_decode h
  | built dump best anvilState => exact nullFree_merge

/-- A plain document is decoded as it is read. -/
theorem decode_of_fromSlice (hc : f.Containers) {text : Bytes} {j : Json}
    (h : f.fromSlice text = .ok j) : decode f text = decodeJson f j := by
  rw [decode, hc.header_json h, if_neg Bool.false_ne_true, h]
  rfl

/-- Both containers give back what they hold: a state that arises is decoded from
its gzipped form, and a document is decoded alike gzipped and plain. -/
theorem decode_containers (hf : f.Lawful) (hc : f.Containers) :
    (∀ state, Arises f Bytecode state → f.Writes (encode f state) →
      (encodeGzipped f state >>= decode f) = .ok state) ∧
    ∀ text j, f.fromSlice text = .ok j → (f.gzip text >>= decode f) = decode f text := by
  constructor
  · intro state hs hw
    obtain ⟨text, htext, -⟩ := id hw
    obtain ⟨buf, hbuf⟩ := hc.gzip_ok text
    have hgz : encodeGzipped f state = .ok buf := by
      rw [encodeGzipped, htext]
      exact hbuf
    rw [hgz]
    exact decode_of_encodeGzipped hf hs.nullFree (hc.inverts hw) hgz
  · intro text j hj
    obtain ⟨buf, hbuf⟩ := hc.gzip_ok text
    rw [hbuf]
    change decode f buf = decode f text
    rw [decode_of_fromSlice hc hj, decode, if_pos (hc.header_gzip text buf hbuf),
      hc.gunzip_gzip text buf hbuf]
    change (f.fromSlice text >>= decodeJson f) = _
    rw [hj]
    rfl

/-- A state with most fields in use. Lists may hold null documents. -/
def fullState : SerializableState where
  block := some (.string "tip")
  accounts := (∅ : ExtTreeMap Address SerializableAccountRecord).insert 1
    { nonce := 2, balance := 3, code := [0xfe], storage := (∅ : ExtTreeMap B256 B256).insert 5 7 }
  bestBlockNumber := some 9
  blocks := [.null]
  historicalStates := some (.array [.null])

theorem decode_containers_fullState :
    ∃ f : DumpFormat, (encodeGzipped f fullState >>= decode f) = .ok fullState ∧
      (f.gzip (asciiBytes (print (encode f fullState))) >>= decode f) = .ok fullState := by
  set f := DumpFormat.forDocument (encode (DumpFormat.forDocument .null) fullState)
  have hf : f.Lawful := DumpFormat.forDocument_lawful _
  have hc : f.Containers := DumpFormat.forDocument_containers _
  have hslice : f.fromSlice (asciiBytes (print (encode f fullState))) =
      .ok (encode f fullState) := if_pos rfl
  have hw : f.Writes (encode f fullState) := ⟨_, rfl, hslice⟩
  have hnull : fullState.NullFree := ⟨nofun, nofun⟩
  have hdecode : decode f (gzipStored (asciiBytes (print (encode f fullState)))) = .ok fullState :=
    decode_of_encodeGzipped hf hnull (hc.inverts hw) rfl
  obtain ⟨hstate, hdocument⟩ := @decode_containers f RawBytecode _ hf hc
  refine ⟨f, hstate fullState (.decoded hdecode) hw, ?_⟩
  rw [hdocument _ _ hslice, decode_of_fromSlice hc hslice]
  exact decodeJson_encode hf hnull

end SerializableState

end AnvilReth
