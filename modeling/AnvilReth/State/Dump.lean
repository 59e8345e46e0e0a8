import AnvilReth.Serde.Json
import AnvilReth.State.World

/-! # State dumps

The serializable form of the node state: built from a dump of the base state,
merged with the local overrides, written as gzipped JSON and read back from
gzipped or plain JSON. Encoding and decoding are derived from the fields; the
leaf formats, the JSON text and gzip belong to libraries.
-/

namespace AnvilReth

open Std Serde

/-- One account of a dump of the base state. -/
structure DumpedAccount where
  address : Address
  nonce : U64
  balance : U256
  code : Option Bytes
  storage : ExtTreeMap B256 B256

structure DumpedState where
  accounts : List DumpedAccount

/-- The node's own provider: base state reads, head number and state dump. -/
structure NodeProvider (Bytecode : Type) extends StateProvider Bytecode where
  bestBlockNumber : ProviderResult U64
  dumpStateCollect : ProviderResult DumpedState

@[ext] structure SerializableAccountRecord where
  nonce : U64 := 0
  balance : U256 := 0
  code : Bytes := []
  storage : ExtTreeMap B256 B256 := ∅
  deriving DecidableEq

instance : Inhabited SerializableAccountRecord := ⟨{}⟩

structure SerializableState where
  block : Option Json := none
  accounts : ExtTreeMap Address SerializableAccountRecord := ∅
  bestBlockNumber : Option U64 := none
  blocks : List Json := []
  transactions : List Json := []
  historicalStates : Option Json := none

/-- The libraries under the dump format. -/
structure DumpFormat where
  address : KeyCodec Address
  slot : KeyCodec B256
  word : Codec B256
  u64 : Codec U64
  u256 : Codec U256
  bytes : Codec Bytes
  /-- `serde_json::to_vec` on a document. -/
  toVec : Json → Result Bytes
  /-- `serde_json::from_slice` as a document. -/
  fromSlice : Bytes → Result Json
  /-- The gzip encoder, written to and finished. -/
  gzip : Bytes → Result Bytes
  /-- `GzDecoder::header().is_some()`. -/
  gzHeader : Bytes → Bool
  /-- `GzDecoder::read_to_end`. -/
  gunzip : Bytes → Result Bytes

/-- The leaf formats give back every value; numbers are never null documents. -/
structure DumpFormat.Lawful (f : DumpFormat) : Prop where
  address : f.address.Lawful
  slot : f.slot.Lawful
  word : f.word.Lawful
  u64 : f.u64.Lawful
  u64_ne_null : ∀ n, f.u64.encode n ≠ .null
  u256 : f.u256.Lawful
  bytes : f.bytes.Lawful

/-- Any JSON text written for the document reads back as it, also after gzip. -/
def DumpFormat.Inverts (f : DumpFormat) (j : Json) : Prop :=
  ∀ text, f.toVec j = .ok text → f.fromSlice text = .ok j ∧
    ∀ buf, f.gzip text = .ok buf → f.gzHeader buf = true ∧ f.gunzip buf = .ok text

namespace SerializableAccountRecord

variable (f : DumpFormat)

def encode (record : SerializableAccountRecord) : Json :=
  .object (entry false "nonce" (f.u64.encode record.nonce) ++
    entry false "balance" (f.u256.encode record.balance) ++
    entry false "code" (f.bytes.encode record.code) ++
    entry false "storage" ((Codec.map f.slot f.word).encode record.storage))

def decode (j : Json) : Result SerializableAccountRecord := do
  checkLength 4 j
  let nonce ← fieldOr 0 "nonce" f.u64 0 j
  let balance ← fieldOr 1 "balance" f.u256 0 j
  let code ← fieldOr 2 "code" f.bytes [] j
  let storage ← fieldOr 3 "storage" (Codec.map f.slot f.word) ∅ j
  return { nonce, balance, code, storage }

def codec : Codec SerializableAccountRecord where
  encode := encode f
  decode := decode f

variable {f}

theorem codec_lawful (hf : f.Lawful) : (codec f).Lawful := by
  intro record
  have hstorage := Codec.map_decode hf.slot record.storage fun e _ => hf.word e.2
  change decode f (encode f record) = .ok record
  simp only [decode, encode]
  rw [fieldOr_object (a := record.nonce) false (by simp [filter_entry]) (by simp)
      fun _ => hf.u64 _,
    fieldOr_object (a := record.balance) false (by simp [filter_entry]) (by simp)
      fun _ => hf.u256 _,
    fieldOr_object (a := record.code) false (by simp [filter_entry]) (by simp)
      fun _ => hf.bytes _,
    fieldOr_object (a := record.storage) false (by simp [filter_entry]) (by simp)
      fun _ => hstorage]
  rfl

end SerializableAccountRecord

/-- The record of a dumped base account. -/
def DumpedAccount.toRecord (account : DumpedAccount) : SerializableAccountRecord where
  nonce := account.nonce
  balance := account.balance
  code := account.code.getD []
  storage := account.storage

namespace SerializableState

def fromDump (dump : DumpedState) (bestBlockNumber : Option U64) : SerializableState where
  accounts := Maps.insertAll ∅ (dump.accounts.map fun account =>
    (account.address, account.toRecord))
  bestBlockNumber

/-- The changes a local account makes to its record, which starts out empty if
the base has no such account. -/
def mergeAccount {Bytecode : Type} [Code Bytecode] (anvilState : AnvilState Bytecode)
    (record : Option SerializableAccountRecord) (account : AccountOverride) :
    SerializableAccountRecord :=
  let record := record.getD default
  let record := match account.balance with
    | some balance => { record with balance }
    | none => record
  let record := match account.nonce with
    | some nonce => { record with nonce }
    | none => record
  let record := match account.codeHash with
    | some codeHash =>
      { record with
        code :=
          if codeHash = keccakEmpty Bytecode then []
          else ((anvilState.bytecodeByHash codeHash).map originalBytes).getD [] }
    | none => record
  { record with
    storage := Maps.insertAll record.storage
      (account.storage.toList.map fun e => (e.1, U256.toBeBytes e.2)) }

/-- Every local account is merged into its record. The order of the loop is
that of the hash map, on which the result does not depend. -/
def mergeAnvilState {Bytecode : Type} [Code Bytecode] (state : SerializableState)
    (anvilState : AnvilState Bytecode) : SerializableState :=
  { state with
    accounts := Maps.upsertAll (fun _ => mergeAccount anvilState) state.accounts
      anvilState.accounts.toList }

/-- Each field of a merged record is the override if there is one. -/
theorem mergeAccount_fields {Bytecode : Type} [Code Bytecode] (anvilState : AnvilState Bytecode)
    (record : Option SerializableAccountRecord) (account : AccountOverride) :
    let merged := mergeAccount anvilState record account
    merged.balance = account.balance.getD (record.getD default).balance ∧
    merged.nonce = account.nonce.getD (record.getD default).nonce ∧
    merged.code = (account.codeHash.map anvilState.codeBytes).getD (record.getD default).code ∧
    merged.storage = Maps.insertAll (record.getD default).storage
      (account.storage.toList.map fun e => (e.1, U256.toBeBytes e.2)) := by
  unfold mergeAccount
  cases account.balance <;> cases account.nonce <;> cases account.codeHash <;> simp <;> rfl

variable (f : DumpFormat)

def encode (state : SerializableState) : Json :=
  .object (
    entry state.block.isNone "block" (Codec.raw.option.encode state.block) ++
    entry false "accounts"
      ((Codec.map f.address (SerializableAccountRecord.codec f)).encode state.accounts) ++
    entry state.bestBlockNumber.isNone "best_block_number"
      (f.u64.option.encode state.bestBlockNumber) ++
    entry state.blocks.isEmpty "blocks" (Codec.raw.list.encode state.blocks) ++
    entry state.transactions.isEmpty "transactions"
      (Codec.raw.list.encode state.transactions) ++
    entry state.historicalStates.isNone "historical_states"
      (Codec.raw.option.encode state.historicalStates))

def decodeJson (j : Json) : Result SerializableState := do
  checkLength 6 j
  let block ← fieldOr 0 "block" Codec.raw.option none j
  let accounts ← fieldOr 1 "accounts"
    (Codec.map f.address (SerializableAccountRecord.codec f)) ∅ j
  let bestBlockNumber ← fieldOr 2 "best_block_number" f.u64.option none j
  let blocks ← fieldOr 3 "blocks" Codec.raw.list [] j
  let transactions ← fieldOr 4 "transactions" Codec.raw.list [] j
  let historicalStates ← fieldOr 5 "historical_states" Codec.raw.option none j
  return { block, accounts, bestBlockNumber, blocks, transactions, historicalStates }

def encodeGzipped (state : SerializableState) : Result Bytes := do
  let json ← f.toVec (encode f state)
  f.gzip json

/-- Gzipped buffers are told from plain ones by their header. -/
def decode (buf : Bytes) : Result SerializableState :=
  if f.gzHeader buf then do
    let decoded ← f.gunzip buf
    let j ← f.fromSlice decoded
    decodeJson f j
  else do
    let j ← f.fromSlice buf
    decodeJson f j

/-- No field that may be left out holds a document it is left out for. -/
def NullFree (state : SerializableState) : Prop :=
  state.block ≠ some .null ∧ state.historicalStates ≠ some .null

variable {f} {state : SerializableState}

theorem nullFree_merge {Bytecode : Type} [Code Bytecode] {dump : DumpedState} {best : Option U64}
    {anvilState : AnvilState Bytecode} :
    ((fromDump dump best).mergeAnvilState anvilState).NullFree :=
  ⟨nofun, nofun⟩

theorem option_raw_decode {value : Option Json} (h : value ≠ some .null) :
    value.isNone = false → Codec.raw.option.decode (Codec.raw.option.encode value) = .ok value := by
  intro hv
  cases value with
  | none => cases hv
  | some j => exact Codec.option_decode_some rfl fun he => h (congrArg some he)

theorem decodeJson_encode (hf : f.Lawful) (hs : state.NullFree) :
    decodeJson f (encode f state) = .ok state := by
  have haccounts := Codec.map_decode hf.address state.accounts fun e _ =>
    SerializableAccountRecord.codec_lawful hf e.2
  have hbest : state.bestBlockNumber.isNone = false →
      f.u64.option.decode (f.u64.option.encode state.bestBlockNumber) =
        .ok state.bestBlockNumber := by
    intro hb
    cases h : state.bestBlockNumber with
    | none => simp [h] at hb
    | some n => exact Codec.option_decode_some (hf.u64 n) (hf.u64_ne_null n)
  have hlist := Codec.list_lawful (c := Codec.raw) Codec.raw_lawful
  simp only [decodeJson, encode]
  rw [fieldOr_object (a := state.block) state.block.isNone
      (by simp [filter_entry]) Option.isNone_iff_eq_none.mp (option_raw_decode hs.1),
    fieldOr_object (a := state.accounts) false
      (by simp [filter_entry]) (by simp) fun _ => haccounts,
    fieldOr_object (a := state.bestBlockNumber) state.bestBlockNumber.isNone
      (by simp [filter_entry]) Option.isNone_iff_eq_none.mp hbest,
    fieldOr_object (a := state.blocks) state.blocks.isEmpty
      (by simp [filter_entry]) List.isEmpty_iff.mp fun _ => hlist _,
    fieldOr_object (a := state.transactions) state.transactions.isEmpty
      (by simp [filter_entry]) List.isEmpty_iff.mp fun _ => hlist _,
    fieldOr_object (a := state.historicalStates) state.historicalStates.isNone
      (by simp [filter_entry]) Option.isNone_iff_eq_none.mp (option_raw_decode hs.2)]
  rfl

/-- A gzipped state decodes to itself. -/
theorem decode_of_encodeGzipped (hf : f.Lawful) (hs : state.NullFree)
    (hi : f.Inverts (encode f state)) {buf : Bytes} (h : encodeGzipped f state = .ok buf) :
    decode f buf = .ok state := by
  unfold encodeGzipped at h
  cases htext : f.toVec (encode f state) with
  | error e =>
    rw [htext] at h
    cases h
  | ok text =>
    rw [htext] at h
    obtain ⟨hslice, hgzip⟩ := hi text htext
    obtain ⟨hheader, hgunzip⟩ := hgzip buf h
    rw [decode, if_pos hheader, hgunzip]
    change (f.fromSlice text >>= decodeJson f) = _
    rw [hslice]
    exact decodeJson_encode hf hs

end SerializableState

end AnvilReth
