import AnvilReth.Serde.Digits
import AnvilReth.State.Dump

/-! # A dump format

The leaf formats of the dump: hexadecimal addresses, slots, words and bytes,
hexadecimal quantities and decimal numbers, all of which read back. The text is
printed compactly and wrapped in stored gzip blocks. Parsing is given for the
text of one document only, which is what a single dump needs.
-/

namespace AnvilReth

open Serde

/-- Compact text; no string of a dump needs escapes. -/
def print : Json → String
  | .null => "null"
  | .bool value => toString value
  | .number text => text
  | .string text => "\"" ++ text ++ "\""
  | .array items => "[" ++ ",".intercalate (items.map print) ++ "]"
  | .object fields =>
    "\x7b" ++ ",".intercalate (fields.map fun e => "\"" ++ e.1 ++ "\":" ++ print e.2) ++ "\x7d"
decreasing_by
  · have := List.sizeOf_lt_of_mem ‹_ ∈ items›
    simp only [Json.array.sizeOf_spec]
    omega
  · have := List.sizeOf_lt_of_mem ‹e ∈ fields›
    have he : sizeOf e = 1 + sizeOf e.1 + sizeOf e.2 := rfl
    simp only [Json.object.sizeOf_spec]
    omega

/-- The bytes of an ASCII text. -/
def asciiBytes (text : String) : Bytes := text.toList.map fun c => BitVec.ofNat 8 c.toNat

section Gzip

def crc32Step (crc : BitVec 32) : BitVec 32 :=
  if crc.getLsbD 0 then (crc >>> 1) ^^^ 0xedb88320 else crc >>> 1

def crc32 (data : Bytes) : BitVec 32 :=
  ~~~ data.foldl (fun crc byte => crc32Step^[8] (crc ^^^ byte.setWidth 32)) (BitVec.allOnes 32)

/-- The low bytes of a number, least significant first. -/
def littleEndian (k n : ℕ) : Bytes := (List.range k).map fun i => BitVec.ofNat 8 (n / 256 ^ i)

/-- A stored block of one byte that is not the last block. -/
def storedBlock (byte : BitVec 8) : Bytes := [0x00, 0x01, 0x00, 0xfe, 0xff, byte]

/-- A gzip member with no name, each byte in a stored block of its own. -/
def gzipStored (data : Bytes) : Bytes :=
  [0x1f, 0x8b, 0x08, 0, 0, 0, 0, 0, 0, 0xff] ++ (data.flatMap storedBlock ++
    ([0x01, 0x00, 0x00, 0xff, 0xff] ++
      littleEndian 4 (crc32 data).toNat ++ littleEndian 4 data.length))

def isGzip (buf : Bytes) : Bool := buf.take 3 = [0x1f, 0x8b, 0x08]

/-- The data of stored one-byte blocks up to the last block, which is empty and
followed by the trailer. -/
def inflateStored : Bytes → Result Bytes
  | final :: len :: _ :: _ :: _ :: byte :: rest =>
    if final = 0x01 ∧ len = 0 then .ok [] else (inflateStored rest).map (byte :: ·)
  | _ => .error "corrupt deflate stream"

def gunzipStored (buf : Bytes) : Result Bytes := inflateStored (buf.drop 10)

theorem gunzipStored_gzipStored (data : Bytes) : gunzipStored (gzipStored data) = .ok data := by
  have h : ∀ (data : Bytes) (byte : BitVec 8) (trailer : Bytes), inflateStored
      (data.flatMap storedBlock ++ [0x01, 0x00, 0x00, 0xff, 0xff] ++ byte :: trailer) =
        .ok data := by
    intro data byte trailer
    induction data with
    | nil => rfl
    | cons b data ih =>
      change (inflateStored _).map (b :: ·) = _
      exact congrArg (Except.map (b :: ·)) ih
  rw [gunzipStored, gzipStored, List.append_assoc [0x01, 0x00, 0x00, 0xff, 0xff],
    ← List.append_assoc (data.flatMap storedBlock)]
  exact h data _ _

end Gzip

/-- The dump format, with a parser for the text of one document. -/
def DumpFormat.forDocument (document : Json) : DumpFormat where
  address := KeyCodec.hex 160 40
  slot := KeyCodec.hex 256 64
  word := Codec.hex 256 64
  u64 := Codec.decimal 64 20
  u256 := Codec.quantity 256 64
  bytes := Codec.hexBytes
  toVec j := .ok (asciiBytes (print j))
  fromSlice text :=
    if text = asciiBytes (print document) then .ok document else .error "expected value"
  gzip data := .ok (gzipStored data)
  gzHeader := isGzip
  gunzip := gunzipStored

theorem DumpFormat.forDocument_lawful (document : Json) : (forDocument document).Lawful where
  address := KeyCodec.hex_lawful (by norm_num) (by norm_num)
  slot := KeyCodec.hex_lawful (by norm_num) (by norm_num)
  word := Codec.hex_lawful (by norm_num) (by norm_num)
  u64 := Codec.decimal_lawful (by norm_num)
  u64_ne_null _ := nofun
  u256 := Codec.quantity_lawful (by norm_num)
  bytes := Codec.hexBytes_lawful

theorem DumpFormat.forDocument_inverts (document : Json) :
    (forDocument document).Inverts document := by
  intro text h
  obtain rfl := Except.ok.inj h
  refine ⟨if_pos rfl, fun buf hb => ?_⟩
  obtain rfl := Except.ok.inj hb
  exact ⟨rfl, gunzipStored_gzipStored _⟩

end AnvilReth
