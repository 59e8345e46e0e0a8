import Mathlib.Tactic.Linarith
import AnvilReth.Serde.Json

/-! # Numbers and bytes as text

Words are written in a base up to sixteen, either with all their digits or
without leading zeros, and bytes as pairs of hexadecimal digits. Reading back
what was written gives the word or the bytes again.
-/

namespace Serde

section Digits

variable {b : ℕ}

/-- The last `w` digits of a number, most significant first. -/
def digits (b : ℕ) : ℕ → ℕ → List ℕ
  | 0, _ => []
  | w + 1, n => digits b w (n / b) ++ [n % b]

def ofDigits (b : ℕ) (l : List ℕ) : ℕ := l.foldl (fun n d => n * b + d) 0

theorem ofDigits_digits {w n : ℕ} (h : n < b ^ w) : ofDigits b (digits b w n) = n := by
  induction w generalizing n with
  | zero =>
    rw [pow_zero, Nat.lt_one_iff] at h
    exact h.symm
  | succ w ih =>
    have hdiv : n / b < b ^ w := by
      rw [pow_succ, mul_comm] at h
      exact Nat.div_lt_of_lt_mul h
    have := ih hdiv
    rw [ofDigits] at this
    rw [digits, ofDigits, List.foldl_append, this]
    exact Nat.div_add_mod' n b

theorem lt_of_mem_digits (hb : 0 < b) {w n d : ℕ} (h : d ∈ digits b w n) : d < b := by
  induction w generalizing n with
  | zero => cases h
  | succ w ih =>
    rcases List.mem_append.mp h with h | h
    · exact ih h
    · rw [List.mem_singleton.mp h]
      exact Nat.mod_lt n hb

/-- Leading zeros do not count. -/
theorem ofDigits_dropWhile (l : List ℕ) : ofDigits b (l.dropWhile (· = 0)) = ofDigits b l := by
  induction l with
  | nil => rfl
  | cons d l ih =>
    by_cases h : d = 0
    · subst h
      rw [List.dropWhile_cons_of_pos (by simp), ih]
      simp [ofDigits]
    · rw [List.dropWhile_cons_of_neg (by simpa using h)]

/-- The value of a digit character below the base. -/
def digitValue (b : ℕ) (c : Char) : Option ℕ := (List.range b).find? fun d => d.digitChar = c

theorem digitValue_digitChar : ∀ d < 16, digitValue 16 d.digitChar = some d := by decide

theorem decimalValue_digitChar : ∀ d < 10, digitValue 10 d.digitChar = some d := by decide

/-- The number a text of digits stands for. -/
def parseDigits (b : ℕ) (text : List Char) : Result ℕ :=
  match text.mapM (digitValue b) with
  | some (d :: ds) => .ok (ofDigits b (d :: ds))
  | _ => .error "invalid digit"

theorem parseDigits_map {l : List ℕ} (hv : ∀ d ∈ l, digitValue b d.digitChar = some d)
    (hl : l ≠ []) : parseDigits b (l.map Nat.digitChar) = .ok (ofDigits b l) := by
  have hm : (l.map Nat.digitChar).mapM (digitValue b) = some l := by
    clear hl
    induction l with
    | nil => rfl
    | cons d l ih =>
      rw [List.map_cons, List.mapM_cons, hv d List.mem_cons_self,
        ih fun e he => hv e (List.mem_cons_of_mem _ he)]
      rfl
  rw [parseDigits, hm]
  cases l with
  | nil => exact absurd rfl hl
  | cons d l => rfl

end Digits

section Words

variable {w : ℕ}

/-- The word of a number in range. -/
def toWord (w n : ℕ) : Result (BitVec w) :=
  if n < 2 ^ w then .ok (BitVec.ofNat w n) else .error "number too large"

theorem toWord_toNat (a : BitVec w) : toWord w a.toNat = .ok a := by
  rw [toWord, if_pos a.isLt, BitVec.ofNat_toNat, BitVec.setWidth_eq]

/-- The shortest digits of a word, one zero for zero. -/
def shortDigits (b k : ℕ) (a : BitVec w) : List ℕ :=
  match (digits b k a.toNat).dropWhile (· = 0) with
  | [] => [0]
  | l => l

theorem ofDigits_shortDigits {b k : ℕ} {a : BitVec w} (h : 2 ^ w ≤ b ^ k) :
    ofDigits b (shortDigits b k a) = a.toNat := by
  have hv : ofDigits b ((digits b k a.toNat).dropWhile (· = 0)) = a.toNat := by
    rw [ofDigits_dropWhile, ofDigits_digits (lt_of_lt_of_le a.isLt h)]
  unfold shortDigits
  split
  · rename_i he
    rw [he] at hv
    rw [← hv]
    simp [ofDigits]
  · exact hv

theorem shortDigits_ne_nil {b k : ℕ} {a : BitVec w} : shortDigits b k a ≠ [] := by
  unfold shortDigits
  split
  · simp
  · rename_i h
    exact h

theorem lt_of_mem_shortDigits {b k d : ℕ} {a : BitVec w} (hb : 0 < b)
    (h : d ∈ shortDigits b k a) : d < b := by
  unfold shortDigits at h
  split at h
  · rw [List.mem_singleton.mp h]
    exact hb
  · exact lt_of_mem_digits hb ((List.dropWhile_sublist _).subset h)

/-- A word as a decimal number document. -/
def Codec.decimal (w k : ℕ) : Codec (BitVec w) where
  encode a := .number (String.ofList ((shortDigits 10 k a).map Nat.digitChar))
  decode
    | .number text => parseDigits 10 text.toList >>= toWord w
    | _ => .error "invalid type: expected an integer"

theorem Codec.decimal_lawful {k : ℕ} (h : 2 ^ w ≤ 10 ^ k) : (Codec.decimal w k).Lawful := by
  intro a
  change parseDigits 10 (String.ofList _).toList >>= toWord w = _
  rw [String.toList_ofList, parseDigits_map
    (fun d hd => decimalValue_digitChar d (lt_of_mem_shortDigits (by norm_num) hd))
    shortDigits_ne_nil, ofDigits_shortDigits h]
  exact toWord_toNat a

/-- Hexadecimal text behind its marker. -/
def hexText (l : List ℕ) : String := String.ofList ('0' :: 'x' :: l.map Nat.digitChar)

/-- The digit characters behind the marker. -/
def unmark (text : String) : Result (List Char) :=
  match text.toList with
  | '0' :: 'x' :: rest => .ok rest
  | _ => .error "missing 0x marker"

theorem unmark_hexText (l : List ℕ) : unmark (hexText l) = .ok (l.map Nat.digitChar) := by
  rw [unmark, hexText, String.toList_ofList]
  rfl

/-- A word as text with all its digits. -/
def KeyCodec.hex (w k : ℕ) : KeyCodec (BitVec w) where
  encode a := hexText (digits 16 k a.toNat)
  decode text := do
    let rest ← unmark text
    if rest.length = k then parseDigits 16 rest >>= toWord w else .error "wrong length"

theorem length_digits (b k n : ℕ) : (digits b k n).length = k := by
  induction k generalizing n with
  | zero => rfl
  | succ k ih => rw [digits, List.length_append, ih, List.length_singleton]

theorem KeyCodec.hex_lawful {k : ℕ} (h : 2 ^ w ≤ 16 ^ k) (hk : 0 < k) :
    (KeyCodec.hex w k).Lawful := by
  intro a
  have hne : digits 16 k a.toNat ≠ [] := by
    intro he
    rw [← length_digits 16 k a.toNat, he] at hk
    exact absurd hk (lt_irrefl 0)
  change (unmark (hexText _) >>= fun rest => if rest.length = k then _ else _) = _
  rw [unmark_hexText]
  change (if ((digits 16 k a.toNat).map Nat.digitChar).length = k then _ else _) = _
  rw [if_pos (by rw [List.length_map, length_digits]), parseDigits_map
    (fun d hd => digitValue_digitChar d (lt_of_mem_digits (by norm_num) hd)) hne,
    ofDigits_digits (lt_of_lt_of_le a.isLt h)]
  exact toWord_toNat a

/-- A word as a string document with all its digits. -/
def Codec.hex (w k : ℕ) : Codec (BitVec w) where
  encode a := .string ((KeyCodec.hex w k).encode a)
  decode
    | .string text => (KeyCodec.hex w k).decode text
    | _ => .error "invalid type: expected a string"

theorem Codec.hex_lawful {k : ℕ} (h : 2 ^ w ≤ 16 ^ k) (hk : 0 < k) : (Codec.hex w k).Lawful :=
  fun a => KeyCodec.hex_lawful h hk a

/-- A word as a hexadecimal quantity, without leading zeros. -/
def Codec.quantity (w k : ℕ) : Codec (BitVec w) where
  encode a := .string (hexText (shortDigits 16 k a))
  decode
    | .string text => do
      let rest ← unmark text
      parseDigits 16 rest >>= toWord w
    | _ => .error "invalid type: expected a string"

theorem Codec.quantity_lawful {k : ℕ} (h : 2 ^ w ≤ 16 ^ k) : (Codec.quantity w k).Lawful := by
  intro a
  change (unmark (hexText _) >>= fun rest => parseDigits 16 rest >>= toWord w) = _
  rw [unmark_hexText]
  change parseDigits 16 _ >>= toWord w = _
  rw [parseDigits_map
    (fun d hd => digitValue_digitChar d (lt_of_mem_shortDigits (by norm_num) hd))
    shortDigits_ne_nil, ofDigits_shortDigits h]
  exact toWord_toNat a

end Words

section Bytes

/-- Two digits make a byte. -/
def parsePairs : List Char → Result (List (BitVec 8))
  | [] => .ok []
  | [_] => .error "odd number of digits"
  | c :: d :: rest => do
    let byte ← parseDigits 16 [c, d] >>= toWord 8
    let bytes ← parsePairs rest
    return byte :: bytes

def pairDigits (bytes : List (BitVec 8)) : List ℕ :=
  bytes.flatMap fun byte => digits 16 2 byte.toNat

theorem parsePairs_pairDigits (bytes : List (BitVec 8)) :
    parsePairs ((pairDigits bytes).map Nat.digitChar) = .ok bytes := by
  induction bytes with
  | nil => rfl
  | cons byte bytes ih =>
    have hd : digits 16 2 byte.toNat = [byte.toNat / 16 % 16, byte.toNat % 16] := rfl
    have hbyte : parseDigits 16 ((digits 16 2 byte.toNat).map Nat.digitChar) >>= toWord 8 =
        .ok byte := by
      rw [parseDigits_map
        (fun d hd => digitValue_digitChar d (lt_of_mem_digits (by norm_num) hd)) (by simp [hd]),
        ofDigits_digits (lt_of_lt_of_le byte.isLt (by norm_num))]
      exact toWord_toNat byte
    rw [hd] at hbyte
    simp only [List.map_cons, List.map_nil] at hbyte
    rw [pairDigits, List.flatMap_cons, ← pairDigits, hd]
    simp only [List.cons_append, List.nil_append, List.map_cons]
    rw [parsePairs, hbyte, ih]
    rfl

/-- Bytes as a hexadecimal string document. -/
def Codec.hexBytes : Codec (List (BitVec 8)) where
  encode bytes := .string (hexText (pairDigits bytes))
  decode
    | .string text => unmark text >>= parsePairs
    | _ => .error "invalid type: expected a string"

theorem Codec.hexBytes_lawful : Codec.hexBytes.Lawful := by
  intro bytes
  change unmark (hexText _) >>= parsePairs = _
  rw [unmark_hexText]
  exact parsePairs_pairDigits bytes

end Bytes

end Serde
