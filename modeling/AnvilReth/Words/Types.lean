import Mathlib.Data.BitVec

/-! # Machine words of the node

The fixed-width words and byte strings the node computes with. A hash and a
256-bit integer are the same bits, read as big-endian bytes or as a number.
-/

namespace AnvilReth

abbrev U64 := BitVec 64
abbrev U256 := BitVec 256
abbrev B256 := BitVec 256
abbrev Address := BitVec 160
abbrev Bytes := List (BitVec 8)

/-! Addresses and 256-bit words are the keys of the node's maps. -/

instance : Std.TransCmp (compare : Address → Address → Ordering) :=
  inferInstanceAs (Std.TransOrd (BitVec 160))

instance : Std.TransCmp (compare : B256 → B256 → Ordering) :=
  inferInstanceAs (Std.TransOrd (BitVec 256))

instance : Std.LawfulEqCmp (compare : B256 → B256 → Ordering) :=
  inferInstanceAs (Std.LawfulEqOrd (BitVec 256))

instance : LawfulBEq B256 := inferInstanceAs (LawfulBEq (BitVec 256))

/-- `B256::from(value.to_be_bytes())` and back: a 32-byte big-endian word is its number. -/
def U256.toBeBytes (value : U256) : B256 := value

/-- `U256::from_be_bytes`, the other direction of the same identification. -/
def B256.toU256 (word : B256) : U256 := word

/-- `u64::max`. -/
def U64.max (a b : U64) : U64 := if a ≤ b then b else a

/-- `u64::saturating_sub`. -/
def U64.saturatingSub (a b : U64) : U64 := if b ≤ a then a - b else 0

theorem U64.max_eq_left {a b : U64} (h : b ≤ a) : U64.max a b = a := by
  unfold U64.max
  split
  · rename_i hab
    exact BitVec.le_antisymm h hab
  · rfl

theorem U64.le_max_right (a b : U64) : b ≤ U64.max a b := by
  unfold U64.max
  split
  · exact BitVec.le_refl b
  · rename_i h
    exact BitVec.le_of_lt (BitVec.not_le.mp h)

end AnvilReth
