import Mathlib.Data.BitVec
import Mathlib.Tactic.Linarith

/-! # Saturating machine arithmetic

Unsigned words are bit vectors, signed ones integers that carry their range.
Saturating addition clamps the exact sum to the range of the type.
-/

namespace Saturating

variable {w : ℕ}

theorem le_allOnes (a : BitVec w) : a ≤ BitVec.allOnes w := by
  have := a.isLt
  rw [BitVec.le_def, BitVec.toNat_allOnes]
  omega

/-- Unsigned addition that stays at the largest word instead of wrapping. -/
def add (a b : BitVec w) : BitVec w :=
  if a.toNat + b.toNat < 2 ^ w then a + b else BitVec.allOnes w

@[simp] theorem toNat_add (a b : BitVec w) :
    (add a b).toNat = min (a.toNat + b.toNat) (2 ^ w - 1) := by
  unfold add
  split
  · rename_i h
    rw [BitVec.toNat_add_of_lt h, min_eq_left (by omega)]
  · rename_i h
    rw [BitVec.toNat_allOnes, min_eq_right (by omega)]

/-- Repeated saturating addition clamps the exact sum once. -/
theorem toNat_foldl_add (a : BitVec w) (l : List (BitVec w)) :
    (l.foldl add a).toNat = min (a.toNat + (l.map BitVec.toNat).sum) (2 ^ w - 1) := by
  induction l generalizing a with
  | nil =>
    have := a.isLt
    simp only [List.foldl_nil, List.map_nil, List.sum_nil, add_zero]
    omega
  | cons b l ih =>
    rw [List.foldl_cons, ih, toNat_add, List.map_cons, List.sum_cons]
    omega

/-- Adding a positive amount moves a word up unless it reaches the largest one. -/
theorem lt_add {a b : BitVec w} (hb : 0 < b.toNat) (h : add a b ≠ BitVec.allOnes w) :
    a < add a b := by
  have hn : (add a b).toNat ≠ 2 ^ w - 1 := by
    intro he
    exact h (BitVec.eq_of_toNat_eq (by rw [he, BitVec.toNat_allOnes]))
  rw [toNat_add] at hn
  rw [BitVec.lt_def, toNat_add]
  omega

/-- A signed integer of `w` value bits and a sign. -/
structure Signed (w : ℕ) where
  val : ℤ
  lower : -2 ^ w ≤ val
  upper : val < 2 ^ w
  deriving DecidableEq

namespace Signed

@[ext] theorem ext {a b : Signed w} (h : a.val = b.val) : a = b := by
  cases a; cases b; simpa using h

/-- The signed integer nearest to an exact one. -/
def clamp (x : ℤ) : Signed w where
  val := max (-2 ^ w) (min x (2 ^ w - 1))
  lower := le_max_left _ _
  upper := by
    have h : (0 : ℤ) < 2 ^ w := by positivity
    exact max_lt (by linarith) (lt_of_le_of_lt (min_le_right _ _) (by linarith))

/-- Signed addition that stays at the ends of the range instead of wrapping. -/
def saturatingAdd (a b : Signed w) : Signed w := clamp (a.val + b.val)

/-- An unsigned word narrow enough to be a signed one. -/
def ofBitVec {n : ℕ} (hn : n ≤ w) (a : BitVec n) : Signed w where
  val := a.toNat
  lower := by
    have h : (0 : ℤ) < 2 ^ w := by positivity
    linarith [Int.natCast_nonneg a.toNat]
  upper := by
    have ha : a.toNat < 2 ^ w := lt_of_lt_of_le a.isLt (Nat.pow_le_pow_right (by norm_num) hn)
    exact_mod_cast ha

/-- The difference of two unsigned words narrow enough to be signed ones. -/
def diff {n : ℕ} (hn : n ≤ w) (a b : BitVec n) : Signed w where
  val := (a.toNat : ℤ) - b.toNat
  lower := by linarith [(ofBitVec hn b).upper, (show (0 : ℤ) ≤ a.toNat by positivity),
    (show (ofBitVec hn b).val = b.toNat from rfl)]
  upper := by linarith [(ofBitVec hn a).upper, (show (0 : ℤ) ≤ b.toNat by positivity),
    (show (ofBitVec hn a).val = a.toNat from rfl)]

/-- The low bits of a signed integer, as an `as` cast to an unsigned type keeps them. -/
def cast (n : ℕ) (a : Signed w) : BitVec n := BitVec.ofInt n a.val

end Signed

end Saturating
