import AnvilReth.Rpc.Error
import AnvilReth.Words.Saturating
import AnvilReth.Words.Types

/-! # The time manager

The next block's timestamp is an exact one that was asked for, or the last one
plus an interval, or the clock plus an offset, bumped past the last one. Every
operation that consults the clock takes its reading in whole seconds.
-/

namespace AnvilReth

open Saturating

abbrev I128 := Signed 127

/-- `x as i128` of a `u64`. -/
def U64.toI128 (x : U64) : I128 := Signed.ofBitVec (by norm_num) x

structure TimeManager where
  /-- The overall applied timestamp offset. -/
  offset : I128
  /-- The timestamp of the last mined block. -/
  lastTimestamp : U64
  /-- The exact timestamp to use for the next mined block, if any. -/
  nextExactTimestamp : Option U64
  /-- The interval to use when determining the next block's timestamp. -/
  interval : Option U64
  deriving DecidableEq

namespace TimeManager

/-- Resets the manager to the given timestamp; the interval stays. -/
def reset (m : TimeManager) (now startTimestamp : U64) : TimeManager :=
  { m with
    lastTimestamp := startTimestamp
    offset := Signed.diff (by norm_num) startTimestamp now
    nextExactTimestamp := none }

def new (now startTimestamp : U64) : TimeManager :=
  reset { offset := Signed.clamp 0, lastTimestamp := 0, nextExactTimestamp := none,
          interval := none } now startTimestamp

/-- Sets the current time baseline. -/
def setTime (m : TimeManager) (now timestamp : U64) : TimeManager := m.reset now timestamp

def addOffset (m : TimeManager) (offset : I128) : I128 × TimeManager :=
  let next := m.offset.saturatingAdd offset
  (next, { m with offset := next })

/-- Jumps forward in time by the given number of seconds. -/
def increaseTime (m : TimeManager) (seconds : U64) : I128 × TimeManager :=
  m.addOffset seconds.toI128

/-- Sets the exact timestamp to use in the next block. -/
def setNextBlockTimestamp (m : TimeManager) (timestamp : U64) : Except String Unit × TimeManager :=
  if timestamp < m.lastTimestamp then
    (.error (toString timestamp.toNat ++ " is lower than previous block's timestamp"), m)
  else (.ok (), { m with nextExactTimestamp := some timestamp })

def setBlockTimestampInterval (m : TimeManager) (interval : U64) : TimeManager :=
  { m with interval := some interval }

/-- Removes the interval if it exists, returning whether one was removed. -/
def removeBlockTimestampInterval (m : TimeManager) : Bool × TimeManager :=
  (m.interval.isSome, { m with interval := none })

/-- `last_timestamp.saturating_add(1)`, with which timestamps are bumped. -/
def bumped (m : TimeManager) : U64 := add m.lastTimestamp 1

/-- The next timestamp without an exact one, before the bump. -/
def regularTimestamp (m : TimeManager) (now : U64) : U64 :=
  match m.interval with
  | some interval => add m.lastTimestamp interval
  | none => (now.toI128.saturatingAdd m.offset).cast 64

def computeNextTimestamp (m : TimeManager) (now : U64) : U64 × Option I128 :=
  match m.nextExactTimestamp with
  | some next =>
    let next := if next < m.lastTimestamp then m.bumped else next
    (next, some (Signed.diff (by norm_num) next now))
  | none =>
    let next := m.regularTimestamp now
    (if next ≤ m.lastTimestamp then m.bumped else next, none)

/-- The next block timestamp, with the internal state updated. -/
def nextTimestamp (m : TimeManager) (now : U64) : U64 × TimeManager :=
  let (next, nextOffset) := m.computeNextTimestamp now
  (next, { m with
    nextExactTimestamp := none
    offset := nextOffset.getD m.offset
    lastTimestamp := next })

/-- The current timestamp for read-only calls. -/
def currentCallTimestamp (m : TimeManager) (now : U64) : U64 := (m.computeNextTimestamp now).1

variable {m : TimeManager} {now : U64}

theorem lt_bumped (h : m.bumped ≠ BitVec.allOnes 64) : m.lastTimestamp < m.bumped :=
  lt_add (by decide) h

/-- An exact timestamp that is not behind the last one is the next one as it is,
and rebases the offset. -/
theorem nextTimestamp_of_exact {t : U64} (ht : m.nextExactTimestamp = some t)
    (hle : m.lastTimestamp ≤ t) :
    m.nextTimestamp now =
      (t, { m with
        nextExactTimestamp := none
        offset := Signed.diff (by decide) t now
        lastTimestamp := t }) := by
  have hlt : ¬ t < m.lastTimestamp := BitVec.not_lt.mpr hle
  simp only [nextTimestamp, computeNextTimestamp, ht, if_neg hlt]
  rfl

/-- Without an exact timestamp only the last one changes. -/
theorem nextTimestamp_of_none (h : m.nextExactTimestamp = none) :
    (m.nextTimestamp now).2 = { m with lastTimestamp := (m.nextTimestamp now).1 } := by
  simp only [nextTimestamp, computeNextTimestamp, h, Option.getD_none]

/-- An interval leads to the next timestamp, and at least one second on. -/
theorem toNat_nextTimestamp_of_interval {i : U64} (h : m.nextExactTimestamp = none)
    (hi : m.interval = some i) (hfits : m.lastTimestamp.toNat + max i.toNat 1 < 2 ^ 64) :
    (m.nextTimestamp now).1.toNat = m.lastTimestamp.toNat + max i.toNat 1 := by
  have hregular : (m.regularTimestamp now).toNat = m.lastTimestamp.toNat + i.toNat := by
    rw [regularTimestamp, hi]
    dsimp only
    rw [toNat_add]
    omega
  have hbumped : m.bumped.toNat = min (m.lastTimestamp.toNat + 1) (2 ^ 64 - 1) := toNat_add _ _
  simp only [nextTimestamp, computeNextTimestamp, h]
  split
  · rename_i hle
    rw [BitVec.le_def, hregular] at hle
    omega
  · rename_i hle
    rw [BitVec.le_def, hregular] at hle
    omega

/-- Without an exact timestamp and an interval the next one is the low word of
the clock plus the offset, bumped past the last one. -/
theorem toNat_nextTimestamp_of_clock (h : m.nextExactTimestamp = none) (hi : m.interval = none) :
    ((m.nextTimestamp now).1.toNat : ℤ) = max (min ((m.lastTimestamp.toNat : ℤ) + 1) (2 ^ 64 - 1))
      (min ((now.toNat : ℤ) + m.offset.val) (2 ^ 127 - 1) % 2 ^ 64) := by
  have hregular : ((m.regularTimestamp now).toNat : ℤ) =
      min ((now.toNat : ℤ) + m.offset.val) (2 ^ 127 - 1) % 2 ^ 64 := by
    have hval : (now.toI128.saturatingAdd m.offset).val =
        max (-2 ^ 127) (min (now.toNat + m.offset.val) (2 ^ 127 - 1)) := rfl
    have hlower := m.offset.lower
    rw [regularTimestamp, hi]
    dsimp only
    rw [Signed.cast, BitVec.toNat_ofInt]
    omega
  have hbumped : m.bumped.toNat = min (m.lastTimestamp.toNat + 1) (2 ^ 64 - 1) := toNat_add _ _
  simp only [nextTimestamp, computeNextTimestamp, h]
  split
  · rename_i hle
    rw [BitVec.le_def] at hle
    omega
  · rename_i hle
    rw [BitVec.le_def] at hle
    omega

/-- A timestamp below the largest word is above the last one, or it is the last
one because exactly that was asked for. -/
theorem lastTimestamp_lt_next (h : (m.nextTimestamp now).1 ≠ BitVec.allOnes 64) :
    m.lastTimestamp < (m.nextTimestamp now).1 ∨
      (m.lastTimestamp = (m.nextTimestamp now).1 ∧
        m.nextExactTimestamp = some m.lastTimestamp) := by
  have hn : (m.nextTimestamp now).1 = (m.computeNextTimestamp now).1 := rfl
  rw [hn] at h ⊢
  unfold computeNextTimestamp at h ⊢
  cases he : m.nextExactTimestamp with
  | some next =>
    simp only [he] at h ⊢
    split
    · rename_i hlt
      rw [if_pos hlt] at h
      exact Or.inl (lt_bumped h)
    · rename_i hlt
      by_cases hl : m.lastTimestamp = next
      · exact Or.inr ⟨hl, congrArg some hl.symm⟩
      · exact Or.inl (BitVec.lt_of_le_ne (BitVec.not_lt.mp hlt) hl)
  | none =>
    simp only [he] at h ⊢
    refine Or.inl ?_
    split
    · rename_i hle
      rw [if_pos hle] at h
      exact lt_bumped h
    · rename_i hle
      exact BitVec.not_le.mp hle

/-- Without an exact timestamp the next one is above the last, as long as there is one. -/
theorem lastTimestamp_lt_next_of_none (h : m.nextExactTimestamp = none) :
    m.lastTimestamp < (m.nextTimestamp now).1 ∨ m.lastTimestamp = BitVec.allOnes 64 := by
  by_cases hmax : (m.nextTimestamp now).1 = BitVec.allOnes 64
  · rw [hmax]
    by_cases hlast : m.lastTimestamp = BitVec.allOnes 64
    · exact Or.inr hlast
    · exact Or.inl (BitVec.lt_of_le_ne (le_allOnes _) hlast)
  · rcases lastTimestamp_lt_next hmax with hlt | ⟨-, he⟩
    · exact Or.inl hlt
    · rw [h] at he
      cases he

end TimeManager

/-- Timestamps that can only be milliseconds are taken as such. -/
def normalizeTimestampInput (timestamp : U64) : U64 :=
  if timestamp > 1000000000000 then timestamp / 1000 else timestamp

section Handlers

variable (m : TimeManager)

/-- `seconds.to::<u64>()` panics beyond the range of the type. -/
def anvilIncreaseTime (seconds : U256) : Outcome (BitVec 64) × TimeManager :=
  if seconds.toNat < 2 ^ 64 then
    let (offset, m) := m.increaseTime (seconds.setWidth 64)
    (.returned (.ok (BitVec.ofInt 64 (min offset.val (2 ^ 63 - 1)))), m)
  else (.panicked, m)

def anvilSetTime (now timestamp : U64) : Outcome U64 × TimeManager :=
  let timestamp := normalizeTimestampInput timestamp
  let current := m.currentCallTimestamp now
  (.returned (.ok (timestamp.saturatingSub current)), m.setTime now timestamp)

def anvilSetNextBlockTimestamp (seconds : U64) : Outcome Unit × TimeManager :=
  match m.setNextBlockTimestamp seconds with
  | (.ok (), m) => (.returned (.ok ()), m)
  | (.error e, m) => (.returned (.error (invalidParams e)), m)

def anvilSetBlockTimestampInterval (seconds : U64) : Outcome Unit × TimeManager :=
  (.returned (.ok ()), m.setBlockTimestampInterval seconds)

def anvilRemoveBlockTimestampInterval : Outcome Bool × TimeManager :=
  let (removed, m) := m.removeBlockTimestampInterval
  (.returned (.ok removed), m)

end Handlers

end AnvilReth
