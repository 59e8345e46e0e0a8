import AnvilReth.Time.Log

/-! # Timestamps from the wall clock

Without an exact timestamp and an interval the next block is stamped with the
clock plus the offset. The sum is cut to 64 bits, and a chain that has run
ahead of it only counts up by one second at a time.
-/

namespace AnvilReth

namespace TimeLog

/-- The clock reading of the latest call, or of the start. -/
def Logged.clock (s : Logged) : U64 := (s.log.entries.head?.map Entry.now).getD s.log.clock

/-- Under a clock that never goes back the offset leads to no time before zero. -/
def Logged.Positive (s : Logged) : Prop := 0 ≤ (s.clock.toNat : ℤ) + s.manager.offset.val

theorem Logged.Positive.step {s : Logged} (h : s.Positive) {e : U64 × Call} (he : s.clock ≤ e.1) :
    (s.step e).Positive := by
  obtain ⟨now, call⟩ := e
  have hclock : (s.step (now, call)).clock = now := rfl
  have hle : s.clock.toNat ≤ now.toNat := BitVec.le_def.mp he
  have hkeep : 0 ≤ (now.toNat : ℤ) + s.manager.offset.val := by
    unfold Logged.Positive at h
    omega
  unfold Logged.Positive
  rw [hclock]
  cases call with
  | increaseTime seconds =>
    change 0 ≤ (now.toNat : ℤ) + max (-2 ^ 127) (min (s.manager.offset.val + seconds.toNat) _)
    omega
  | setTime timestamp =>
    change 0 ≤ (now.toNat : ℤ) + (timestamp.toNat - now.toNat)
    omega
  | setNextBlockTimestamp timestamp =>
    simp only [Logged.step, Call.perform, TimeManager.setNextBlockTimestamp]
    split <;> rename_i hset <;> split at hset <;> cases hset <;> exact hkeep
  | setBlockTimestampInterval interval => exact hkeep
  | removeBlockTimestampInterval => exact hkeep
  | currentCallTimestamp => exact hkeep
  | nextTimestamp =>
    change 0 ≤ (now.toNat : ℤ) + (s.manager.nextTimestamp now).2.offset.val
    simp only [TimeManager.nextTimestamp, TimeManager.computeNextTimestamp]
    cases s.manager.nextExactTimestamp with
    | none => exact hkeep
    | some next =>
      change 0 ≤ (now.toNat : ℤ) + ((_ : ℕ) - (now.toNat : ℤ))
      omega

/-- After a time jump of so many seconds the next block is that far ahead
exactly if the jump is at most one second, which every block gains anyway, or
the chain had not run ahead of the clock and the offset. -/
theorem increaseTime_forward_iff (clock startTimestamp : U64) (calls : List (U64 × Call))
    (hclock : Transition.Each Logged.step (fun s e => s.clock ≤ e.1)
      (.new clock startTimestamp) calls) (seconds now : U64) :
    let s := Transition.run Logged.step (.new clock startTimestamp) calls
    let m := s.manager
    m.nextExactTimestamp = none → m.interval = none → s.clock ≤ now →
    m.lastTimestamp.toNat + seconds.toNat < 2 ^ 64 →
    now.toNat + m.offset.val + seconds.toNat < 2 ^ 64 →
    (m.lastTimestamp.toNat + seconds.toNat ≤
        ((m.increaseTime seconds).2.nextTimestamp now).1.toNat ↔
      seconds.toNat ≤ 1 ∨ m.lastTimestamp.toNat ≤ now.toNat + m.offset.val) := by
  intro s m hexact hinterval hnow hlast hsum
  have hpositive : s.Positive := by
    refine (Transition.always_of_each ?_ (fun _ _ h he => h.step he) hclock).last
    change (0 : ℤ) ≤ clock.toNat + (startTimestamp.toNat - clock.toNat)
    omega
  have hsum0 : 0 ≤ (now.toNat : ℤ) + m.offset.val := by
    have hle : s.clock.toNat ≤ now.toNat := BitVec.le_def.mp hnow
    have h0 : 0 ≤ (s.clock.toNat : ℤ) + m.offset.val := hpositive
    omega
  have hjump : (m.increaseTime seconds).2.offset.val = m.offset.val + seconds.toNat := by
    have hlower := m.offset.lower
    change max (-2 ^ 127) (min (m.offset.val + (seconds.toNat : ℤ)) (2 ^ 127 - 1)) = _
    omega
  have hnext : (((m.increaseTime seconds).2.nextTimestamp now).1.toNat : ℤ) = _ :=
    TimeManager.toNat_nextTimestamp_of_clock hexact hinterval
  have hsame : (m.increaseTime seconds).2.lastTimestamp = m.lastTimestamp := rfl
  rw [hsame, hjump] at hnext
  omega

/-- The clock has moved on by as much as the chain has run ahead. -/
theorem increaseTime_forward_iff_caughtUp :
    let m := (Transition.run Logged.step (.new 1000 1000)
      [(1000, .nextTimestamp), (1000, .nextTimestamp)]).manager
    m.lastTimestamp.toNat + 30 ≤ ((m.increaseTime 30).2.nextTimestamp 1002).1.toNat := by
  refine (increaseTime_forward_iff 1000 1000 [(1000, .nextTimestamp), (1000, .nextTimestamp)] ?_
    30 1002 rfl rfl (by decide) (by decide) (by decide)).mpr (Or.inr (by decide))
  simp only [Transition.each_cons, Transition.each_nil, and_true]
  decide

/-- Three blocks within a second leave the chain three seconds ahead of the
clock, and a jump only 27 seconds short of what was asked for. -/
theorem increaseTime_short :
    ¬ ∀ (clock startTimestamp : U64) (calls : List (U64 × Call)) (seconds now : U64),
      Transition.Each Logged.step (fun s e => s.clock ≤ e.1) (.new clock startTimestamp) calls →
      let s := Transition.run Logged.step (.new clock startTimestamp) calls
      let m := s.manager
      m.nextExactTimestamp = none → m.interval = none → s.clock ≤ now →
      m.lastTimestamp.toNat + seconds.toNat < 2 ^ 64 →
      now.toNat + m.offset.val + seconds.toNat < 2 ^ 64 →
      m.lastTimestamp.toNat + seconds.toNat ≤
        ((m.increaseTime seconds).2.nextTimestamp now).1.toNat := by
  intro h
  refine absurd (h 1000 1000 [(1000, .nextTimestamp), (1000, .nextTimestamp),
    (1000, .nextTimestamp)] 30 1000 ?_ rfl rfl (by decide) (by decide) (by decide)) (by decide)
  simp only [Transition.each_cons, Transition.each_nil, and_true]
  decide

end TimeLog

namespace TimeManager

variable (m : TimeManager) (now : U64)

/-- The clock plus the offset. -/
def wallClock : ℤ := (now.toNat : ℤ) + m.offset.val

/-- The low word of the clock plus the offset, which is what the cast keeps. -/
def lowWord : ℤ := min (m.wallClock now) (2 ^ 127 - 1) % 2 ^ 64

/-- The timestamp a block that is bumped gets. -/
def bump : ℤ := min ((m.lastTimestamp.toNat : ℤ) + 1) (2 ^ 64 - 1)

variable {m now}

/-- The timestamp saturates exactly if the sum is in range, or the cut does no
harm: below the range it leaves no more than the bump, above it the bump or
the low word is the largest timestamp anyway. -/
theorem nextTimestamp_saturates_iff (hexact : m.nextExactTimestamp = none)
    (hinterval : m.interval = none) :
    ((m.nextTimestamp now).1.toNat : ℤ) =
        max (m.bump) (max 0 (min (m.wallClock now) (2 ^ 64 - 1))) ↔
      (m.wallClock now < 0 → m.lowWord now ≤ m.bump) ∧
        (2 ^ 64 ≤ m.wallClock now → m.bump = 2 ^ 64 - 1 ∨ m.lowWord now = 2 ^ 64 - 1) := by
  have hnext : ((m.nextTimestamp now).1.toNat : ℤ) = max m.bump (m.lowWord now) :=
    toNat_nextTimestamp_of_clock hexact hinterval
  have hlow : m.lowWord now = min (m.wallClock now) (2 ^ 127 - 1) % 2 ^ 64 := rfl
  have hbump : m.bump = min ((m.lastTimestamp.toNat : ℤ) + 1) (2 ^ 64 - 1) := rfl
  rw [hnext]
  omega

/-- A clock a day after the start. -/
theorem nextTimestamp_saturates_iff_inRange :
    (((TimeManager.new 1000 1000).nextTimestamp 87400).1.toNat : ℤ) = 87400 := by
  have h : (((TimeManager.new 1000 1000).nextTimestamp 87400).1.toNat : ℤ) = _ :=
    (nextTimestamp_saturates_iff rfl rfl).mpr
      ⟨fun h => absurd h (by decide), fun h => absurd h (by decide)⟩
  exact h.trans (by decide)

/-- A clock that goes back by more than the node's time leads to a timestamp near
the other end of the range. -/
theorem timestamp_wraps :
    ¬ ∀ (clock startTimestamp : U64) (calls : List (U64 × TimeLog.Call)) (now : U64),
      let m := (Transition.run TimeLog.Logged.step (.new clock startTimestamp) calls).manager
      m.nextExactTimestamp = none → m.interval = none →
      ((m.nextTimestamp now).1.toNat : ℤ) =
        max (min ((m.lastTimestamp.toNat : ℤ) + 1) (2 ^ 64 - 1))
          (max 0 (min ((now.toNat : ℤ) + m.offset.val) (2 ^ 64 - 1))) := by
  intro h
  exact absurd (h 5000 1000 [] 3000 rfl rfl) (by decide)

end TimeManager

end AnvilReth
