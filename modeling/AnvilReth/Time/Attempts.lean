import AnvilReth.Time.Log

/-! # Block attempts that fail

The hook that stamps a block takes its timestamp from the manager before
anybody knows whether the block will be mined. A log that leaves out the failed
attempts says which timestamp was mined last and which exact one is still owed.
-/

namespace AnvilReth

namespace TimeManager

variable {m : TimeManager} {now : U64}

theorem lastTimestamp_le_next : m.lastTimestamp ≤ (m.nextTimestamp now).1 := by
  by_cases hmax : (m.nextTimestamp now).1 = BitVec.allOnes 64
  · rw [hmax]
    exact Saturating.le_allOnes _
  · rcases lastTimestamp_lt_next hmax with hlt | ⟨heq, -⟩
    · exact BitVec.le_of_lt hlt
    · exact BitVec.le_of_eq heq

/-- From the largest timestamp on there is no other. -/
theorem nextTimestamp_of_max (h : m.lastTimestamp = BitVec.allOnes 64) :
    (m.nextTimestamp now).1 = BitVec.allOnes 64 := by
  have hle : m.lastTimestamp ≤ (m.nextTimestamp now).1 := lastTimestamp_le_next
  rw [h] at hle
  exact BitVec.le_antisymm (Saturating.le_allOnes _) hle

end TimeManager

namespace TimeLog

/-- A call to the manager, or a call of the hook for a block that is not mined. -/
inductive Attempt where
  | call (now : U64) (call : Call)
  | fail (now : U64)

/-- A failed attempt leaves its mark on the manager and none in the log. -/
def Logged.attempt (s : Logged) : Attempt → Logged
  | .call now call => s.step (now, call)
  | .fail now => { s with manager := (s.manager.nextTimestamp now).2 }

/-- The last timestamp is that of the last mined block or a later `set_time`,
and a block mined next gets the exact timestamp that is owed. -/
structure Unspent (s : Logged) : Prop where
  last : s.manager.lastTimestamp = s.log.last
  exact : ∀ t, s.log.exact = some t → ∀ now, (s.manager.nextTimestamp now).1 = t

/-- A failure does no harm once the timestamps cannot grow any more. -/
def Attempt.Harmless (s : Logged) : Attempt → Prop
  | .call _ _ => True
  | .fail _ => s.manager.lastTimestamp = BitVec.allOnes 64

/-- Whatever fails, an exact timestamp in its cell is owed, and one that is owed
and no longer there is not ahead of the last one. -/
structure Tracks (s : Logged) : Prop where
  pending : ∀ t, s.manager.nextExactTimestamp = some t →
    s.log.exact = some t ∧ s.manager.lastTimestamp ≤ t
  spent : ∀ t, s.log.exact = some t → s.manager.nextExactTimestamp = none →
    t ≤ s.manager.lastTimestamp

namespace Tracks

variable {s t : Logged}

theorem new (clock startTimestamp : U64) : Tracks (.new clock startTimestamp) :=
  ⟨fun _ => nofun, fun _ => nofun⟩

/-- A step that moves neither the cells of the two timestamps nor what is owed. -/
theorem of_eq (h : Tracks s) (hl : t.manager.lastTimestamp = s.manager.lastTimestamp)
    (he : t.manager.nextExactTimestamp = s.manager.nextExactTimestamp)
    (hlog : t.log.exact = s.log.exact) : Tracks t := by
  constructor
  · rw [hl, he, hlog]
    exact h.pending
  · rw [hl, he, hlog]
    exact h.spent

theorem fail (h : Tracks s) (now : U64) : Tracks (s.attempt (.fail now)) := by
  refine ⟨fun _ => nofun, fun t ht _ => ?_⟩
  change t ≤ (s.manager.nextTimestamp now).1
  cases he : s.manager.nextExactTimestamp with
  | none => exact BitVec.le_trans (h.spent t ht he) TimeManager.lastTimestamp_le_next
  | some t' =>
    obtain ⟨ht', hle⟩ := h.pending t' he
    obtain rfl : t = t' := Option.some.inj (ht.symm.trans ht')
    rw [TimeManager.nextTimestamp_of_exact he hle]
    exact BitVec.le_refl t

theorem attempt (h : Tracks s) (e : Attempt) : Tracks (s.attempt e) := by
  cases e with
  | fail now => exact h.fail now
  | call now call =>
    cases call with
    | setNextBlockTimestamp timestamp =>
      simp only [Logged.attempt, Logged.step, Call.perform, TimeManager.setNextBlockTimestamp]
      split <;> rename_i hset <;> split at hset <;> cases hset
      · rename_i hlt
        refine ⟨fun t ht => ?_, fun _ _ => nofun⟩
        obtain rfl := Option.some.inj ht
        exact ⟨rfl, BitVec.not_lt.mp hlt⟩
      · exact h.of_eq rfl rfl rfl
    | setTime timestamp | nextTimestamp => exact ⟨fun _ => nofun, fun _ => nofun⟩
    | increaseTime | setBlockTimestampInterval | removeBlockTimestampInterval |
      currentCallTimestamp => exact h.of_eq rfl rfl rfl

/-- What is owed is paid if it is still in its cell, or is the largest timestamp
and that has been reached. -/
theorem unspent_iff (h : Tracks s) :
    Unspent s ↔ s.manager.lastTimestamp = s.log.last ∧ ∀ t, s.log.exact = some t →
      s.manager.nextExactTimestamp = some t ∨
        (t = BitVec.allOnes 64 ∧ s.manager.lastTimestamp = BitVec.allOnes 64) := by
  constructor
  · rintro ⟨hlast, hexact⟩
    refine ⟨hlast, fun t ht => ?_⟩
    cases he : s.manager.nextExactTimestamp with
    | some t' =>
      obtain ⟨ht', -⟩ := h.pending t' he
      exact Or.inl (ht'.symm.trans ht)
    | none =>
      have hnext := hexact t ht 0
      have hrises : s.manager.lastTimestamp < (s.manager.nextTimestamp 0).1 ∨ _ :=
        TimeManager.lastTimestamp_lt_next_of_none he
      rcases hrises with hlt | hmax
      · rw [hnext] at hlt
        exact absurd (h.spent t ht he) (BitVec.not_le.mpr hlt)
      · exact Or.inr ⟨hnext.symm.trans (TimeManager.nextTimestamp_of_max hmax), hmax⟩
  · rintro ⟨hlast, howed⟩
    refine ⟨hlast, fun t ht now => ?_⟩
    rcases howed t ht with he | ⟨rfl, hmax⟩
    · rw [TimeManager.nextTimestamp_of_exact he (h.pending t he).2]
    · exact TimeManager.nextTimestamp_of_max hmax

/-- A failed attempt leaves everything unspent exactly if nothing could be spent. -/
theorem unspent_fail_iff (h : Tracks s) (hs : Unspent s) (now : U64) :
    Unspent (s.attempt (.fail now)) ↔ s.manager.lastTimestamp = BitVec.allOnes 64 := by
  obtain ⟨hlast, howed⟩ := h.unspent_iff.mp hs
  rw [(h.fail now).unspent_iff]
  constructor
  · rintro ⟨hnext, hfailed⟩
    change (s.manager.nextTimestamp now).1 = s.log.last at hnext
    rw [← hlast] at hnext
    cases he : s.manager.nextExactTimestamp with
    | none =>
      have hrises : s.manager.lastTimestamp < (s.manager.nextTimestamp now).1 ∨ _ :=
        TimeManager.lastTimestamp_lt_next_of_none he
      rw [hnext] at hrises
      exact hrises.resolve_left (BitVec.lt_irrefl _)
    | some t =>
      rcases hfailed t (h.pending t he).1 with hnone | ⟨-, hmax⟩
      · cases hnone
      · exact hnext.symm.trans hmax
  · intro hmax
    have hnext : (s.manager.nextTimestamp now).1 = BitVec.allOnes 64 :=
      TimeManager.nextTimestamp_of_max hmax
    refine ⟨hnext.trans (hmax.symm.trans hlast), fun t ht => Or.inr ⟨?_, hnext⟩⟩
    rw [← hs.exact t ht now, hnext]

/-- A call that the log has too spends nothing. -/
theorem unspent_call (h : Tracks s) (hs : Unspent s) (now : U64) (call : Call) :
    Unspent (s.attempt (.call now call)) := by
  have ht := h.attempt (.call now call)
  obtain ⟨hlast, howed⟩ := h.unspent_iff.mp hs
  rw [ht.unspent_iff]
  clear ht
  cases call with
  | setNextBlockTimestamp timestamp =>
    simp only [Logged.attempt, Logged.step, Call.perform, TimeManager.setNextBlockTimestamp]
    split <;> rename_i hset <;> split at hset <;> cases hset
    · exact ⟨hlast, fun t ht => Or.inl ht⟩
    · exact ⟨hlast, howed⟩
  | setTime timestamp | nextTimestamp => exact ⟨rfl, fun _ => nofun⟩
  | increaseTime | setBlockTimestampInterval | removeBlockTimestampInterval |
    currentCallTimestamp => exact ⟨hlast, howed⟩

end Tracks

/-- Along a run no time override is spent by an attempt that fails exactly if
attempts fail only once the timestamps cannot grow any more. -/
theorem always_unspent_iff (clock startTimestamp : U64) (es : List Attempt) :
    Transition.Always Logged.attempt Unspent (.new clock startTimestamp) es ↔
      Transition.Each Logged.attempt (fun s e => e.Harmless s) (.new clock startTimestamp) es := by
  refine Transition.always_iff_each (I := Tracks) (Tracks.new clock startTimestamp)
    ⟨rfl, fun _ => nofun⟩ (fun _ e h => h.attempt e) fun s e h hs => ?_
  cases e with
  | call now call => exact iff_of_true (h.unspent_call hs now call) trivial
  | fail now => exact h.unspent_fail_iff hs now

/-- A failed attempt spends the exact timestamp. -/
theorem failed_attempt_spends :
    ¬ ∀ (clock startTimestamp : U64) (es : List Attempt),
      Transition.Always Logged.attempt Unspent (.new clock startTimestamp) es := by
  intro h
  have hlast := (h 1000 1000 [.call 1000 (.setNextBlockTimestamp 5000), .fail 1000]).last
  exact absurd hlast.last (by decide)

end TimeLog

end AnvilReth
