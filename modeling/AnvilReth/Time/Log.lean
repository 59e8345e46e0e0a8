import AnvilReth.Time.Manager
import AnvilReth.Transition.Runs

/-! # The history of a time manager

Every call to a time manager is logged with its clock reading and its answer.
What the cells of the manager hold, and so the next timestamp, is read off the
log alone.
-/

namespace AnvilReth

open Saturating

namespace TimeLog

inductive Call where
  | increaseTime (seconds : U64)
  | setTime (timestamp : U64)
  | setNextBlockTimestamp (timestamp : U64)
  | setBlockTimestampInterval (interval : U64)
  | removeBlockTimestampInterval
  | currentCallTimestamp
  | nextTimestamp
  deriving DecidableEq

inductive Answer where
  | unit
  | offset (offset : I128)
  | accepted
  | refused (error : String)
  | removed (removed : Bool)
  | timestamp (timestamp : U64)
  deriving DecidableEq

/-- A call at a reading of the clock. -/
def Call.perform (m : TimeManager) (now : U64) : Call → Answer × TimeManager
  | increaseTime seconds =>
    let (offset, m) := m.increaseTime seconds
    (.offset offset, m)
  | setTime timestamp => (.unit, m.setTime now timestamp)
  | setNextBlockTimestamp timestamp =>
    match m.setNextBlockTimestamp timestamp with
    | (.ok (), m) => (.accepted, m)
    | (.error e, m) => (.refused e, m)
  | setBlockTimestampInterval interval => (.unit, m.setBlockTimestampInterval interval)
  | removeBlockTimestampInterval =>
    let (removed, m) := m.removeBlockTimestampInterval
    (.removed removed, m)
  | currentCallTimestamp => (.timestamp (m.currentCallTimestamp now), m)
  | nextTimestamp =>
    let (next, m) := m.nextTimestamp now
    (.timestamp next, m)

structure Entry where
  now : U64
  call : Call
  answer : Answer
  deriving DecidableEq

namespace Entry

/-- The timestamp an entry leaves as the last one. -/
def last (e : Entry) : Option U64 :=
  match e.call, e.answer with
  | .nextTimestamp, .timestamp t => some t
  | .setTime t, _ => some t
  | _, _ => none

/-- The exact timestamp an entry asks for, or the order to forget it. -/
def exact (e : Entry) : Option (Option U64) :=
  match e.call, e.answer with
  | .setNextBlockTimestamp t, .accepted => some (some t)
  | .nextTimestamp, _ => some none
  | .setTime _, _ => some none
  | _, _ => none

/-- The interval an entry sets or removes. -/
def interval (e : Entry) : Option (Option U64) :=
  match e.call with
  | .setBlockTimestampInterval i => some (some i)
  | .removeBlockTimestampInterval => some none
  | _ => none

end Entry

/-- The start of a manager, and all calls to it since, newest first. -/
structure Log where
  startTimestamp : U64
  clock : U64
  entries : List Entry

/-- The argument of `set_next_block_timestamp`, if the most recent of its
accepted calls, `next_timestamp` and `set_time` is such a call. -/
def exactOf (entries : List Entry) : Option U64 := (entries.findSome? Entry.exact).getD none

/-- The distance from the clock at the most recent of the start, `set_time` and
the consumption of an exact timestamp, plus all increases since. -/
def offsetOf (start : ℤ) : List Entry → ℤ
  | [] => start
  | e :: earlier =>
    match e.call with
    | .setTime t => (t.toNat : ℤ) - e.now.toNat
    | .increaseTime seconds => offsetOf start earlier + seconds.toNat
    | .nextTimestamp =>
      match exactOf earlier with
      | some t => (t.toNat : ℤ) - e.now.toNat
      | none => offsetOf start earlier
    | _ => offsetOf start earlier

namespace Log

variable (log : Log)

/-- The most recent result of `next_timestamp`, argument of `set_time`, or start. -/
def last : U64 := (log.entries.findSome? Entry.last).getD log.startTimestamp

def exact : Option U64 := exactOf log.entries

/-- The interval set most recently, unless it was removed since. -/
def interval : Option U64 := (log.entries.findSome? Entry.interval).getD none

def offset : ℤ := offsetOf ((log.startTimestamp.toNat : ℤ) - log.clock.toNat) log.entries

def add (e : Entry) : Log := { log with entries := e :: log.entries }

/-- The timestamp the log prescribes for a block at a reading of the clock, and
the integers it is computed from. -/
def prescribed (now : U64) : ℤ × List ℤ :=
  match log.exact, log.interval with
  | some t, _ => (t.toNat, [(t.toNat : ℤ)])
  | none, some i =>
    let next : ℤ := log.last.toNat + max i.toNat 1
    (next, [next])
  | none, none =>
    let bumped : ℤ := log.last.toNat + 1
    let regular : ℤ := now.toNat + log.offset
    (max bumped regular, [bumped, regular])

end Log

/-- A manager and its log. -/
structure Logged where
  manager : TimeManager
  log : Log

def Logged.new (clock startTimestamp : U64) : Logged where
  manager := .new clock startTimestamp
  log := ⟨startTimestamp, clock, []⟩

def Logged.step (s : Logged) (e : U64 × Call) : Logged :=
  let (answer, manager) := e.2.perform s.manager e.1
  { manager, log := s.log.add ⟨e.1, e.2, answer⟩ }

/-- The cells of the manager hold what the log says. The offset cell stays at
the largest value its type has, where the log's offset is beyond it. -/
structure Agrees (s : Logged) : Prop where
  last : s.manager.lastTimestamp = s.log.last
  exact : s.manager.nextExactTimestamp = s.log.exact
  interval : s.manager.interval = s.log.interval
  offset : s.manager.offset.val = min s.log.offset (2 ^ 127 - 1)
  lower : -2 ^ 64 < s.log.offset
  /-- An exact timestamp still to come is not behind the last one. -/
  pending : ∀ t, s.log.exact = some t → s.log.last ≤ t

namespace Agrees

variable {s : Logged}

theorem new (clock startTimestamp : U64) : Agrees (.new clock startTimestamp) where
  last := rfl
  exact := rfl
  interval := rfl
  offset := by
    change (startTimestamp.toNat : ℤ) - clock.toNat =
      min ((startTimestamp.toNat : ℤ) - clock.toNat) (2 ^ 127 - 1)
    omega
  lower := by
    change -2 ^ 64 < (startTimestamp.toNat : ℤ) - clock.toNat
    omega
  pending := nofun

theorem increaseTime (h : Agrees s) (now seconds : U64) :
    Agrees (s.step (now, .increaseTime seconds)) where
  last := h.last
  exact := h.exact
  interval := h.interval
  offset := by
    change max (-2 ^ 127) (min (s.manager.offset.val + seconds.toNat) (2 ^ 127 - 1)) =
      min (s.log.offset + seconds.toNat) (2 ^ 127 - 1)
    have := h.offset
    have := h.lower
    omega
  lower := by
    change -2 ^ 64 < s.log.offset + seconds.toNat
    have := h.lower
    omega
  pending := h.pending

theorem setTime (h : Agrees s) (now timestamp : U64) :
    Agrees (s.step (now, .setTime timestamp)) where
  last := rfl
  exact := rfl
  interval := h.interval
  offset := by
    change (timestamp.toNat : ℤ) - now.toNat =
      min ((timestamp.toNat : ℤ) - now.toNat) (2 ^ 127 - 1)
    omega
  lower := by
    change -2 ^ 64 < (timestamp.toNat : ℤ) - now.toNat
    omega
  pending := nofun

theorem setNextBlockTimestamp (h : Agrees s) (now timestamp : U64) :
    Agrees (s.step (now, .setNextBlockTimestamp timestamp)) := by
  unfold Logged.step Call.perform TimeManager.setNextBlockTimestamp
  rw [h.last]
  by_cases hlt : timestamp < s.log.last
  · simp only [if_pos hlt]
    exact ⟨h.last, h.exact, h.interval, h.offset, h.lower, h.pending⟩
  · simp only [if_neg hlt]
    refine ⟨rfl, rfl, h.interval, h.offset, h.lower, fun t ht => ?_⟩
    obtain rfl := Option.some.inj ht
    exact BitVec.not_lt.mp hlt

/-- A pending exact timestamp is the next one as it is, and rebases the offset. -/
theorem nextTimestamp_of_exact (h : Agrees s) {t : U64} (ht : s.log.exact = some t) (now : U64) :
    s.manager.nextTimestamp now =
      (t, { s.manager with
        nextExactTimestamp := none
        offset := Signed.diff (by decide) t now
        lastTimestamp := t }) := by
  refine TimeManager.nextTimestamp_of_exact ?_ ?_
  · rw [h.exact, ht]
  · rw [h.last]
    exact h.pending t ht

theorem nextTimestamp (h : Agrees s) (now : U64) : Agrees (s.step (now, .nextTimestamp)) := by
  cases ht : s.log.exact with
  | some t =>
    have hoffset : (s.step (now, .nextTimestamp)).log.offset = (t.toNat : ℤ) - now.toNat := by
      change (match s.log.exact with | some t => _ | none => _) = _
      rw [ht]
    rw [Log.exact] at ht
    refine ⟨rfl, rfl, h.interval, ?_, ?_, nofun⟩
    · rw [hoffset]
      have hm : (s.step (now, .nextTimestamp)).manager = (s.manager.nextTimestamp now).2 := rfl
      rw [hm, h.nextTimestamp_of_exact ht]
      change (t.toNat : ℤ) - now.toNat = min _ _
      omega
    · rw [hoffset]
      omega
  | none =>
    have hoffset : (s.step (now, .nextTimestamp)).log.offset = s.log.offset := by
      change (match s.log.exact with | some t => _ | none => _) = _
      rw [ht]
      rfl
    have hm : (s.step (now, .nextTimestamp)).manager.offset = s.manager.offset := by
      change (s.manager.nextTimestamp now).2.offset = _
      simp only [TimeManager.nextTimestamp, TimeManager.computeNextTimestamp, h.exact, ht]
      rfl
    refine ⟨rfl, rfl, h.interval, ?_, ?_, nofun⟩
    · rw [hm, hoffset, h.offset]
    · rw [hoffset]
      exact h.lower

theorem step (h : Agrees s) (e : U64 × Call) : Agrees (s.step e) := by
  obtain ⟨now, call⟩ := e
  cases call with
  | increaseTime seconds => exact h.increaseTime now seconds
  | setTime timestamp => exact h.setTime now timestamp
  | setNextBlockTimestamp timestamp => exact h.setNextBlockTimestamp now timestamp
  | setBlockTimestampInterval interval =>
    exact ⟨h.last, h.exact, rfl, h.offset, h.lower, h.pending⟩
  | removeBlockTimestampInterval => exact ⟨h.last, h.exact, rfl, h.offset, h.lower, h.pending⟩
  | currentCallTimestamp => exact ⟨h.last, h.exact, h.interval, h.offset, h.lower, h.pending⟩
  | nextTimestamp => exact h.nextTimestamp now

/-- The next timestamp is the prescribed one, where the words can hold it. -/
theorem toNat_nextTimestamp (h : Agrees s) {now : U64}
    (hfits : ∀ n ∈ (s.log.prescribed now).2, 0 ≤ n ∧ n < 2 ^ 64) :
    ((s.manager.nextTimestamp now).1.toNat : ℤ) = (s.log.prescribed now).1 := by
  cases ht : s.log.exact with
  | some t =>
    rw [h.nextTimestamp_of_exact ht, Log.prescribed, ht]
  | none =>
    have hexact : s.manager.nextExactTimestamp = none := by rw [h.exact, ht]
    cases hi : s.log.interval with
    | some i =>
      rw [Log.prescribed, ht, hi] at hfits ⊢
      have hnext := (hfits _ (List.mem_singleton_self _)).2
      have hinterval : s.manager.interval = some i := by rw [h.interval, hi]
      have hsum : _ → (s.manager.nextTimestamp now).1.toNat = _ :=
        TimeManager.toNat_nextTimestamp_of_interval hexact hinterval
      rw [h.last] at hsum
      dsimp only
      omega
    | none =>
      rw [Log.prescribed, ht, hi] at hfits ⊢
      have hlast := (hfits _ List.mem_cons_self).2
      have hregular := hfits _ (List.mem_cons_of_mem _ (List.mem_singleton_self _))
      have hinterval : s.manager.interval = none := by rw [h.interval, hi]
      have hoffset := h.offset
      rw [TimeManager.toNat_nextTimestamp_of_clock hexact hinterval, h.last]
      dsimp only
      omega

end Agrees

/-- Whatever the calls and their clock readings, the next block gets the
timestamp the log prescribes, and an exact timestamp is accepted unless it is
behind the last one. -/
theorem next_timestamp_prescribed (clock startTimestamp : U64) (calls : List (U64 × Call)) :
    let s := Transition.run Logged.step (.new clock startTimestamp) calls
    (∀ now, (∀ n ∈ (s.log.prescribed now).2, 0 ≤ n ∧ n < 2 ^ 64) →
      ((s.manager.nextTimestamp now).1.toNat : ℤ) = (s.log.prescribed now).1) ∧
    ∀ t, (s.manager.setNextBlockTimestamp t).1.isOk ↔ s.log.last ≤ t := by
  intro s
  have h : Agrees s :=
    (Transition.always_of_step (Agrees.new clock startTimestamp) fun _ e hs => hs.step e).last
  refine ⟨fun now => h.toNat_nextTimestamp, fun t => ?_⟩
  unfold TimeManager.setNextBlockTimestamp
  rw [h.last]
  split
  · rename_i hlt
    exact iff_of_false Bool.false_ne_true (BitVec.not_le.mpr hlt)
  · rename_i hlt
    exact iff_of_true rfl (BitVec.not_lt.mp hlt)

theorem next_timestamp_prescribed_exact :
    let s := Transition.run Logged.step (.new 1000 1000)
      [(1000, .setNextBlockTimestamp 1500), (1001, .increaseTime 7)]
    ((s.manager.nextTimestamp 1001).1.toNat : ℤ) = 1500 ∧
      (s.manager.setNextBlockTimestamp 1000).1.isOk := by
  obtain ⟨hnext, hset⟩ := next_timestamp_prescribed 1000 1000
    [(1000, .setNextBlockTimestamp 1500), (1001, .increaseTime 7)]
  exact ⟨hnext 1001 (by decide), (hset 1000).mpr (by decide)⟩

end TimeLog

end AnvilReth
