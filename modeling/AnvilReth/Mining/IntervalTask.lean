import AnvilReth.Mining.Controller
import AnvilReth.Transition.Runs

/-! # The interval mining task

The task copies the mode, arms a sleep for the duration it has copied, and
selects between a change of the mode and the end of the sleep. After the sleep
it reads the mode once more before it triggers a block.
-/

namespace AnvilReth

namespace IntervalTask

/-- A sleep, with the version of the mode it was armed under. -/
structure Sleep where
  duration : U64
  armedAt : ℕ
  deriving DecidableEq

/-- Where the task stands: at the top of its loop, waiting for a change in a mode
without an interval, or on its way through a round of interval mining. -/
inductive Phase where
  | reading
  | waiting
  | arming (duration : U64)
  | selecting (sleep : Sleep) (expired : Bool)
  | checking (sleep : Sleep)
  | triggering (sleep : Sleep)
  deriving DecidableEq

structure State where
  mode : MiningMode
  /-- Every write of the mode makes a new version, also one that leaves it as it was. -/
  version : ℕ
  /-- The version the task's receiver has seen. -/
  seen : ℕ
  /-- The modes that calls of `set_automine` have decided on and not written yet. -/
  decided : ℕ → Option MiningMode
  phase : Phase
  triggers : ℕ

/-- The two branches of the `select!`. -/
inductive Branch where
  | changed
  | slept

/-- A step of a call that sets the mode, the end of the sleep, the choice of the
`select!`, or any other step of the task. -/
inductive Event where
  | setIntervalMining (intervalSecs : U64)
  | setAutomine (call : ℕ) (enabled : Bool)
  | write (call : ℕ)
  | expire
  | select (branch : Branch)
  | advance

namespace State

/-- The task right after it has subscribed to the mode. -/
def start (mode : MiningMode) : State where
  mode
  version := 0
  seen := 0
  decided _ := none
  phase := .reading
  triggers := 0

/-- `send_replace`. -/
def sendReplace (s : State) (mode : MiningMode) : State :=
  { s with mode, version := s.version + 1 }

/-- The read of the mode after a sleep. -/
def check (s : State) (sleep : Sleep) : State :=
  match s.mode with
  | .interval _ => { s with phase := .triggering sleep }
  | .automine | .manual => { s with phase := .reading }

def advance (s : State) : State :=
  match s.phase with
  | .reading =>
    match s.mode with
    | .automine | .manual => { s with seen := s.version, phase := .waiting }
    | .interval duration => { s with seen := s.version, phase := .arming duration }
  | .waiting => if s.seen = s.version then s else { s with seen := s.version, phase := .reading }
  | .arming duration => { s with phase := .selecting ⟨duration, s.version⟩ false }
  | .selecting _ _ => s
  | .checking sleep => s.check sleep
  | .triggering _ => { s with triggers := s.triggers + 1, phase := .reading }

/-- A branch is taken if it is ready, also when both are. -/
def select (s : State) (branch : Branch) : State :=
  match s.phase, branch with
  | .selecting _ _, .changed =>
    if s.seen = s.version then s else { s with seen := s.version, phase := .reading }
  | .selecting sleep true, .slept => { s with phase := .checking sleep }
  | _, _ => s

def expire (s : State) : State :=
  match s.phase with
  | .selecting sleep _ => { s with phase := .selecting sleep true }
  | _ => s

def step (s : State) : Event → State
  | .setIntervalMining intervalSecs => s.sendReplace (.setIntervalMining intervalSecs)
  | .setAutomine call enabled =>
    { s with decided := Function.update s.decided call (s.mode.setAutomine enabled) }
  | .write call =>
    match s.decided call with
    | none => s
    | some mode => { s with decided := Function.update s.decided call none }.sendReplace mode
  | .expire => s.expire
  | .select branch => s.select branch
  | .advance => s.advance

/-- A trigger issued now is for the interval in force: the mode was not written
since the sleep was armed, and it is the interval that was slept. -/
def Current (s : State) : Prop :=
  ∀ sleep, s.phase = .triggering sleep →
    sleep.armedAt = s.version ∧ s.mode = .interval sleep.duration

end State

/-- The task finds an interval after its sleep only if it is the one it was armed
for and was not written since, and nobody writes the mode before the trigger. -/
def Event.Undisturbed (s : State) : Event → Prop
  | .setIntervalMining _ => ∀ sleep, s.phase ≠ .triggering sleep
  | .write call => s.decided call ≠ none → ∀ sleep, s.phase ≠ .triggering sleep
  | .advance => ∀ sleep, s.phase = .checking sleep → ∀ secs, s.mode = .interval secs →
      sleep.armedAt = s.version ∧ secs = sleep.duration
  | .setAutomine _ _ | .expire | .select _ => True

namespace State

variable {s : State}

theorem current_of_phase (h : ∀ sleep, s.phase ≠ .triggering sleep) : s.Current :=
  fun sleep hp => absurd hp (h sleep)

/-- A write outdates the sleep of a task that is about to trigger. -/
theorem current_sendReplace_iff (hs : s.Current) (mode : MiningMode) :
    (s.sendReplace mode).Current ↔ ∀ sleep, s.phase ≠ .triggering sleep := by
  constructor
  · intro h sleep hp
    obtain ⟨hnew, -⟩ := h sleep hp
    obtain ⟨hold, -⟩ := hs sleep hp
    change sleep.armedAt = s.version + 1 at hnew
    omega
  · intro h
    exact current_of_phase (s := s.sendReplace mode) h

/-- The select leads out of it or changes nothing. -/
theorem current_select (hs : s.Current) (branch : Branch) : (s.select branch).Current := by
  unfold select
  split
  · split
    · exact hs
    · exact current_of_phase fun _ => nofun
  · exact current_of_phase fun _ => nofun
  · exact hs

theorem current_expire (hs : s.Current) : s.expire.Current := by
  unfold expire
  split
  · exact current_of_phase fun _ => nofun
  · exact hs

theorem current_check_iff (sleep : Sleep) :
    (s.check sleep).Current ↔ ∀ secs, s.mode = .interval secs →
      sleep.armedAt = s.version ∧ secs = sleep.duration := by
  unfold check
  cases hm : s.mode with
  | interval secs =>
    constructor
    · rintro h _ ⟨⟩
      obtain ⟨harmed, hmode⟩ := h sleep rfl
      exact ⟨harmed, MiningMode.interval.inj hmode⟩
    · rintro h _ ⟨⟩
      obtain ⟨harmed, rfl⟩ := h secs rfl
      exact ⟨harmed, rfl⟩
  | automine | manual => exact iff_of_true (current_of_phase fun _ => nofun) fun _ => nofun

theorem current_advance_iff (hs : s.Current) :
    s.advance.Current ↔ Event.advance.Undisturbed s := by
  unfold advance Event.Undisturbed
  cases hp : s.phase with
  | checking sleep =>
    rw [current_check_iff]
    exact ⟨fun h _ hp' => Phase.checking.inj hp' ▸ h, fun h => h sleep rfl⟩
  | reading =>
    refine iff_of_true ?_ fun _ => nofun
    dsimp only
    split <;> exact current_of_phase fun _ => nofun
  | waiting =>
    refine iff_of_true ?_ fun _ => nofun
    dsimp only
    split
    · exact hs
    · exact current_of_phase fun _ => nofun
  | selecting sleep expired => exact iff_of_true hs fun _ => nofun
  | arming duration | triggering sleep =>
    exact iff_of_true (current_of_phase fun _ => nofun) fun _ => nofun

/-- Along a run, a trigger the task may issue is for the interval in force exactly
if every check that leads to one finds that interval, not written since the sleep
was armed, and no write comes between the check and the trigger. -/
theorem always_current_iff (mode : MiningMode) (es : List Event) :
    Transition.Always step Current (.start mode) es ↔
      Transition.Each step (fun s e => e.Undisturbed s) (.start mode) es := by
  refine Transition.always_iff_each (I := fun _ => True) trivial (current_of_phase fun _ => nofun)
    (fun _ _ _ => trivial) fun s e _ hs => ?_
  cases e with
  | setIntervalMining intervalSecs => exact current_sendReplace_iff hs _
  | setAutomine call enabled => exact iff_of_true hs trivial
  | write call =>
    simp only [step, Event.Undisturbed]
    split <;> rename_i hd
    · exact iff_of_true hs fun h => absurd hd h
    · refine Iff.trans (current_sendReplace_iff
        (s := { s with decided := Function.update s.decided call none }) hs _) ?_
      exact ⟨fun h _ => h, fun h => h (by rw [hd]; nofun)⟩
  | expire => exact iff_of_true (current_expire hs) trivial
  | select branch => exact iff_of_true (current_select hs branch) trivial
  | advance => exact current_advance_iff hs

/-- The interval is set anew just as the sleep ends, the select takes the sleep,
and the read after it finds an interval. -/
theorem superseded_interval_triggers :
    ¬ ∀ (mode : MiningMode) (es : List Event),
      Transition.Always step Current (.start mode) es := by
  intro h
  have hlast := (h (.interval 5) [.advance, .advance, .expire, .setIntervalMining 60,
    .select .slept, .advance]).last
  exact absurd (hlast ⟨5, 0⟩ rfl).1 (by decide)

end State

end IntervalTask

end AnvilReth
