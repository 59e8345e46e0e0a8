import AnvilReth.Mining.Automine
import AnvilReth.Mining.IntervalProgress
import AnvilReth.Transition.Simulation

/-! # The mining tasks together

The automine task, the interval task and the requests share one mode. What holds
of either task alone holds of it here, and once the mode is manual the tasks
issue no more than the triggers they were already past their checks for.
-/

namespace AnvilReth

/-- `interval_mining`: the interval in seconds, if there is one. -/
def MiningMode.intervalMining : MiningMode → Option U64
  | .interval secs => some secs
  | .automine | .manual => none

/-- The mode that a request has decided on and not written yet. -/
def Automine.Request.decided : Automine.Request → Option MiningMode
  | .write next _ => some next
  | .idle | .pendingCount | .trigger => none

/-- The next step of an interval task in this phase is a trigger. -/
def IntervalTask.Phase.triggers : IntervalTask.Phase → Bool
  | .triggering _ => true
  | .reading | .waiting | .arming _ | .selecting _ _ | .checking _ => false

/-- The task is past its check of the mode. -/
def Automine.Task.pastCheck : Automine.Task → ℕ
  | .pendingCount | .trigger => 1
  | .recv | .isAutomine => 0

namespace Control

/-- What a step of the pool, the automine task, a request or the miner is to the
interval task. -/
def intervalEvents (s : Automine.State) : Automine.Event → List IntervalTask.Event
  | .setAutomine r enabled =>
    match s.requests r with
    | .idle => [.setAutomine r enabled]
    | _ => []
  | .request r =>
    match s.requests r with
    | .write _ _ => [.write r]
    | _ => []
  | .setIntervalMining intervalSecs => [.setIntervalMining intervalSecs]
  | .becomePending _ | .queueEvent _ | .task | .mine _ => []

/-- Both tasks see the same mode and the same requests. -/
structure Coherent (a : Automine.State) (i : IntervalTask.State) : Prop where
  mode : i.mode = a.mode
  decided : ∀ r, i.decided r = (a.requests r).decided

theorem decided_afterSet (enabled : Bool) :
    (Automine.Request.afterSet enabled).decided = none := by
  cases enabled <;> rfl

namespace Coherent

variable {a : Automine.State} {i : IntervalTask.State}

theorem setRequest (h : Coherent a i) (r : ℕ) (request : Automine.Request) :
    Coherent (a.setRequest r request)
      { i with decided := Function.update i.decided r request.decided } := by
  refine ⟨h.mode, fun r' => ?_⟩
  change Function.update i.decided r request.decided r' = _
  by_cases hr : r' = r
  · rw [hr, Function.update_self, Automine.State.setRequest_self]
  · rw [Function.update_of_ne hr, a.setRequest_of_ne hr]
    exact h.decided r'

/-- A request that has nothing to write before and after a step of its own. -/
theorem setRequest_of_none (h : Coherent a i) {r : ℕ} {request : Automine.Request}
    (hr : (a.requests r).decided = none) (hn : request.decided = none) :
    Coherent (a.setRequest r request) i := by
  have hset := h.setRequest r request
  rwa [hn, ← hr, ← h.decided r, Function.update_eq_self] at hset

theorem setAutomine (h : Coherent a i) (r : ℕ) (enabled : Bool) :
    Coherent (a.setAutomine r enabled)
      (Transition.run IntervalTask.State.step i (intervalEvents a (.setAutomine r enabled))) := by
  unfold Automine.State.setAutomine intervalEvents
  dsimp only
  cases hr : a.requests r with
  | idle =>
    have hset := fun request => (h.setRequest r request).decided
    simp only [Transition.run_cons, Transition.run_nil, IntervalTask.State.step, h.mode]
    cases a.mode.setAutomine enabled with
    | none =>
      have hafter := hset (.afterSet enabled)
      rw [decided_afterSet] at hafter
      exact ⟨rfl, hafter⟩
    | some next => exact ⟨rfl, hset (.write next enabled)⟩
  | write next enabled' => exact h
  | pendingCount => exact h
  | trigger => exact h

theorem stepRequest (h : Coherent a i) (r : ℕ) :
    Coherent (a.stepRequest r)
      (Transition.run IntervalTask.State.step i (intervalEvents a (.request r))) := by
  unfold Automine.State.stepRequest intervalEvents
  dsimp only
  cases hr : a.requests r with
  | idle => exact h
  | write next enabled =>
    have hdecided : i.decided r = some next := by rw [h.decided r, hr]; rfl
    have hafter := (h.setRequest r (.afterSet enabled)).decided
    rw [decided_afterSet] at hafter
    simp only [Transition.run_cons, Transition.run_nil, IntervalTask.State.step, hdecided]
    exact ⟨rfl, hafter⟩
  | pendingCount =>
    refine h.setRequest_of_none (by rw [hr]; rfl) ?_
    split <;> rfl
  | trigger =>
    have htrigger : Coherent a.trigger i := ⟨h.mode, h.decided⟩
    refine htrigger.setRequest_of_none ?_ rfl
    change (a.requests r).decided = none
    rw [hr]
    rfl

theorem step (h : Coherent a i) (e : Automine.Event) :
    Coherent (a.step e) (Transition.run IntervalTask.State.step i (intervalEvents a e)) := by
  cases e with
  | becomePending hash => exact ⟨h.mode, h.decided⟩
  | queueEvent hash =>
    simp only [Automine.State.step]
    split <;> exact ⟨h.mode, h.decided⟩
  | task =>
    simp only [Automine.State.step, Automine.State.stepTask]
    split
    · split <;> exact ⟨h.mode, h.decided⟩
    all_goals exact ⟨h.mode, h.decided⟩
  | setAutomine r enabled => exact h.setAutomine r enabled
  | request r => exact h.stepRequest r
  | setIntervalMining intervalSecs => exact ⟨rfl, h.decided⟩
  | mine hashes =>
    simp only [Automine.State.step]
    split <;> exact ⟨h.mode, h.decided⟩

/-- A step of the interval task or the end of its sleep. -/
theorem own (h : Coherent a i) {e : IntervalTask.Event} (he : e.IsOwn) :
    Coherent a (i.step e) := by
  obtain ⟨hmode, hdecided⟩ := IntervalTask.State.frame_of_isOwn (s := i) he
  refine ⟨hmode.trans h.mode, fun r => ?_⟩
  rw [hdecided]
  exact h.decided r

end Coherent

/-- The automine task with the pool, the requests and the miner, and the interval
task beside it. -/
structure Node where
  automine : Automine.State
  interval : IntervalTask.State
  coherent : Coherent automine interval

inductive Event where
  | automine (e : Automine.Event)
  /-- The end of the interval task's sleep, or a step of that task. -/
  | expire
  | select (branch : IntervalTask.Branch)
  | advance

namespace Node

/-- The node right after both tasks have started. -/
def start : Node where
  automine := .start
  interval := .start .automine
  coherent := ⟨rfl, fun _ => rfl⟩

/-- The interval task's next step is a trigger. -/
def intervalTriggers (s : Node) : Bool := s.interval.phase.triggers

/-- A step of the interval task, whose triggers are those the miner takes. -/
def advance (s : Node) : Node where
  automine := if s.intervalTriggers then s.automine.trigger else s.automine
  interval := s.interval.advance
  coherent := by
    have h := s.coherent.own (e := .advance) trivial
    split
    · exact ⟨h.mode, h.decided⟩
    · exact h

def step (s : Node) : Event → Node
  | .automine e => ⟨s.automine.step e, _, s.coherent.step e⟩
  | .expire => ⟨s.automine, s.interval.expire, s.coherent.own (e := .expire) trivial⟩
  | .select branch =>
    ⟨s.automine, s.interval.select branch, s.coherent.own (e := .select branch) trivial⟩
  | .advance => s.advance

end Node

/-- What a step of the node is to the interval task. -/
def Event.interval (s : Node) : Event → List IntervalTask.Event
  | .automine e => intervalEvents s.automine e
  | .expire => [.expire]
  | .select branch => [.select branch]
  | .advance => [.advance]

/-- The interval task runs in the node as it does alone. -/
theorem projects_interval :
    Transition.Projects Node.step IntervalTask.State.step Node.interval
      fun s e => e.interval s := by
  intro s e
  cases e <;> rfl

/-- In the node, too, the interval task is never parked on a mode that is out of date. -/
theorem interval_parked (es : List Event) :
    Transition.Always Node.step (fun s => s.interval.Blocked → s.interval.Parked) .start es :=
  (projects_interval.always (P := IntervalTask.State.InStep)
    fun ds => IntervalTask.State.always_inStep .automine ds).imp fun _ h hb => h.parked hb

/-- The trigger of another task covers what is pending as the automine task's own does. -/
theorem invariant_automine (es : List Event) :
    Transition.Always Node.step (fun s => Automine.Invariant s.automine) .start es := by
  refine Transition.always_of_step Automine.Invariant.start fun s e h => ?_
  cases e with
  | automine e => exact h.step e
  | expire | select => exact h
  | advance =>
    change Automine.Invariant (if s.intervalTriggers then s.automine.trigger else s.automine)
    split
    · exact .of_triggered (fun tx hm => Automine.Invariant.triggered_of_mem_trigger hm) h.enables
    · exact h

namespace Node

variable (s : Node)

/-- How many triggers the tasks and the requests issue with the event. -/
def issues : Event → ℕ
  | .automine .task => if s.automine.task = .trigger then 1 else 0
  | .automine (.request r) => if s.automine.requests r = .trigger then 1 else 0
  | .advance => if s.intervalTriggers then 1 else 0
  | _ => 0

/-- How many triggers the miner takes with the event. -/
def serves : Event → ℕ
  | .automine (.mine _) => if s.automine.triggers > 0 then 1 else 0
  | _ => 0

/-- The triggers of tasks that are past their check of the mode. -/
def stray : ℕ := s.automine.task.pastCheck + if s.intervalTriggers then 1 else 0

/-- The mode is manual, and no request is on its way to something else. -/
structure Manual : Prop where
  mode : s.automine.mode = .manual
  requests : ∀ r, s.automine.requests r = .idle ∨ s.automine.requests r = .write .manual false

end Node

/-- The event does not ask for mining. -/
def Event.Asks : Event → Prop
  | .automine (.setAutomine _ enabled) => enabled = true
  | .automine (.setIntervalMining intervalSecs) => intervalSecs ≠ 0
  | _ => False

namespace Node

variable {s : Node}

/-- What the miner takes was issued. -/
theorem triggers_step (s : Node) (e : Event) :
    (s.step e).automine.triggers + s.serves e = s.automine.triggers + s.issues e := by
  cases e with
  | automine e =>
    cases e with
    | task =>
      simp only [step, Automine.State.step, Automine.State.stepTask, serves, issues]
      cases s.automine.task with
      | recv => cases s.automine.queue <;> rfl
      | _ => rfl
    | setAutomine r enabled =>
      simp only [step, Automine.State.step, Automine.State.setAutomine, serves, issues]
      split
      · split <;> rfl
      · rfl
    | request r =>
      simp only [step, Automine.State.step, Automine.State.stepRequest, serves, issues]
      cases s.automine.requests r <;> rfl
    | mine hashes =>
      simp only [step, Automine.State.step, serves, issues]
      split
      · change s.automine.triggers - 1 + 1 = _
        omega
      · rfl
    | queueEvent hash =>
      simp only [step, Automine.State.step, serves, issues]
      split <;> rfl
    | becomePending hash => rfl
    | setIntervalMining intervalSecs => rfl
  | advance =>
    simp only [step, advance, serves, issues]
    split <;> rfl
  | expire | select => rfl

theorem stray_le (s : Node) : s.stray ≤ 2 := by
  unfold stray
  cases s.automine.task <;> cases s.intervalTriggers <;> decide

theorem Manual.of_eq {t : Node} (h : s.Manual) (hm : t.automine.mode = s.automine.mode)
    (hr : t.automine.requests = s.automine.requests) : t.Manual := by
  refine ⟨hm.trans h.mode, ?_⟩
  rw [hr]
  exact h.requests

/-- A request that is done leaves the node manual. -/
theorem Manual.setRequest {t : Node} (h : s.Manual) {r : ℕ} (hm : t.automine.mode = .manual)
    (hr : t.automine.requests = (s.automine.setRequest r .idle).requests) : t.Manual := by
  refine ⟨hm, fun r' => ?_⟩
  rw [hr]
  by_cases hne : r' = r
  · rw [hne, Automine.State.setRequest_self]
    exact Or.inl rfl
  · rw [s.automine.setRequest_of_ne hne]
    exact h.requests r'

theorem Manual.setAutomine (h : s.Manual) (r : ℕ) :
    (s.step (.automine (.setAutomine r false))).Manual := by
  have hstep : (s.step (.automine (.setAutomine r false))).automine =
      s.automine.setAutomine r false := rfl
  unfold Automine.State.setAutomine at hstep
  rw [h.mode] at hstep
  rcases h.requests r with hr | hr <;> rw [hr] at hstep
  · exact h.setRequest (r := r) (by rw [hstep]; exact h.mode) (by rw [hstep]; rfl)
  · exact h.of_eq (by rw [hstep]) (by rw [hstep])

theorem Manual.request (h : s.Manual) (r : ℕ) : (s.step (.automine (.request r))).Manual := by
  have hstep : (s.step (.automine (.request r))).automine = s.automine.stepRequest r := rfl
  unfold Automine.State.stepRequest at hstep
  rcases h.requests r with hr | hr <;> rw [hr] at hstep
  · exact h.of_eq (by rw [hstep]) (by rw [hstep])
  · exact h.setRequest (r := r) (by rw [hstep]) (by rw [hstep]; rfl)

theorem Manual.step (h : s.Manual) {e : Event} (he : ¬ e.Asks) : (s.step e).Manual := by
  cases e with
  | automine e =>
    cases e with
    | setAutomine r enabled =>
      cases enabled with
      | true => exact absurd rfl he
      | false => exact h.setAutomine r
    | request r => exact h.request r
    | setIntervalMining intervalSecs =>
      have hzero : intervalSecs = 0 := not_not.mp he
      refine ⟨?_, h.requests⟩
      change MiningMode.setIntervalMining intervalSecs = _
      rw [hzero]
      rfl
    | task =>
      refine h.of_eq ?_ ?_ <;>
        simp only [Node.step, Automine.State.step, Automine.State.stepTask] <;>
        cases s.automine.task <;> try rfl
      all_goals cases s.automine.queue <;> rfl
    | queueEvent hash =>
      refine h.of_eq ?_ ?_ <;> simp only [Node.step, Automine.State.step] <;> split <;> rfl
    | mine hashes =>
      refine h.of_eq ?_ ?_ <;> simp only [Node.step, Automine.State.step] <;> split <;> rfl
    | becomePending hash => exact h.of_eq rfl rfl
  | advance => refine h.of_eq ?_ ?_ <;> simp only [Node.step, advance] <;> split <;> rfl
  | expire | select => exact h.of_eq rfl rfl

/-- Requests and the pool do not move the interval task. -/
theorem intervalTriggers_automine (s : Node) (e : Automine.Event) :
    (s.step (.automine e)).intervalTriggers = s.intervalTriggers := by
  have hphase : (Transition.run IntervalTask.State.step s.interval
      (intervalEvents s.automine e)).phase = s.interval.phase := by
    unfold intervalEvents
    cases e with
    | setAutomine r enabled =>
      dsimp only
      split <;> rfl
    | request r =>
      dsimp only
      split
      · simp only [Transition.run_cons, Transition.run_nil, IntervalTask.State.step]
        split <;> rfl
      · rfl
    | _ => rfl
  exact congrArg IntervalTask.Phase.triggers hphase

/-- In manual mode the interval task does not come to a trigger any more. -/
theorem Manual.intervalTriggers_advance (h : s.Manual) : s.advance.intervalTriggers = false := by
  have hmode : s.interval.mode = .manual := s.coherent.mode.trans h.mode
  change s.interval.advance.phase.triggers = false
  cases hp : s.interval.phase with
  | reading =>
    rw [IntervalTask.State.advance_of_reading hp]
    simp only [IntervalTask.State.entered, hmode]
    rfl
  | waiting =>
    rw [IntervalTask.State.advance_of_waiting hp]
    split
    · rw [hp]
      rfl
    · rfl
  | arming duration =>
    rw [IntervalTask.State.advance_of_arming hp]
    rfl
  | selecting sleep expired =>
    rw [IntervalTask.State.advance_of_selecting hp, hp]
    rfl
  | checking sleep =>
    rw [IntervalTask.State.advance_of_checking hp]
    simp only [IntervalTask.State.checked, hmode]
    rfl
  | triggering sleep =>
    rw [IntervalTask.State.advance_of_triggering hp]
    rfl

/-- In manual mode the automine task gives up at its check. -/
theorem Manual.pastCheck_stepTask (h : s.Manual) :
    s.automine.stepTask.task.pastCheck + s.issues (.automine .task) ≤
      s.automine.task.pastCheck := by
  unfold Automine.State.stepTask issues
  cases ht : s.automine.task with
  | recv =>
    dsimp only
    cases s.automine.queue with
    | nil => simp [ht]
    | cons hash queue => exact Nat.le_refl 0
  | isAutomine =>
    have hoff : s.automine.mode.isAutomine = false := by
      rw [h.mode]
      rfl
    simp [hoff, Automine.Task.pastCheck]
  | pendingCount =>
    dsimp only
    split <;> simp [Automine.Task.pastCheck]
  | trigger => exact Nat.le_refl 1

/-- Only its own steps move the automine task. -/
theorem task_step {a : Automine.State} {e : Automine.Event} (he : e ≠ .task) :
    (a.step e).task = a.task := by
  cases e with
  | task => exact absurd rfl he
  | setAutomine r enabled =>
    simp only [Automine.State.step, Automine.State.setAutomine]
    split
    · split <;> rfl
    · rfl
  | request r =>
    simp only [Automine.State.step, Automine.State.stepRequest]
    split <;> rfl
  | queueEvent hash =>
    simp only [Automine.State.step]
    split <;> rfl
  | mine hashes =>
    simp only [Automine.State.step]
    split <;> rfl
  | becomePending | setIntervalMining => rfl

/-- In manual mode the automine task issues what it was past its check for. -/
theorem Manual.pastCheck_automine (h : s.Manual) (e : Automine.Event) :
    (s.step (.automine e)).automine.task.pastCheck + s.issues (.automine e) ≤
      s.automine.task.pastCheck := by
  change (s.automine.step e).task.pastCheck + _ ≤ _
  by_cases htask : e = .task
  · rw [htask]
    exact h.pastCheck_stepTask
  · rw [task_step htask]
    cases e with
    | task => exact absurd rfl htask
    | request r =>
      have hne : s.automine.requests r ≠ .trigger := by
        rcases h.requests r with hr | hr <;> rw [hr] <;> decide
      rw [issues, if_neg hne]
      exact Nat.le_refl _
    | _ => exact Nat.le_refl _

/-- The end of a sleep is not a step to a trigger. -/
theorem intervalTriggers_expire (s : Node) :
    (s.step .expire).intervalTriggers = s.intervalTriggers := by
  change s.interval.expire.phase.triggers = s.interval.phase.triggers
  unfold IntervalTask.State.expire
  split
  · rename_i hp
    rw [hp]
    rfl
  · rfl

theorem intervalTriggers_select (s : Node) (branch : IntervalTask.Branch) :
    (s.step (.select branch)).intervalTriggers = s.intervalTriggers := by
  change (s.interval.select branch).phase.triggers = s.interval.phase.triggers
  unfold IntervalTask.State.select
  split
  · rename_i hp
    split
    · rfl
    · rw [hp]
      rfl
  · rename_i hp
    rw [hp]
    rfl
  · rfl

theorem task_advance (s : Node) : s.advance.automine.task = s.automine.task := by
  unfold advance
  dsimp only
  split <;> rfl

theorem Manual.stray_step (h : s.Manual) (e : Event) :
    (s.step e).stray + s.issues e ≤ s.stray := by
  cases e with
  | automine e =>
    have htask := h.pastCheck_automine e
    unfold stray
    rw [intervalTriggers_automine]
    omega
  | advance =>
    change s.advance.stray + (if s.intervalTriggers then 1 else 0) ≤ s.stray
    simp only [stray, task_advance, h.intervalTriggers_advance]
    exact Nat.le_refl _
  | expire =>
    unfold stray
    rw [intervalTriggers_expire]
    exact Nat.le_refl _
  | select branch =>
    unfold stray
    rw [intervalTriggers_select]
    exact Nat.le_refl _

/-- Whatever state the switch to manual mining finds the tasks in, without a
request to mine they issue no more than the triggers they were past their checks
for, and the miner builds no more blocks than those and the ones it was owed. -/
theorem manual_quiet (s : Node) (hs : s.Manual) (es : List Event) (he : ∀ e ∈ es, ¬ e.Asks) :
    (Transition.run step s es).Manual ∧ Transition.tally step issues s es ≤ s.stray ∧
      Transition.tally step serves s es ≤ s.automine.triggers + s.stray ∧ s.stray ≤ 2 := by
  have heach : Transition.Each step (fun _ e => ¬ Event.Asks e) s es :=
    fun pre e hp => he e (hp.subset (by simp))
  have hmanual := Transition.always_of_each (P := Manual) hs (fun _ _ h he => h.step he) heach
  have hissued : (Transition.run step s es).stray + Transition.tally step issues s es ≤
      s.stray + Transition.tally step (fun _ _ => 0) s es :=
    Transition.tally_le hs (fun _ _ h he => h.step he) (fun _ e h _ => h.stray_step e) heach
  have hbalance : (Transition.run step s es).automine.triggers + Transition.tally step serves s es =
      s.automine.triggers + Transition.tally step issues s es :=
    Transition.tally_eq (φ := fun s : Node => s.automine.triggers) hs
      (fun _ _ h he => h.step he) (fun s e _ _ => triggers_step s e) heach
  rw [Transition.tally_zero] at hissued
  refine ⟨hmanual.last, ?_, ?_, stray_le s⟩ <;> omega

/-- The node after automining was switched off while the automine task is between
its check of the mode and its look at the pool. -/
def switchedOff : Node :=
  Transition.run step .start ([.becomePending 1, .queueEvent 1, .task, .task, .setAutomine 0 false,
    .request 0].map .automine)

theorem manual_switchedOff : switchedOff.Manual := by
  refine ⟨rfl, fun r => Or.inl ?_⟩
  change Function.update (Function.update (fun _ => Automine.Request.idle) 0 _) 0 _ r = _
  rw [Function.update_idem]
  by_cases hr : r = 0
  · rw [hr, Function.update_self]
    rfl
  · rw [Function.update_of_ne hr]

theorem manual_quiet_switchedOff :
    Transition.tally step issues switchedOff [.automine .task, .automine .task, .advance] ≤ 1 ∧
      switchedOff.stray = 1 := by
  have h := manual_quiet switchedOff manual_switchedOff
    [.automine .task, .automine .task, .advance] (by simp [Event.Asks])
  exact ⟨h.2.1, rfl⟩

end Node

/-- A request that sets the mode, carried out in one go. -/
inductive Call where
  | setAutomine (enabled : Bool)
  | setIntervalMining (intervalSecs : U64)

def Call.perform (mode : MiningMode) : Call → MiningMode
  | setAutomine enabled => (mode.setAutomine enabled).getD mode
  | setIntervalMining intervalSecs => .setIntervalMining intervalSecs

/-- What `is_automine` reports after the call, whatever it was. -/
def Call.automines : Call → Option Bool
  | setAutomine enabled => some enabled
  | setIntervalMining _ => some false

/-- What `interval_mining` reports after the call, if it does not stay as it was. -/
def Call.intervals : Call → Option (Option U64)
  | setAutomine true => some none
  | setAutomine false => none
  | setIntervalMining intervalSecs => some (if intervalSecs = 0 then none else some intervalSecs)

/-- After any requests, automining is reported as the last of them asked for, and an
interval as the last one asked for that did not just switch automining off. -/
theorem reports (mode : MiningMode) (calls : List Call) :
    let after := Transition.run Call.perform mode calls
    after.isAutomine = (Transition.last Call.automines calls).getD mode.isAutomine ∧
      after.intervalMining = (Transition.last Call.intervals calls).getD mode.intervalMining := by
  have hauto : ∀ (mode : MiningMode) (c : Call),
      (c.perform mode).isAutomine = c.automines.getD mode.isAutomine := by
    intro mode c
    cases c with
    | setAutomine enabled => cases mode <;> cases enabled <;> rfl
    | setIntervalMining intervalSecs =>
      exact decide_eq_false (MiningMode.setIntervalMining_ne_automine intervalSecs)
  have hinterval : ∀ (mode : MiningMode) (c : Call),
      (c.perform mode).intervalMining = c.intervals.getD mode.intervalMining := by
    intro mode c
    cases c with
    | setAutomine enabled => cases mode <;> cases enabled <;> rfl
    | setIntervalMining intervalSecs =>
      simp only [Call.perform, MiningMode.setIntervalMining, Call.intervals, Option.getD_some]
      split <;> rfl
  exact ⟨Transition.run_register hauto, Transition.run_register hinterval⟩

end Control

end AnvilReth
