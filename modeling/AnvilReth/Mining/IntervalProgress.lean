import AnvilReth.Mining.IntervalTask
import AnvilReth.Sync.Watch
import AnvilReth.Transition.Tally

/-! # The interval task keeps going

The task copies the mode from a watch channel. It is never parked on a copy that
is out of date, it triggers no more often than its sleeps end, and while the mode
is an interval that nobody writes it comes to its next trigger.
-/

namespace AnvilReth

open Sync

namespace IntervalTask

/-- The modes a task in this phase may have copied. -/
def Phase.Copied : Phase → MiningMode → Prop
  | .waiting, mode => ∀ secs, mode ≠ .interval secs
  | .arming duration, mode => mode = .interval duration
  | .selecting sleep _, mode => mode = .interval sleep.duration
  | .reading, _ | .checking _, _ | .triggering _, _ => True

namespace State

variable (s : State)

/-- The channel of the mode and the task's receiver. -/
def watch : Watch MiningMode := ⟨s.mode, s.version⟩

def receiver : Receiver := ⟨s.seen⟩

/-- What the task has copied is the mode, or it will be told that it is not. -/
def InStep : Prop := ∃ mode, s.phase.Copied mode ∧ s.watch.Copies s.receiver mode

/-- Nothing but the end of its sleep moves the task. -/
def Blocked : Prop := s.advance.phase = s.phase ∧ ∀ branch, (s.select branch).phase = s.phase

/-- The task waits for an interval to be set, or sleeps for the one that is. -/
def Parked : Prop :=
  (s.phase = .waiting ∧ ∀ secs, s.mode ≠ .interval secs) ∨
    ∃ sleep, s.phase = .selecting sleep false ∧ s.mode = .interval sleep.duration

/-- Where the task goes from the top of its loop. -/
def entered : Phase :=
  match s.mode with
  | .automine | .manual => .waiting
  | .interval duration => .arming duration

/-- Where the task goes after it has read the mode once more. -/
def checked (sleep : Sleep) : Phase :=
  match s.mode with
  | .automine | .manual => .reading
  | .interval _ => .triggering sleep

variable {s} {t : State}

section Equations

theorem advance_of_reading (hp : s.phase = .reading) :
    s.advance = { s with seen := s.version, phase := s.entered } := by
  unfold advance entered
  rw [hp]
  dsimp only
  cases s.mode <;> rfl

theorem advance_of_waiting (hp : s.phase = .waiting) :
    s.advance = if s.seen = s.version then s
      else { s with seen := s.version, phase := .reading } := by
  unfold advance
  rw [hp]

theorem advance_of_arming {duration : U64} (hp : s.phase = .arming duration) :
    s.advance = { s with phase := .selecting ⟨duration, s.version⟩ false } := by
  unfold advance
  rw [hp]

theorem advance_of_selecting {sleep : Sleep} {expired : Bool}
    (hp : s.phase = .selecting sleep expired) : s.advance = s := by
  unfold advance
  rw [hp]

theorem advance_of_checking {sleep : Sleep} (hp : s.phase = .checking sleep) :
    s.advance = { s with phase := s.checked sleep } := by
  unfold advance check checked
  rw [hp]
  dsimp only
  cases s.mode <;> rfl

theorem advance_of_triggering {sleep : Sleep} (hp : s.phase = .triggering sleep) :
    s.advance = { s with triggers := s.triggers + 1, phase := .reading } := by
  unfold advance
  rw [hp]

theorem expire_of_selecting {sleep : Sleep} {expired : Bool}
    (hp : s.phase = .selecting sleep expired) :
    s.expire = { s with phase := .selecting sleep true } := by
  unfold expire
  rw [hp]

theorem expire_of_ne (hp : ∀ sleep expired, s.phase ≠ .selecting sleep expired) : s.expire = s := by
  unfold expire
  split
  · rename_i sleep expired h
    exact absurd h (hp sleep expired)
  · rfl

theorem select_changed {sleep : Sleep} {expired : Bool}
    (hp : s.phase = .selecting sleep expired) :
    s.select .changed = if s.seen = s.version then s
      else { s with seen := s.version, phase := .reading } := by
  unfold select
  rw [hp]

theorem select_slept {sleep : Sleep} {expired : Bool} (hp : s.phase = .selecting sleep expired) :
    s.select .slept = if expired then { s with phase := .checking sleep } else s := by
  unfold select
  rw [hp]
  cases expired <;> rfl

theorem select_of_ne (hp : ∀ sleep expired, s.phase ≠ .selecting sleep expired)
    (branch : Branch) : s.select branch = s := by
  unfold select
  split
  · rename_i sleep expired h
    exact absurd h (hp sleep expired)
  · rename_i sleep h
    exact absurd h (hp sleep true)
  · rfl

end Equations

theorem InStep.seen_le (h : s.InStep) : s.seen ≤ s.version := by
  obtain ⟨mode, -, hcopies⟩ := h
  exact hcopies.seen_le

theorem InStep.move (h : s.InStep) (hw : t.watch = s.watch) (hr : t.receiver = s.receiver)
    (hp : ∀ mode, s.phase.Copied mode → t.phase.Copied mode) : t.InStep := by
  obtain ⟨mode, hcopied, hcopies⟩ := h
  refine ⟨mode, hp mode hcopied, ?_⟩
  rwa [hw, hr]

/-- A task that has just seen the last version works with the mode. -/
theorem inStep_of_seen (hr : t.receiver = t.watch.borrowAndUpdate.2) (hp : t.phase.Copied t.mode) :
    t.InStep := by
  refine ⟨t.mode, hp, ?_⟩
  rw [hr]
  exact Watch.copies_borrowAndUpdate

theorem InStep.sendReplace (h : s.InStep) (mode : MiningMode) : (s.sendReplace mode).InStep := by
  obtain ⟨copied, hcopied, hcopies⟩ := h
  exact ⟨copied, hcopied, hcopies.sendReplace mode⟩

theorem InStep.advance (h : s.InStep) : s.advance.InStep := by
  cases hp : s.phase with
  | reading =>
    rw [advance_of_reading hp]
    refine inStep_of_seen rfl ?_
    unfold entered
    cases s.mode with
    | automine | manual => rintro secs ⟨⟩
    | interval secs => rfl
  | waiting =>
    rw [advance_of_waiting hp]
    split
    · exact h
    · exact inStep_of_seen rfl trivial
  | arming duration =>
    rw [advance_of_arming hp]
    refine h.move rfl rfl fun mode hcopied => ?_
    rwa [hp] at hcopied
  | selecting sleep expired => rwa [advance_of_selecting hp]
  | checking sleep =>
    rw [advance_of_checking hp]
    refine h.move rfl rfl fun mode _ => ?_
    unfold checked
    cases s.mode <;> trivial
  | triggering sleep =>
    rw [advance_of_triggering hp]
    exact h.move rfl rfl fun _ _ => trivial

theorem InStep.select (h : s.InStep) (branch : Branch) : (s.select branch).InStep := by
  unfold State.select
  split
  · split
    · exact h
    · exact inStep_of_seen rfl trivial
  · exact h.move rfl rfl fun _ _ => trivial
  · exact h

theorem InStep.expire (h : s.InStep) : s.expire.InStep := by
  unfold State.expire
  split
  · rename_i sleep expired hp
    refine h.move rfl rfl fun mode hcopied => ?_
    rwa [hp] at hcopied
  · exact h

theorem InStep.step (h : s.InStep) (e : Event) : (s.step e).InStep := by
  cases e with
  | setIntervalMining intervalSecs => exact h.sendReplace _
  | setAutomine call enabled => exact h.move rfl rfl fun _ => id
  | write call =>
    simp only [State.step]
    split
    · exact h
    · exact InStep.sendReplace (h.move rfl rfl fun _ => id) _
  | expire => exact h.expire
  | select branch => exact h.select branch
  | advance => exact h.advance

theorem always_inStep (mode : MiningMode) (es : List Event) :
    Transition.Always step InStep (.start mode) es :=
  Transition.always_of_step (inStep_of_seen rfl trivial) fun _ e h => h.step e

/-- A blocked task has seen every write, so what it waits with is the mode. -/
theorem InStep.parked (h : s.InStep) (hb : s.Blocked) : s.Parked := by
  obtain ⟨mode, hcopied, hcopies⟩ := h
  obtain ⟨hadvance, hselect⟩ := hb
  have hmode : s.seen = s.version → mode = s.mode := fun hseen =>
    hcopies.of_pending (congrArg Prod.fst (if_pos hseen))
  cases hp : s.phase with
  | reading =>
    rw [advance_of_reading hp, hp] at hadvance
    unfold entered at hadvance
    cases hm : s.mode <;> rw [hm] at hadvance <;> cases hadvance
  | waiting =>
    rw [advance_of_waiting hp, hp] at hadvance
    rw [hp] at hcopied
    by_cases hseen : s.seen = s.version
    · exact Or.inl ⟨hp, hmode hseen ▸ hcopied⟩
    · rw [if_neg hseen] at hadvance
      cases hadvance
  | arming duration =>
    rw [advance_of_arming hp, hp] at hadvance
    cases hadvance
  | selecting sleep expired =>
    have hchanged := hselect .changed
    have hslept := hselect .slept
    rw [select_changed hp, hp] at hchanged
    rw [select_slept hp, hp] at hslept
    rw [hp] at hcopied
    by_cases hseen : s.seen = s.version
    · cases expired with
      | true => cases hslept
      | false => exact Or.inr ⟨sleep, hp, (hmode hseen).symm.trans hcopied⟩
    · rw [if_neg hseen] at hchanged
      cases hchanged
  | checking sleep =>
    rw [advance_of_checking hp, hp] at hadvance
    unfold checked at hadvance
    cases hm : s.mode <;> rw [hm] at hadvance <;> cases hadvance
  | triggering sleep =>
    rw [advance_of_triggering hp, hp] at hadvance
    cases hadvance

/-- In every reachable state, a task that can only wait waits for an interval while
there is none, or sleeps for the interval in force. -/
theorem always_parked (mode : MiningMode) (es : List Event) :
    Transition.Always step (fun s => s.Blocked → s.Parked) (.start mode) es :=
  (always_inStep mode es).imp fun _ h hb => h.parked hb

/-- The sleep of a task ends with the event. -/
def ended (s : State) (e : Event) : ℕ :=
  match s.phase, e with
  | .selecting _ false, .expire => 1
  | _, _ => 0

/-- A sleep that is over and has not led to a trigger yet. -/
def owed (s : State) : ℕ :=
  match s.phase with
  | .selecting _ true | .checking _ | .triggering _ => 1
  | .reading | .waiting | .arming _ | .selecting _ false => 0

/-- A trigger is paid for with a sleep that is over. -/
theorem triggers_add_owed_step (s : State) (e : Event) :
    (s.step e).triggers + (s.step e).owed ≤ s.triggers + s.owed + s.ended e := by
  cases e with
  | setIntervalMining intervalSecs => exact Nat.le_add_right _ _
  | setAutomine call enabled => exact Nat.le_add_right _ _
  | write call =>
    simp only [step]
    split <;> exact Nat.le_add_right _ _
  | expire =>
    simp only [step, expire, ended, owed]
    cases hp : s.phase with
    | selecting sleep expired => cases expired <;> simp
    | _ => simp [hp]
  | select branch =>
    simp only [step, select]
    split <;> rename_i hp
    · split
      · exact Nat.le_add_right _ _
      · simp [owed]
        omega
    · simp [owed, hp]
    · exact Nat.le_add_right _ _
  | advance =>
    rw [step]
    cases hp : s.phase with
    | reading =>
      rw [advance_of_reading hp]
      unfold owed entered
      rw [hp]
      cases s.mode <;> exact Nat.le_add_right _ _
    | waiting =>
      rw [advance_of_waiting hp]
      split <;> simp [owed, hp]
    | arming duration => simp [advance_of_arming hp, owed, hp]
    | selecting sleep expired =>
      rw [advance_of_selecting hp]
      exact Nat.le_add_right _ _
    | checking sleep =>
      rw [advance_of_checking hp]
      unfold owed checked
      rw [hp]
      cases s.mode <;> simp <;> omega
    | triggering sleep => simp [advance_of_triggering hp, owed, hp]

/-- Along every run, the task triggers no more often than a sleep of it ends. -/
theorem triggers_le_ended (mode : MiningMode) (es : List Event) :
    (Transition.run step (.start mode) es).triggers ≤
      Transition.tally step ended (.start mode) es := by
  have h : ∀ s : State, (Transition.run step s es).triggers + (Transition.run step s es).owed ≤
      s.triggers + s.owed + Transition.tally step ended s es := fun s =>
    Transition.run_le_tally (φ := fun s : State => s.triggers + s.owed) triggers_add_owed_step
  have hstart : (start mode).triggers + (start mode).owed = 0 := rfl
  have hrun := h (start mode)
  omega

end State

/-- A step of the task, or the end of its sleep. -/
def Event.IsOwn : Event → Prop
  | .expire | .select _ | .advance => True
  | .setIntervalMining _ | .setAutomine _ _ | .write _ => False

namespace State

variable {s : State}

/-- A change the task has not seen may send it back to the top of its loop. -/
def detour (s : State) : ℕ := if s.seen = s.version then 0 else 5

/-- How many moves the task is at most away from its next trigger, if the mode is
an interval. -/
def distance (s : State) : ℕ :=
  match s.phase with
  | .waiting => 7
  | .reading => 6
  | .arming _ => 5 + s.detour
  | .selecting _ false => 4 + s.detour
  | .selecting _ true => 3 + s.detour
  | .checking _ => 2
  | .triggering _ => 1

theorem distance_le (s : State) : s.distance ≤ 10 := by
  have hdetour : s.detour ≤ 5 := by
    unfold detour
    split <;> decide
  unfold distance
  split <;> omega

/-- Whether the event moves the task. -/
def moves (s : State) (e : Event) : ℕ := if (s.step e).phase = s.phase then 0 else 1

theorem moves_of_eq {e : Event} (h : s.step e = s) : s.moves e = 0 := by
  rw [moves, h, if_pos rfl]

theorem moves_le_one (s : State) (e : Event) : s.moves e ≤ 1 := by
  unfold moves
  split <;> decide

/-- The task itself writes neither the mode nor what the calls have decided. -/
theorem frame_of_isOwn {e : Event} (he : e.IsOwn) :
    (s.step e).mode = s.mode ∧ (s.step e).decided = s.decided := by
  cases e with
  | expire =>
    simp only [step, expire]
    split <;> exact ⟨rfl, rfl⟩
  | select branch =>
    simp only [step, select]
    split
    · split <;> exact ⟨rfl, rfl⟩
    · exact ⟨rfl, rfl⟩
    · exact ⟨rfl, rfl⟩
  | advance =>
    simp only [step, advance, check]
    split <;> try exact ⟨rfl, rfl⟩
    all_goals split <;> exact ⟨rfl, rfl⟩
  | setIntervalMining | setAutomine | write => exact he.elim

/-- A move of the task in an interval mode is a trigger or brings it closer to one. -/
theorem distance_step {e : Event} (he : e.IsOwn) {secs : U64} (hm : s.mode = .interval secs) :
    ((s.step e).triggers = s.triggers ∧ (s.step e).distance + s.moves e ≤ s.distance) ∨
      (s.step e).triggers = s.triggers + 1 := by
  have hmoves := s.moves_le_one e
  have hstay : s.step e = s →
      (s.step e).triggers = s.triggers ∧ (s.step e).distance + s.moves e ≤ s.distance := by
    intro h
    rw [moves_of_eq h, h]
    exact ⟨rfl, le_rfl⟩
  -- The event leads to a phase that is closer.
  have hcloser : ∀ {t : State}, s.step e = t → t.triggers = s.triggers →
      t.distance + 1 ≤ s.distance →
      (s.step e).triggers = s.triggers ∧ (s.step e).distance + s.moves e ≤ s.distance := by
    rintro t rfl ht hd
    exact ⟨ht, by omega⟩
  cases e with
  | expire =>
    left
    cases hp : s.phase with
    | selecting sleep expired =>
      cases expired with
      | false =>
        refine hcloser (expire_of_selecting hp) rfl ?_
        simp only [distance, hp, detour]
        omega
      | true =>
        refine hstay ((expire_of_selecting hp).trans ?_)
        rw [← hp]
    | _ => exact hstay (expire_of_ne (by simp [hp]))
  | select branch =>
    left
    cases hp : s.phase with
    | selecting sleep expired =>
      cases branch with
      | changed =>
        by_cases hseen : s.seen = s.version
        · exact hstay ((select_changed hp).trans (if_pos hseen))
        · refine hcloser ((select_changed hp).trans (if_neg hseen)) rfl ?_
          cases expired <;> simp [distance, hp, detour, hseen]
      | slept =>
        cases expired with
        | false => exact hstay (select_slept hp)
        | true =>
          refine hcloser ((select_slept hp).trans (if_pos rfl)) rfl ?_
          simp only [distance, hp]
          omega
    | _ => exact hstay (select_of_ne (by simp [hp]) branch)
  | advance =>
    cases hp : s.phase with
    | reading =>
      left
      refine hcloser (advance_of_reading hp) rfl ?_
      simp [distance, hp, entered, hm, detour]
    | waiting =>
      left
      by_cases hseen : s.seen = s.version
      · exact hstay ((advance_of_waiting hp).trans (if_pos hseen))
      · refine hcloser ((advance_of_waiting hp).trans (if_neg hseen)) rfl ?_
        simp [distance, hp]
    | arming duration =>
      left
      refine hcloser (advance_of_arming hp) rfl ?_
      simp only [distance, hp, detour]
      omega
    | selecting sleep expired => exact Or.inl (hstay (advance_of_selecting hp))
    | checking sleep =>
      left
      refine hcloser (advance_of_checking hp) rfl ?_
      simp [distance, hp, checked, hm]
    | triggering sleep =>
      right
      rw [step, advance_of_triggering hp]
  | setIntervalMining | setAutomine | write => exact he.elim

/-- A task that is in step with an interval mode can always move. -/
theorem InStep.exists_moves (h : s.InStep) {secs : U64} (hm : s.mode = .interval secs) :
    ∃ e : Event, e.IsOwn ∧ s.moves e = 1 := by
  by_contra hn
  have hstuck : ∀ e : Event, e.IsOwn → (s.step e).phase = s.phase := by
    intro e he
    by_contra hne
    exact hn ⟨e, he, if_neg hne⟩
  have hb : s.Blocked := ⟨hstuck .advance trivial, fun branch => hstuck (.select branch) trivial⟩
  rcases h.parked hb with ⟨-, hnot⟩ | ⟨sleep, hp, -⟩
  · exact hnot secs hm
  · have hexpire := hstuck .expire trivial
    rw [State.step, expire_of_selecting hp, hp] at hexpire
    cases hexpire

/-- Whatever was done before, in an interval mode that nobody writes any more the
task is never stuck, and it triggers a block within eleven moves. -/
theorem triggers_again (mode : MiningMode) (es own : List Event)
    (hown : ∀ e ∈ own, e.IsOwn) (secs : U64)
    (hm : (Transition.run step (.start mode) es).mode = .interval secs) :
    let s := Transition.run step (.start mode) es
    let t := Transition.run step s own
    (∃ e : Event, e.IsOwn ∧ t.moves e = 1) ∧
      (11 ≤ Transition.tally step moves s own → s.triggers < t.triggers) := by
  intro s t
  have heach : Transition.Each step (fun _ e => Event.IsOwn e) s own :=
    fun pre e hp => hown e (hp.subset (by simp))
  have hmode : ∀ u e, (s.triggers ≤ State.triggers u ∧ u.mode = .interval secs) → Event.IsOwn e →
      s.triggers ≤ (u.step e).triggers ∧ (u.step e).mode = .interval secs := by
    rintro u e ⟨hle, hu⟩ he
    refine ⟨?_, (frame_of_isOwn he).1.trans hu⟩
    rcases distance_step he hu with ⟨heq, -⟩ | heq
    · exact hle.trans heq.ge
    · omega
  have hlast : s.triggers ≤ t.triggers ∧ t.mode = .interval secs :=
    (Transition.always_of_each (P := fun u => s.triggers ≤ u.triggers ∧ u.mode = .interval secs)
      ⟨le_rfl, hm⟩ hmode heach).last
  have hstep : t.InStep := by
    have h := (always_inStep mode (es ++ own)).last
    rwa [Transition.run_append] at h
  refine ⟨hstep.exists_moves hlast.2, fun hcount => ?_⟩
  refine Transition.done_of_tally (fun u => s.triggers < u.triggers) distance
    (P := fun u => s.triggers ≤ u.triggers ∧ u.mode = .interval secs) ⟨le_rfl, hm⟩ hmode ?_ ?_
    heach ((distance_le s).trans_lt hcount)
  · rintro u e ⟨-, hu⟩ he hlt
    rcases distance_step he hu with ⟨heq, -⟩ | heq <;> omega
  · rintro u e ⟨hle, hu⟩ he -
    rcases distance_step he hu with ⟨-, hd⟩ | heq
    · exact Or.inl hd
    · exact Or.inr (by omega)

/-- Two rounds of the task under an interval of five seconds. -/
def twoRounds : List Event :=
  [.advance, .advance, .expire, .select .slept, .advance, .advance,
    .advance, .advance, .expire, .select .slept, .advance, .advance]

theorem triggers_again_twoRounds :
    0 < (Transition.run step (.start (.interval 5)) twoRounds).triggers := by
  have h := triggers_again (.interval 5) [] twoRounds (by simp [twoRounds, Event.IsOwn]) 5 rfl
  exact h.2 (by decide)

end State

end IntervalTask

end AnvilReth
