import Mathlib.Logic.Function.Basic
import AnvilReth.Mining.Controller
import AnvilReth.Transition.Runs

/-! # Automining

The automine task checks the mode and then the pool, a request to automine
writes the mode and then checks the pool, and each of these is a step of its
own. Whichever comes last sees the pending transaction.
-/

namespace AnvilReth

namespace Automine

/-- A pending transaction, and whether a trigger was issued since it became pending. -/
structure PendingTransaction where
  hash : B256
  triggered : Bool
  deriving DecidableEq

/-- The next step of `run_automine_task`. -/
inductive Task where
  | recv
  | isAutomine
  | pendingCount
  | trigger
  deriving DecidableEq

/-- The next step of an `anvil_setAutomine` request. Its first step, reading the
mode, is the request's arrival. -/
inductive Request where
  | idle
  | write (next : MiningMode) (enabled : Bool)
  | pendingCount
  | trigger
  deriving DecidableEq

/-- After `set_automine` only an enabling request goes on to the pool. -/
def Request.afterSet (enabled : Bool) : Request := if enabled then .pendingCount else .idle

/-- The pool's pending transactions, those whose listener event is still to be
queued, the queue, and the parties. -/
structure State where
  mode : MiningMode
  pending : List PendingTransaction
  announcing : List B256
  queue : List B256
  task : Task
  requests : ℕ → Request
  triggers : ℕ

inductive Event where
  | becomePending (hash : B256)
  | queueEvent (hash : B256)
  | task
  | setAutomine (request : ℕ) (enabled : Bool)
  | request (request : ℕ)
  | setIntervalMining (intervalSecs : U64)
  /-- The miner takes a trigger and mines some transactions. -/
  | mine (hashes : List B256)

namespace State

def start : State where
  mode := .automine
  pending := []
  announcing := []
  queue := []
  task := .recv
  requests _ := .idle
  triggers := 0

variable (s : State)

/-- A trigger comes after everything that is pending. -/
def trigger : State :=
  { s with
    pending := s.pending.map fun tx => { tx with triggered := true }
    triggers := s.triggers + 1 }

def stepTask : State :=
  match s.task with
  | .recv =>
    match s.queue with
    | [] => s
    | _ :: queue => { s with queue, task := .isAutomine }
  | .isAutomine => { s with task := if s.mode.isAutomine then .pendingCount else .recv }
  | .pendingCount => { s with task := if s.pending.length > 0 then .trigger else .recv }
  | .trigger => { s.trigger with task := .recv }

def setRequest (r : ℕ) (request : Request) : State :=
  { s with requests := Function.update s.requests r request }

def setAutomine (r : ℕ) (enabled : Bool) : State :=
  match s.requests r with
  | .idle =>
    match s.mode.setAutomine enabled with
    | some next => s.setRequest r (.write next enabled)
    | none => s.setRequest r (.afterSet enabled)
  | _ => s

def stepRequest (r : ℕ) : State :=
  match s.requests r with
  | .idle => s
  | .write next enabled => { s.setRequest r (.afterSet enabled) with mode := next }
  | .pendingCount => s.setRequest r (if s.pending.length > 0 then .trigger else .idle)
  | .trigger => s.trigger.setRequest r .idle

def step (s : State) : Event → State
  | .becomePending hash =>
    { s with pending := ⟨hash, false⟩ :: s.pending, announcing := hash :: s.announcing }
  | .queueEvent hash =>
    if hash ∈ s.announcing then
      { s with announcing := s.announcing.erase hash, queue := s.queue ++ [hash] }
    else s
  | .task => s.stepTask
  | .setAutomine r enabled => s.setAutomine r enabled
  | .request r => s.stepRequest r
  | .setIntervalMining intervalSecs => { s with mode := .setIntervalMining intervalSecs }
  | .mine hashes =>
    if s.triggers > 0 then
      { s with
        pending := s.pending.filter fun tx => tx.hash ∉ hashes
        triggers := s.triggers - 1 }
    else s

end State

@[simp] theorem State.setRequest_self (s : State) (r : ℕ) (request : Request) :
    (s.setRequest r request).requests r = request := Function.update_self ..

theorem State.setRequest_of_ne (s : State) {r r' : ℕ} (h : r' ≠ r) (request : Request) :
    (s.setRequest r request).requests r' = s.requests r' := Function.update_of_ne h ..

/-- The request has written what it was to write and is about to look at the pool. -/
def Request.Checks : Request → Prop
  | .pendingCount | .trigger => True
  | _ => False

/-- Somebody will look at the pool before an automining node is quiet. -/
def State.Watched (s : State) : Prop :=
  s.task ≠ .recv ∨ s.mode ≠ .automine ∨ ∃ r, (s.requests r).Checks

structure Invariant (s : State) : Prop where
  covered : ∀ tx ∈ s.pending,
    tx.triggered ∨ tx.hash ∈ s.announcing ∨ tx.hash ∈ s.queue ∨ s.Watched
  /-- Automining is turned on by requests that then look at the pool. -/
  enables : ∀ r enabled, s.requests r = .write .automine enabled → enabled = true

namespace Invariant

variable {s t : State}

theorem start : Invariant .start := ⟨nofun, nofun⟩

/-- A step that touches no transaction and leaves the node watched whenever it
was, or whenever it matters. -/
theorem of_watched (h : Invariant s) (hp : t.pending = s.pending)
    (ha : t.announcing = s.announcing) (hq : t.queue = s.queue) (hw : s.Watched → t.Watched)
    (he : ∀ r enabled, t.requests r = .write .automine enabled → enabled = true) :
    Invariant t := by
  refine ⟨fun tx hm => ?_, he⟩
  rw [hp] at hm
  rw [ha, hq]
  exact (h.covered tx hm).imp_right (Or.imp_right (Or.imp_right hw))

/-- A trigger covers everything. -/
theorem of_triggered (hp : ∀ tx ∈ t.pending, tx.triggered)
    (he : ∀ r enabled, t.requests r = .write .automine enabled → enabled = true) :
    Invariant t := ⟨fun tx hm => Or.inl (hp tx hm), he⟩

theorem triggered_of_mem_trigger {tx : PendingTransaction} (hm : tx ∈ s.trigger.pending) :
    tx.triggered := by
  obtain ⟨_, _, rfl⟩ := List.mem_map.mp hm
  rfl

theorem enables_setRequest (h : Invariant s) (r : ℕ) {request : Request}
    (hr : ∀ enabled, request = .write .automine enabled → enabled = true) (r' : ℕ) (enabled : Bool)
    (hw : (s.setRequest r request).requests r' = .write .automine enabled) : enabled = true := by
  by_cases he : r' = r
  · rw [he, State.setRequest_self] at hw
    exact hr enabled hw
  · rw [s.setRequest_of_ne he] at hw
    exact h.enables r' enabled hw

/-- A request that was not looking at the pool can move on. -/
theorem watched_setRequest {r : ℕ} (hr : ¬ (s.requests r).Checks) (request : Request)
    (hw : s.Watched) : (s.setRequest r request).Watched := by
  refine hw.imp_right (Or.imp_right fun hc => ?_)
  obtain ⟨r', hc⟩ := hc
  have hne : r' ≠ r := by
    rintro rfl
    exact hr hc
  exact ⟨r', by rwa [s.setRequest_of_ne hne]⟩

theorem watched_of_checks {r : ℕ} {request : Request} (hr : request.Checks) :
    (s.setRequest r request).Watched :=
  Or.inr (Or.inr ⟨r, by rwa [State.setRequest_self]⟩)

theorem afterSet_ne_write {enabled enabled' : Bool} {next : MiningMode} :
    Request.afterSet enabled ≠ .write next enabled' := by
  cases enabled <;> nofun

theorem becomePending (h : Invariant s) (hash : B256) :
    Invariant (s.step (.becomePending hash)) := by
  refine ⟨fun tx hm => ?_, h.enables⟩
  rcases List.mem_cons.mp hm with rfl | hm
  · exact Or.inr (Or.inl (List.mem_cons_self ..))
  · exact (h.covered tx hm).imp_right (Or.imp_left (List.mem_cons_of_mem _))

theorem queueEvent (h : Invariant s) (hash : B256) : Invariant (s.step (.queueEvent hash)) := by
  unfold State.step
  dsimp only
  split
  · refine ⟨fun tx hm => ?_, h.enables⟩
    rcases h.covered tx hm with ht | ha | hq | hw
    · exact Or.inl ht
    · by_cases he : tx.hash = hash
      · exact Or.inr (Or.inr (Or.inl (List.mem_append_right _ (he ▸ List.mem_singleton_self _))))
      · exact Or.inr (Or.inl ((List.mem_erase_of_ne he).mpr ha))
    · exact Or.inr (Or.inr (Or.inl (List.mem_append_left _ hq)))
    · exact Or.inr (Or.inr (Or.inr hw))
  · exact h

theorem stepTask (h : Invariant s) : Invariant s.stepTask := by
  unfold State.stepTask
  cases ht : s.task with
  | recv =>
    dsimp only
    split
    · exact h
    · exact ⟨fun tx _ => Or.inr (Or.inr (Or.inr (Or.inl nofun))), h.enables⟩
  | isAutomine =>
    refine h.of_watched rfl rfl rfl (fun _ => ?_) h.enables
    by_cases hm : s.mode = .automine
    · exact Or.inl (by simp [MiningMode.isAutomine, hm])
    · exact Or.inr (Or.inl hm)
  | pendingCount =>
    dsimp only
    split
    · exact h.of_watched rfl rfl rfl (fun _ => Or.inl nofun) h.enables
    · rename_i hl
      exact of_triggered (fun tx hm => absurd (List.length_pos_of_mem hm) hl) h.enables
  | trigger => exact of_triggered (fun tx hm => triggered_of_mem_trigger hm) h.enables

theorem setAutomine (h : Invariant s) (r : ℕ) (enabled : Bool) :
    Invariant (s.setAutomine r enabled) := by
  unfold State.setAutomine
  split
  · rename_i hr
    have hn : ¬ (s.requests r).Checks := by
      rw [hr]
      exact id
    split
    · rename_i next hnext
      refine h.of_watched rfl rfl rfl (watched_setRequest hn _) (h.enables_setRequest r ?_)
      rintro enabled' he
      obtain ⟨rfl, rfl⟩ := Request.write.inj he
      exact MiningMode.enabled_of_setAutomine hnext
    · exact h.of_watched rfl rfl rfl (watched_setRequest hn _)
        (h.enables_setRequest r fun _ he => absurd he afterSet_ne_write)
  · exact h

theorem stepRequest (h : Invariant s) (r : ℕ) : Invariant (s.stepRequest r) := by
  unfold State.stepRequest
  cases hr : s.requests r with
  | idle => exact h
  | write next enabled =>
    refine h.of_watched rfl rfl rfl (fun hw => ?_)
      (h.enables_setRequest r fun _ he => absurd he afterSet_ne_write)
    by_cases hm : next = .automine
    · -- The writer of the mode is the one who looks at the pool next.
      have hon : enabled = true := h.enables r enabled (hm ▸ hr)
      exact Or.inr (Or.inr ⟨r, by simp [State.setRequest, Request.afterSet, hon, Request.Checks]⟩)
    · exact Or.inr (Or.inl hm)
  | pendingCount =>
    dsimp only
    split
    · exact h.of_watched rfl rfl rfl (fun _ => watched_of_checks trivial)
        (h.enables_setRequest r nofun)
    · rename_i hl
      exact of_triggered (fun tx hm => absurd (List.length_pos_of_mem hm) hl)
        (h.enables_setRequest r nofun)
  | trigger =>
    have hidle : ∀ enabled, Request.idle = .write .automine enabled → enabled = true := nofun
    exact of_triggered (fun tx hm => triggered_of_mem_trigger hm) (h.enables_setRequest r hidle)

theorem setIntervalMining (h : Invariant s) (intervalSecs : U64) :
    Invariant (s.step (.setIntervalMining intervalSecs)) :=
  h.of_watched rfl rfl rfl
    (fun _ => Or.inr (Or.inl (MiningMode.setIntervalMining_ne_automine intervalSecs))) h.enables

theorem mine (h : Invariant s) (hashes : List B256) : Invariant (s.step (.mine hashes)) := by
  unfold State.step
  dsimp only
  split
  · exact ⟨fun tx hm => h.covered tx (List.mem_filter.mp hm).1, h.enables⟩
  · exact h

theorem step (h : Invariant s) (e : Event) : Invariant (s.step e) := by
  cases e with
  | becomePending hash => exact h.becomePending hash
  | queueEvent hash => exact h.queueEvent hash
  | task => exact h.stepTask
  | setAutomine r enabled => exact h.setAutomine r enabled
  | request r => exact h.stepRequest r
  | setIntervalMining intervalSecs => exact h.setIntervalMining intervalSecs
  | mine hashes => exact h.mine hashes

end Invariant

/-- The node automines, the event queue is empty, and neither the task nor a
request is midway. -/
def State.Quiet (s : State) : Prop :=
  s.mode = .automine ∧ s.queue = [] ∧ s.task = .recv ∧ ∀ r, s.requests r = .idle

/-- In a quiet state every pending transaction whose listener event was queued
has had a trigger since it became pending. -/
def Attended (s : State) : Prop :=
  s.Quiet → ∀ tx ∈ s.pending, tx.hash ∉ s.announcing → tx.triggered

theorem attended_of_invariant {s : State} (h : Invariant s) : Attended s := by
  rintro ⟨hmode, hqueue, htask, hidle⟩ tx hm hn
  rcases h.covered tx hm with ht | ha | hq | hw
  · exact ht
  · exact absurd ha hn
  · rw [hqueue] at hq
    cases hq
  · rcases hw with ht | hmo | ⟨r, hr⟩
    · exact absurd htask ht
    · exact absurd hmode hmo
    · rw [hidle r] at hr
      exact hr.elim

/-- Whatever the order of arrivals, listener events, mode switches and mined
blocks, an automining node that has gone quiet owes no announced transaction a
trigger. -/
theorem always_attended (es : List Event) :
    Transition.Always State.step Attended .start es := by
  have hinv : Transition.Always State.step Invariant .start es :=
    Transition.always_of_step Invariant.start fun _ e h => h.step e
  exact hinv.imp fun _ h => attended_of_invariant h

/-- Between its arrival and its listener event a transaction is nobody's. -/
theorem unannounced_not_triggered :
    ¬ ∀ es : List Event, Transition.Always State.step
      (fun s => s.Quiet → ∀ tx ∈ s.pending, tx.triggered) .start es := by
  intro h
  have hquiet := (h [.becomePending 1]).last ⟨rfl, rfl, rfl, fun _ => rfl⟩
  exact absurd (hquiet ⟨1, false⟩ (by decide)) (by decide)

end Automine

end AnvilReth
