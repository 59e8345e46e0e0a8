import Mathlib.Data.List.Nodup
import Mathlib.Logic.Function.Iterate
import AnvilReth.Mining.Automine

/-! # Draining the pool

Each trigger mines one block, which takes as many of the pending transactions
as fit, in the pool's order. Turning automining on issues one trigger for
everything that is pending, and every listener event still to be handled
another one, as long as something is pending.
-/

namespace AnvilReth

namespace Automine

section Blocks

variable (gas : B256 → ℕ)

/-- The longest prefix that fits a gas limit. -/
def included : ℕ → List B256 → List B256
  | _, [] => []
  | limit, hash :: rest => if gas hash ≤ limit then hash :: included (limit - gas hash) rest else []

/-- What a block leaves pending. -/
def afterBlock (limit : ℕ) (pending : List B256) : List B256 :=
  pending.drop (included gas limit pending).length

theorem included_prefix (limit : ℕ) (pending : List B256) :
    included gas limit pending <+: pending := by
  induction pending generalizing limit with
  | nil => exact List.prefix_rfl
  | cons hash rest ih =>
    rw [included]
    split
    · exact List.cons_prefix_cons.mpr ⟨rfl, ih _⟩
    · exact List.nil_prefix

variable {gas}

theorem filter_included {pending : List B256} (h : pending.Nodup) (limit : ℕ) :
    pending.filter (· ∉ included gas limit pending) = afterBlock gas limit pending := by
  obtain ⟨rest, hrest⟩ := included_prefix gas limit pending
  unfold afterBlock
  set block := included gas limit pending
  rw [← hrest] at h ⊢
  have hblock : block.filter (· ∉ block) = [] := by
    rw [List.filter_eq_nil_iff]
    intro hash hm
    simpa using hm
  have hkeep : rest.filter (· ∉ block) = rest := by
    rw [List.filter_eq_self]
    intro hash hm
    have hdisjoint := List.disjoint_of_nodup_append h
    exact decide_eq_true fun hb => hdisjoint hb hm
  rw [List.filter_append, hblock, hkeep, List.nil_append, List.drop_left]

theorem afterBlock_nil (limit : ℕ) : afterBlock gas limit [] = [] := List.drop_nil

theorem iterate_afterBlock_nil {limit k : ℕ} : (afterBlock gas limit)^[k] [] = [] :=
  Function.iterate_fixed (afterBlock_nil limit) k

theorem iterate_afterBlock_sublist (limit k : ℕ) (pending : List B256) :
    ((afterBlock gas limit)^[k] pending).Sublist pending := by
  induction k with
  | zero => exact List.Sublist.refl _
  | succ k ih =>
    rw [Function.iterate_succ_apply']
    exact (List.drop_sublist _ _).trans ih

/-- A block whose limit fits every single transaction takes one of them at least. -/
theorem length_afterBlock_lt {limit : ℕ} {pending : List B256} (hne : pending ≠ [])
    (h : ∀ hash ∈ pending, gas hash ≤ limit) :
    (afterBlock gas limit pending).length < pending.length := by
  cases pending with
  | nil => exact absurd rfl hne
  | cons hash rest =>
    have hfit : gas hash ≤ limit := h hash (List.mem_cons_self ..)
    rw [afterBlock, included, if_pos hfit, List.length_cons, List.drop_succ_cons]
    exact Nat.lt_succ_of_le (List.drop_sublist _ _).length_le

/-- A block for each transaction is enough. -/
theorem iterate_afterBlock_eq_nil {limit k : ℕ} {pending : List B256}
    (h : ∀ hash ∈ pending, gas hash ≤ limit) (hk : pending.length ≤ k) :
    (afterBlock gas limit)^[k] pending = [] := by
  induction k generalizing pending with
  | zero => exact List.eq_nil_of_length_eq_zero (Nat.le_zero.mp hk)
  | succ k ih =>
    rw [Function.iterate_succ_apply]
    by_cases hne : pending = []
    · rw [hne, afterBlock_nil, iterate_afterBlock_nil]
    · have hlt := length_afterBlock_lt hne h
      exact ih (fun hash hm => h hash (List.mem_of_mem_drop hm)) (by omega)

end Blocks

/-- The pending transactions in the order in which the pool offers them. -/
def State.hashes (s : State) : List B256 := s.pending.map PendingTransaction.hash

/-- The task has taken a listener event and may trigger for it. -/
def Task.outstanding : Task → ℕ
  | .recv => 0
  | _ => 1

/-- A request to automine may trigger. -/
def Request.outstanding : Request → ℕ
  | .pendingCount | .trigger => 1
  | _ => 0

/-- The triggers to be served, and those that may still be issued. -/
def State.outstanding (s : State) (r : ℕ) : ℕ :=
  s.triggers + s.announcing.length + s.queue.length + s.task.outstanding +
    (s.requests r).outstanding

/-- The events after which no transaction arrives and the mode stays; every
block takes what fits. -/
def Event.Serves (gas : B256 → ℕ) (limit r : ℕ) (s : State) : Event → Prop
  | .becomePending _ | .setAutomine _ _ | .setIntervalMining _ => False
  | .queueEvent _ | .task => True
  | .request r' => r' = r
  | .mine hashes => hashes = included gas limit s.hashes

/-- Blocks taken so far and triggers outstanding make up the total, unless
nothing is pending. -/
structure Draining (gas : B256 → ℕ) (limit r total : ℕ) (pending : List B256) (s : State) :
    Prop where
  mode : s.mode = .automine
  request : ∀ next enabled, s.requests r ≠ .write next enabled
  served : ∃ k, s.hashes = (afterBlock gas limit)^[k] pending ∧
    k + s.outstanding r ≤ total ∧ (s.hashes = [] ∨ k + s.outstanding r = total)

namespace Draining

variable {gas : B256 → ℕ} {limit r total : ℕ} {pending : List B256} {s t : State}

/-- A step that serves no trigger. One that gives up a trigger to come has
found nothing pending. -/
theorem of_outstanding (h : Draining gas limit r total pending s) (hm : t.mode = .automine)
    (hr : ∀ next enabled, t.requests r ≠ .write next enabled) (hp : t.hashes = s.hashes)
    (hle : t.outstanding r ≤ s.outstanding r)
    (heq : s.hashes = [] ∨ t.outstanding r = s.outstanding r) :
    Draining gas limit r total pending t := by
  obtain ⟨k, hk, hbound, htotal⟩ := h.served
  refine ⟨hm, hr, k, hp.trans hk, by omega, ?_⟩
  rw [hp]
  rcases heq with hnil | heq
  · exact Or.inl hnil
  · rw [heq]
    exact htotal

theorem hashes_trigger (s : State) : s.trigger.hashes = s.hashes := by
  simp only [State.hashes, State.trigger, List.map_map]
  rfl

theorem hashes_of_not_pos (h : ¬ s.pending.length > 0) : s.hashes = [] := by
  rw [State.hashes, List.eq_nil_of_length_eq_zero (Nat.eq_zero_of_not_pos h), List.map_nil]

theorem queueEvent (h : Draining gas limit r total pending s) (hash : B256) :
    Draining gas limit r total pending (s.step (.queueEvent hash)) := by
  unfold State.step
  dsimp only
  split
  · rename_i hm
    have hlen := List.length_erase_of_mem hm
    have hpos := List.length_pos_of_mem hm
    have heq : (State.mk s.mode s.pending (s.announcing.erase hash) (s.queue ++ [hash]) s.task
        s.requests s.triggers).outstanding r = s.outstanding r := by
      simp only [State.outstanding, hlen, List.length_append, List.length_singleton]
      omega
    exact h.of_outstanding h.mode h.request rfl heq.le (Or.inr heq)
  · exact h

theorem stepTask (h : Draining gas limit r total pending s) :
    Draining gas limit r total pending s.stepTask := by
  unfold State.stepTask
  cases ht : s.task with
  | recv =>
    dsimp only
    split
    · exact h
    · rename_i hash queue hq
      have heq : ({ s with queue, task := .isAutomine } : State).outstanding r =
          s.outstanding r := by
        simp only [State.outstanding, hq, ht, Task.outstanding, List.length_cons]
        omega
      exact h.of_outstanding h.mode h.request rfl heq.le (Or.inr heq)
  | isAutomine =>
    have hmode : s.mode.isAutomine := by
      rw [h.mode]
      rfl
    have heq : ({ s with task := .pendingCount } : State).outstanding r = s.outstanding r := by
      simp only [State.outstanding, ht, Task.outstanding]
    simp only [hmode, if_true]
    exact h.of_outstanding h.mode h.request rfl heq.le (Or.inr heq)
  | pendingCount =>
    dsimp only
    split
    · have heq : ({ s with task := .trigger } : State).outstanding r = s.outstanding r := by
        simp only [State.outstanding, ht, Task.outstanding]
      exact h.of_outstanding h.mode h.request rfl heq.le (Or.inr heq)
    · rename_i hl
      have hle : ({ s with task := .recv } : State).outstanding r ≤ s.outstanding r := by
        simp only [State.outstanding, ht, Task.outstanding]
        omega
      exact h.of_outstanding h.mode h.request rfl hle (Or.inl (hashes_of_not_pos hl))
  | trigger =>
    have heq : ({ s.trigger with task := .recv } : State).outstanding r = s.outstanding r := by
      simp only [State.outstanding, State.trigger, ht, Task.outstanding]
      omega
    exact h.of_outstanding h.mode h.request (hashes_trigger s) heq.le (Or.inr heq)

theorem stepRequest (h : Draining gas limit r total pending s) :
    Draining gas limit r total pending (s.stepRequest r) := by
  have houtstanding : ∀ request : Request, (s.setRequest r request).outstanding r =
      s.triggers + s.announcing.length + s.queue.length + s.task.outstanding +
        request.outstanding := by
    intro request
    rw [State.outstanding, State.setRequest_self]
    rfl
  unfold State.stepRequest
  cases hr : s.requests r with
  | idle => exact h
  | write next enabled => exact absurd hr (h.request next enabled)
  | pendingCount =>
    dsimp only
    split
    · have heq : (s.setRequest r .trigger).outstanding r = s.outstanding r := by
        rw [houtstanding, State.outstanding, hr]
        rfl
      refine h.of_outstanding h.mode ?_ rfl heq.le (Or.inr heq)
      rw [State.setRequest_self]
      exact fun _ _ => nofun
    · rename_i hl
      have hle : (s.setRequest r .idle).outstanding r ≤ s.outstanding r := by
        rw [houtstanding, State.outstanding, hr]
        exact Nat.le_succ _
      refine h.of_outstanding h.mode ?_ rfl hle (Or.inl (hashes_of_not_pos hl))
      rw [State.setRequest_self]
      exact fun _ _ => nofun
  | trigger =>
    have heq : (s.trigger.setRequest r .idle).outstanding r = s.outstanding r := by
      rw [State.outstanding, State.setRequest_self, State.outstanding, hr]
      simp only [State.setRequest, State.trigger, Request.outstanding]
      omega
    refine h.of_outstanding h.mode ?_ (hashes_trigger s) heq.le (Or.inr heq)
    rw [State.setRequest_self]
    exact fun _ _ => nofun

/-- A served trigger takes one block's worth. -/
theorem mine (h : Draining gas limit r total pending s) (hn : pending.Nodup) :
    Draining gas limit r total pending (s.step (.mine (included gas limit s.hashes))) := by
  unfold State.step
  dsimp only
  split
  · rename_i hpos
    obtain ⟨k, hk, hbound, htotal⟩ := h.served
    have hnodup : s.hashes.Nodup := hk ▸ hn.sublist (iterate_afterBlock_sublist limit k pending)
    have hafter : (s.pending.filter fun tx => tx.hash ∉ included gas limit s.hashes).map
        PendingTransaction.hash = afterBlock gas limit s.hashes := by
      rw [← filter_included hnodup limit, State.hashes, List.filter_map]
      rfl
    have hout : (State.mk s.mode
        (s.pending.filter fun tx => tx.hash ∉ included gas limit s.hashes) s.announcing s.queue
        s.task s.requests (s.triggers - 1)).outstanding r + 1 = s.outstanding r := by
      simp only [State.outstanding]
      omega
    refine ⟨h.mode, h.request, k + 1, ?_, ?_, ?_⟩
    · refine hafter.trans ?_
      rw [Function.iterate_succ_apply', hk]
    · omega
    · rcases htotal with hnil | htotal
      · refine Or.inl (hafter.trans ?_)
        rw [hnil, afterBlock_nil]
      · exact Or.inr (by omega)
  · exact h

theorem step (h : Draining gas limit r total pending s) (hn : pending.Nodup) (e : Event)
    (he : e.Serves gas limit r s) : Draining gas limit r total pending (s.step e) := by
  cases e with
  | becomePending hash => exact he.elim
  | setAutomine r' enabled => exact he.elim
  | setIntervalMining intervalSecs => exact he.elim
  | queueEvent hash => exact h.queueEvent hash
  | task => exact h.stepTask
  | request r' =>
    obtain rfl : r' = r := he
    exact h.stepRequest
  | mine hashes =>
    obtain rfl : hashes = included gas limit s.hashes := he
    exact h.mine hn

/-- The write of the mode starts the count. -/
theorem stepRequest_write (gas : B256 → ℕ) (limit : ℕ)
    (hr : s.requests r = .write .automine true) :
    Draining gas limit r ((s.stepRequest r).outstanding r) s.hashes (s.stepRequest r) := by
  have hstep : s.stepRequest r = { s.setRequest r .pendingCount with mode := .automine } := by
    rw [State.stepRequest, hr]
    rfl
  rw [hstep]
  refine ⟨rfl, ?_, 0, rfl, Nat.le_of_eq (Nat.zero_add _), Or.inr (Nat.zero_add _)⟩
  intro next enabled
  change (s.setRequest r .pendingCount).requests r ≠ _
  rw [State.setRequest_self]
  nofun

/-- Once nothing is outstanding, the blocks left nothing pending exactly if as
many as there were to be leave nothing. -/
theorem hashes_eq_nil_iff (h : Draining gas limit r total pending s) (h0 : s.outstanding r = 0) :
    s.hashes = [] ↔ (afterBlock gas limit)^[total] pending = [] := by
  obtain ⟨k, hk, hbound, htotal⟩ := h.served
  constructor
  · intro hnil
    obtain ⟨more, rfl⟩ := Nat.exists_eq_add_of_le' (Nat.le_of_add_right_le hbound)
    rw [Function.iterate_add_apply, ← hk, hnil, iterate_afterBlock_nil]
  · intro hnil
    rcases htotal with hs | htotal
    · exact hs
    · obtain rfl : k = total := by omega
      rw [hk, hnil]

end Draining

/-- Every trigger has been served, every listener event handled, and the request
has returned. -/
structure State.Served (s : State) (r : ℕ) : Prop where
  triggers : s.triggers = 0
  announcing : s.announcing = []
  queue : s.queue = []
  task : s.task = .recv
  request : s.requests r = .idle

theorem State.Served.outstanding_eq_zero {s : State} {r : ℕ} (h : s.Served r) :
    s.outstanding r = 0 := by
  rw [State.outstanding, h.triggers, h.announcing, h.queue, h.task, h.request]
  rfl

/-- A request that turns automining on empties the pool exactly if it takes no
more blocks to do so than there are triggers unserved and listener events
unhandled when the mode is written, and one. -/
theorem drained_iff (gas : B256 → ℕ) (limit r : ℕ) (s : State) (es : List Event)
    (hr : s.requests r = .write .automine true) (hn : s.hashes.Nodup)
    (hes : Transition.Each State.step (Event.Serves gas limit r) (s.stepRequest r) es)
    (hserved : (Transition.run State.step (s.stepRequest r) es).Served r) :
    (Transition.run State.step (s.stepRequest r) es).hashes = [] ↔
      (afterBlock gas limit)^[(s.stepRequest r).outstanding r] s.hashes = [] := by
  have hdrain : Draining gas limit r ((s.stepRequest r).outstanding r) s.hashes
      (Transition.run State.step (s.stepRequest r) es) :=
    (Transition.always_of_each (Draining.stepRequest_write gas limit hr)
      (fun _ e h he => h.step hn e he) hes).last
  exact hdrain.hashes_eq_nil_iff hserved.outstanding_eq_zero


/-- The listener event that is still queued gets the second transaction a block. -/
theorem drained_iff_queued :
    let s : State :=
      { mode := .manual, pending := [⟨2, false⟩, ⟨1, false⟩], announcing := [], queue := [2],
        task := .recv, requests := fun _ => .write .automine true, triggers := 0 }
    (Transition.run State.step (s.stepRequest 0)
      [.request 0, .request 0, .mine [2], .task, .task, .task, .task, .mine [1]]).hashes = [] := by
  intro s
  have hblocks : (afterBlock (fun _ => 1) 1)^[(s.stepRequest 0).outstanding 0] s.hashes = [] :=
    iterate_afterBlock_eq_nil (fun _ _ => le_rfl) (by decide)
  refine (drained_iff (fun _ => 1) 1 0 s _ rfl (by decide) ?_ ⟨rfl, rfl, rfl, rfl, rfl⟩).mpr hblocks
  simp only [Transition.each_cons, Transition.each_nil, and_true]
  exact ⟨rfl, rfl, rfl, trivial, trivial, trivial, trivial, rfl⟩

/-- Two transactions that were announced while the node did not automine share
one trigger, even if a block takes only one of them. -/
theorem backlog_left_behind :
    ¬ ∀ (gas : B256 → ℕ) (limit r : ℕ) (before after : List Event),
      let s := Transition.run State.step .start before
      let t := Transition.run State.step (s.stepRequest r) after
      s.mode ≠ .automine → s.requests r = .write .automine true → s.hashes.Nodup →
      (∀ hash ∈ s.hashes, gas hash ≤ limit) →
      Transition.Each State.step (Event.Serves gas limit r) (s.stepRequest r) after →
      t.Served r → t.hashes = [] := by
  intro h
  have hleft := h (fun _ => 1) 1 0
    [.setAutomine 0 false, .request 0, .becomePending 1, .becomePending 2, .queueEvent 1,
      .queueEvent 2, .task, .task, .task, .task, .setAutomine 0 true]
    [.request 0, .request 0, .mine [2]] (by decide) rfl (by decide) (fun _ _ => le_rfl) ?_
    ⟨rfl, rfl, rfl, rfl, rfl⟩
  · exact absurd hleft (by decide)
  · simp only [Transition.each_cons, Transition.each_nil, and_true]
    exact ⟨rfl, rfl, rfl⟩

end Automine

end AnvilReth
