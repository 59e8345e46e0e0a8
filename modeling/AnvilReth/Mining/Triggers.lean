import Mathlib.Logic.Function.Basic
import AnvilReth.Sync.Notify
import AnvilReth.Transition.Runs
import AnvilReth.Words.Types

/-! # Mining triggers

A trigger raises a counter and then notifies. The trigger stream takes the
counter down again, and waits on the notifier when it finds nothing. The calls
and the stream interleave at every atomic operation and notifier call.
-/

namespace AnvilReth

open Sync

namespace MiningTriggers

/-- The next step of a call to `trigger`. -/
inductive Trigger where
  | fetchAdd
  | notifyOne
  | returned
  deriving DecidableEq

/-- The next step of the stream, inside `poll_next` or between its calls. -/
inductive PollNext where
  | unpolled
  | load
  | compareExchange (pending : U64)
  | create
  | poll
  | returned (result : Poll)
  deriving DecidableEq

/-- The counter and the notifier, the parties, and how many triggers were
added and delivered. -/
structure State where
  pending : U64
  notify : Notify
  calls : ℕ → Trigger
  stream : PollNext
  added : ℕ
  delivered : ℕ

namespace State

def start : State where
  pending := 0
  notify := .new
  calls _ := .fetchAdd
  stream := .unpolled
  added := 0
  delivered := 0

variable (s : State)

/-- The next step of one call to `trigger`. -/
def trigger (t : ℕ) : State :=
  match s.calls t with
  | .fetchAdd =>
    { s with
      pending := s.pending + 1
      calls := Function.update s.calls t .notifyOne
      added := s.added + 1 }
  | .notifyOne =>
    { s with notify := s.notify.notifyOne, calls := Function.update s.calls t .returned }
  | .returned => s

/-- The next step of the stream, which is polled again whenever it has returned. -/
def pollNext : State :=
  match s.stream with
  | .unpolled | .returned _ => { s with stream := .load }
  | .load => { s with stream := if 0 < s.pending then .compareExchange s.pending else .create }
  | .compareExchange pending =>
    if s.pending = pending then
      { s with
        pending := pending - 1
        stream := .returned .ready
        delivered := s.delivered + 1 }
    else { s with stream := .load }
  | .create => { s with notify := s.notify.create, stream := .poll }
  | .poll =>
    match s.notify.poll with
    | (.ready, notify) => { s with notify := notify.clear, stream := .load }
    | (.pending, notify) => { s with notify, stream := .returned .pending }

end State

inductive Event where
  | trigger (t : ℕ)
  | pollNext

def State.step (s : State) : Event → State
  | .trigger t => s.trigger t
  | .pollNext => s.pollNext

/-- No addition wraps the counter. -/
def NoOverflow (s : State) : Event → Prop
  | .trigger t => s.calls t = .fetchAdd → s.pending.toNat + 1 < 2 ^ 64
  | .pollNext => True

/-- The stream has seen an empty counter and not looked at it since. -/
def PollNext.SawNone : PollNext → Prop
  | .create | .poll | .returned .pending => True
  | _ => False

structure Invariant (s : State) : Prop where
  balance : s.delivered + s.pending.toNat = s.added
  loaded : ∀ n, s.stream = .compareExchange n → 0 < n
  /-- The stream polls a future it has created. -/
  created : s.stream = .poll → s.notify.future ≠ none
  registered : s.stream = .returned .pending → s.notify.Registered
  /-- What came after the stream last looked is signalled, or about to be. -/
  signalled : s.stream.SawNone → 0 < s.pending →
    s.notify.Signalled ∨ ∃ t, s.calls t = .notifyOne

namespace Invariant

variable {s : State}

/-- A stream about to look, or with an item in hand, promises nothing else. -/
theorem of_awake (hb : s.delivered + s.pending.toNat = s.added)
    (hs : s.stream = .unpolled ∨ s.stream = .load ∨ s.stream = .returned .ready) :
    Invariant s := by
  rcases hs with hs | hs | hs
  all_goals exact {
    balance := hb
    loaded := by simp [hs]
    created := by simp [hs]
    registered := by simp [hs]
    signalled := by simp [hs, PollNext.SawNone] }

theorem start : Invariant .start := of_awake rfl (Or.inl rfl)

theorem trigger (h : Invariant s) (t : ℕ) (hc : NoOverflow s (.trigger t)) :
    Invariant (s.trigger t) := by
  unfold State.trigger
  cases ht : s.calls t with
  | fetchAdd =>
    exact {
      balance := by
        have hadd : (s.pending + 1).toNat = s.pending.toNat + 1 := by
          rw [BitVec.toNat_add]
          exact Nat.mod_eq_of_lt (hc ht)
        have hb := h.balance
        dsimp only
        omega
      loaded := h.loaded
      created := h.created
      registered := h.registered
      signalled := fun _ _ => Or.inr ⟨t, Function.update_self ..⟩ }
  | notifyOne =>
    exact {
      balance := h.balance
      loaded := h.loaded
      created := fun hp => Notify.notifyOne_future_ne_none (h.created hp)
      registered := fun hr => Notify.registered_notifyOne (h.registered hr)
      signalled := fun _ _ => Or.inl Notify.signalled_notifyOne }
  | returned => exact h

theorem pollNext (h : Invariant s) : Invariant s.pollNext := by
  unfold State.pollNext
  cases hs : s.stream with
  | unpolled | returned result => exact of_awake h.balance (Or.inr (Or.inl rfl))
  | load =>
    dsimp only
    split
    · rename_i hp
      refine ⟨h.balance, fun n hl => ?_, nofun, nofun, False.elim⟩
      obtain rfl := PollNext.compareExchange.inj hl
      exact hp
    · rename_i hp
      exact ⟨h.balance, nofun, nofun, nofun, fun _ hp' => absurd hp' hp⟩
  | compareExchange n =>
    dsimp only
    split
    · rename_i he
      refine of_awake ?_ (Or.inr (Or.inr rfl))
      have hb := h.balance
      have hpos : 0 < n := h.loaded n hs
      have hsub : (n - 1).toNat + 1 = n.toNat := by bv_omega
      rw [he] at hb
      dsimp only
      omega
    · exact of_awake h.balance (Or.inr (Or.inl rfl))
  | create =>
    refine ⟨h.balance, nofun, fun _ => Notify.create_future_ne_none, nofun, fun _ hp => ?_⟩
    exact (h.signalled (by rw [hs]; trivial) hp).imp_left Notify.signalled_create
  | poll =>
    dsimp only
    cases hp : s.notify.poll with
    | mk result notify =>
      cases result with
      | ready => exact of_awake h.balance (Or.inr (Or.inl rfl))
      | pending =>
        obtain ⟨hn, hf⟩ := Notify.of_poll_pending hp
        refine ⟨h.balance, nofun, nofun, fun _ => Or.inl hf, fun _ hpos => Or.inr ?_⟩
        exact (h.signalled (by rw [hs]; trivial) hpos).resolve_left hn

theorem step (h : Invariant s) (e : Event) (hc : NoOverflow s e) : Invariant (s.step e) := by
  cases e with
  | trigger t => exact h.trigger t hc
  | pollNext => exact h.pollNext

end Invariant

/-- No trigger is lost or delivered twice, the counter is never taken below
zero, and while the stream sleeps over a positive counter it has been woken or
some call is about to notify. -/
def Delivers (s : State) : Prop :=
  s.delivered + s.pending.toNat = s.added ∧
  (∀ n, s.stream = .compareExchange n → 0 < n) ∧
  (s.stream = .returned .pending → 0 < s.pending →
    s.notify.future = some .notified ∨ ∃ t, s.calls t = .notifyOne)

theorem delivers_of_invariant {s : State} (h : Invariant s) : Delivers s := by
  refine ⟨h.balance, h.loaded, fun hr hpos => ?_⟩
  have hs := h.signalled (by rw [hr]; trivial) hpos
  exact hs.imp_left (Notify.notified_of_signalled (h.registered hr))

/-- However the calls and the stream interleave, as long as the counter does not
wrap, every trigger is delivered once and no wake-up is missed. -/
theorem always_delivers {es : List Event} (hc : Transition.Each State.step NoOverflow .start es) :
    Transition.Always State.step Delivers .start es := by
  have hinv : Transition.Always State.step Invariant .start es :=
    Transition.always_of_each Invariant.start (fun _ e h hc => h.step e hc) hc
  exact hinv.imp fun _ h => delivers_of_invariant h

/-- The stream falls asleep between the two steps of a call, and the call wakes it. -/
theorem always_delivers_wakes :
    Transition.Always State.step Delivers .start
      [.pollNext, .pollNext, .trigger 0, .pollNext, .pollNext, .trigger 0, .pollNext] := by
  refine always_delivers ?_
  simp only [Transition.each_cons]
  exact ⟨trivial, trivial, fun _ => by decide, trivial, trivial, fun _ => by decide, trivial,
    Transition.each_nil⟩

end MiningTriggers

end AnvilReth
