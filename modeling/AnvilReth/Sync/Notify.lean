/-! # A notifier with one waiter

A notifier wakes the future registered on it, or else stores a single permit
for the next future that is polled. One future at a time waits on it.
-/

namespace Sync

inductive Poll where
  | ready
  | pending
  deriving DecidableEq

/-- How far the future has come: never polled, registered, or woken. -/
inductive Notified where
  | init
  | waiting
  | notified
  deriving DecidableEq

/-- The notifier's permit and the future created from it. No permit is stored
while the future is registered. -/
structure Notify where
  permit : Bool
  future : Option Notified
  exclusive : future = some .waiting → permit = false

namespace Notify

def new : Notify := ⟨false, none, nofun⟩

def notifyOne (n : Notify) : Notify :=
  match n.future with
  | some .waiting => ⟨n.permit, some .notified, nofun⟩
  | none => ⟨true, none, nofun⟩
  | some .init => ⟨true, some .init, nofun⟩
  | some .notified => ⟨true, some .notified, nofun⟩

/-- Create the future if there is none. -/
def create (n : Notify) : Notify :=
  match n.future with
  | none => ⟨n.permit, some .init, nofun⟩
  | some _ => n

/-- Poll the future: a stored permit is consumed by the first poll, and a poll
that is not ready leaves the future registered. -/
def poll (n : Notify) : Poll × Notify :=
  match n.future with
  | some .notified => (.ready, n)
  | some .waiting => (.pending, n)
  | none | some .init =>
    if n.permit then (.ready, ⟨false, n.future, fun _ => rfl⟩)
    else (.pending, ⟨false, some .waiting, fun _ => rfl⟩)

/-- Drop a future that is done. -/
def clear (n : Notify) : Notify := ⟨n.permit, none, nofun⟩

/-- The next poll is ready. -/
def Signalled (n : Notify) : Prop := n.permit = true ∨ n.future = some .notified

/-- The future has been polled. -/
def Registered (n : Notify) : Prop := n.future = some .waiting ∨ n.future = some .notified

variable {n : Notify}

theorem signalled_notifyOne : n.notifyOne.Signalled := by
  unfold notifyOne
  split
  · exact Or.inr rfl
  all_goals exact Or.inl rfl

theorem registered_notifyOne (h : n.Registered) : n.notifyOne.Registered := by
  unfold notifyOne
  rcases h with h | h <;> rw [h] <;> exact Or.inr rfl

theorem notifyOne_future_ne_none (h : n.future ≠ none) : n.notifyOne.future ≠ none := by
  unfold notifyOne
  split
  · nofun
  · rename_i hf
    exact absurd hf h
  all_goals nofun

theorem create_future_ne_none : n.create.future ≠ none := by
  unfold create
  split
  · nofun
  · rename_i hf
    rw [hf]
    nofun

theorem signalled_create (h : n.Signalled) : n.create.Signalled := by
  unfold create
  split
  · rename_i hf
    exact h.imp id fun hn => by rw [hf] at hn; cases hn
  · exact h

/-- Only a poll that nobody signalled is pending, and it registers the future. -/
theorem of_poll_pending {m : Notify} (h : n.poll = (.pending, m)) :
    ¬ n.Signalled ∧ m.future = some .waiting := by
  unfold poll at h
  split at h
  · cases h
  · rename_i hf
    obtain ⟨-, rfl⟩ := Prod.mk.inj h
    exact ⟨by simp [Signalled, hf, n.exclusive hf], hf⟩
  all_goals
    rename_i hf
    split at h
    · cases h
    · rename_i hp
      obtain ⟨-, rfl⟩ := Prod.mk.inj h
      exact ⟨by simp [Signalled, hf, hp], rfl⟩

/-- A signal to a registered future has woken it. -/
theorem notified_of_signalled (hr : n.Registered) (hs : n.Signalled) :
    n.future = some .notified := by
  rcases hr with hw | hn
  · refine hs.resolve_left fun hp => ?_
    rw [n.exclusive hw] at hp
    cases hp
  · exact hn

end Notify

end Sync
