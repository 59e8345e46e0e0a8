import Mathlib.Data.Nat.Notation
import Mathlib.Tactic.TypeStar
import AnvilReth.Sync.Notify

/-! # A watch channel

The channel holds the last value sent and counts the sends. A receiver remembers
the count it has seen, so that it can wait for the next send, and may work with
a copy of a value it has read.
-/

namespace Sync

structure Watch (α : Type*) where
  value : α
  version : ℕ

structure Receiver where
  /-- The version the receiver has seen. -/
  seen : ℕ
  deriving DecidableEq

namespace Watch

variable {α : Type*} (c : Watch α) (r : Receiver)

def sendReplace (a : α) : Watch α := ⟨a, c.version + 1⟩

def borrowAndUpdate : α × Receiver := (c.value, ⟨c.version⟩)

/-- A poll of `changed`, which marks the version as seen when it is ready. -/
def changed : Poll × Receiver :=
  if r.seen = c.version then (.pending, r) else (.ready, ⟨c.version⟩)

/-- The copy is of the last value sent, or the receiver will be told that it is not. -/
structure Copies (copied : α) : Prop where
  seen_le : r.seen ≤ c.version
  copied : r.seen = c.version → copied = c.value

variable {c r} {copied : α}

theorem copies_borrowAndUpdate : c.Copies c.borrowAndUpdate.2 c.borrowAndUpdate.1 :=
  ⟨Nat.le_refl _, fun _ => rfl⟩

/-- A send outdates the copy, and the receiver has not seen it. -/
theorem Copies.sendReplace (h : c.Copies r copied) (a : α) : (c.sendReplace a).Copies r copied := by
  have hle := h.seen_le
  refine ⟨Nat.le_succ_of_le hle, fun heq => ?_⟩
  change r.seen = c.version + 1 at heq
  omega

/-- A receiver that has to wait has the last value. -/
theorem Copies.of_pending (h : c.Copies r copied) (hp : (c.changed r).1 = .pending) :
    copied = c.value := by
  unfold changed at hp
  split at hp
  · rename_i heq
    exact h.copied heq
  · cases hp

end Watch

end Sync
