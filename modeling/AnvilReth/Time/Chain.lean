import AnvilReth.Time.Manager
import AnvilReth.Transition.Runs

/-! # Timestamps along the chain

Time requests and block productions in any order, each with its reading of the
clock. The manager's last timestamp is the baseline: the time the last
`setTime` since the head block moved it to, else the timestamp of the head.
-/

namespace AnvilReth

inductive TimeRequest where
  | increaseTime (seconds : U256)
  | setTime (timestamp : U64)
  | setNextBlockTimestamp (seconds : U64)
  | setBlockTimestampInterval (seconds : U64)
  | removeBlockTimestampInterval
  deriving DecidableEq

def TimeRequest.handle (m : TimeManager) (now : U64) : TimeRequest → TimeManager
  | increaseTime seconds => (anvilIncreaseTime m seconds).2
  | setTime timestamp => (anvilSetTime m now timestamp).2
  | setNextBlockTimestamp seconds => (anvilSetNextBlockTimestamp m seconds).2
  | setBlockTimestampInterval seconds => (anvilSetBlockTimestampInterval m seconds).2
  | removeBlockTimestampInterval => (anvilRemoveBlockTimestampInterval m).2

/-- The time a request moves the baseline to. -/
def TimeRequest.baseline : TimeRequest → Option U64
  | setTime timestamp => some (normalizeTimestampInput timestamp)
  | _ => none

namespace Timeline

inductive Event where
  | request (now : U64) (r : TimeRequest)
  | produce (now : U64)
  deriving DecidableEq

/-- The reading of the clock at an event. -/
def Event.now : Event → U64
  | request now _ | produce now => now

/-- The manager next to the chain it stamps. -/
structure Chain where
  manager : TimeManager
  /-- The timestamp of the head block. -/
  head : U64
  /-- Where `setTime` moved the baseline since the head block. -/
  moved : Option U64
  /-- The timestamps produced so far, newest first. -/
  produced : List U64

def Chain.init (now startTimestamp : U64) : Chain where
  manager := TimeManager.new now startTimestamp
  head := startTimestamp
  moved := none
  produced := []

def Chain.baseline (s : Chain) : U64 := s.moved.getD s.head

def Chain.step (s : Chain) : Event → Chain
  | .request now r => { s with manager := r.handle s.manager now, moved := r.baseline.or s.moved }
  | .produce now =>
    let (next, manager) := s.manager.nextTimestamp now
    { manager, head := next, moved := none, produced := next :: s.produced }

/-- A request moves the last timestamp exactly to the baseline it sets. -/
theorem lastTimestamp_handle (m : TimeManager) (now : U64) (r : TimeRequest) :
    (r.handle m now).lastTimestamp = r.baseline.getD m.lastTimestamp := by
  cases r with
  | increaseTime seconds =>
    simp only [TimeRequest.handle, anvilIncreaseTime]
    split <;> rfl
  | setNextBlockTimestamp seconds =>
    simp only [TimeRequest.handle, anvilSetNextBlockTimestamp, TimeManager.setNextBlockTimestamp]
    split <;> rename_i h <;> split at h <;> cases h <;> rfl
  | _ => rfl

end Timeline

end AnvilReth
