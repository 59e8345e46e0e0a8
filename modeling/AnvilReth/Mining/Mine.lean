import Mathlib.Logic.Function.Basic
import AnvilReth.Rpc.State
import AnvilReth.Time.Manager
import AnvilReth.Transition.Runs

/-! # Mine requests

A mine request sets a timestamp interval if it has one, issues all its
triggers, polls the head number until the blocks are there, and sets the
interval back. The miner takes the triggers one after the other. Requests, the
miner and whoever else issues triggers interleave at every step.
-/

namespace AnvilReth

open Saturating

namespace Mining

/-- The next step of a request. -/
inductive Phase where
  | idle
  | readInterval (interval : U256)
  | setInterval (interval : U256)
  | readHead
  | trigger (left : ℕ)
  | poll (left : ℕ)
  | restore (result : RpcResult Unit)
  | returned (result : RpcResult Unit)
  | panicked

/-- A request with what it remembers. -/
structure Request where
  blocks : U64 := 0
  /-- The request has an interval, which it sets back in the end. -/
  timed : Bool := false
  /-- The interval it found before it set its own. -/
  previousInterval : Option U64 := none
  /-- The head number it found before it issued its triggers. -/
  start : Option U64 := none
  phase : Phase := .idle

namespace Request

/-- `mine_blocks` is over. -/
def finish (q : Request) (result : RpcResult Unit) : Request :=
  { q with phase := if q.timed then .restore result else .returned result }

/-- The call of `mine_blocks`, which has nothing to do for no blocks. -/
def mineBlocks (q : Request) : Request :=
  if q.blocks = 0 then q.finish (.ok ()) else { q with phase := .readHead }

/-- The arrival of `anvil_mine`. `to::<u64>()` panics beyond the range of the type. -/
def arrive (numBlocks interval : Option U256) : Request :=
  let blocks := numBlocks.getD 1
  if blocks.toNat < 2 ^ 64 then
    let blocks := blocks.setWidth 64
    match interval.filter (· ≠ 0) with
    | some interval => { blocks, timed := true, phase := .readInterval interval }
    | none => mineBlocks { blocks }
  else { phase := .panicked }

/-- The head number the request waits for. -/
def target (q : Request) : U64 := add (q.start.getD 0) q.blocks

/-- The body of the polling loop, which runs at most 200 times. -/
def pollHead (q : Request) (left : ℕ) (read : RpcResult U64) : Request :=
  match read with
  | .error e => q.finish (.error e)
  | .ok current => if q.target ≤ current then q.finish (.ok ()) else { q with phase := .poll left }

def timedOut (q : Request) : RpcResult Unit :=
  .error (internalError ("timed out waiting for block " ++ toString q.target.toNat))

end Request

structure Node where
  time : TimeManager
  /-- The best block number. -/
  head : U64
  /-- Who issued the triggers that are not taken yet, the oldest first. The
  node itself keeps their number only. -/
  triggers : List (Option ℕ)
  /-- The trigger that was taken last, while its block is built, and the block's timestamp. -/
  building : Option (Option ℕ × U64)
  /-- For whom blocks were mined, and their timestamps, the latest first. -/
  mined : List (Option ℕ × U64)
  /-- How many triggers are over. -/
  finished : ℕ
  /-- The request that set the interval back last. -/
  restored : Option ℕ
  requests : ℕ → Request

inductive Event where
  | mine (r : ℕ) (numBlocks interval : Option U256)
  /-- A step of a request, and the answer it gets if it reads the head number. -/
  | step (r : ℕ) (read : ProviderResult U64)
  /-- Another party issues a trigger. -/
  | trigger
  /-- The miner takes a trigger and asks the hook for the attributes of a block. -/
  | serve (now : U64)
  | finishBlock
  | failBlock

namespace Node

/-- A node with triggers of other parties and no request. -/
def start (time : TimeManager) (head : U64) (pending : ℕ) : Node where
  time
  head
  triggers := List.replicate pending none
  building := none
  mined := []
  finished := 0
  restored := none
  requests _ := {}

variable (s : Node)

def setRequest (r : ℕ) (q : Request) : Node :=
  { s with requests := Function.update s.requests r q }

/-- The interval step of a request. `to::<u64>()` panics beyond the range of the type. -/
def setInterval (r : ℕ) (interval : U256) : Node :=
  if interval.toNat < 2 ^ 64 then
    { s with time := s.time.setBlockTimestampInterval (interval.setWidth 64) }.setRequest r
      (s.requests r).mineBlocks
  else s.setRequest r { s.requests r with phase := .panicked }

/-- The last step of a request with an interval. -/
def restore (r : ℕ) (result : RpcResult Unit) : Node :=
  { s with
    time := match (s.requests r).previousInterval with
      | some previousInterval => s.time.setBlockTimestampInterval previousInterval
      | none => s.time.removeBlockTimestampInterval.2
    restored := some r }.setRequest r { s.requests r with phase := .returned result }

def advance (r : ℕ) (read : ProviderResult U64) : Node :=
  let q := s.requests r
  let read := mapProviderError "failed to read latest block number: " read
  match q.phase with
  | .idle | .returned _ | .panicked => s
  | .readInterval interval =>
    s.setRequest r { q with previousInterval := s.time.interval, phase := .setInterval interval }
  | .setInterval interval => s.setInterval r interval
  | .readHead =>
    match read with
    | .error e => s.setRequest r (q.finish (.error e))
    | .ok start =>
      s.setRequest r { q with start := some start, phase := .trigger q.blocks.toNat }
  | .trigger 0 => s.setRequest r { q with phase := .poll 200 }
  | .trigger (left + 1) =>
    { s with triggers := s.triggers ++ [some r] }.setRequest r { q with phase := .trigger left }
  | .poll 0 => s.setRequest r (q.finish q.timedOut)
  | .poll (left + 1) => s.setRequest r (q.pollHead left read)
  | .restore result => s.restore r result

def serve (now : U64) : Node :=
  match s.building, s.triggers with
  | none, issuer :: triggers =>
    let (timestamp, time) := s.time.nextTimestamp now
    { s with time, triggers, building := some (issuer, timestamp) }
  | _, _ => s

def finishBlock : Node :=
  match s.building with
  | some block =>
    { s with
      head := s.head + 1
      building := none
      mined := block :: s.mined
      finished := s.finished + 1 }
  | none => s

def failBlock : Node :=
  match s.building with
  | some _ => { s with building := none, finished := s.finished + 1 }
  | none => s

def step (s : Node) : Event → Node
  | .mine r numBlocks interval =>
    match (s.requests r).phase with
    | .idle => s.setRequest r (.arrive numBlocks interval)
    | _ => s
  | .step r read => s.advance r read
  | .trigger => { s with triggers := s.triggers ++ [none] }
  | .serve now => s.serve now
  | .finishBlock => s.finishBlock
  | .failBlock => s.failBlock

/-- Who waits for a trigger to be taken or for its block to be built. -/
def unserved : List (Option ℕ) := (s.building.map Prod.fst).toList ++ s.triggers

@[simp] theorem setRequest_self (r : ℕ) (q : Request) : (s.setRequest r q).requests r = q :=
  Function.update_self ..

variable {r r' : ℕ} in
theorem setRequest_of_ne (h : r' ≠ r) (q : Request) :
    (s.setRequest r q).requests r' = s.requests r' := Function.update_of_ne h ..

variable {r r' : ℕ} in
/-- A step of one request is none of another. -/
theorem requests_advance_of_ne (h : r' ≠ r) (read : ProviderResult U64) :
    (s.advance r read).requests r' = s.requests r' := by
  unfold advance
  dsimp only
  split
  · rfl
  · rfl
  · rfl
  · exact s.setRequest_of_ne h _
  · unfold setInterval
    split
    · exact setRequest_of_ne _ h _
    · exact s.setRequest_of_ne h _
  · split
    · exact s.setRequest_of_ne h _
    · exact s.setRequest_of_ne h _
  · exact s.setRequest_of_ne h _
  · exact setRequest_of_ne _ h _
  · exact s.setRequest_of_ne h _
  · exact s.setRequest_of_ne h _
  · exact setRequest_of_ne _ h _

/-- The miner changes no request. -/
theorem requests_serve (now : U64) : (s.serve now).requests = s.requests := by
  unfold serve
  split <;> rfl

theorem requests_finishBlock : s.finishBlock.requests = s.requests := by
  unfold finishBlock
  split <;> rfl

theorem requests_failBlock : s.failBlock.requests = s.requests := by
  unfold failBlock
  split <;> rfl

end Node

end Mining

end AnvilReth
