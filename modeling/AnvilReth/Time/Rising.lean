import AnvilReth.Time.Attempts
import AnvilReth.Time.Locks

/-! # Timestamps under the locks

The miner takes timestamps while requests have the cells of the manager in
between its locks. Nobody else writes the last timestamp, as long as the time is
not set, so the timestamps never go back. One is the last one over again where the
miner finds exactly that asked for: a request may have checked it before the
block of that timestamp was made.
-/

namespace AnvilReth

open Saturating Sync

namespace TimeLog

/-- A call with the clock it reads and what it finds in the cells. -/
structure Made where
  now : U64
  view : TimeManager
  call : Call

namespace Made

def accesses (c : Made) : List (Access Cell.Value) := c.call.accesses c.view c.now

/-- The timestamp that `next_timestamp` returns. -/
def timestamp (c : Made) : U64 := (c.view.nextTimestamp c.now).1

end Made

/-- Parties that each make calls one after the other, up to some access, and the
accesses as they interleave. -/
structure Schedule (ι : Type) [DecidableEq ι] where
  calls : ι → List Made
  accesses : List (ι × Access Cell.Value)
  inOrder : ∀ i, Transition.eventsOf Prod.fst accesses i <+:
    ((calls i).flatMap Made.accesses).map (i, ·)

/-- The last timestamp is written by the calls for the next one and by those that
set the time. -/
def Call.WritesLast : Call → Prop
  | nextTimestamp | setTime _ => True
  | _ => False

variable {view m : TimeManager} {now : U64} {s : (c : Cell) → c.Value}

theorem left_computeLooks : ∀ a ∈ computeLooks view, a.left = none := by
  unfold computeLooks
  split
  · simp [Access.look]
  · split <;> simp [Access.look]

/-- Other calls at most look at the last timestamp. -/
theorem Call.left_eq_none {call : Call} (h : ¬ call.WritesLast) {a : Access Cell.Value}
    (ha : a ∈ call.accesses view now) (hc : a.cell = .last) : a.left = none := by
  cases call with
  | setTime timestamp => exact absurd trivial h
  | nextTimestamp => exact absurd trivial h
  | increaseTime seconds =>
    obtain rfl := List.mem_singleton.mp ha
    cases hc
  | setNextBlockTimestamp timestamp =>
    rcases List.mem_cons.mp ha with rfl | ha
    · rfl
    · split at ha
      · cases ha
      · obtain rfl := List.mem_singleton.mp ha
        cases hc
  | setBlockTimestampInterval interval =>
    obtain rfl := List.mem_singleton.mp ha
    cases hc
  | removeBlockTimestampInterval =>
    obtain rfl := List.mem_singleton.mp ha
    cases hc
  | currentCallTimestamp => exact left_computeLooks a ha

/-- Of a call for the next timestamp, a look and a write concern the last one. -/
theorem filter_nextTimestamp :
    (Call.nextTimestamp.accesses view now).filter (fun a => a.cell = .last) =
      [.look .last view.lastTimestamp, .put .last (view.nextTimestamp now).1] := by
  have hlooks : (computeLooks view).filter (fun a => a.cell = .last) =
      [.look .last view.lastTimestamp] := by
    unfold computeLooks
    split
    · rfl
    · split <;> rfl
  have hputs : ∀ offset : Option I128,
      (offset.toList.map (Access.put (V := Cell.Value) Cell.offset)).filter
        (fun a => a.cell = .last) = [] := by
    intro offset
    cases offset <;> rfl
  simp only [Call.accesses, List.filter_append, hlooks]
  rw [List.filter_cons_of_neg (by simp [Access.put]), List.filter_append, hputs]
  rfl

/-- Every block finds the timestamp of the one before it. -/
def Chained : U64 → List Made → Prop
  | _, [] => True
  | last, c :: blocks => c.view.lastTimestamp = last ∧ Chained c.timestamp blocks

theorem chained_of_path {ι : Type} {i : ι} {blocks : List Made} {t : (c : Cell) → c.Value}
    (h : Transition.path Access.step s ((blocks.flatMap fun c =>
      [Access.look .last c.view.lastTimestamp, .put .last c.timestamp]).map (i, ·)) = some t) :
    Chained (s .last) blocks := by
  induction blocks generalizing s with
  | nil => trivial
  | cons c blocks ih =>
    simp only [List.flatMap_cons, List.cons_append, List.nil_append, List.map_cons,
      Access.path_look, Access.path_put] at h
    obtain ⟨hlast, h⟩ := h
    have hrest := ih h
    rw [Function.update_self] at hrest
    exact ⟨hlast.symm, hrest⟩

/-- A block is later than the one before it, unless exactly that timestamp is asked for. -/
theorem Made.lt_timestamp_iff {c : Made} (hmax : c.timestamp ≠ BitVec.allOnes 64) :
    c.view.lastTimestamp < c.timestamp ↔
      c.view.nextExactTimestamp ≠ some c.view.lastTimestamp := by
  constructor
  · intro hlt hexact
    have hsame : c.timestamp = c.view.lastTimestamp := by
      rw [timestamp, TimeManager.nextTimestamp_of_exact hexact (BitVec.le_refl _)]
    rw [hsame] at hlt
    exact BitVec.lt_irrefl _ hlt
  · intro hne
    rcases TimeManager.lastTimestamp_lt_next hmax with hlt | ⟨-, hexact⟩
    · exact hlt
    · exact absurd hexact hne

namespace Chained

variable {last : U64} {blocks : List Made}

theorem isChain_le (h : Chained last blocks) :
    (last :: blocks.map Made.timestamp).IsChain (· ≤ ·) := by
  induction blocks generalizing last with
  | nil => exact .singleton last
  | cons c blocks ih =>
    obtain ⟨rfl, h⟩ := h
    exact .cons_cons TimeManager.lastTimestamp_le_next (ih h)

theorem isChain_lt_iff (h : Chained last blocks)
    (hmax : BitVec.allOnes 64 ∉ blocks.map Made.timestamp) :
    (last :: blocks.map Made.timestamp).IsChain (· < ·) ↔
      ∀ c ∈ blocks, c.view.nextExactTimestamp ≠ some c.view.lastTimestamp := by
  induction blocks generalizing last with
  | nil => simp
  | cons c blocks ih =>
    obtain ⟨rfl, h⟩ := h
    rw [List.map_cons, List.mem_cons, not_or] at hmax
    rw [List.map_cons, List.isChain_cons_cons, List.forall_mem_cons,
      Made.lt_timestamp_iff (Ne.symm hmax.1), ih h hmax.2]

theorem pairwise_le (h : Chained last blocks) :
    (last :: blocks.map Made.timestamp).Pairwise (· ≤ ·) := by
  have : IsTrans U64 (· ≤ ·) := ⟨fun _ _ _ => BitVec.le_trans⟩
  exact h.isChain_le.pairwise

theorem pairwise_lt_iff (h : Chained last blocks)
    (hmax : BitVec.allOnes 64 ∉ blocks.map Made.timestamp) :
    (last :: blocks.map Made.timestamp).Pairwise (· < ·) ↔
      ∀ c ∈ blocks, c.view.nextExactTimestamp ≠ some c.view.lastTimestamp := by
  have : IsTrans U64 (· < ·) := ⟨fun _ _ _ => BitVec.lt_trans⟩
  rw [← h.isChain_lt_iff hmax]
  exact List.isChain_iff_pairwise.symm

end Chained

variable {ι : Type} [DecidableEq ι]

/-- The miner's calls are done. -/
def Schedule.Done (o : Schedule ι) (miner : ι) : Prop :=
  Transition.eventsOf Prod.fst o.accesses miner =
    ((o.calls miner).flatMap Made.accesses).map (miner, ·)

/-- The accesses of the others leave the last timestamp. -/
theorem Schedule.left_eq_none (o : Schedule ι) {miner : ι}
    (hothers : ∀ i, i ≠ miner → ∀ c ∈ o.calls i, ¬ c.call.WritesLast)
    {e : ι × Access Cell.Value} (he : e ∈ o.accesses) (hne : e.1 ≠ miner)
    (hc : e.2.cell = .last) : e.2.left = none := by
  have hmem : e ∈ Transition.eventsOf Prod.fst o.accesses e.1 :=
    List.mem_filter.mpr ⟨he, by simp⟩
  obtain ⟨a, ha, heq⟩ := List.mem_map.mp ((o.inOrder e.1).subset hmem)
  obtain ⟨c, hcall, ha⟩ := List.mem_flatMap.mp ha
  have hsnd : a = e.2 := congrArg Prod.snd heq
  rw [hsnd] at ha
  exact Call.left_eq_none (hothers _ hne c hcall) ha hc

/-- Of the accesses to the last timestamp, the miner's are a look and a write for
each of its blocks. -/
theorem Schedule.filter_accesses (o : Schedule ι) {miner : ι} (hdone : o.Done miner)
    (hminer : ∀ c ∈ o.calls miner, c.call = .nextTimestamp) :
    o.accesses.filter (fun e => e.1 = miner ∧ e.2.cell = .last) =
      ((o.calls miner).flatMap fun c =>
        [Access.look .last c.view.lastTimestamp, .put .last c.timestamp]).map (miner, ·) := by
  have hfilter : o.accesses.filter (fun e => e.1 = miner ∧ e.2.cell = .last) =
      (Transition.eventsOf Prod.fst o.accesses miner).filter fun e => e.2.cell = .last := by
    rw [Transition.eventsOf, List.filter_filter]
    simp only [Bool.decide_and, Bool.and_comm]
  rw [hfilter, hdone, List.filter_map, List.filter_flatMap]
  congr 1
  refine List.flatMap_congr fun c hc => ?_
  rw [Made.accesses, hminer c hc]
  exact filter_nextTimestamp

/-- Whatever requests have the cells between the miner's locks, as long as the time is
not set the timestamps never go back, and they rise throughout exactly if the miner
never finds the last timestamp asked for. -/
theorem timestamps_under_locks (o : Schedule ι) (m : TimeManager) (miner : ι)
    (hrun : Transition.path Access.step (cells m) o.accesses = some s) (hdone : o.Done miner)
    (hminer : ∀ c ∈ o.calls miner, c.call = .nextTimestamp)
    (hothers : ∀ i, i ≠ miner → ∀ c ∈ o.calls i, ¬ c.call.WritesLast) :
    let timestamps := (o.calls miner).map Made.timestamp
    (m.lastTimestamp :: timestamps).Pairwise (· ≤ ·) ∧
      (BitVec.allOnes 64 ∉ timestamps →
        ((m.lastTimestamp :: timestamps).Pairwise (· < ·) ↔
          ∀ c ∈ o.calls miner, c.view.nextExactTimestamp ≠ some c.view.lastTimestamp)) := by
  obtain ⟨t, ht, -⟩ := Access.path_filter (c := Cell.last)
    (p := fun e => e.1 = miner ∧ e.2.cell = .last) rfl (fun e _ hp => by simp_all)
    (fun e he hp hc => o.left_eq_none hothers he (by simp_all) hc) hrun
  rw [o.filter_accesses hdone hminer] at ht
  have hchained : Chained m.lastTimestamp (o.calls miner) := chained_of_path ht
  exact ⟨hchained.pairwise_le, hchained.pairwise_lt_iff⟩

/-- A request finds its timestamp ahead of the last one, which a block then has
before the request sets it, so the next block has it again. -/
def overtakenSet : Schedule Bool :=
  let start := TimeManager.new 1000 1000
  let block : Made := ⟨1005, start, .nextTimestamp⟩
  let same : Made :=
    ⟨1006, { start with lastTimestamp := 1005, nextExactTimestamp := some 1005 }, .nextTimestamp⟩
  { calls := fun miner =>
      if miner then [block, same] else [⟨1000, start, .setNextBlockTimestamp 1005⟩]
    accesses := (false, .look .last 1000) :: (block.accesses.map (true, ·) ++
      (false, .put .exact (some 1005)) :: same.accesses.map (true, ·))
    inOrder := Bool.forall_bool.mpr ⟨⟨[], rfl⟩, ⟨[], rfl⟩⟩ }

theorem timestamps_under_locks_overtakenSet :
    let timestamps := (overtakenSet.calls true).map Made.timestamp
    ((1000 : U64) :: timestamps).Pairwise (· ≤ ·) ∧
      ¬ ((1000 : U64) :: timestamps).Pairwise (· < ·) := by
  obtain ⟨s, hs⟩ : ∃ s, Transition.path Access.step (cells (.new 1000 1000))
      overtakenSet.accesses = some s := ⟨_, rfl⟩
  obtain ⟨hle, hlt⟩ := timestamps_under_locks overtakenSet (.new 1000 1000) true hs rfl
    (by simp [overtakenSet]) (by simp [overtakenSet, Call.WritesLast])
  refine ⟨hle, fun hrise => ?_⟩
  exact (hlt (by decide)).mp hrise _ (List.mem_cons_of_mem _ List.mem_cons_self) rfl

end TimeLog

end AnvilReth
