import Mathlib.Data.Fin.VecNotation
import Mathlib.Data.Fintype.Basic
import AnvilReth.Mining.Controller
import AnvilReth.Transition.Runs

/-! # Concurrent switches of the mining mode

`set_automine` decides on the mode it has read and writes it in a later step,
`set_interval_mining` just writes. The final mode is that of a serial execution
unless a request to stop automining overwrites the interval of another one.
-/

namespace AnvilReth

namespace ModeSwitch

inductive Call where
  | setAutomine (enabled : Bool)
  | setIntervalMining (intervalSecs : U64)
  deriving DecidableEq

namespace Call

/-- The call executed at once. -/
def apply (mode : MiningMode) : Call → MiningMode
  | setAutomine enabled => (mode.setAutomine enabled).getD mode
  | setIntervalMining intervalSecs => .setIntervalMining intervalSecs

/-- The mode a call writes if it writes any. -/
def target : Call → MiningMode
  | setAutomine true => .automine
  | setAutomine false => .manual
  | setIntervalMining intervalSecs => .setIntervalMining intervalSecs

theorem target_of_setAutomine {mode next : MiningMode} {enabled : Bool}
    (h : mode.setAutomine enabled = some next) : (setAutomine enabled).target = next := by
  cases mode <;> cases enabled <;> cases h <;> rfl

/-- A call that does not stop automining ends in its target. -/
theorem apply_of_ne {call : Call} (h : call ≠ .setAutomine false) (mode : MiningMode) :
    call.apply mode = call.target := by
  cases call with
  | setAutomine enabled =>
    cases enabled with
    | false => exact absurd rfl h
    | true => cases mode <;> rfl
  | setIntervalMining intervalSecs => rfl

end Call

/-- How far a call has come. -/
inductive Progress where
  | start
  | write (next : MiningMode)
  | returned
  deriving DecidableEq

structure Channel (n : ℕ) where
  mode : MiningMode
  progress : Fin n → Progress
  /-- The call that wrote the mode last. -/
  writer : Option (Fin n)

namespace Channel

variable {n : ℕ}

def start (n : ℕ) (mode : MiningMode) : Channel n where
  mode
  progress _ := .start
  writer := none

def put (s : Channel n) (i : Fin n) (next : MiningMode) : Channel n where
  mode := next
  progress := Function.update s.progress i .returned
  writer := some i

/-- A call reads the mode, or writes it. -/
def step (calls : Fin n → Call) (s : Channel n) (i : Fin n) : Channel n :=
  match s.progress i, calls i with
  | .start, .setAutomine enabled =>
    match s.mode.setAutomine enabled with
    | some next => { s with progress := Function.update s.progress i (.write next) }
    | none => { s with progress := Function.update s.progress i .returned }
  | .start, .setIntervalMining intervalSecs => s.put i (.setIntervalMining intervalSecs)
  | .write next, _ => s.put i next
  | .returned, _ => s

end Channel

variable {n : ℕ}

/-- The mode after the calls are executed one after the other. -/
def serially (calls : Fin n → Call) (mode : MiningMode) (order : List (Fin n)) : MiningMode :=
  order.foldl (fun mode i => (calls i).apply mode) mode

/-- What the mode, the calls to come and the calls that returned have to do
with the first mode and the last writer. -/
structure Invariant (calls : Fin n → Call) (initial : MiningMode) (s : Channel n) : Prop where
  mode : s.mode = s.writer.elim initial fun i => (calls i).target
  write : ∀ i next, s.progress i = .write next → (calls i).target = next
  /-- Automining is stopped where it was on at first or was turned on. -/
  stops : ∀ i, calls i = .setAutomine false →
    s.progress i = .write .manual ∨ s.writer = some i →
      initial = .automine ∨ ∃ j, calls j = .setAutomine true
  /-- Calls that returned before the first write have found what they ask for. -/
  idle : s.writer = none → ∀ i, s.progress i = .returned → (calls i).apply initial = initial

namespace Invariant

variable {calls : Fin n → Call} {initial : MiningMode} {s : Channel n} {i : Fin n}

theorem start : Invariant calls initial (.start n initial) := by
  refine ⟨rfl, fun _ _ => nofun, ?_, fun _ _ => nofun⟩
  rintro i - (h | h) <;> cases h

/-- Where automining is on, it was on at first or was turned on. -/
theorem of_mode_automine (h : Invariant calls initial s) (hm : s.mode = .automine) :
    initial = .automine ∨ ∃ j, calls j = .setAutomine true := by
  have hmode := h.mode
  rw [hm] at hmode
  cases hw : s.writer with
  | none =>
    rw [hw] at hmode
    exact Or.inl hmode.symm
  | some j =>
    rw [hw] at hmode
    refine Or.inr ⟨j, ?_⟩
    have htarget : (calls j).target = .automine := hmode.symm
    cases hc : calls j with
    | setAutomine enabled =>
      rw [hc] at htarget
      cases enabled with
      | true => rfl
      | false => cases htarget
    | setIntervalMining intervalSecs =>
      rw [hc] at htarget
      exact absurd htarget (MiningMode.setIntervalMining_ne_automine intervalSecs)

theorem put (h : Invariant calls initial s) {next : MiningMode} (ht : (calls i).target = next)
    (hs : calls i = .setAutomine false →
      initial = .automine ∨ ∃ j, calls j = .setAutomine true) :
    Invariant calls initial (s.put i next) := by
  refine ⟨ht.symm, ?_, ?_, nofun⟩
  · intro j next' hj
    simp only [Channel.put, Function.update_apply] at hj
    split at hj
    · cases hj
    · exact h.write j next' hj
  · rintro j hc (hj | hj)
    · simp only [Channel.put, Function.update_apply] at hj
      split at hj
      · cases hj
      · exact h.stops j hc (Or.inl hj)
    · obtain rfl := Option.some.inj hj
      exact hs hc

/-- A call that has read the mode and not written it yet. -/
theorem goOn (h : Invariant calls initial s) {p : Progress}
    (hwrite : ∀ next, p = .write next → (calls i).target = next)
    (hstops : p = .write .manual → initial = .automine ∨ ∃ j, calls j = .setAutomine true)
    (hidle : s.writer = none → p = .returned → (calls i).apply initial = initial) :
    Invariant calls initial { s with progress := Function.update s.progress i p } := by
  refine ⟨h.mode, ?_, ?_, ?_⟩
  · intro j next hj
    simp only [Function.update_apply] at hj
    split at hj
    · rename_i hji
      exact hji ▸ hwrite next hj
    · exact h.write j next hj
  · rintro j hcj (hj | hj)
    · simp only [Function.update_apply] at hj
      split at hj
      · exact hstops hj
      · exact h.stops j hcj (Or.inl hj)
    · exact h.stops j hcj (Or.inr hj)
  · intro hw j hj
    simp only [Function.update_apply] at hj
    split at hj
    · rename_i hji
      exact hji ▸ hidle hw hj
    · exact h.idle hw j hj

/-- A reading call that is to write next. -/
theorem read_some (h : Invariant calls initial s) {enabled : Bool} {next : MiningMode}
    (hc : calls i = .setAutomine enabled) (hn : s.mode.setAutomine enabled = some next) :
    Invariant calls initial { s with progress := Function.update s.progress i (.write next) } := by
  refine h.goOn ?_ ?_ fun _ => nofun
  · rintro _ ⟨⟩
    rw [hc, Call.target_of_setAutomine hn]
  · intro hp
    rw [Progress.write.inj hp] at hn
    refine h.of_mode_automine ?_
    cases hm : s.mode with
    | automine => rfl
    | _ =>
      rw [hm] at hn
      cases enabled <;> cases hn

/-- A reading call that has nothing to write. -/
theorem read_none (h : Invariant calls initial s) {enabled : Bool}
    (hc : calls i = .setAutomine enabled) (hn : s.mode.setAutomine enabled = none) :
    Invariant calls initial { s with progress := Function.update s.progress i .returned } := by
  refine h.goOn (fun _ => nofun) nofun fun hw _ => ?_
  have hmode : s.mode = initial := by rw [h.mode, hw, Option.elim_none]
  rw [hmode] at hn
  rw [hc, Call.apply, hn, Option.getD_none]

theorem step (h : Invariant calls initial s) (i : Fin n) :
    Invariant calls initial (s.step calls i) := by
  unfold Channel.step
  split
  · rename_i enabled hp hc
    split
    · rename_i hn
      exact h.read_some hc hn
    · rename_i hn
      exact h.read_none hc hn
  · rename_i intervalSecs hp hc
    refine h.put (by rw [hc]; rfl) fun hc' => ?_
    rw [hc] at hc'
    cases hc'
  · rename_i call next hp
    refine h.put (h.write i next hp) fun hc' => ?_
    have hnext := h.write i next hp
    rw [hc'] at hnext
    exact h.stops i hc' (Or.inl (by rw [hp, ← hnext]; rfl))
  · exact h

end Invariant

section Serial

variable {calls : Fin n → Call} {mode : MiningMode} {i : Fin n}

theorem serially_append (before after : List (Fin n)) :
    serially calls mode (before ++ after) = serially calls (serially calls mode before) after :=
  List.foldl_append

/-- Calls that find what they ask for change nothing. -/
theorem serially_eq_self (h : ∀ i, (calls i).apply mode = mode) (order : List (Fin n)) :
    serially calls mode order = mode := by
  induction order with
  | nil => rfl
  | cons i order ih => rw [serially, List.foldl_cons, h i, ← serially, ih]

/-- Some order ends with any given calls. -/
theorem exists_order {last : List (Fin n)} (h : last.Nodup) :
    ∃ before : List (Fin n), (before ++ last).Perm (List.finRange n) := by
  refine ⟨(List.finRange n).filter (· ∉ last), ?_⟩
  refine (List.perm_ext_iff_of_nodup ?_ (List.nodup_finRange n)).mpr fun j => ?_
  · refine List.nodup_append.mpr ⟨(List.nodup_finRange n).filter _, h, ?_⟩
    rintro j hj k hk rfl
    exact of_decide_eq_true (List.mem_filter.mp hj).2 hk
  · simp [em']

/-- Executed last, a call that does not stop automining decides on the mode. -/
theorem serial_of_ne (h : calls i ≠ .setAutomine false) (mode : MiningMode) :
    ∃ order : List (Fin n), order.Perm (List.finRange n) ∧
      serially calls mode order = (calls i).target := by
  obtain ⟨before, hperm⟩ := exists_order (List.nodup_singleton i)
  refine ⟨before ++ [i], hperm, ?_⟩
  rw [serially_append]
  exact Call.apply_of_ne h _

/-- Automining turned on and then stopped. -/
theorem serial_of_stop {j : Fin n} (hi : calls i = .setAutomine false)
    (hj : calls j = .setAutomine true) (mode : MiningMode) :
    ∃ order : List (Fin n), order.Perm (List.finRange n) ∧
      serially calls mode order = .manual := by
  have hne : j ≠ i := by
    rintro rfl
    rw [hi] at hj
    cases hj
  obtain ⟨before, hperm⟩ := exists_order (List.nodup_cons.mpr
    ⟨List.mem_singleton.not.mpr hne, List.nodup_singleton i⟩)
  have hon : ∀ mode, (calls j).apply mode = .automine := by
    intro mode
    rw [hj]
    cases mode <;> rfl
  refine ⟨before ++ [j, i], hperm, ?_⟩
  rw [serially_append, serially, List.foldl_cons, List.foldl_cons, List.foldl_nil, hon, hi]
  rfl

/-- Calls to stop automining alone stop it. -/
theorem serially_stops (h : ∀ j, calls j = .setAutomine false) {order : List (Fin n)}
    (hm : mode = .automine ∨ mode = .manual) (hne : mode = .manual ∨ order ≠ []) :
    serially calls mode order = .manual := by
  induction order generalizing mode with
  | nil => exact hne.resolve_right fun h => h rfl
  | cons j order ih =>
    have happly : (calls j).apply mode = .manual := by
      rw [h j]
      rcases hm with rfl | rfl <;> rfl
    rw [serially, List.foldl_cons, happly]
    exact ih (Or.inr rfl) (Or.inl rfl)

/-- An interval survives all calls but those to automine and to stop interval mining. -/
theorem serially_interval
    (h : ∀ j, calls j ≠ .setAutomine true ∧ calls j ≠ .setIntervalMining 0) {order : List (Fin n)}
    (hi : (∃ secs, mode = .interval secs) ∨
      ∃ j ∈ order, ∃ secs, calls j = .setIntervalMining secs) :
    ∃ secs, serially calls mode order = .interval secs := by
  induction order generalizing mode with
  | nil =>
    rcases hi with hi | ⟨j, hj, -⟩
    · exact hi
    · cases hj
  | cons j order ih =>
    rw [serially, List.foldl_cons]
    refine ih ?_
    cases hc : calls j with
    | setAutomine enabled =>
      cases enabled with
      | true => exact absurd hc (h j).1
      | false =>
        rcases hi with ⟨secs, rfl⟩ | ⟨k, hk, secs, hk'⟩
        · exact Or.inl ⟨secs, rfl⟩
        · rcases List.mem_cons.mp hk with rfl | hm
          · rw [hc] at hk'
            cases hk'
          · exact Or.inr ⟨k, hm, secs, hk'⟩
    | setIntervalMining intervalSecs =>
      refine Or.inl ⟨intervalSecs, if_neg ?_⟩
      rintro rfl
      exact (h j).2 hc

end Serial

/-- A call to stop automining wrote last, over the interval of another call that
nothing but it could have ended. -/
def Lost (calls : Fin n → Call) (s : Channel n) : Prop :=
  (∃ i, s.writer = some i ∧ calls i = .setAutomine false) ∧
    (∃ j secs, calls j = .setIntervalMining secs ∧ secs ≠ 0) ∧
    ∀ j, calls j ≠ .setAutomine true ∧ calls j ≠ .setIntervalMining 0

/-- Where a call to stop automining wrote last and no interval was lost, some
order of the calls ends in manual mode. -/
theorem Invariant.serial_of_stopped {calls : Fin n → Call} {initial : MiningMode} {s : Channel n}
    (h : Invariant calls initial s) {i : Fin n} (hw : s.writer = some i)
    (hi : calls i = .setAutomine false) (hlost : ¬ Lost calls s) :
    ∃ order : List (Fin n), order.Perm (List.finRange n) ∧
      serially calls initial order = .manual := by
  by_cases hon : ∃ j, calls j = .setAutomine true
  · obtain ⟨j, hj⟩ := hon
    exact serial_of_stop hi hj initial
  by_cases hzero : ∃ j, calls j = .setIntervalMining 0
  · obtain ⟨j, hj⟩ := hzero
    have hne : calls j ≠ .setAutomine false := by
      rw [hj]
      nofun
    have hlast := serial_of_ne hne initial
    rwa [hj] at hlast
  · -- Without intervals to lose, all calls are to stop automining.
    have hall : ∀ j, calls j = .setAutomine false := by
      intro j
      by_contra hne
      refine hlost ⟨⟨i, hw, hi⟩, ?_, fun k => ⟨fun h => hon ⟨k, h⟩, fun h => hzero ⟨k, h⟩⟩⟩
      cases hc : calls j with
      | setAutomine enabled =>
        cases enabled with
        | true => exact absurd ⟨j, hc⟩ hon
        | false => exact absurd hc hne
      | setIntervalMining secs =>
        refine ⟨j, secs, hc, ?_⟩
        rintro rfl
        exact hzero ⟨j, hc⟩
    have hinitial := (h.stops i hi (Or.inr hw)).resolve_right hon
    refine ⟨List.finRange n, .refl _, serially_stops hall (Or.inl hinitial) (Or.inr ?_)⟩
    exact List.ne_nil_of_mem (List.mem_finRange i)

/-- When all calls have returned, the mode is that of a serial execution exactly
if no interval was lost. -/
theorem serial_iff_not_lost (calls : Fin n → Call) (initial : MiningMode) (es : List (Fin n))
    (hdone : ∀ i, (Transition.run (Channel.step calls) (.start n initial) es).progress i =
      .returned) :
    (∃ order : List (Fin n), order.Perm (List.finRange n) ∧
      serially calls initial order =
        (Transition.run (Channel.step calls) (.start n initial) es).mode) ↔
      ¬ Lost calls (Transition.run (Channel.step calls) (.start n initial) es) := by
  have hinv : Invariant calls initial (Transition.run (Channel.step calls) (.start n initial) es) :=
    (Transition.always_of_step Invariant.start fun s i h => h.step i).last
  generalize Transition.run (Channel.step calls) (.start n initial) es = s at hinv hdone ⊢
  constructor
  · rintro ⟨order, hperm, hs⟩ ⟨⟨i, hw, hi⟩, ⟨j, secs, hj, -⟩, hcalls⟩
    have hmem : j ∈ order := hperm.mem_iff.mpr (List.mem_finRange j)
    have hinterval : ∃ secs, serially calls initial order = .interval secs :=
      serially_interval hcalls (Or.inr ⟨j, hmem, secs, hj⟩)
    obtain ⟨secs', hinterval⟩ := hinterval
    rw [hinterval, hinv.mode, hw, Option.elim_some, hi] at hs
    cases hs
  · intro hlost
    cases hw : s.writer with
    | none =>
      have hidle : ∀ i, (calls i).apply initial = initial := fun i => hinv.idle hw i (hdone i)
      rw [hinv.mode, hw, Option.elim_none]
      exact ⟨List.finRange n, .refl _, serially_eq_self hidle _⟩
    | some i =>
      rw [hinv.mode, hw, Option.elim_some]
      by_cases hi : calls i = .setAutomine false
      · have htarget : (calls i).target = .manual := by
          rw [hi]
          rfl
        rw [htarget]
        exact hinv.serial_of_stopped hw hi hlost
      · exact serial_of_ne hi initial

/-- Automining is stopped and an interval set one after the other. -/
theorem serial_iff_not_lost_sequential :
    ∃ order : List (Fin 2), order.Perm (List.finRange 2) ∧
      serially ![.setAutomine false, .setIntervalMining 5] .automine order = .interval 5 := by
  have hdone : ∀ i, (Transition.run (Channel.step ![.setAutomine false, .setIntervalMining 5])
      (.start 2 .automine) [0, 0, 1]).progress i = .returned := by
    decide
  refine (serial_iff_not_lost _ _ _ hdone).mpr ?_
  rintro ⟨⟨i, hw, hi⟩, -⟩
  obtain rfl : 1 = i := Option.some.inj hw
  cases hi

/-- A call to stop automining overwrites the interval set since it read the mode. -/
theorem interval_lost :
    ¬ ∀ (n : ℕ) (calls : Fin n → Call) (initial : MiningMode) (es : List (Fin n)),
      (∀ i, (Transition.run (Channel.step calls) (.start n initial) es).progress i = .returned) →
      ∃ order : List (Fin n), order.Perm (List.finRange n) ∧
        serially calls initial order =
          (Transition.run (Channel.step calls) (.start n initial) es).mode := by
  intro h
  obtain ⟨order, hperm, hs⟩ :=
    h 2 ![.setAutomine false, .setIntervalMining 5] .automine [0, 1, 0] (by decide)
  obtain ⟨i, j, rfl⟩ := List.length_eq_two.mp hperm.length_eq
  have hserial : ∀ i j : Fin 2, [i, j].Perm (List.finRange 2) →
      serially ![.setAutomine false, .setIntervalMining 5] .automine [i, j] = .interval 5 := by
    decide
  rw [hserial i j hperm] at hs
  exact absurd hs (by decide)

end ModeSwitch

end AnvilReth
