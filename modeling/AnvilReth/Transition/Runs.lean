import Mathlib.Data.List.Basic
import Mathlib.Data.List.Infix

/-! # Runs of transition systems

A total step function runs over a list of events; a partial one runs over the
lists whose every event is enabled. State properties are read at all prefixes
of a run, conditions on an event in the state the event finds.
-/

namespace Transition

variable {σ ε : Type*}

section Total

/-- The state after a list of events. -/
def run (step : σ → ε → σ) (s : σ) (es : List ε) : σ := es.foldl step s

variable {step : σ → ε → σ} {s : σ} {e : ε} {es : List ε}

@[simp] theorem run_nil : run step s [] = s := rfl

@[simp] theorem run_cons : run step s (e :: es) = run step (step s e) es := rfl

@[simp] theorem run_append (es' : List ε) :
    run step s (es ++ es') = run step (run step s es) es' := List.foldl_append

/-- The property holds in every state the run visits, both ends included. -/
def Always (step : σ → ε → σ) (P : σ → Prop) (s : σ) (es : List ε) : Prop :=
  ∀ pre, pre <+: es → P (run step s pre)

/-- Every event of the run meets the condition in the state it finds. -/
def Each (step : σ → ε → σ) (C : σ → ε → Prop) (s : σ) (es : List ε) : Prop :=
  ∀ pre e, pre ++ [e] <+: es → C (run step s pre) e

variable {P : σ → Prop} {C : σ → ε → Prop}

theorem always_nil : Always step P s [] ↔ P s := by
  simp [Always]

theorem always_cons : Always step P s (e :: es) ↔ P s ∧ Always step P (step s e) es := by
  constructor
  · intro h
    exact ⟨h [] List.nil_prefix, fun pre hp => h (e :: pre) (List.cons_prefix_cons.mpr ⟨rfl, hp⟩)⟩
  · rintro ⟨hs, h⟩ pre hp
    cases pre with
    | nil => exact hs
    | cons d pre =>
      obtain ⟨rfl, hp'⟩ := List.cons_prefix_cons.mp hp
      exact h pre hp'

theorem each_nil : Each step C s [] := by
  intro pre e hp
  simp at hp

theorem each_cons : Each step C s (e :: es) ↔ C s e ∧ Each step C (step s e) es := by
  constructor
  · intro h
    refine ⟨h [] e (by simp), fun pre d hp => ?_⟩
    exact h (e :: pre) d (List.cons_prefix_cons.mpr ⟨rfl, hp⟩)
  · rintro ⟨hs, h⟩ pre d hp
    cases pre with
    | nil =>
      obtain ⟨rfl, -⟩ := List.cons_prefix_cons.mp hp
      exact hs
    | cons c pre =>
      obtain ⟨rfl, hp'⟩ := List.cons_prefix_cons.mp hp
      exact h pre d hp'

theorem Always.imp {Q : σ → Prop} (h : Always step P s es) (hq : ∀ s, P s → Q s) :
    Always step Q s es := fun pre hp => hq _ (h pre hp)

theorem Always.last (h : Always step P s es) : P (run step s es) := h es List.prefix_rfl

/-- An invariant of every step holds along every run. -/
theorem always_of_step (hs : P s) (h : ∀ s e, P s → P (step s e)) : Always step P s es := by
  induction es generalizing s with
  | nil => exact always_nil.mpr hs
  | cons e es ih => exact always_cons.mpr ⟨hs, ih (h s e hs)⟩

/-- An invariant kept by the steps that meet a condition holds along the runs that meet it. -/
theorem always_of_each (hs : P s) (h : ∀ s e, P s → C s e → P (step s e))
    (hc : Each step C s es) : Always step P s es := by
  induction es generalizing s with
  | nil => exact always_nil.mpr hs
  | cons e es ih =>
    obtain ⟨he, hc⟩ := each_cons.mp hc
    exact always_cons.mpr ⟨hs, ih (h s e hs he) hc⟩

/-- A relation of the state to the history that every step keeps holds at the end of a run. -/
theorem run_history {I : List ε → σ → Prop} {D : ε → Prop} (hs : I [] s)
    (h : ∀ es e, I es (run step s es) → D e → I (es ++ [e]) (step (run step s es) e))
    (hd : ∀ e ∈ es, D e) : I es (run step s es) := by
  induction es using List.reverseRecOn with
  | nil => exact hs
  | append_singleton es e ih =>
    rw [run_append]
    exact h es e (ih fun e he => hd e (List.mem_append_left _ he))
      (hd e (List.mem_append_right _ (List.mem_singleton_self e)))

/-- A property that holds in the end but not at first begins to hold with some event. -/
theorem exists_begins (hs : ¬ P s) (h : P (run step s es)) :
    ∃ pre e, pre ++ [e] <+: es ∧ ¬ P (run step s pre) ∧ P (step (run step s pre) e) := by
  induction es generalizing s with
  | nil => exact absurd h hs
  | cons e es ih =>
    by_cases he : P (step s e)
    · exact ⟨[], e, by simp, hs, he⟩
    · obtain ⟨pre, d, hp, hnot, hd⟩ := ih he h
      exact ⟨e :: pre, d, List.cons_prefix_cons.mpr ⟨rfl, hp⟩, hnot, hd⟩

/-- Events that change nothing in the states they find can be left out. -/
theorem run_filter_of_each {p : ε → Bool} (h : ∀ s e, C s e → p e = false → step s e = s)
    (hc : Each step C s es) : run step s (es.filter p) = run step s es := by
  induction es generalizing s with
  | nil => rfl
  | cons e es ih =>
    obtain ⟨he, hc⟩ := each_cons.mp hc
    cases hp : p e with
    | true => rw [List.filter_cons_of_pos hp, run_cons, run_cons, ih hc]
    | false =>
      have hsame := h s e he hp
      rw [hsame] at hc
      rw [List.filter_cons_of_neg (by simp [hp]), run_cons, hsame, ih hc]

/-- A condition on events that a state property implies holds where the property does. -/
theorem Always.each (ha : Always step P s es) (h : ∀ s e, P s → C s e) : Each step C s es :=
  fun pre e hp => h _ e (ha pre ((List.prefix_append pre [e]).trans hp))

/-- Where a condition decides whether a step keeps the property, the runs that
keep it throughout are the runs whose every step meets the condition. The
condition may be decided with the help of an invariant of the steps, and among
steps that meet another one. -/
theorem always_iff_each_of_each {I : σ → Prop} {D : σ → ε → Prop} (hI : I s) (hs : P s)
    (hstep : ∀ s e, I s → D s e → I (step s e))
    (h : ∀ s e, I s → D s e → P s → (P (step s e) ↔ C s e)) (hd : Each step D s es) :
    Always step P s es ↔ Each step C s es := by
  induction es generalizing s with
  | nil => exact iff_of_true (always_nil.mpr hs) each_nil
  | cons e es ih =>
    obtain ⟨hde, hd⟩ := each_cons.mp hd
    rw [always_cons, each_cons, ← h s e hI hde hs]
    constructor
    · rintro ⟨-, hr⟩
      have he : P (step s e) := hr [] List.nil_prefix
      exact ⟨he, (ih (hstep s e hI hde) he hd).mp hr⟩
    · rintro ⟨he, hr⟩
      exact ⟨hs, (ih (hstep s e hI hde) he hd).mpr hr⟩

theorem always_iff_each {I : σ → Prop} (hI : I s) (hs : P s)
    (hstep : ∀ s e, I s → I (step s e))
    (h : ∀ s e, I s → P s → (P (step s e) ↔ C s e)) :
    Always step P s es ↔ Each step C s es :=
  always_iff_each_of_each (D := fun _ _ => True) hI hs (fun s e hi _ => hstep s e hi)
    (fun s e hi _ hp => h s e hi hp) fun _ _ _ => trivial

end Total

section Partial

/-- The state after a list of events, if each is enabled when its turn comes. -/
def path (step : σ → ε → Option σ) (s : σ) (es : List ε) : Option σ := es.foldlM step s

variable {step : σ → ε → Option σ} {s t : σ} {e : ε} {es : List ε}

@[simp] theorem path_nil : path step s [] = some s := rfl

theorem path_cons : path step s (e :: es) = (step s e).bind (path step · es) := rfl

theorem path_cons_iff :
    path step s (e :: es) = some t ↔ ∃ r, step s e = some r ∧ path step r es = some t := by
  rw [path_cons, Option.bind_eq_some_iff]

theorem path_append_iff {es' : List ε} :
    path step s (es ++ es') = some t ↔ ∃ r, path step s es = some r ∧ path step r es' = some t := by
  rw [path, List.foldlM_append]
  exact Option.bind_eq_some_iff

theorem path_concat_iff :
    path step s (es ++ [e]) = some t ↔ ∃ r, path step s es = some r ∧ step r e = some t := by
  simp [path_append_iff, path_cons_iff]

/-- What every enabled step keeps likewise. -/
theorem path_history {I : List ε → σ → Prop} (hs : I [] s)
    (h : ∀ es r e t, path step s es = some r → I es r → step r e = some t → I (es ++ [e]) t)
    (hp : path step s es = some t) : I es t := by
  induction es using List.reverseRecOn generalizing t with
  | nil =>
    obtain rfl := Option.some.inj hp
    exact hs
  | append_singleton es e ih =>
    obtain ⟨r, hr, he⟩ := path_concat_iff.mp hp
    exact h es r e t hr (ih hr) he

/-- The history with the event since which none has met the condition. -/
def Since (p : ε → Prop) (pre : List ε) (e : ε) (es : List ε) : Prop :=
  ∃ rest, es = pre ++ e :: rest ∧ ∀ d ∈ rest, ¬ p d

theorem since_concat {p : ε → Prop} : Since p es e (es ++ [e]) := ⟨[], rfl, by simp⟩

theorem Since.concat {p : ε → Prop} {pre : List ε} {d : ε} (h : Since p pre e es) (hd : ¬ p d) :
    Since p pre e (es ++ [d]) := by
  obtain ⟨rest, rfl, hrest⟩ := h
  refine ⟨rest ++ [d], by simp, ?_⟩
  intro c hc
  rcases List.mem_append.mp hc with hc | hc
  · exact hrest c hc
  · rwa [List.mem_singleton.mp hc]

/-- The history with an event of a stage since which none of that stage or an
earlier one has happened. -/
def Stage (stage : ε → ℕ) (k : ℕ) (pre : List ε) (e : ε) (es : List ε) : Prop :=
  Since (fun d => stage d ≤ k) pre e es

theorem Stage.concat {stage : ε → ℕ} {k : ℕ} {pre : List ε} {d : ε} (h : Stage stage k pre e es)
    (hd : k < stage d) : Stage stage k pre e (es ++ [d]) :=
  Since.concat h (Nat.not_le.mpr hd)

/-- A partial run is a total one that stops for good at an event that is not enabled. -/
theorem path_eq_run : path step s es = run (fun o e => o.bind (step · e)) (some s) es := by
  induction es generalizing s with
  | nil => rfl
  | cons e es ih =>
    rw [path_cons, run_cons, Option.bind_some]
    cases step s e with
    | some r => exact ih
    | none =>
      clear ih
      induction es with
      | nil => rfl
      | cons e es ih => exact ih

section Last

variable {β : Type*}

/-- The value the last event that assigns one assigns. -/
def last (f : ε → Option β) (es : List ε) : Option β := es.reverse.findSome? f

variable {f : ε → Option β}

@[simp] theorem last_nil : last f [] = none := rfl

@[simp] theorem last_cons : last f (e :: es) = (last f es).or (f e) := by
  rw [last, List.reverse_cons, List.findSome?_append]
  simp [last]

theorem last_append {es' : List ε} : last f (es ++ es') = (last f es').or (last f es) := by
  rw [last, List.reverse_append, List.findSome?_append]
  rfl

theorem last_concat : last f (es ++ [e]) = (f e).or (last f es) := by
  rw [last, List.reverse_concat, List.findSome?_cons]
  cases f e <;> rfl

theorem last_eq_some {v : β} (h : last f es = some v) : ∃ e ∈ es, f e = some v := by
  obtain ⟨e, he, hv⟩ := List.exists_of_findSome?_eq_some h
  exact ⟨e, List.mem_reverse.mp he, hv⟩

theorem last_isSome {v : β} (he : e ∈ es) (hv : f e = some v) : (last f es).isSome :=
  List.findSome?_isSome_iff.mpr ⟨e, List.mem_reverse.mpr he, by rw [hv]; rfl⟩

/-- A register that every step overwrites with what the event assigns holds the
last assigned value. -/
theorem path_register (read : σ → Option β)
    (h : ∀ s e t, step s e = some t → read t = (f e).or (read s))
    (hp : path step s es = some t) : read t = (last f es).or (read s) := by
  induction es generalizing s with
  | nil =>
    obtain rfl := Option.some.inj hp
    rfl
  | cons e es ih =>
    obtain ⟨r, hr, hp⟩ := path_cons_iff.mp hp
    rw [ih hp, h s e r hr, last_cons, Option.or_assoc]

/-- A total step overwrites its register likewise, if it meets a condition. -/
theorem run_register_of_each {step : σ → ε → σ} {C : σ → ε → Prop} (read : σ → Option β)
    (h : ∀ s e, C s e → read (step s e) = (f e).or (read s)) (hc : Each step C s es) :
    read (run step s es) = (last f es).or (read s) := by
  induction es generalizing s with
  | nil => rfl
  | cons e es ih =>
    obtain ⟨he, hc⟩ := each_cons.mp hc
    rw [run_cons, ih hc, h s e he, last_cons, Option.or_assoc]

theorem run_register {step : σ → ε → σ} {read : σ → β}
    (h : ∀ s e, read (step s e) = (f e).getD (read s)) :
    read (run step s es) = (last f es).getD (read s) := by
  have hstep : ∀ s e, some (read (step s e)) = (f e).or (some (read s)) := by
    intro s e
    rw [h]
    cases f e <;> rfl
  have hrun : some (read (run step s es)) = (last f es).or (some (read s)) :=
    run_register_of_each (C := fun _ _ => True) (fun s => some (read s)) (fun s e _ => hstep s e)
      fun _ _ _ => trivial
  cases hlast : last f es <;> rw [hlast] at hrun <;> exact Option.some.inj hrun

end Last

end Partial

end Transition
