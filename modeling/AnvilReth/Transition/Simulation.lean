import AnvilReth.Transition.Runs

/-! # One system inside another

A step of one system may stand for a run of another, which is seen through a
projection of the states. Then whole runs do, and what holds in every run of the
second system holds of what is seen of the first.
-/

namespace Transition

variable {σ ε τ δ : Type*}

/-- The events of the other system that a run stands for. -/
def trace (step : σ → ε → σ) (f : σ → ε → List δ) : σ → List ε → List δ
  | _, [] => []
  | s, e :: es => f s e ++ trace step f (step s e) es

/-- What is seen of a step is the run it stands for. -/
def Projects (step : σ → ε → σ) (other : τ → δ → τ) (see : σ → τ) (f : σ → ε → List δ) : Prop :=
  ∀ s e, see (step s e) = run other (see s) (f s e)

variable {step : σ → ε → σ} {other : τ → δ → τ} {see : σ → τ} {f : σ → ε → List δ}
  {s : σ} {es : List ε}

namespace Projects

theorem run_eq (h : Projects step other see f) :
    see (run step s es) = run other (see s) (trace step f s es) := by
  induction es generalizing s with
  | nil => rfl
  | cons e es ih => rw [run_cons, ih, h, trace, run_append]

/-- What holds in every run of the other system holds of what is seen. -/
theorem always (h : Projects step other see f) {P : τ → Prop}
    (hP : ∀ ds, Always other P (see s) ds) : Always step (fun s => P (see s)) s es := by
  intro pre _
  rw [h.run_eq]
  exact (hP _).last

end Projects

/-- A register that a step overwrites with what the events it stands for assign holds what
the last of them assigns. -/
theorem run_register_trace {C : σ → ε → Prop} {β : Type*} {g : δ → Option β} (read : σ → Option β)
    (h : ∀ s e, C s e → read (step s e) = (last g (f s e)).or (read s)) (hc : Each step C s es) :
    read (run step s es) = (last g (trace step f s es)).or (read s) := by
  induction es generalizing s with
  | nil => rfl
  | cons e es ih =>
    obtain ⟨he, hc⟩ := each_cons.mp hc
    rw [run_cons, ih hc, h s e he, trace, last_append, Option.or_assoc]

end Transition
