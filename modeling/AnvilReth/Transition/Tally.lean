import AnvilReth.Transition.Runs

/-! # Counting along runs

Every event of a run is weighed in the state it finds. A potential that pays for
each step bounds the weight of the whole run, and a measure that a process takes
down with each of its own steps bounds how many of them it needs.
-/

namespace Transition

variable {σ ε : Type*}

/-- The total weight of the events of a run. -/
def tally (step : σ → ε → σ) (w : σ → ε → ℕ) : σ → List ε → ℕ
  | _, [] => 0
  | s, e :: es => w s e + tally step w (step s e) es

variable {step : σ → ε → σ} {w v : σ → ε → ℕ} {s : σ} {es : List ε}

@[simp] theorem tally_nil : tally step w s [] = 0 := rfl

@[simp] theorem tally_cons {e : ε} :
    tally step w s (e :: es) = w s e + tally step w (step s e) es := rfl

@[simp] theorem tally_zero : tally step (fun _ _ => 0) s es = 0 := by
  induction es generalizing s with
  | nil => rfl
  | cons e es ih => rw [tally_cons, ih]

section Potential

variable {P : σ → Prop} {C : σ → ε → Prop} {φ : σ → ℕ}

/-- What every step pays for with the potential, and with an income, a whole run does. -/
theorem tally_le (hs : P s) (hP : ∀ s e, P s → C s e → P (step s e))
    (hφ : ∀ s e, P s → C s e → φ (step s e) + w s e ≤ φ s + v s e) (hc : Each step C s es) :
    φ (run step s es) + tally step w s es ≤ φ s + tally step v s es := by
  induction es generalizing s with
  | nil => exact le_rfl
  | cons e es ih =>
    obtain ⟨he, hc⟩ := each_cons.mp hc
    have hrun := ih (hP s e hs he) hc
    have hstep := hφ s e hs he
    rw [run_cons, tally_cons, tally_cons]
    omega

/-- A balance that holds of every step holds of a whole run. -/
theorem tally_eq (hs : P s) (hP : ∀ s e, P s → C s e → P (step s e))
    (hφ : ∀ s e, P s → C s e → φ (step s e) + w s e = φ s + v s e) (hc : Each step C s es) :
    φ (run step s es) + tally step w s es = φ s + tally step v s es := by
  induction es generalizing s with
  | nil => rfl
  | cons e es ih =>
    obtain ⟨he, hc⟩ := each_cons.mp hc
    have hrun := ih (hP s e hs he) hc
    have hstep := hφ s e hs he
    rw [run_cons, tally_cons, tally_cons]
    omega

/-- A quantity that every step raises by no more than an income. -/
theorem run_le_tally (hφ : ∀ s e, φ (step s e) ≤ φ s + v s e) :
    φ (run step s es) ≤ φ s + tally step v s es := by
  induction es generalizing s with
  | nil => exact le_rfl
  | cons e es ih =>
    have hrun := ih (s := step s e)
    have hstep := hφ s e
    rw [run_cons, tally_cons]
    omega

end Potential

/-- Events that are counted whatever state they find. -/
theorem tally_countP {own : ε → Bool} :
    tally step (fun _ e => if own e then 1 else 0) s es = es.countP own := by
  induction es generalizing s with
  | nil => rfl
  | cons e es ih =>
    rw [tally_cons, ih, List.countP_cons]
    omega

/-- A goal that stays reached, and a measure that pays for every step before it
is: whoever has taken more steps than the measure allows has reached the goal. -/
theorem done_of_tally {P : σ → Prop} {C : σ → ε → Prop} (done : σ → Prop) (μ : σ → ℕ) (hs : P s)
    (hP : ∀ s e, P s → C s e → P (step s e))
    (hdone : ∀ s e, P s → C s e → done s → done (step s e))
    (hμ : ∀ s e, P s → C s e → ¬ done s → μ (step s e) + w s e ≤ μ s ∨ done (step s e))
    (hc : Each step C s es) (h : μ s < tally step w s es) : done (run step s es) := by
  induction es generalizing s with
  | nil => exact absurd h (Nat.not_lt_zero _)
  | cons e es ih =>
    obtain ⟨he, hc⟩ := each_cons.mp hc
    have hstays : done (step s e) → done (run step (step s e) es) := fun hd =>
      (always_of_each (P := fun s => P s ∧ done s) ⟨hP s e hs he, hd⟩
        (fun s e hs he => ⟨hP s e hs.1 he, hdone s e hs.1 he hs.2⟩) hc).last.2
    by_cases hd : done s
    · exact hstays (hdone s e hs he hd)
    · rcases hμ s e hs he hd with hle | hd'
      · rw [tally_cons] at h
        exact ih (hP s e hs he) hc (by omega)
      · exact hstays hd'

end Transition
