import Mathlib.Tactic.TypeStar

/-!
# Loops that need not end

A loop body goes on with a new state or ends with a result. The loop is followed for a number of
passes; it returns if some number of passes is enough.
-/

namespace Loop

variable {σ ρ : Type*} {body : σ → σ ⊕ ρ} {s s' : σ} {r : ρ}

def run (body : σ → σ ⊕ ρ) : Nat → σ → Option ρ
  | 0, _ => none
  | passes + 1, s =>
    match body s with
    | .inl s => run body passes s
    | .inr r => some r

def Returns (body : σ → σ ⊕ ρ) (s : σ) : Prop := ∃ passes r, run body passes s = some r

theorem returns_of_done (h : body s = .inr r) : Returns body s := ⟨1, r, by simp only [run, h]⟩

theorem returns_of_again (h : body s = .inl s') (hreturns : Returns body s') : Returns body s := by
  obtain ⟨passes, r, hrun⟩ := hreturns
  refine ⟨passes + 1, r, ?_⟩
  simp only [run, h]
  exact hrun

theorem not_returns_of_stuck (h : body s = .inl s) : ¬ Returns body s := by
  rintro ⟨passes, r, hrun⟩
  induction passes with
  | zero => cases hrun
  | succ passes ih =>
    simp only [run, h] at hrun
    exact ih hrun

end Loop
