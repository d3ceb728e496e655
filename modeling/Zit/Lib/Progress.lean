import Zit.Lib.Run

/-!
# Runs that end

A measure that every step makes smaller bounds the length of a run (`Run.length_le`), and leads to a
state in which no step is left (`Run.exists_stuck`).
-/

set_option autoImplicit false

namespace Lib

variable {σ α : Type}

/-- No step is left. -/
def Stuck (step : σ → α → σ → Prop) (s : σ) : Prop := ∀ a s', ¬step s a s'

namespace Run

variable {step : σ → α → σ → Prop} {I : σ → Prop} {μ : σ → Nat}

theorem length_le (hstep : ∀ s a s', I s → step s a s' → I s' ∧ μ s' < μ s) {s s' : σ}
    {as : List α} (h : Run step s as s') (hs : I s) : as.length + μ s' ≤ μ s := by
  induction h with
  | nil => simp
  | cons h1 _ ih =>
    obtain ⟨hI, hlt⟩ := hstep _ _ _ hs h1
    have := ih hI
    rw [List.length_cons]
    omega

theorem exists_stuck (hstep : ∀ s a s', I s → step s a s' → I s' ∧ μ s' < μ s) {s : σ} (hs : I s) :
    ∃ as s', Run step s as s' ∧ Stuck step s' := by
  induction hn : μ s using Nat.strongRecOn generalizing s with
  | _ n ih =>
    by_cases hstuck : Stuck step s
    · exact ⟨[], s, .nil s, hstuck⟩
    · simp only [Stuck, not_forall, not_not] at hstuck
      obtain ⟨a, s1, h1⟩ := hstuck
      obtain ⟨hI, hlt⟩ := hstep _ _ _ hs h1
      obtain ⟨as, s', hrun, hs'⟩ := ih _ (hn ▸ hlt) hI rfl
      exact ⟨a :: as, s', .cons h1 hrun, hs'⟩

end Run

end Lib
