import Mathlib.Data.List.Induction
import Mathlib.Data.Option.Basic

/-!
# Runs of a labelled transition system

`Run step s as s'`: the actions `as` lead from `s` to `s'`, one `step` each. An invariant of one
step is an invariant of a run (`Run.inv`), and a preorder every step stays within relates the two
ends of a run (`Run.rel`), both also for runs whose steps are restricted.
-/

set_option autoImplicit false

namespace Lib

variable {σ α : Type}

inductive Run (step : σ → α → σ → Prop) : σ → List α → σ → Prop
  | nil (s : σ) : Run step s [] s
  | cons {s s' s'' : σ} {a : α} {as : List α} :
      step s a s' → Run step s' as s'' → Run step s (a :: as) s''

namespace Run

variable {step step' : σ → α → σ → Prop}

theorem append {s s' s'' : σ} {as bs : List α} (h : Run step s as s') (h' : Run step s' bs s'') :
    Run step s (as ++ bs) s'' := by
  induction h with
  | nil => exact h'
  | cons hs _ ih => exact .cons hs (ih h')

theorem single {s s' : σ} {a : α} (h : step s a s') : Run step s [a] s' := .cons h (.nil s')

theorem mono (himp : ∀ s a s', step s a s' → step' s a s') {s s' : σ} {as : List α}
    (h : Run step s as s') : Run step' s as s' := by
  induction h with
  | nil s => exact .nil s
  | cons hs _ ih => exact .cons (himp _ _ _ hs) ih

/-- Only the actions of the run count. -/
theorem mono_mem {s s' : σ} {as : List α} (h : Run step s as s')
    (himp : ∀ a ∈ as, ∀ s s', step s a s' → step' s a s') : Run step' s as s' := by
  induction h with
  | nil s => exact .nil s
  | cons hs _ ih =>
    exact .cons (himp _ List.mem_cons_self _ _ hs)
      (ih fun a ha => himp a (List.mem_cons_of_mem _ ha))

/-- What one step preserves, a run preserves. -/
theorem inv {I : σ → Prop} (hstep : ∀ s a s', I s → step s a s' → I s') {s s' : σ} {as : List α}
    (h : Run step s as s') (hs : I s) : I s' := by
  induction h with
  | nil => exact hs
  | cons h1 _ ih => exact ih (hstep _ _ _ hs h1)

/-- A reflexive and transitive relation kept by every step from a state in the invariant `I`
relates the ends of a run. -/
theorem rel {I : σ → Prop} {R : σ → σ → Prop} (hrefl : ∀ s, R s s)
    (htrans : ∀ s s' s'', R s s' → R s' s'' → R s s'')
    (hinv : ∀ s a s', I s → step s a s' → I s') (hstep : ∀ s a s', I s → step s a s' → R s s')
    {s s' : σ} {as : List α} (h : Run step s as s') (hs : I s) : R s s' := by
  induction h with
  | nil => exact hrefl _
  | cons h1 _ ih => exact htrans _ _ _ (hstep _ _ _ hs h1) (ih (hinv _ _ _ hs h1))

theorem of_append {s s' : σ} {as bs : List α} (h : Run step s (as ++ bs) s') :
    ∃ t, Run step s as t ∧ Run step t bs s' := by
  induction as generalizing s with
  | nil => exact ⟨s, .nil s, h⟩
  | cons a as ih =>
    rcases h with _ | ⟨hs, hr⟩
    obtain ⟨t, ht, hbs⟩ := ih hr
    exact ⟨t, .cons hs ht, hbs⟩

theorem of_concat {s s' : σ} {a : α} {as : List α} (h : Run step s (as ++ [a]) s') :
    ∃ t, Run step s as t ∧ step t a s' := by
  obtain ⟨t, ht, hlast⟩ := h.of_append
  rcases hlast with _ | ⟨hs, hr⟩
  cases hr
  exact ⟨t, ht, hs⟩

/-- With steps that lead to one state, a run does. -/
theorem unique (hdet : ∀ s a s1 s2, step s a s1 → step s a s2 → s1 = s2) {s t t' : σ}
    {as : List α} (h : Run step s as t) (h' : Run step s as t') : t = t' := by
  induction h with
  | nil =>
    cases h'
    rfl
  | cons h1 _ ih =>
    rcases h' with _ | ⟨h2, h'⟩
    exact ih (hdet _ _ _ _ h1 h2 ▸ h')

/-- A step keeps `I` exactly when `C` holds of it (with the invariant `K` as long as `I` is kept):
`I` holds all along exactly when `C` does. -/
theorem inv_iff {K I : σ → Prop} {C : σ → α → Prop}
    (hstep : ∀ s a s', K s → I s → step s a s' → K s' ∧ (I s' ↔ C s a)) {s : σ} {as : List α}
    (hK : K s) (hI : I s) :
    (∀ pre t, pre <+: as → Run step s pre t → I t) ↔
      ∀ pre a t t', pre ++ [a] <+: as → Run step s pre t → step t a t' → C t a := by
  have hall : (∀ pre a t t', pre ++ [a] <+: as → Run step s pre t → K t → I t → step t a t' →
      I t') → ∀ pre t, pre <+: as → Run step s pre t → K t ∧ I t := by
    intro hkeep pre
    induction pre using List.reverseRecOn with
    | nil =>
      rintro t - ⟨⟩
      exact ⟨hK, hI⟩
    | append_singleton pre a ih =>
      intro t hpre hr
      obtain ⟨u, hu, hua⟩ := of_concat hr
      obtain ⟨hKu, hIu⟩ := ih u ((List.prefix_append pre [a]).trans hpre) hu
      exact ⟨(hstep _ _ _ hKu hIu hua).1, hkeep pre a u t hpre hu hKu hIu hua⟩
  constructor
  · intro h pre a t t' hpre hr hta
    have hkeep := hall fun pre a t t' hpre hr _ _ hta => h _ _ hpre (hr.append (.single hta))
    obtain ⟨hKt, hIt⟩ := hkeep pre t ((List.prefix_append pre [a]).trans hpre) hr
    exact (hstep _ _ _ hKt hIt hta).2.1 (h _ _ hpre (hr.append (.single hta)))
  · intro h pre t hpre hr
    refine (hall (fun pre a t t' hpre hr hKt hIt hta => ?_) pre t hpre hr).2
    exact (hstep _ _ _ hKt hIt hta).2.2 (h pre a t t' hpre hr hta)

/-- The run of a function that gives the next state. -/
theorem of_foldlM {f : σ → α → Option σ} {s s' : σ} {as : List α} (h : as.foldlM f s = some s') :
    Run (fun s a s' => f s a = some s') s as s' := by
  induction as generalizing s with
  | nil =>
    obtain rfl := Option.some.inj h
    exact .nil s
  | cons a as ih =>
    rw [List.foldlM_cons, Option.bind_eq_bind, Option.bind_eq_some_iff] at h
    obtain ⟨s1, h1, h⟩ := h
    exact .cons h1 (ih h)

end Run

end Lib
