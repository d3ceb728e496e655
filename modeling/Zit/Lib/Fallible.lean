import Mathlib.Data.List.Forall2

/-!
# Fallible computations

What a successful run of a sequence of `Except` steps says about the steps, and where a failed one
failed.
-/

set_option autoImplicit false

namespace Lib

variable {ε α β : Type}

theorem bind_eq_ok {x : Except ε α} {f : α → Except ε β} {b : β} :
    (x >>= f) = .ok b ↔ ∃ a, x = .ok a ∧ f a = .ok b := by
  cases x with
  | error e => simp [bind, Except.bind]
  | ok a => simp [bind, Except.bind]

theorem map_eq_ok {x : Except ε α} {f : α → β} {b : β} :
    x.map f = .ok b ↔ ∃ a, x = .ok a ∧ f a = b := by
  cases x with
  | error e => simp [Except.map]
  | ok a => simp [Except.map]

theorem bind_eq_error {x : Except ε α} {f : α → Except ε β} {e : ε} :
    (x >>= f) = .error e ↔ x = .error e ∨ ∃ a, x = .ok a ∧ f a = .error e := by
  cases x with
  | error e' => simp [bind, Except.bind]
  | ok a => simp [bind, Except.bind]

theorem map_eq_error {x : Except ε α} {f : α → β} {e : ε} :
    x.map f = .error e ↔ x = .error e := by
  cases x with
  | error e' => simp [Except.map]
  | ok a => simp [Except.map]

theorem pure_eq_ok {a b : α} : (pure a : Except ε α) = .ok b ↔ a = b := by
  simp [pure, Except.pure]

/-- What `x` returns, `y` returns. -/
def Within (x y : Except ε α) : Prop := ∀ a, x = .ok a → y = .ok a

theorem Within.refl (x : Except ε α) : Within x x := fun _ h => h

theorem Within.bind {x y : Except ε α} {f g : α → Except ε β} (h : Within x y)
    (hf : ∀ a, Within (f a) (g a)) : Within (x >>= f) (y >>= g) := by
  intro b hb
  obtain ⟨a, ha, hfa⟩ := bind_eq_ok.1 hb
  exact bind_eq_ok.2 ⟨a, h a ha, hf a b hfa⟩

theorem Within.map {x y : Except ε α} (f : α → β) (h : Within x y) :
    Within (x.map f) (y.map f) := by
  intro b hb
  obtain ⟨a, ha, hfa⟩ := map_eq_ok.1 hb
  exact map_eq_ok.2 ⟨a, h a ha, hfa⟩

theorem Within.ite {p : Prop} [Decidable p] {x y x' y' : Except ε α} (hx : Within x x')
    (hy : Within y y') : Within (if p then x else y) (if p then x' else y') := by
  split
  · exact hx
  · exact hy

/-- Each element of a list that is mapped has its result. -/
theorem mapM_eq_ok {f : α → Except ε β} {xs : List α} {ys : List β} (h : xs.mapM f = .ok ys) :
    List.Forall₂ (fun x y => f x = .ok y) xs ys := by
  induction xs generalizing ys with
  | nil =>
    obtain rfl := pure_eq_ok.1 h
    exact .nil
  | cons x xs ih =>
    rw [List.mapM_cons] at h
    obtain ⟨y, hy, h⟩ := bind_eq_ok.1 h
    obtain ⟨ys', hys, h⟩ := bind_eq_ok.1 h
    obtain rfl := pure_eq_ok.1 h
    exact .cons hy (ih hys)

/-- When each element has a result with a property, the list has such results. -/
theorem mapM_exists {f : α → Except ε β} {R : α → β → Prop} {xs : List α}
    (h : ∀ x ∈ xs, ∃ y, f x = .ok y ∧ R x y) :
    ∃ ys, xs.mapM f = .ok ys ∧ List.Forall₂ R xs ys := by
  induction xs with
  | nil => exact ⟨[], rfl, .nil⟩
  | cons x xs ih =>
    obtain ⟨y, hy, hr⟩ := h x List.mem_cons_self
    obtain ⟨ys, hys, hrs⟩ := ih fun x hx => h x (List.mem_cons_of_mem _ hx)
    exact ⟨y :: ys, by rw [List.mapM_cons, hy, hys]; rfl, .cons hr hrs⟩

end Lib
