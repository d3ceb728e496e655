import Mathlib.Logic.Relation

/-!
# Computations with state and exceptions

`wp m s Q E`: run from `s`, the computation `m` returns a result and a state in `Q`, or throws and
leaves a state in `E`. One rule for each way to build a computation (`wp_bind`, `wp_tryCatch`, …),
`zoom` for a computation on a part of the state, and `Moves R m s`: whatever `m` does from `s` is a
chain of `R`-changes of the state.
-/

set_option autoImplicit false

namespace Lib

variable {ε σ τ α β : Type}

/-- A computation that does not touch the state. -/
def lift (x : Except ε α) : EStateM ε σ α := fun s =>
  match x with
  | .ok a => .ok a s
  | .error e => .error e s

/-- A computation on the part of the state that `get` reads and `put` replaces. -/
def zoom (get : σ → τ) (put : τ → σ → σ) (m : EStateM ε τ α) : EStateM ε σ α := fun s =>
  match m (get s) with
  | .ok a t => .ok a (put t s)
  | .error e t => .error e (put t s)

/-- The state a computation leaves, returned or thrown. -/
def final (m : EStateM ε σ α) (s : σ) : σ :=
  match m s with
  | .ok _ s' => s'
  | .error _ s' => s'

def wp (m : EStateM ε σ α) (s : σ) (Q : α → σ → Prop) (E : ε → σ → Prop) : Prop :=
  match m s with
  | .ok a s' => Q a s'
  | .error e s' => E e s'

section
variable {Q : α → σ → Prop} {R : β → σ → Prop} {E E' : ε → σ → Prop} {s : σ}

instance {m : EStateM ε σ α} [∀ a s', Decidable (Q a s')] [∀ e s', Decidable (E e s')] :
    Decidable (wp m s Q E) :=
  match hm : m s with
  | .ok a s' => decidable_of_iff (Q a s') (by rw [wp, hm])
  | .error e s' => decidable_of_iff (E e s') (by rw [wp, hm])

theorem wp_ok {m : EStateM ε σ α} {a : α} {s' : σ} (h : wp m s Q E) (hm : m s = .ok a s') :
    Q a s' := by
  rw [wp, hm] at h
  exact h

theorem wp_error {m : EStateM ε σ α} {e : ε} {s' : σ} (h : wp m s Q E)
    (hm : m s = .error e s') : E e s' := by
  rw [wp, hm] at h
  exact h

theorem wp_of {m : EStateM ε σ α} (hok : ∀ a s', m s = .ok a s' → Q a s')
    (herr : ∀ e s', m s = .error e s' → E e s') : wp m s Q E := by
  unfold wp
  cases h : m s with
  | ok a s' => exact hok a s' h
  | error e s' => exact herr e s' h

/-- A computation whose result is known. -/
theorem wp_intro {m : EStateM ε σ α} {a : α} {s' : σ} (hm : m s = .ok a s') (h : Q a s') :
    wp m s Q E := by
  rw [wp, hm]
  exact h

/-- A computation that never throws returns. -/
theorem ok_of_wp {m : EStateM ε σ α} (h : wp m s Q fun _ _ => False) :
    ∃ a s', m s = .ok a s' ∧ Q a s' := by
  unfold wp at h
  cases hm : m s with
  | ok a s' =>
    rw [hm] at h
    exact ⟨a, s', rfl, h⟩
  | error e s' =>
    rw [hm] at h
    exact h.elim

/-- A computation that never returns throws. -/
theorem error_of_wp {m : EStateM ε σ α} (h : wp m s (fun _ _ => False) E) :
    ∃ e s', m s = .error e s' ∧ E e s' := by
  unfold wp at h
  cases hm : m s with
  | ok a s' =>
    rw [hm] at h
    exact h.elim
  | error e s' =>
    rw [hm] at h
    exact ⟨e, s', rfl, h⟩

theorem wp_mono {m : EStateM ε σ α} {Q' : α → σ → Prop} (h : wp m s Q E)
    (hQ : ∀ a s', Q a s' → Q' a s') (hE : ∀ e s', E e s' → E' e s') : wp m s Q' E' :=
  wp_of (fun a s' hm => hQ a s' (wp_ok h hm)) fun e s' hm => hE e s' (wp_error h hm)

/-- What holds of both ends holds of the state left. -/
theorem final_of_wp {m : EStateM ε σ α} {I : σ → Prop}
    (h : wp m s (fun _ s' => I s') fun _ s' => I s') : I (final m s) := by
  unfold wp at h
  unfold final
  cases hm : m s with
  | ok a s' => simpa only [hm] using h
  | error e s' => simpa only [hm] using h

theorem wp_and {m : EStateM ε σ α} {Q' : α → σ → Prop} (h : wp m s Q E) (h' : wp m s Q' E') :
    wp m s (fun a s' => Q a s' ∧ Q' a s') fun e s' => E e s' ∧ E' e s' :=
  wp_of (fun _ _ hm => ⟨wp_ok h hm, wp_ok h' hm⟩) fun _ _ hm => ⟨wp_error h hm, wp_error h' hm⟩

theorem get_run (s : σ) : (get : EStateM ε σ σ) s = .ok s s := rfl

theorem set_run (s s' : σ) : (set s' : EStateM ε σ PUnit) s = .ok ⟨⟩ s' := rfl

theorem modify_run (f : σ → σ) (s : σ) : (modify f : EStateM ε σ PUnit) s = .ok ⟨⟩ (f s) := rfl

theorem run_bind {m : EStateM ε σ α} {f : α → EStateM ε σ β} {a : α} {s s' : σ}
    (h : m s = .ok a s') : (m >>= f) s = f a s' := by
  simp only [bind, EStateM.bind, h]

theorem run_lift_bind {x : Except ε α} {f : α → EStateM ε σ β} {a : α} {s : σ} (h : x = .ok a) :
    (lift x >>= f) s = f a s := by
  subst h
  rfl

theorem run_tryCatch {m : EStateM ε σ α} {f : ε → EStateM ε σ α} {a : α} {s s' : σ}
    (h : m s = .ok a s') : tryCatch m f s = .ok a s' := by
  simp only [tryCatch, tryCatchThe, MonadExceptOf.tryCatch]
  delta EStateM.tryCatch
  rw [h]

theorem run_tryCatch_error {m : EStateM ε σ α} {f : ε → EStateM ε σ α} {e : ε} {s s' : σ}
    (h : m s = .error e s') : tryCatch m f s = f e s' := by
  simp only [tryCatch, tryCatchThe, MonadExceptOf.tryCatch]
  delta EStateM.tryCatch
  rw [h]
  rfl

@[simp] theorem wp_pure (a : α) : wp (pure a) s Q E ↔ Q a s := Iff.rfl

@[simp] theorem wp_throw (e : ε) : wp (throw e : EStateM ε σ α) s Q E ↔ E e s := Iff.rfl

@[simp] theorem wp_get {Q : σ → σ → Prop} : wp (get : EStateM ε σ σ) s Q E ↔ Q s s := Iff.rfl

@[simp] theorem wp_set {Q : PUnit → σ → Prop} (s' : σ) :
    wp (set s' : EStateM ε σ PUnit) s Q E ↔ Q ⟨⟩ s' := Iff.rfl

@[simp] theorem wp_modify {Q : PUnit → σ → Prop} (f : σ → σ) :
    wp (modify f : EStateM ε σ PUnit) s Q E ↔ Q ⟨⟩ (f s) := Iff.rfl

@[simp] theorem wp_bind (m : EStateM ε σ α) (f : α → EStateM ε σ β) :
    wp (m >>= f) s R E ↔ wp m s (fun a s' => wp (f a) s' R E) E := by
  simp only [wp, bind, EStateM.bind]
  cases m s <;> rfl

@[simp] theorem wp_map (f : α → β) (m : EStateM ε σ α) :
    wp (f <$> m) s R E ↔ wp m s (fun a s' => R (f a) s') E := by
  simp only [wp, Functor.map, EStateM.map]
  cases m s <;> rfl

@[simp] theorem wp_lift (x : Except ε α) :
    wp (lift x) s Q E ↔ (∀ a, x = .ok a → Q a s) ∧ ∀ e, x = .error e → E e s := by
  cases x <;> simp [wp, lift]

/-- A computation that is known to succeed. -/
theorem wp_lift_ok {x : Except ε α} {a : α} (h : x = .ok a) : wp (lift x) s Q E ↔ Q a s := by
  rw [h]
  rfl

@[simp] theorem wp_tryCatch (m : EStateM ε σ α) (h : ε → EStateM ε σ α) :
    wp (tryCatch m h) s Q E ↔ wp m s Q fun e s' => wp (h e) s' Q E := by
  simp only [wp, tryCatch, tryCatchThe, MonadExceptOf.tryCatch]
  delta EStateM.tryCatch
  cases m s <;> rfl

@[simp] theorem wp_zoom {get : σ → τ} {put : τ → σ → σ} (m : EStateM ε τ α) :
    wp (zoom get put m) s Q E ↔
      wp m (get s) (fun a t => Q a (put t s)) fun e t => E e (put t s) := by
  simp only [wp, zoom]
  cases m (get s) <;> rfl

theorem wp_ite {c : Prop} [Decidable c] {m m' : EStateM ε σ α} (ht : c → wp m s Q E)
    (hf : ¬c → wp m' s Q E) : wp (if c then m else m') s Q E := by
  by_cases h : c
  · rw [if_pos h]
    exact ht h
  · rw [if_neg h]
    exact hf h

/-- A loop over a list keeps what each turn keeps. -/
theorem wp_forM {I : σ → Prop} {f : α → EStateM ε σ PUnit} (xs : List α)
    (hs : I s) (hf : ∀ x ∈ xs, ∀ s, I s → wp (f x) s (fun _ => I) E) :
    wp (forM xs f) s (fun _ => I) E := by
  induction xs generalizing s with
  | nil => exact hs
  | cons x xs ih =>
    have hx := hf x List.mem_cons_self s hs
    simp only [List.forM_cons, wp_bind]
    exact wp_mono hx (fun _ s' h' => ih h' fun y hy => hf y (List.mem_cons_of_mem _ hy))
      fun _ _ h => h

/-- A loop of plain changes folds them. -/
theorem run_forM_modify (f : α → σ → σ) (xs : List α) (s : σ) :
    (forM xs fun x => modify (f x) : EStateM ε σ PUnit) s =
      .ok ⟨⟩ (xs.foldl (fun s x => f x s) s) := by
  induction xs generalizing s with
  | nil => rfl
  | cons x xs ih =>
    rw [List.forM_cons, run_bind (modify_run (f x) s)]
    exact ih (f x s)

end

/-! ## Chains of changes -/

/-- What every change keeps, a chain of changes keeps. -/
theorem chain_inv {R : σ → σ → Prop} {I : σ → Prop} (hR : ∀ s s', I s → R s s' → I s')
    {s s' : σ} (h : Relation.ReflTransGen R s s') (hs : I s) : I s' := by
  induction h with
  | refl => exact hs
  | tail _ h1 ih => exact hR _ _ ih h1

/-- Whatever `m` does from `s` is a chain of `R`-changes. -/
def Moves (R : σ → σ → Prop) (m : EStateM ε σ α) (s : σ) : Prop :=
  wp m s (fun _ s' => Relation.ReflTransGen R s s') fun _ s' => Relation.ReflTransGen R s s'

namespace Moves

variable {R R' : σ → σ → Prop} {m : EStateM ε σ α} {f : α → EStateM ε σ β} {s : σ}

theorem ok {a : α} {s' : σ} (h : Moves R m s) (hm : m s = .ok a s') :
    Relation.ReflTransGen R s s' := wp_ok (Q := fun _ => Relation.ReflTransGen R s) h hm

theorem error {e : ε} {s' : σ} (h : Moves R m s) (hm : m s = .error e s') :
    Relation.ReflTransGen R s s' := wp_error (E := fun _ => Relation.ReflTransGen R s) h hm

theorem mono (h : Moves R m s) (hR : ∀ s s', R s s' → R' s s') : Moves R' m s :=
  wp_mono h (fun _ _ h => Relation.ReflTransGen.mono hR _ _ h)
    fun _ _ h => Relation.ReflTransGen.mono hR _ _ h

theorem pure (a : α) : Moves R (pure a : EStateM ε σ α) s := .refl

theorem throw (e : ε) : Moves R (throw e : EStateM ε σ α) s := .refl

theorem get : Moves R (get : EStateM ε σ σ) s := .refl

theorem lift (x : Except ε α) : Moves R (lift x) s := by
  cases x <;> exact .refl

theorem modify {g : σ → σ} (h : R s (g s)) : Moves R (modify g : EStateM ε σ PUnit) s := .single h

theorem set {s' : σ} (h : R s s') : Moves R (set s' : EStateM ε σ PUnit) s := .single h

theorem bind (h : Moves R m s) (hf : ∀ a s', m s = .ok a s' → Moves R (f a) s') :
    Moves R (m >>= f) s := by
  unfold Moves
  rw [wp_bind]
  refine wp_of (fun a s' hm => ?_) fun e s' hm => h.error hm
  exact wp_mono (hf a s' hm) (fun _ _ h' => (h.ok hm).trans h') fun _ _ h' => (h.ok hm).trans h'

theorem map {g : α → β} (h : Moves R m s) : Moves R (g <$> m) s := by
  unfold Moves
  rw [wp_map]
  exact h

theorem bind_get {f : σ → EStateM ε σ β} (h : Moves R (f s) s) :
    Moves R (MonadState.get >>= f) s := h

theorem bind_lift {x : Except ε α} (h : ∀ a, x = .ok a → Moves R (f a) s) :
    Moves R (Lib.lift x >>= f) s := by
  refine bind (lift x) fun a s' hm => ?_
  cases x with
  | ok b =>
    obtain ⟨rfl, rfl⟩ : b = a ∧ s = s' := by simpa [Lib.lift] using hm
    exact h b rfl
  | error e => cases hm

theorem bind_modify {g : σ → σ} {f : PUnit → EStateM ε σ β} (h : R s (g s))
    (hf : Moves R (f ⟨⟩) (g s)) : Moves R (MonadState.modifyGet (fun s => (⟨⟩, g s)) >>= f) s :=
  wp_mono hf (fun _ _ h' => .head h h') fun _ _ h' => .head h h'

theorem ite {c : Prop} [Decidable c] {m' : EStateM ε σ α} (ht : c → Moves R m s)
    (hf : ¬c → Moves R m' s) : Moves R (if c then m else m') s := wp_ite ht hf

theorem tryCatch {h : ε → EStateM ε σ α} (hm : Moves R m s)
    (hh : ∀ e s', m s = .error e s' → Moves R (h e) s') : Moves R (tryCatch m h) s := by
  unfold Moves
  rw [wp_tryCatch]
  refine wp_of (fun a s' hm' => hm.ok hm') fun e s' hm' => ?_
  exact wp_mono (hh e s' hm') (fun _ _ h' => (hm.error hm').trans h')
    fun _ _ h' => (hm.error hm').trans h'

end Moves

end Lib
