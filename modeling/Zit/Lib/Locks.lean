import Mathlib.Logic.Function.Basic

/-!
# Locks

Which thread holds each mutex. A program point of a thread says which mutexes the thread holds
there, the last one taken first; `Holds` states that the locks agree with the program points, and
is kept by taking a mutex (`Holds.lock`), by giving the last one back (`Holds.unlock`) and by steps
that do neither (`Holds.congr`); `Holds.moves` is for a step of which one of these is known. Two threads are deadlocked when each waits for a mutex that the
other one holds.
-/

set_option autoImplicit false

namespace Lib

variable {Mutex Thread : Type}

abbrev Locks (Mutex Thread : Type) := Mutex → Option Thread

namespace Locks

/-- All mutexes are free. -/
def free : Locks Mutex Thread := fun _ => none

/-- Every thread holds the mutexes of its list, and no others. -/
def Holds (l : Locks Mutex Thread) (held : Thread → List Mutex) : Prop :=
  ∀ m th, l m = some th ↔ m ∈ held th

/-- Each of the two threads waits for a mutex of the other one. -/
def Deadlock (l : Locks Mutex Thread) (wants : Thread → Option Mutex) (a b : Thread) : Prop :=
  (∃ m, wants a = some m ∧ l m = some b) ∧ ∃ n, wants b = some n ∧ l n = some a

variable {l l' : Locks Mutex Thread} {held held' : Thread → List Mutex} {m : Mutex} {th : Thread}

theorem Holds.free (h : ∀ th, held th = []) : (free : Locks Mutex Thread).Holds held := by
  intro m th
  rw [h]
  exact ⟨nofun, nofun⟩

theorem Holds.congr (hl : l.Holds held) (h : ∀ th, held' th = held th) : l.Holds held' := by
  intro m th
  rw [h]
  exact hl m th

/-- A deadlock, read off the program points. -/
theorem Holds.deadlock_iff (hl : l.Holds held) {wants : Thread → Option Mutex} {a b : Thread} :
    l.Deadlock wants a b ↔
      (∃ m, wants a = some m ∧ m ∈ held b) ∧ ∃ n, wants b = some n ∧ n ∈ held a := by
  unfold Deadlock
  simp only [hl _ _]

/-! ## Taking and giving back -/

variable [DecidableEq Mutex]

/-- Takes a mutex that is free. -/
def lock (l : Locks Mutex Thread) (m : Mutex) (th : Thread) : Option (Locks Mutex Thread) :=
  match l m with
  | none => some (Function.update l m (some th))
  | some _ => none

def unlock (l : Locks Mutex Thread) (m : Mutex) : Locks Mutex Thread := Function.update l m none

theorem lock_some (h : l.lock m th = some l') :
    l m = none ∧ l' = Function.update l m (some th) := by
  unfold lock at h
  cases hm : l m with
  | none =>
    rw [hm] at h
    exact ⟨rfl, (Option.some.inj h).symm⟩
  | some _ =>
    rw [hm] at h
    cases h

theorem Holds.lock (hl : l.Holds held) (h : l.lock m th = some l')
    (hth : held' th = m :: held th) (hother : ∀ u, u ≠ th → held' u = held u) :
    l'.Holds held' := by
  obtain ⟨hfree, rfl⟩ := lock_some h
  have hnone (u : Thread) : m ∉ held u := fun hm => by
    rw [← hl m u, hfree] at hm
    cases hm
  intro k u
  rw [Function.update_apply]
  by_cases hu : u = th
  · subst hu
    rw [hth, List.mem_cons]
    by_cases hk : k = m
    · simp [hk]
    · rw [if_neg hk, hl k u]
      simp [hk]
  · rw [hother u hu]
    by_cases hk : k = m
    · subst hk
      rw [if_pos rfl, Option.some_inj]
      exact ⟨fun h => absurd h.symm hu, fun h => absurd h (hnone u)⟩
    · rw [if_neg hk]
      exact hl k u

theorem Holds.unlock (hl : l.Holds held) (hth : held th = m :: held' th) (hm : m ∉ held' th)
    (hother : ∀ u, u ≠ th → held' u = held u) : (l.unlock m).Holds held' := by
  have howner : l m = some th := (hl m th).2 (by rw [hth]; exact List.mem_cons_self)
  intro k u
  rw [Locks.unlock, Function.update_apply]
  by_cases hk : k = m
  · subst hk
    rw [if_pos rfl]
    refine ⟨nofun, fun hmem => ?_⟩
    by_cases hu : u = th
    · subst hu
      exact absurd hmem hm
    · rw [hother u hu, ← hl k u, howner, Option.some_inj] at hmem
      exact absurd hmem.symm hu
  · rw [if_neg hk, hl k u]
    by_cases hu : u = th
    · subst hu
      rw [hth, List.mem_cons]
      simp [hk]
    · rw [hother u hu]

/-- What a step of the thread `th` does to the locks: nothing, or it takes one mutex, or gives the
last one back; `before` and `after` are what it holds. -/
def Moves (l l' : Locks Mutex Thread) (th : Thread) (before after : List Mutex) : Prop :=
  (l' = l ∧ after = before) ∨ (∃ m, l.lock m th = some l' ∧ after = m :: before) ∨
    ∃ m, l' = l.unlock m ∧ before = m :: after ∧ m ∉ after

theorem Holds.moves (hl : l.Holds held) (th : Thread) (h : l.Moves l' th (held th) (held' th))
    (hother : ∀ u, u ≠ th → held' u = held u) : l'.Holds held' := by
  rcases h with ⟨rfl, hth⟩ | ⟨m, hlock, hth⟩ | ⟨m, rfl, hth, hm⟩
  · refine hl.congr fun u => ?_
    by_cases hu : u = th
    · rw [hu, hth]
    · exact hother u hu
  · exact hl.lock hlock hth hother
  · exact hl.unlock hth hm hother

end Locks

end Lib
