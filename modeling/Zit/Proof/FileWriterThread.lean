import Zit.FileWriterThread
import Zit.Lib.Progress
import Mathlib.Algebra.BigOperators.Fin

/-!
# The queue of the file writer: nothing is lost

`Safe` holds in every state the threads come to: what has been added is what has been handled, then
the piece in the writer's hands, then the queue. A writer that sleeps over a piece is about to be
notified.
-/

set_option autoImplicit false

namespace Zit

open Lib

namespace FileWriterThread

variable {α : Type} {n : Nat} {s s' : FileWriterThread α n}

/-! ## Notifications -/

@[simp] theorem RunAt.notifyOne_inFlight (r : RunAt α) : r.notifyOne.inFlight = r.inFlight := by
  cases r <;> rfl

@[simp] theorem RunAt.notifyOne_held (r : RunAt α) : r.notifyOne.held = r.held := by
  cases r <;> rfl

theorem RunAt.notifyOne_ne_asleep (r : RunAt α) : r.notifyOne ≠ .asleep := by
  cases r <;> nofun

/-- A notification brings the writer to no point but `woken`. -/
theorem RunAt.of_notifyOne {r r' : RunAt α} (h : r.notifyOne = r') (hr : r' ≠ .woken) : r = r' := by
  cases r with
  | asleep => exact absurd h.symm hr
  | _ => exact h

/-! ## The invariant -/

structure Safe (s : FileWriterThread α n) : Prop where
  holds : s.locks.Holds s.held
  fifo : s.added.map Prod.snd = s.handled ++ s.run.inFlight ++ s.queue
  calls : ∀ i, s.calls i = ((s.added.filter (·.1 = i)).map Prod.snd) ++ (s.add i).pending
  /-- The queue does not change behind the predicate. -/
  passed : s.run = .passed → s.stop = true ∨ s.queue ≠ []
  taking : s.run = .taking → s.queue ≠ []
  waiting : s.run = .waiting → s.queue = []
  asleep : s.run = .asleep → s.queue = [] ∨ ∃ i, s.add i = .emplaced
  ended : s.run = .returning ∨ s.run = .done → s.stop = true
  stopped : s.stop = true → s.stopper ≠ .idle

theorem Safe.start : Safe ({} : FileWriterThread α n) where
  holds := .free fun th => by cases th <;> rfl
  fifo := rfl
  calls _ := rfl
  passed := nofun
  taking := nofun
  waiting := nofun
  asleep := nofun
  ended := nofun
  stopped := nofun

/-- Two threads do not have the lock at once. -/
theorem Safe.alone (h : Safe s) {a b : Thread n} (ha : () ∈ s.held a) (hb : () ∈ s.held b) :
    a = b := by
  have h1 := (h.holds () a).2 ha
  rw [(h.holds () b).2 hb] at h1
  exact (Option.some.inj h1).symm

/-- While the writer has the lock, no call of `add` is behind it. -/
theorem Safe.add_outside (h : Safe s) (hrun : s.run.held = [()]) (i : Fin n) :
    (s.add i).held = [] := by
  cases hadd : (s.add i).held with
  | nil => rfl
  | cons _ _ =>
    have hi : () ∈ s.held (.add i) := by
      rw [held, hadd]
      exact List.mem_cons_self
    have hr : () ∈ s.held .run := by
      rw [held, hrun]
      exact List.mem_cons_self
    exact absurd (h.alone hi hr) nofun

/-! ## Steps -/

theorem held_add_congr {i : Fin n} {a : AddAt α} (hadd : s'.add = Function.update s.add i a)
    (hrun : s'.run.held = s.run.held) (th : Thread n) (hth : th ≠ .add i) :
    s'.held th = s.held th := by
  cases th with
  | run => exact hrun
  | add j =>
    have hj : j ≠ i := fun h => hth (h ▸ rfl)
    rw [held, held, hadd, Function.update_of_ne hj]

theorem held_run_congr (hadd : s'.add = s.add) (th : Thread n) (hth : th ≠ .run) :
    s'.held th = s.held th := by
  cases th with
  | run => exact absurd rfl hth
  | add j => rw [held, held, hadd]

theorem exists_emplaced {f : Fin n → AddAt α} {i : Fin n} {a : AddAt α}
    (h : ∃ j, f j = .emplaced) (hi : f i ≠ .emplaced) :
    ∃ j, Function.update f i a j = .emplaced := by
  obtain ⟨j, hj⟩ := h
  have hne : j ≠ i := fun h => hi (h ▸ hj)
  exact ⟨j, (Function.update_of_ne hne _ _).trans hj⟩

theorem Safe.call (h : Safe s) {i : Fin n} {x : α} (hs : s.callAdd i x = some s') : Safe s' := by
  unfold callAdd at hs
  cases hadd : s.add i with
  | idle =>
    rw [hadd] at hs
    obtain rfl := Option.some.inj hs
    refine ⟨?_, h.fifo, fun j => ?_, h.passed, h.taking, h.waiting, fun hr => ?_,
      h.ended, h.stopped⟩
    · refine h.holds.moves (.add i) (.inl ⟨rfl, ?_⟩) (held_add_congr rfl rfl)
      simp [held, hadd, AddAt.held]
    · by_cases hj : j = i
      · subst hj
        simp [h.calls j, hadd, AddAt.pending]
      · simp only [Function.update_of_ne hj]
        exact h.calls j
    · exact (h.asleep hr).imp id fun he => exists_emplaced he (by rw [hadd]; nofun)
  | _ =>
    rw [hadd] at hs
    cases hs

theorem Safe.calls_update (h : Safe s) {i : Fin n} {a : AddAt α}
    (ha : (s.add i).pending = a.pending) (j : Fin n) :
    s.calls j = ((s.added.filter (·.1 = j)).map Prod.snd) ++
      (Function.update s.add i a j).pending := by
  by_cases hj : j = i
  · subst hj
    rw [Function.update_self, ← ha]
    exact h.calls j
  · rw [Function.update_of_ne hj]
    exact h.calls j

/-- `add` has been called, and its notification is still to come. -/
def AddAt.Coming : AddAt α → Prop
  | .called _ | .entered _ | .emplaced => True
  | .idle | .notified => False

/-- A step of `add` in thread `i`, as far as the lock and the notification go. -/
theorem addStep_cases {i : Fin n} (hs : s.addStep i = some s') :
    ∃ a, s'.add = Function.update s.add i a ∧
      (s'.run = s.run ∧ ((s.add i).Coming → a.Coming) ∨
        s.add i = .emplaced ∧ s'.run = s.run.notifyOne) ∧
      s.locks.Moves s'.locks (.add i) (s.add i).held a.held ∧
      s'.calls = s.calls ∧ s'.stop = s.stop ∧ s'.stopper = s.stopper := by
  unfold addStep at hs
  cases hadd : s.add i with
  | idle =>
    rw [hadd] at hs
    cases hs
  | called x =>
    rw [hadd] at hs
    simp only [Option.bind_eq_bind, Option.bind_eq_some_iff, Option.pure_def, Option.some_inj] at hs
    obtain ⟨locks, hlock, rfl⟩ := hs
    exact ⟨_, rfl, .inl ⟨rfl, fun _ => trivial⟩, .inr (.inl ⟨_, hlock, rfl⟩), rfl, rfl, rfl⟩
  | entered x =>
    rw [hadd] at hs
    obtain rfl := Option.some.inj hs
    exact ⟨_, rfl, .inl ⟨rfl, fun _ => trivial⟩, .inl ⟨rfl, rfl⟩, rfl, rfl, rfl⟩
  | emplaced =>
    rw [hadd] at hs
    obtain rfl := Option.some.inj hs
    exact ⟨_, rfl, .inr ⟨rfl, rfl⟩, .inl ⟨rfl, rfl⟩, rfl, rfl, rfl⟩
  | notified =>
    rw [hadd] at hs
    obtain rfl := Option.some.inj hs
    exact ⟨_, rfl, .inl ⟨rfl, id⟩, .inr (.inr ⟨_, rfl, rfl, by simp [AddAt.held]⟩), rfl, rfl, rfl⟩

theorem holds_addStep (h : Safe s) {i : Fin n} (hs : s.addStep i = some s') :
    s'.locks.Holds s'.held := by
  obtain ⟨a, hadd, hrun, hmoves, -⟩ := addStep_cases hs
  have ha : s'.held (.add i) = a.held := by rw [held, hadd, Function.update_self]
  have hrun : s'.run.held = s.run.held := by
    rcases hrun with ⟨hrun, -⟩ | ⟨-, hrun⟩
    · rw [hrun]
    · rw [hrun, RunAt.notifyOne_held]
  exact h.holds.moves (.add i) (ha ▸ hmoves) (held_add_congr hadd hrun)

theorem Safe.add (h : Safe s) {i : Fin n} (hs : s.addStep i = some s') : Safe s' := by
  have hholds := holds_addStep h hs
  unfold addStep at hs
  cases hadd : s.add i with
  | idle =>
    rw [hadd] at hs
    cases hs
  | called x =>
    rw [hadd] at hs
    simp only [Option.bind_eq_bind, Option.bind_eq_some_iff, Option.pure_def, Option.some_inj] at hs
    obtain ⟨locks, hlock, rfl⟩ := hs
    refine ⟨hholds, h.fifo, fun j => ?_, h.passed, h.taking, h.waiting, fun hr => ?_,
      h.ended, h.stopped⟩
    · exact h.calls_update (by rw [hadd]; rfl) j
    · exact (h.asleep hr).imp id fun he => exists_emplaced he (by rw [hadd]; nofun)
  | entered x =>
    rw [hadd] at hs
    obtain rfl := Option.some.inj hs
    refine ⟨hholds, ?_, fun j => ?_, fun _ => .inr (by simp), fun _ => by simp, fun hr => ?_,
      fun _ => .inr ⟨i, Function.update_self ..⟩, h.ended, h.stopped⟩
    · simp only [List.map_append, h.fifo, List.map_cons, List.map_nil, List.append_assoc]
    · by_cases hj : j = i
      · subst hj
        simp [h.calls j, hadd, AddAt.pending]
      · have hij : i ≠ j := Ne.symm hj
        simp [h.calls j, Function.update_of_ne hj, hij]
    · -- the writer would have the lock too
      have hrun : s.run = .waiting := hr
      have := h.add_outside (by rw [hrun]; rfl) i
      rw [hadd] at this
      cases this
  | emplaced =>
    rw [hadd] at hs
    obtain rfl := Option.some.inj hs
    refine ⟨hholds, ?_, fun j => ?_, fun hr => h.passed (RunAt.of_notifyOne hr nofun),
      fun hr => h.taking (RunAt.of_notifyOne hr nofun),
      fun hr => h.waiting (RunAt.of_notifyOne hr nofun),
      fun hr => absurd hr (RunAt.notifyOne_ne_asleep _),
      fun hr => h.ended (hr.imp (RunAt.of_notifyOne · nofun) (RunAt.of_notifyOne · nofun)),
      h.stopped⟩
    · simp only [RunAt.notifyOne_inFlight]
      exact h.fifo
    · exact h.calls_update (by rw [hadd]; rfl) j
  | notified =>
    rw [hadd] at hs
    obtain rfl := Option.some.inj hs
    refine ⟨hholds, h.fifo, fun j => ?_, h.passed, h.taking, h.waiting, fun hr => ?_,
      h.ended, h.stopped⟩
    · exact h.calls_update (by rw [hadd]; rfl) j
    · exact (h.asleep hr).imp id fun he => exists_emplaced he (by rw [hadd]; nofun)

/-- A step of the writer thread, as far as the lock goes. -/
theorem runStep_cases (hs : s.runStep = some s') :
    s'.add = s.add ∧ s.locks.Moves s'.locks .run s.run.held s'.run.held ∧
      s'.added = s.added ∧ s'.calls = s.calls ∧ s'.stopper = s.stopper := by
  unfold runStep at hs
  cases hrun : s.run with
  | starting | writing x =>
    rw [hrun] at hs
    obtain rfl := Option.some.inj hs
    exact ⟨rfl, .inl ⟨rfl, rfl⟩, rfl, rfl, rfl⟩
  | testing | checking | passed =>
    rw [hrun] at hs
    obtain rfl := Option.some.inj hs
    exact ⟨rfl, .inl ⟨rfl, by dsimp only; split <;> rfl⟩, rfl, rfl, rfl⟩
  | called | woken =>
    rw [hrun] at hs
    simp only [Option.bind_eq_bind, Option.bind_eq_some_iff, Option.pure_def, Option.some_inj] at hs
    obtain ⟨locks, hlock, rfl⟩ := hs
    exact ⟨rfl, .inr (.inl ⟨_, hlock, rfl⟩), rfl, rfl, rfl⟩
  | waiting | returning | popped x =>
    rw [hrun] at hs
    obtain rfl := Option.some.inj hs
    exact ⟨rfl, .inr (.inr ⟨_, rfl, rfl, by simp [RunAt.held]⟩), rfl, rfl, rfl⟩
  | asleep | done =>
    rw [hrun] at hs
    cases hs
  | taking =>
    rw [hrun] at hs
    dsimp only at hs
    split at hs
    · cases hs
    · obtain rfl := Option.some.inj hs
      exact ⟨rfl, .inl ⟨rfl, rfl⟩, rfl, rfl, rfl⟩

/-- The writer takes its pieces from the front of the queue, one at a time and past its test. -/
theorem runStep_taken (hs : s.runStep = some s') :
    ∃ taken, s'.handled ++ s'.run.inFlight = s.handled ++ s.run.inFlight ++ taken ∧
      s.queue = taken ++ s'.queue ∧ taken.length ≤ 1 ∧ (taken ≠ [] → s.run = .taking) := by
  have hnone (hh : s'.handled ++ s'.run.inFlight = s.handled ++ s.run.inFlight)
      (hq : s'.queue = s.queue) :
      ∃ taken, s'.handled ++ s'.run.inFlight = s.handled ++ s.run.inFlight ++ taken ∧
        s.queue = taken ++ s'.queue ∧ taken.length ≤ 1 ∧ (taken ≠ [] → s.run = .taking) :=
    ⟨[], by rw [hh, List.append_nil], hq.symm, Nat.zero_le _, fun h => absurd rfl h⟩
  unfold runStep at hs
  cases hrun : s.run with
  | asleep | done =>
    rw [hrun] at hs
    cases hs
  | called | woken =>
    rw [hrun] at hs
    simp only [Option.bind_eq_bind, Option.bind_eq_some_iff, Option.pure_def, Option.some_inj] at hs
    obtain ⟨locks, -, rfl⟩ := hs
    exact hrun ▸ hnone (by rw [hrun]; rfl) rfl
  | testing | checking | passed =>
    rw [hrun] at hs
    obtain rfl := Option.some.inj hs
    exact hrun ▸ hnone (by rw [hrun]; dsimp only; split <;> rfl) rfl
  | starting | waiting | returning | popped x | writing x =>
    rw [hrun] at hs
    obtain rfl := Option.some.inj hs
    exact hrun ▸ hnone (by simp [hrun, RunAt.inFlight]) rfl
  | taking =>
    rw [hrun] at hs
    dsimp only at hs
    split at hs
    · cases hs
    · rename_i x queue hq
      obtain rfl := Option.some.inj hs
      exact ⟨[x], by simp [RunAt.inFlight], hq, Nat.le_refl 1, fun _ => rfl⟩

theorem holds_runStep (h : Safe s) (hs : s.runStep = some s') : s'.locks.Holds s'.held := by
  obtain ⟨hadd, hmoves, -⟩ := runStep_cases hs
  exact h.holds.moves .run hmoves (held_run_congr hadd)

theorem fifo_runStep (h : Safe s) (hs : s.runStep = some s') :
    s'.added.map Prod.snd = s'.handled ++ s'.run.inFlight ++ s'.queue := by
  obtain ⟨-, -, hadded, -⟩ := runStep_cases hs
  obtain ⟨taken, htaken, hqueue, -⟩ := runStep_taken hs
  rw [hadded, h.fifo, htaken, hqueue, List.append_assoc _ taken]

theorem Safe.run (h : Safe s) (hs : s.runStep = some s') : Safe s' := by
  have hholds := holds_runStep h hs
  have hfifo := fifo_runStep h hs
  unfold runStep at hs
  cases hrun : s.run with
  | asleep | done =>
    rw [hrun] at hs
    cases hs
  | starting =>
    rw [hrun] at hs
    obtain rfl := Option.some.inj hs
    exact ⟨hholds, hfifo, h.calls, nofun, nofun, nofun, nofun, nofun, nofun⟩
  | returning | popped x | writing x =>
    rw [hrun] at hs
    obtain rfl := Option.some.inj hs
    exact ⟨hholds, hfifo, h.calls, nofun, nofun, nofun, nofun, nofun, h.stopped⟩
  | testing =>
    rw [hrun] at hs
    obtain rfl := Option.some.inj hs
    refine ⟨hholds, hfifo, h.calls, ?_, ?_, ?_, ?_, ?_, h.stopped⟩
    all_goals cases hstop : s.stop <;> simp
  | called | woken =>
    rw [hrun] at hs
    simp only [Option.bind_eq_bind, Option.bind_eq_some_iff, Option.pure_def, Option.some_inj] at hs
    obtain ⟨locks, hlock, rfl⟩ := hs
    exact ⟨hholds, hfifo, h.calls, nofun, nofun, nofun, nofun, nofun, h.stopped⟩
  | checking =>
    rw [hrun] at hs
    obtain rfl := Option.some.inj hs
    by_cases hpred : s.queue ≠ [] ∨ s.stop = true
    · simp only [if_pos hpred] at hholds hfifo ⊢
      exact ⟨hholds, hfifo, h.calls, fun _ => hpred.symm, nofun, nofun, nofun, nofun, h.stopped⟩
    · simp only [if_neg hpred] at hholds hfifo ⊢
      exact ⟨hholds, hfifo, h.calls, nofun, nofun, fun _ => not_not.1 (not_or.1 hpred).1, nofun,
        nofun, h.stopped⟩
  | waiting =>
    rw [hrun] at hs
    obtain rfl := Option.some.inj hs
    exact ⟨hholds, hfifo, h.calls, nofun, nofun, nofun, fun _ => .inl (h.waiting hrun), nofun,
      h.stopped⟩
  | passed =>
    rw [hrun] at hs
    obtain rfl := Option.some.inj hs
    cases hstop : s.stop with
    | true =>
      simp only [hstop] at hholds hfifo ⊢
      exact ⟨hholds, hfifo, h.calls, nofun, nofun, nofun, nofun, fun _ => rfl,
        fun _ => h.stopped hstop⟩
    | false =>
      simp only [hstop] at hholds hfifo ⊢
      refine ⟨hholds, hfifo, h.calls, nofun, fun _ => ?_, nofun, nofun, nofun, nofun⟩
      exact (h.passed hrun).resolve_left fun hset => by rw [hstop] at hset; cases hset
  | taking =>
    rw [hrun] at hs
    dsimp only at hs
    split at hs
    · cases hs
    · obtain rfl := Option.some.inj hs
      exact ⟨hholds, hfifo, h.calls, nofun, nofun, nofun, nofun, nofun, h.stopped⟩

/-- A notification from outside, or a waking without one. -/
theorem Safe.notify (h : Safe s) {stop : StopAt} (hstop : s.stop = true → stop ≠ .idle) :
    Safe { s with run := s.run.notifyOne, stopper := stop } where
  holds := h.holds.congr fun th => by
    cases th with
    | run => exact RunAt.notifyOne_held _
    | add i => rfl
  fifo := by
    simp only [RunAt.notifyOne_inFlight]
    exact h.fifo
  calls := h.calls
  passed hr := h.passed (RunAt.of_notifyOne hr nofun)
  taking hr := h.taking (RunAt.of_notifyOne hr nofun)
  waiting hr := h.waiting (RunAt.of_notifyOne hr nofun)
  asleep hr := absurd hr (RunAt.notifyOne_ne_asleep _)
  ended hr := h.ended (hr.imp (RunAt.of_notifyOne · nofun) (RunAt.of_notifyOne · nofun))
  stopped := hstop

theorem Safe.stopStep (h : Safe s) (hs : s.stopStep = some s') : Safe s' := by
  unfold FileWriterThread.stopStep at hs
  cases hstop : s.stopper with
  | idle =>
    rw [hstop] at hs
    obtain rfl := Option.some.inj hs
    exact ⟨h.holds, h.fifo, h.calls, fun _ => .inl rfl, h.taking, h.waiting, h.asleep, fun _ => rfl,
      fun _ => nofun⟩
  | notifying =>
    rw [hstop] at hs
    obtain rfl := Option.some.inj hs
    exact h.notify fun _ => nofun
  | joining =>
    rw [hstop] at hs
    dsimp only at hs
    split at hs
    · obtain rfl := Option.some.inj hs
      exact ⟨h.holds, h.fifo, h.calls, h.passed, h.taking, h.waiting, h.asleep, h.ended,
        fun _ => nofun⟩
    · cases hs
  | joined =>
    rw [hstop] at hs
    cases hs

theorem Safe.step (h : Safe s) {e : Event α n} (hs : s.step e = some s') : Safe s' := by
  cases e with
  | call i x => exact h.call hs
  | add i => exact h.add hs
  | run => exact h.run hs
  | stop => exact h.stopStep hs
  | wake =>
    simp only [FileWriterThread.step] at hs
    split at hs
    · rename_i hrun
      obtain rfl := Option.some.inj hs
      have := h.notify h.stopped
      rw [hrun] at this
      exact this
    · cases hs

theorem Reached.safe {es : List (Event α n)} (h : s.Reached es) : Safe s :=
  Run.inv (fun _ _ _ hI hs => hI.step hs) h .start

/-! ## How the threads come to rest -/

/-- A thread goes on with what it has begun: no new call of `add`, no waking without a notification,
and no new `~FileWriterThread`. -/
def Inner (s : FileWriterThread α n) (e : Event α n) (s' : FileWriterThread α n) : Prop :=
  s.step e = some s' ∧
    match e with
    | .add _ | .run => True
    | .stop => s.stopper ≠ .idle
    | .call _ _ | .wake => False

theorem Inner.safe {e : Event α n} (hs : Inner s e s') (h : Safe s) : Safe s' := h.step hs.1

/-- How much a call of `add` has still to do, with what it makes the writer do. -/
def AddAt.work : AddAt α → Nat
  | .idle => 0
  | .called _ => 30
  | .entered _ => 29
  | .emplaced => 9
  | .notified => 1

def RunAt.work (stop : Bool) : RunAt α → Nat
  | .starting => 20
  | .testing => if stop then 1 else 8
  | .called | .woken => 7
  | .checking => 6
  | .waiting => 3
  | .passed => 5
  | .returning | .taking => 4
  | .popped _ => 10
  | .writing _ => 9
  | .asleep | .done => 0

def StopAt.work : StopAt → Nat
  | .idle | .joined => 0
  | .notifying => 9
  | .joining => 1

/-- How much all threads have still to do when nothing new comes. -/
def work (s : FileWriterThread α n) : Nat :=
  12 * s.queue.length + (∑ i, (s.add i).work) + s.run.work s.stop + s.stopper.work

theorem RunAt.notifyOne_work (r : RunAt α) (stop : Bool) :
    r.notifyOne.work stop ≤ r.work stop + 7 := by
  cases r with
  | asleep => simp [notifyOne, work]
  | _ => exact Nat.le_add_right _ _

theorem sum_add_work (f : Fin n → AddAt α) (i : Fin n) (a : AddAt α) :
    (∑ j, (Function.update f i a j).work) + (f i).work = (∑ j, (f j).work) + a.work := by
  have hrest : ∑ j ∈ Finset.univ.erase i, (Function.update f i a j).work =
      ∑ j ∈ Finset.univ.erase i, (f j).work :=
    Finset.sum_congr rfl fun j hj => by rw [Function.update_of_ne (Finset.ne_of_mem_erase hj)]
  rw [← Finset.add_sum_erase _ _ (Finset.mem_univ i),
    ← Finset.add_sum_erase _ (fun j => (f j).work) (Finset.mem_univ i), hrest,
    Function.update_self]
  omega

theorem addStep_work {i : Fin n} (hs : s.addStep i = some s') : s'.work < s.work := by
  unfold addStep at hs
  have hsum := sum_add_work s.add i
  cases hadd : s.add i with
  | idle =>
    rw [hadd] at hs
    cases hs
  | called x =>
    rw [hadd] at hs
    simp only [Option.bind_eq_bind, Option.bind_eq_some_iff, Option.pure_def, Option.some_inj] at hs
    obtain ⟨locks, -, rfl⟩ := hs
    have : _ + 30 = _ + 29 := hadd ▸ hsum (.entered x)
    simp only [work]
    omega
  | entered x =>
    rw [hadd] at hs
    obtain rfl := Option.some.inj hs
    have : _ + 29 = _ + 9 := hadd ▸ hsum .emplaced
    simp only [work, List.length_append, List.length_singleton]
    omega
  | emplaced =>
    rw [hadd] at hs
    obtain rfl := Option.some.inj hs
    have : _ + 9 = _ + 1 := hadd ▸ hsum .notified
    have hnotify := s.run.notifyOne_work s.stop
    simp only [work]
    omega
  | notified =>
    rw [hadd] at hs
    obtain rfl := Option.some.inj hs
    have : _ + 1 = _ + 0 := hadd ▸ hsum .idle
    simp only [work]
    omega

theorem runStep_work (h : Safe s) (hs : s.runStep = some s') : s'.work < s.work := by
  unfold runStep at hs
  cases hrun : s.run with
  | asleep | done =>
    rw [hrun] at hs
    cases hs
  | starting | waiting | popped x =>
    rw [hrun] at hs
    obtain rfl := Option.some.inj hs
    simp [work, hrun, RunAt.work]
  | testing =>
    rw [hrun] at hs
    obtain rfl := Option.some.inj hs
    cases hstop : s.stop <;> simp [work, hrun, hstop, RunAt.work]
  | called | woken =>
    rw [hrun] at hs
    simp only [Option.bind_eq_bind, Option.bind_eq_some_iff, Option.pure_def, Option.some_inj] at hs
    obtain ⟨locks, -, rfl⟩ := hs
    simp [work, hrun, RunAt.work]
  | checking =>
    rw [hrun] at hs
    obtain rfl := Option.some.inj hs
    simp only [work, hrun]
    split <;> simp [RunAt.work]
  | passed =>
    rw [hrun] at hs
    obtain rfl := Option.some.inj hs
    cases hstop : s.stop <;> simp [work, hrun, RunAt.work]
  | taking =>
    rw [hrun] at hs
    dsimp only at hs
    split at hs
    · cases hs
    · rename_i x queue hq
      obtain rfl := Option.some.inj hs
      simp only [work, hrun, hq, RunAt.work, List.length_cons]
      omega
  | returning =>
    rw [hrun] at hs
    obtain rfl := Option.some.inj hs
    simp [work, hrun, h.ended (.inl hrun), RunAt.work]
  | writing x =>
    rw [hrun] at hs
    obtain rfl := Option.some.inj hs
    cases hstop : s.stop <;> simp [work, hrun, RunAt.work]

theorem stopStep_work (hne : s.stopper ≠ .idle) (hs : s.stopStep = some s') : s'.work < s.work := by
  unfold FileWriterThread.stopStep at hs
  cases hstop : s.stopper with
  | idle => exact absurd hstop hne
  | notifying =>
    rw [hstop] at hs
    obtain rfl := Option.some.inj hs
    have hnotify := s.run.notifyOne_work s.stop
    simp only [work, hstop, StopAt.work]
    omega
  | joining =>
    rw [hstop] at hs
    dsimp only at hs
    split at hs
    · obtain rfl := Option.some.inj hs
      simp [work, hstop, StopAt.work]
    · cases hs
  | joined =>
    rw [hstop] at hs
    cases hs

theorem Inner.work {e : Event α n} (h : Safe s) (hs : Inner s e s') : s'.work < s.work := by
  obtain ⟨hstep, he⟩ := hs
  cases e with
  | add i => exact addStep_work hstep
  | run => exact runStep_work h hstep
  | stop => exact stopStep_work he hstep
  | call i x => exact he.elim
  | wake => exact he.elim

theorem Inner.progress (s : FileWriterThread α n) (e : Event α n) (s' : FileWriterThread α n)
    (h : Safe s) (hs : Inner s e s') : Safe s' ∧ s'.work < s.work := ⟨hs.safe h, hs.work h⟩

theorem addStep_isSome (hfree : s.locks () = none) {i : Fin n} (hi : s.add i ≠ .idle) :
    (s.addStep i).isSome := by
  unfold addStep
  cases hadd : s.add i with
  | idle => exact absurd hadd hi
  | called x => simp [Locks.lock, hfree]
  | _ => rfl

/-- A thread that has the lock can go on. -/
theorem Safe.not_stuck_of_held (h : Safe s) {th : Thread n} (hth : () ∈ s.held th) :
    ¬Stuck Inner s := by
  intro hstuck
  cases th with
  | add i =>
    have hsome : (s.addStep i).isSome := by
      unfold addStep
      simp only [held] at hth
      cases hadd : s.add i with
      | idle | called x =>
        rw [hadd] at hth
        cases hth
      | _ => rfl
    obtain ⟨s', hs'⟩ := Option.isSome_iff_exists.1 hsome
    exact hstuck (.add i) s' ⟨hs', trivial⟩
  | run =>
    have hsome : s.runStep.isSome := by
      unfold runStep
      simp only [held] at hth
      cases hrun : s.run with
      | taking =>
        cases hq : s.queue with
        | nil => exact absurd hq (h.taking hrun)
        | cons _ _ => rfl
      | checking | waiting | passed | returning | popped x => rfl
      | _ =>
        rw [hrun] at hth
        cases hth
    obtain ⟨s', hs'⟩ := Option.isSome_iff_exists.1 hsome
    exact hstuck .run s' ⟨hs', trivial⟩

/-- Where all threads are when none can go on. -/
theorem Safe.stuck (h : Safe s) (hstuck : Stuck Inner s) :
    (∀ i, s.add i = .idle) ∧ (s.run = .asleep ∨ s.run = .done) ∧
      (s.stopper = .idle ∨ s.stopper = .joined ∨ s.stopper = .joining ∧ s.run = .asleep) := by
  have hfree : s.locks () = none := by
    cases hl : s.locks () with
    | none => rfl
    | some th => exact absurd hstuck (h.not_stuck_of_held ((h.holds () th).1 hl))
  have hadd (i : Fin n) : s.add i = .idle := by
    by_contra hi
    obtain ⟨s', hs'⟩ := Option.isSome_iff_exists.1 (addStep_isSome hfree hi)
    exact hstuck (.add i) s' ⟨hs', trivial⟩
  have hrun : s.run = .asleep ∨ s.run = .done := by
    have hnone : s.runStep = none := by
      cases hr : s.runStep with
      | none => rfl
      | some s' => exact absurd ⟨hr, trivial⟩ (hstuck .run s')
    have hheld : () ∉ s.held .run := fun hm => h.not_stuck_of_held hm hstuck
    unfold runStep at hnone
    cases hr : s.run with
    | asleep => exact .inl rfl
    | done => exact .inr rfl
    | called | woken =>
      rw [hr] at hnone
      simp [Locks.lock, hfree] at hnone
    | starting | testing | writing x =>
      rw [hr] at hnone
      cases hnone
    | _ =>
      rw [held, hr] at hheld
      exact absurd List.mem_cons_self hheld
  refine ⟨hadd, hrun, ?_⟩
  cases hstop : s.stopper with
  | idle => exact .inl rfl
  | joined => exact .inr (.inl rfl)
  | notifying =>
    refine absurd ⟨?_, by rw [hstop]; nofun⟩
      (hstuck .stop { s with run := s.run.notifyOne, stopper := .joining })
    simp only [FileWriterThread.step, FileWriterThread.stopStep, hstop]
  | joining =>
    refine .inr (.inr ⟨rfl, hrun.resolve_right fun hdone => ?_⟩)
    refine absurd ⟨?_, by rw [hstop]; nofun⟩ (hstuck .stop { s with stopper := .joined })
    simp only [FileWriterThread.step, FileWriterThread.stopStep, hstop, hdone]

/-- In every state of every run of the threads the pieces are handled in the order in which they
came into the queue, each once, and each thread's pieces came in the order of its calls; only one
thread is between a lock and its unlock, and none takes from an empty queue. -/
theorem handled_in_order {es : List (Event α n)} (h : s.Reached es) :
    s.added.map Prod.snd = s.handled ++ s.run.inFlight ++ s.queue ∧
      (∀ i, s.calls i = (s.added.filter (·.1 = i)).map Prod.snd ++ (s.add i).pending) ∧
      (∀ a b, () ∈ s.held a → () ∈ s.held b → a = b) ∧ ¬s.FrontOfEmpty := by
  have hsafe := h.safe
  exact ⟨hsafe.fifo, hsafe.calls, fun _ _ => hsafe.alone,
    fun ⟨hrun, hqueue⟩ => hsafe.taking hrun hqueue⟩

theorem handled_in_order_one : ∃ (s : FileWriterThread Nat 2) (es : List (Event Nat 2)),
    s.Reached es ∧ s.added.map Prod.snd = s.handled ++ s.run.inFlight ++ s.queue := by
  have hsome : (([.call 0 7, .call 1 8, .add 1, .add 1, .run] : List (Event Nat 2)).foldlM
      FileWriterThread.step ({} : FileWriterThread Nat 2)).isSome := by decide
  obtain ⟨s, hs⟩ := Option.isSome_iff_exists.1 hsome
  have hr : s.Reached _ := Run.of_foldlM hs
  exact ⟨s, _, hr, (handled_in_order hr).1⟩

/-- No thread begins a call, and none a `~FileWriterThread`. -/
theorem Inner.frame {e : Event α n} (hs : Inner s e s') :
    s'.calls = s.calls ∧ (s.stopper = .idle → s'.stopper = .idle) := by
  obtain ⟨hstep, he⟩ := hs
  cases e with
  | add i =>
    obtain ⟨_, -, -, -, hcalls, -, hstopper⟩ := addStep_cases hstep
    exact ⟨hcalls, fun h => hstopper.trans h⟩
  | run =>
    obtain ⟨-, -, -, hcalls, hstopper⟩ := runStep_cases hstep
    exact ⟨hcalls, fun h => hstopper.trans h⟩
  | stop =>
    refine ⟨?_, fun h => absurd h he⟩
    simp only [FileWriterThread.step, FileWriterThread.stopStep] at hstep
    split at hstep
    · exact absurd ‹_› he
    · obtain rfl := Option.some.inj hstep
      rfl
    · split at hstep
      · obtain rfl := Option.some.inj hstep
        rfl
      · cases hstep
    · cases hstep
  | call i x => exact he.elim
  | wake => exact he.elim

/-- One piece: the call of `add` to its end, then the writer until it sleeps again. -/
def addThenRun : List (Event Nat 1) := List.replicate 4 (.add 0) ++ List.replicate 12 .run

end FileWriterThread

end Zit
