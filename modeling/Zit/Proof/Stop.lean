import Zit.Proof.FileWriterThread

/-!
# Stopping the file writer

`stop` sets `m_stop` and notifies without the lock, and `run` begins with `m_stop = false`. A stop
before that is overwritten (`Overwritten`: the thread never ends), and a notification between the
writer's look at the predicate and its sleep is missed. In all other states the thread ends
(`Heard`). A writer that is past its test of `m_stop` takes one more piece, and no other (`Kept`).
-/

set_option autoImplicit false

namespace Zit

open Lib

namespace FileWriterThread

variable {α : Type} {n : Nat} {s s' : FileWriterThread α n}

/-- What a step of the writer thread does to `m_stop`, and what it needs of it. -/
structure Flow (s s' : FileWriterThread α n) : Prop where
  stop : s.run = .starting ∧ s'.stop = false ∨ s.run ≠ .starting ∧ s'.stop = s.stop
  started : s'.run ≠ .starting
  done : s'.run = .done → s.stop = true ∧ s.run ≠ .starting
  waiting : s'.run = .waiting → s.stop = false
  asleep : s'.run = .asleep → s.run = .waiting
  taking : s'.run = .taking → s.stop = false

theorem runStep_flow (hs : s.runStep = some s') : Flow s s' := by
  unfold runStep at hs
  cases hrun : s.run with
  | starting | waiting | returning | popped x | writing x =>
    rw [hrun] at hs
    obtain rfl := Option.some.inj hs
    constructor <;> simp [hrun]
  | asleep | done =>
    rw [hrun] at hs
    cases hs
  | testing | passed =>
    rw [hrun] at hs
    obtain rfl := Option.some.inj hs
    cases hstop : s.stop <;> constructor <;> simp [hrun, hstop]
  | checking =>
    rw [hrun] at hs
    obtain rfl := Option.some.inj hs
    by_cases hpred : s.queue ≠ [] ∨ s.stop = true
    · simp only [if_pos hpred]
      constructor <;> simp [hrun]
    · simp only [if_neg hpred]
      constructor <;> simp_all
  | called | woken =>
    rw [hrun] at hs
    simp only [Option.bind_eq_bind, Option.bind_eq_some_iff, Option.pure_def, Option.some_inj] at hs
    obtain ⟨locks, -, rfl⟩ := hs
    constructor <;> simp [hrun]
  | taking =>
    rw [hrun] at hs
    dsimp only at hs
    split at hs
    · cases hs
    · obtain rfl := Option.some.inj hs
      constructor <;> simp [hrun]

/-! ## A stop that is overwritten -/

/-- `m_stop` has been or will be reset behind the only `stop`. -/
structure Overwritten (s : FileWriterThread α n) : Prop where
  reset : s.stop = false ∨ s.run = .starting
  running : s.run ≠ .done
  begun : s.stopper ≠ .idle
  waits : s.stopper ≠ .joined

/-- The writer is at no other point than before, or it has been notified. -/
theorem Overwritten.notify (h : Overwritten s) (hstop : s'.stop = s.stop)
    (hrun : s'.run = s.run ∨ s'.run = s.run.notifyOne) (hbegun : s'.stopper ≠ .idle)
    (hwaits : s'.stopper ≠ .joined) : Overwritten s' := by
  refine ⟨?_, fun hdone => ?_, hbegun, hwaits⟩
  · rw [hstop]
    rcases hrun with hrun | hrun
    · rw [hrun]
      exact h.reset
    · exact h.reset.imp id fun hst => by rw [hrun, hst]; rfl
  · rcases hrun with hrun | hrun
    · exact h.running (hrun ▸ hdone)
    · exact h.running (RunAt.of_notifyOne (hrun ▸ hdone) nofun)

theorem Overwritten.run (h : Overwritten s) (hs : s.runStep = some s') : Overwritten s' := by
  obtain ⟨-, -, -, -, hstopper⟩ := runStep_cases hs
  have hflow := runStep_flow hs
  refine ⟨.inl ?_, fun hdone => ?_, hstopper ▸ h.begun, hstopper ▸ h.waits⟩
  · rcases hflow.stop with ⟨-, hreset⟩ | ⟨hne, hsame⟩
    · exact hreset
    · exact hsame.trans (h.reset.resolve_right hne)
  · obtain ⟨hstop, hne⟩ := hflow.done hdone
    rw [h.reset.resolve_right hne] at hstop
    cases hstop

theorem Overwritten.stopStep (h : Overwritten s) (hs : s.stopStep = some s') : Overwritten s' := by
  unfold FileWriterThread.stopStep at hs
  cases hstop : s.stopper with
  | idle => exact absurd hstop h.begun
  | notifying =>
    rw [hstop] at hs
    obtain rfl := Option.some.inj hs
    exact h.notify rfl (.inr rfl) nofun nofun
  | joining =>
    rw [hstop] at hs
    dsimp only at hs
    split at hs
    · exact absurd ‹_› h.running
    · cases hs
  | joined => exact absurd hstop h.waits

theorem Overwritten.step (h : Overwritten s) {e : Event α n} (hs : s.step e = some s') :
    Overwritten s' := by
  cases e with
  | call i x =>
    simp only [FileWriterThread.step, callAdd] at hs
    split at hs
    · obtain rfl := Option.some.inj hs
      exact ⟨h.reset, h.running, h.begun, h.waits⟩
    · cases hs
  | add i =>
    obtain ⟨_, -, hrun, -, -, hstop, hstopper⟩ := addStep_cases hs
    exact h.notify hstop (hrun.imp And.left And.right) (hstopper ▸ h.begun) (hstopper ▸ h.waits)
  | run => exact h.run hs
  | stop => exact h.stopStep hs
  | wake =>
    simp only [FileWriterThread.step] at hs
    split at hs
    · rename_i hrun
      obtain rfl := Option.some.inj hs
      exact h.notify rfl (.inr (by rw [hrun]; rfl)) h.begun h.waits
    · cases hs

/-! ## A stop that is heard -/

/-- `m_stop` stays set, and a writer that sleeps over it will be notified. -/
structure Heard (s : FileWriterThread α n) : Prop where
  stop : s.stop = true
  started : s.run ≠ .starting
  waiting : s.run = .waiting → ∃ i, (s.add i).Coming
  asleep : s.run = .asleep → s.stopper = .notifying ∨ ∃ i, (s.add i).Coming

theorem coming_update {f : Fin n → AddAt α} {i : Fin n} {a : AddAt α} (h : ∃ j, (f j).Coming)
    (hi : (f i).Coming → a.Coming) : ∃ j, (Function.update f i a j).Coming := by
  obtain ⟨j, hj⟩ := h
  by_cases hji : j = i
  · subst hji
    exact ⟨j, by rw [Function.update_self]; exact hi hj⟩
  · exact ⟨j, by rw [Function.update_of_ne hji]; exact hj⟩

/-- The writer has been notified, with the lock not in its hands. -/
theorem Heard.notify (h : Heard s) (hstop : s'.stop = s.stop) (hrun : s'.run = s.run.notifyOne)
    (hwaiting : s.run = .waiting → ∃ i, (s'.add i).Coming) : Heard s' := by
  refine ⟨hstop ▸ h.stop, fun hst => h.started ?_, fun hw => hwaiting ?_, fun ha => ?_⟩
  · exact RunAt.of_notifyOne (hrun ▸ hst) nofun
  · exact RunAt.of_notifyOne (hrun ▸ hw) nofun
  · exact absurd (hrun ▸ ha) (RunAt.notifyOne_ne_asleep _)

theorem Heard.add (h : Heard s) (hsafe : Safe s) {i : Fin n} (hs : s.addStep i = some s') :
    Heard s' := by
  obtain ⟨a, hadd, hrun, -, -, hstop, hstopper⟩ := addStep_cases hs
  rcases hrun with ⟨hrun, hcoming⟩ | ⟨hemplaced, hrun⟩
  · refine ⟨hstop ▸ h.stop, hrun ▸ h.started, fun hw => ?_, fun ha => ?_⟩
    · rw [hadd]
      exact coming_update (h.waiting (hrun ▸ hw)) hcoming
    · rw [hstopper, hadd]
      exact (h.asleep (hrun ▸ ha)).imp id fun he => coming_update he hcoming
  · refine h.notify hstop hrun fun hw => ?_
    -- both would have the lock
    have := hsafe.add_outside (by rw [hw]; rfl) i
    rw [hemplaced] at this
    cases this

theorem Heard.run (h : Heard s) (hs : s.runStep = some s') : Heard s' := by
  obtain ⟨hadd, -, -, -, hstopper⟩ := runStep_cases hs
  have hflow := runStep_flow hs
  refine ⟨?_, hflow.started, fun hw => ?_, fun ha => .inr ?_⟩
  · rcases hflow.stop with ⟨hst, -⟩ | ⟨-, hsame⟩
    · exact absurd hst h.started
    · exact hsame.trans h.stop
  · have := hflow.waiting hw
    rw [h.stop] at this
    cases this
  · rw [hadd]
    exact h.waiting (hflow.asleep ha)

theorem Heard.stopStep (h : Heard s) (hs : s.stopStep = some s') : Heard s' := by
  unfold FileWriterThread.stopStep at hs
  cases hstop : s.stopper with
  | idle =>
    rw [hstop] at hs
    obtain rfl := Option.some.inj hs
    exact ⟨rfl, h.started, h.waiting, fun _ => .inl rfl⟩
  | notifying =>
    rw [hstop] at hs
    obtain rfl := Option.some.inj hs
    exact h.notify rfl rfl h.waiting
  | joining =>
    rw [hstop] at hs
    dsimp only at hs
    split at hs
    · rename_i hdone
      obtain rfl := Option.some.inj hs
      exact ⟨h.stop, h.started, h.waiting, fun ha => by rw [hdone] at ha; cases ha⟩
    · cases hs
  | joined =>
    rw [hstop] at hs
    cases hs

theorem Heard.step (h : Heard s) (hsafe : Safe s) {e : Event α n} (hs : s.step e = some s') :
    Heard s' := by
  cases e with
  | call i x =>
    simp only [FileWriterThread.step, callAdd] at hs
    split at hs
    · rename_i hidle
      obtain rfl := Option.some.inj hs
      have hcoming (he : ∃ j, (s.add j).Coming) :
          ∃ j, (Function.update s.add i (.called x) j).Coming :=
        coming_update he fun _ => trivial
      exact ⟨h.stop, h.started, fun hw => hcoming (h.waiting hw),
        fun ha => (h.asleep ha).imp id hcoming⟩
    · cases hs
  | add i => exact h.add hsafe hs
  | run => exact h.run hs
  | stop => exact h.stopStep hs
  | wake =>
    simp only [FileWriterThread.step] at hs
    split at hs
    · rename_i hrun
      obtain rfl := Option.some.inj hs
      exact h.notify rfl (by rw [hrun]; rfl) h.waiting
    · cases hs

/-! ## When a stop is missed -/

theorem Overwritten.never_joined {es : List (Event α n)} (h : Overwritten s)
    (hr : Run (fun s e s' => s.step e = some s') s es s') : s'.stopper ≠ .joined :=
  (hr.inv (fun _ _ _ hI hs => hI.step hs) h).waits

/-- The notification comes first, and then the writer sleeps. -/
theorem missed_notification (hn : s.stopper = .notifying) (hw : s.run = .waiting)
    (hidle : ∀ i, s.add i = .idle) :
    ∃ s', Run Inner s [.stop, .run] s' ∧ Stuck Inner s' ∧ s'.stopper ≠ .joined := by
  let s1 : FileWriterThread α n := { s with stopper := .joining }
  have h1 : Inner s .stop s1 := by
    refine ⟨?_, fun h => by cases hn.symm.trans h⟩
    simp only [FileWriterThread.step, FileWriterThread.stopStep, hn, hw, RunAt.notifyOne]
    rw [← hw]
  let s2 : FileWriterThread α n := { s1 with locks := s1.locks.unlock (), run := .asleep }
  have h2 : Inner s1 .run s2 := by
    refine ⟨?_, trivial⟩
    simp only [FileWriterThread.step, runStep, s1, hw]
    rfl
  refine ⟨s2, .cons h1 (.single h2), fun e s' hs => ?_, fun h => by cases h⟩
  obtain ⟨hstep, he⟩ := hs
  cases e with
  | add i =>
    simp only [FileWriterThread.step, addStep, s2, s1, hidle i] at hstep
    cases hstep
  | run => cases hstep
  | stop => cases hstep
  | call i x => exact he.elim
  | wake => exact he.elim

theorem Heard.joined (h : Heard s) (hsafe : Safe s) (hstuck : Stuck Inner s) :
    s.stopper = .joined := by
  obtain ⟨hadd, hrun, hstopper⟩ := hsafe.stuck hstuck
  rcases hstopper with hidle | hjoined | ⟨hjoining, hasleep⟩
  · exact absurd hidle (hsafe.stopped h.stop)
  · exact hjoined
  · rcases h.asleep hasleep with hnotifying | ⟨i, hi⟩
    · rw [hjoining] at hnotifying
      cases hnotifying
    · rw [hadd i] at hi
      exact hi.elim

/-- A stop hangs, that is, the threads can come to rest before the destructor has joined the
writer thread, exactly when `m_stop` is reset behind it or its notification falls between the
writer's look at the predicate and its sleep, with no call of `add` under way. -/
theorem stop_hangs_iff {es : List (Event α n)} (h : s.Reached es) (hn : s.stopper = .notifying) :
    (∃ as s', Run (fun s e s' => s.step e = some s') s as s' ∧ Stuck Inner s' ∧
        s'.stopper ≠ .joined) ↔
      s.stop = false ∨ s.run = .starting ∨ s.run = .waiting ∧ ∀ i, s.add i = .idle := by
  constructor
  · rintro ⟨as, s', hr, hstuck, hne⟩
    by_contra hcond
    simp only [not_or, not_and, not_forall, Bool.not_eq_false] at hcond
    obtain ⟨hstop, hstarted, hadd⟩ := hcond
    have hheard : Heard s := by
      refine ⟨hstop, hstarted, fun hw => ?_, fun _ => .inl hn⟩
      obtain ⟨i, hi⟩ := hadd hw
      refine ⟨i, ?_⟩
      have hout := h.safe.add_outside (by rw [hw]; rfl) i
      cases ha : s.add i with
      | idle => exact absurd ha hi
      | called x => trivial
      | _ =>
        rw [ha] at hout
        cases hout
    have hend := hr.inv (I := fun t => Heard t ∧ Safe t)
      (fun _ _ _ hI hs => ⟨hI.1.step hI.2 hs, hI.2.step hs⟩) ⟨hheard, h.safe⟩
    exact hne (hend.1.joined hend.2 hstuck)
  · intro hcond
    have hover (hreset : s.stop = false ∨ s.run = .starting) (hrun : s.run ≠ .done) :
        ∃ as s', Run (fun s e s' => s.step e = some s') s as s' ∧ Stuck Inner s' ∧
          s'.stopper ≠ .joined := by
      obtain ⟨as, s', hr, hstuck⟩ := Run.exists_stuck Inner.progress h.safe
      have hr' := hr.mono fun _ _ _ hs => hs.1
      have hover : Overwritten s := ⟨hreset, hrun, by rw [hn]; nofun, by rw [hn]; nofun⟩
      exact ⟨as, s', hr', hstuck, hover.never_joined hr'⟩
    rcases hcond with hstop | hstarting | ⟨hw, hidle⟩
    · refine hover (.inl hstop) fun hdone => ?_
      have := h.safe.ended (.inr hdone)
      rw [hstop] at this
      cases this
    · exact hover (.inr hstarting) (by rw [hstarting]; nofun)
    · obtain ⟨s', hr, hstuck, hne⟩ := missed_notification hn hw hidle
      exact ⟨_, s', hr.mono fun _ _ _ hs => hs.1, hstuck, hne⟩

/-- `~FileWriterThread` right after the constructor, before the thread gets to `run`. -/
theorem stop_hangs_iff_starting : ∃ (s : FileWriterThread Nat 1) (as : List (Event Nat 1)) (s' : _),
    s.Reached [.stop] ∧ Run (fun s e s' => s.step e = some s') s as s' ∧ Stuck Inner s' ∧
      s'.stopper ≠ .joined := by
  let s : FileWriterThread Nat 1 := { stop := true, stopper := .notifying }
  have hreached : s.Reached [.stop] := Run.single rfl
  obtain ⟨as, s', hr, hstuck, hne⟩ := (stop_hangs_iff hreached rfl).2 (.inr (.inl rfl))
  exact ⟨s, as, s', hreached, hr, hstuck, hne⟩

/-! ## What is taken after a stop -/

theorem addStep_queue {i : Fin n} (hs : s.addStep i = some s') :
    s.queue <+: s'.queue ∧ s'.handled ++ s'.run.inFlight = s.handled ++ s.run.inFlight := by
  unfold addStep at hs
  cases hadd : s.add i with
  | idle =>
    rw [hadd] at hs
    cases hs
  | called x =>
    rw [hadd] at hs
    simp only [Option.bind_eq_bind, Option.bind_eq_some_iff, Option.pure_def, Option.some_inj] at hs
    obtain ⟨locks, -, rfl⟩ := hs
    exact ⟨List.prefix_rfl, rfl⟩
  | entered x =>
    rw [hadd] at hs
    obtain rfl := Option.some.inj hs
    exact ⟨List.prefix_append _ _, rfl⟩
  | emplaced =>
    rw [hadd] at hs
    obtain rfl := Option.some.inj hs
    exact ⟨List.prefix_rfl, by simp only [RunAt.notifyOne_inFlight]⟩
  | notified =>
    rw [hadd] at hs
    obtain rfl := Option.some.inj hs
    exact ⟨List.prefix_rfl, rfl⟩

/-- `m_stop` is set for good, and since the state `s` these pieces have been taken from the queue. -/
structure Kept (s : FileWriterThread α n) (taken : List α) (t : FileWriterThread α n) : Prop where
  stop : t.stop = true
  started : t.run ≠ .starting
  handled : t.handled ++ t.run.inFlight = s.handled ++ s.run.inFlight ++ taken
  queue : s.queue <+: taken ++ t.queue
  most : taken.length ≤ 1
  past : taken ≠ [] → s.run = .taking
  /-- The writer is past its test since `s`. -/
  taking : t.run = .taking → s.run = .taking ∧ taken = []

/-- The writer is at no other point than before, or it has been notified. -/
theorem Kept.notify {taken : List α} {t t' : FileWriterThread α n} (h : Kept s taken t)
    (hstop : t'.stop = t.stop) (hrun : t'.run = t.run ∨ t'.run = t.run.notifyOne)
    (htaken : t'.handled ++ t'.run.inFlight = t.handled ++ t.run.inFlight)
    (hqueue : t.queue <+: t'.queue) : Kept s taken t' := by
  have hback {r : RunAt α} (hr : t'.run = r) (hne : r ≠ .woken) : t.run = r := by
    rcases hrun with hrun | hrun
    · exact hrun ▸ hr
    · exact RunAt.of_notifyOne (hrun ▸ hr) hne
  exact ⟨hstop ▸ h.stop, fun hst => h.started (hback hst nofun), htaken.trans h.handled,
    h.queue.trans ((List.prefix_append_right_inj taken).2 hqueue), h.most, h.past,
    fun hr => h.taking (hback hr nofun)⟩

theorem Kept.run {taken : List α} {t t' : FileWriterThread α n} (h : Kept s taken t)
    (hs : t.runStep = some t') : ∃ taken', Kept s taken' t' := by
  have hflow := runStep_flow hs
  obtain ⟨more, htaken, hqueue, hmost, hpast⟩ := runStep_taken hs
  have hstop : t'.stop = true := by
    rcases hflow.stop with ⟨hst, -⟩ | ⟨-, hsame⟩
    · exact absurd hst h.started
    · exact hsame.trans h.stop
  have htest : t'.run ≠ .taking := fun hr => by
    have := hflow.taking hr
    rw [h.stop] at this
    cases this
  by_cases hmore : more = []
  · subst hmore
    refine ⟨taken, hstop, hflow.started, ?_, ?_, h.most, h.past, fun hr => absurd hr htest⟩
    · rw [htaken, List.append_nil, h.handled]
    · rw [← List.nil_append t'.queue, ← hqueue]
      exact h.queue
  · -- the writer was past its test, so this is the one piece
    obtain ⟨hs, rfl⟩ := h.taking (hpast hmore)
    refine ⟨more, hstop, hflow.started, ?_, ?_, hmost, fun _ => hs, fun hr => absurd hr htest⟩
    · rw [htaken, h.handled, List.append_nil]
    · rw [← hqueue]
      exact h.queue

theorem Kept.step {taken : List α} {t t' : FileWriterThread α n} (h : Kept s taken t)
    {e : Event α n} (hs : t.step e = some t') : ∃ taken', Kept s taken' t' := by
  cases e with
  | call i x =>
    simp only [FileWriterThread.step, callAdd] at hs
    split at hs
    · obtain rfl := Option.some.inj hs
      exact ⟨taken, h.notify rfl (.inl rfl) rfl List.prefix_rfl⟩
    · cases hs
  | add i =>
    obtain ⟨_, -, hrun, -, -, hstop, -⟩ := addStep_cases hs
    obtain ⟨hqueue, htaken⟩ := addStep_queue hs
    exact ⟨taken, h.notify hstop (hrun.imp And.left And.right) htaken hqueue⟩
  | run => exact h.run hs
  | stop =>
    simp only [FileWriterThread.step, FileWriterThread.stopStep] at hs
    split at hs
    · obtain rfl := Option.some.inj hs
      exact ⟨taken, h.notify h.stop.symm (.inl rfl) rfl List.prefix_rfl⟩
    · obtain rfl := Option.some.inj hs
      exact ⟨taken, h.notify rfl (.inr rfl) (by simp only [RunAt.notifyOne_inFlight])
        List.prefix_rfl⟩
    · split at hs
      · obtain rfl := Option.some.inj hs
        exact ⟨taken, h.notify rfl (.inl rfl) rfl List.prefix_rfl⟩
      · cases hs
    · cases hs
  | wake =>
    simp only [FileWriterThread.step] at hs
    split at hs
    · rename_i hrun
      obtain rfl := Option.some.inj hs
      exact ⟨taken, h.notify rfl (.inr (by rw [hrun]; rfl)) (by simp [hrun, RunAt.inFlight])
        List.prefix_rfl⟩
    · cases hs

/-- Once `m_stop` is set and `run` has begun, the writer finishes the piece in its hands; only when
it is already past its test of `m_stop` it takes another one, the first of the queue, and no more
whatever the threads do: the rest of the queue stays in it. -/
theorem one_taken_after_stop {es : List (Event α n)} (hstop : s.stop = true)
    (hrun : s.run ≠ .starting) (hr : Run (fun s e s' => s.step e = some s') s es s') :
    ∃ taken, s'.handled ++ s'.run.inFlight = s.handled ++ s.run.inFlight ++ taken ∧
      s.queue <+: taken ++ s'.queue ∧ taken.length ≤ 1 ∧ (taken ≠ [] → s.run = .taking) := by
  have hstart : Kept s [] s := ⟨hstop, hrun, (List.append_nil _).symm, List.prefix_rfl,
    Nat.zero_le _, fun h => absurd rfl h, fun h => ⟨h, rfl⟩⟩
  obtain ⟨taken, hkept⟩ := hr.inv (I := fun t => ∃ taken, Kept s taken t)
    (fun _ _ _ ⟨_, hI⟩ hs => hI.step hs) ⟨[], hstart⟩
  exact ⟨taken, hkept.handled, hkept.queue, hkept.most, hkept.past⟩

/-- Two pieces are in the queue and the writer is past its test when `stop` is called. -/
def stopBehindTest : List (Event Nat 2) :=
  [.call 0 7, .call 1 8] ++ List.replicate 4 (.add 0) ++ List.replicate 4 (.add 1) ++
    List.replicate 5 .run ++ [.stop]

/-- It takes the first one and ends over the other. -/
theorem one_taken_after_stop_two : ∃ s s' : FileWriterThread Nat 2,
    s.Reached stopBehindTest ∧ s.queue = [7, 8] ∧ s.handled = [] ∧
      s'.run = .done ∧ s'.handled = [7] ∧ s'.queue = [8] ∧
      ∃ taken, s'.handled ++ s'.run.inFlight = s.handled ++ s.run.inFlight ++ taken ∧
        s.queue <+: taken ++ s'.queue ∧ taken.length ≤ 1 ∧ (taken ≠ [] → s.run = .taking) := by
  have hany : (stopBehindTest.foldlM FileWriterThread.step {}).any (fun s =>
      decide (s.stop = true ∧ s.run ≠ .starting ∧ s.queue = [7, 8] ∧ s.handled = []) &&
        ((List.replicate 4 .run).foldlM FileWriterThread.step s).any fun s' =>
          decide (s'.run = .done ∧ s'.handled = [7] ∧ s'.queue = [8])) = true := by decide
  simp only [Option.any_eq_true, Bool.and_eq_true, decide_eq_true_eq] at hany
  obtain ⟨s, hs, ⟨hstop, hrun, hqueue, hhandled⟩, s', hs', hdone, hhandled', hqueue'⟩ := hany
  exact ⟨s, s', Run.of_foldlM hs, hqueue, hhandled, hdone, hhandled', hqueue',
    one_taken_after_stop hstop hrun (Run.of_foldlM hs')⟩

end FileWriterThread

end Zit
