import Zit.Proof.GetBlock
import Zit.Threads

/-!
# Deadlock of the two threads

The locks agree with the program points in every state (`Safe.holds`), so a deadlock needs the peer
thread in front of the file mutex and the writer thread in front of the mutex of the same piece.
`get_block` reads `m_piece_written` under the mutex of the piece, but the writer sets it without, and
a piece may be in the queue twice: the deadlock is reachable (`deadlock_reached`). Runs in which the
flag of a piece is never seen set while the writer is at work on that piece have none
(`never_deadlocked`).
-/

set_option autoImplicit false

namespace Zit

open Lib

namespace WriterAt

/-- The piece whose mutex the writer has still to take before it gives the file mutex back. -/
def target : WriterAt → Option Nat
  | .locked ref | .hashing ref | .hashed ref _ | .resetting _ ref | .writing ref _
  | .copying ref _ | .marked ref => some ref
  | _ => none

end WriterAt

namespace Threads

variable (sha1 : Bytes → Sha1) (t : Torrent)

/-- The piece whose flag `get_block` looks at next, when it is set. -/
def sees (s : Threads) : Option Nat :=
  match s.peer with
  | .found ref => if (s.world.heap[ref]?).any (·.pieceWritten) then some ref else none
  | _ => none

/-- The piece whose flag `get_block` has seen set, while it has not got the file mutex. -/
def seen (s : Threads) : Option Nat :=
  match s.peer with
  | .toDisk ref => some ref
  | _ => none

/-- The piece the writer begins with next, or goes on to reset. -/
def takes (s : Threads) : Option Nat :=
  match s.writer with
  | .popped ref => some ref
  | .hashed ref data => (s.world.heap[ref]?).bind fun piece => resetOf sha1 t s piece data
  | _ => none

/-- `get_block` does not see the flag set of a piece that the writer is at work on, and the writer
does not begin with a piece, or go on to reset it, that `get_block` has just seen it of. -/
def Calm (s : Threads) : Event → Prop
  | .peer => ∀ ref ∈ s.sees, s.writer.target ≠ some ref
  | .writer _ => ∀ ref ∈ s.seen, takes sha1 t s ≠ some ref
  | _ => True

instance (s : Threads) (e : Event) : Decidable (Calm sha1 t s e) :=
  match e with
  | .peer => inferInstanceAs (Decidable (∀ ref ∈ s.sees, s.writer.target ≠ some ref))
  | .writer _ => inferInstanceAs (Decidable (∀ ref ∈ s.seen, takes sha1 t s ≠ some ref))
  | .getBlock _ _ | .add _ | .fails => inferInstanceAs (Decidable True)

/-- The locks are as the program points say, and the two threads are not at work on one piece. -/
structure Safe (s : Threads) : Prop where
  holds : s.locks.Holds s.held
  apart : ∀ ref ∈ s.seen, s.writer.target ≠ some ref

theorem Safe.start (w : World) : Safe (start w) :=
  ⟨.free fun th => (by cases th <;> rfl), nofun⟩

/-- A deadlock needs both threads at work on one piece. -/
theorem Safe.not_deadlocked {s : Threads} (h : Safe s) : ¬s.Deadlocked := by
  intro hd
  obtain ⟨⟨m, hm, hheld⟩, n, hn, hheld'⟩ := h.holds.deadlock_iff.1 hd
  simp only [wants, held] at hm hheld hn hheld'
  cases hp : s.peer with
  | toDisk ref =>
    rw [hp, PeerAt.held, List.mem_singleton] at hheld'
    subst hheld'
    refine h.apart ref (by rw [seen, hp]; rfl) ?_
    cases hw : s.writer with
    | writing r copies =>
      rw [hw] at hn
      cases copies with
      | zero => cases hn
      | succ _ =>
        cases hn
        rfl
    | locked _ | resetting _ _ | marked _ =>
      rw [hw] at hn
      cases hn
      rfl
    | popped _ =>
      rw [hw] at hn
      cases hn
    | _ =>
      rw [hw] at hn
      cases hn
  | called ref offset =>
    rw [hp] at hheld'
    cases hheld'
  | _ =>
    rw [hp] at hm
    cases hm

/-! ## Steps -/

section
variable {sha1 t}
variable {s s' : Threads}

/-- A step of the peer thread: it moves on, takes the next mutex or gives the last one back, and
goes to the disk when it has seen the flag set. -/
theorem peerStep_cases (h : s.peerStep = some s') : s'.world = s.world ∧ s'.writer = s.writer ∧
    (∀ ref ∈ s'.seen, ref ∈ s.sees) ∧
    ((s'.locks = s.locks ∧ s'.peer.held = s.peer.held) ∨
      (∃ m, s.locks.lock m .peer = some s'.locks ∧ s'.peer.held = m :: s.peer.held) ∨
      ∃ m, s'.locks = s.locks.unlock m ∧ s.peer.held = m :: s'.peer.held ∧ m ∉ s'.peer.held) := by
  unfold peerStep at h
  cases hp : s.peer with
  | idle =>
    rw [hp] at h
    cases h
  | called ref offset | toDisk ref =>
    rw [hp] at h
    simp only [Option.bind_eq_bind, Option.bind_eq_some_iff, Option.pure_def, Option.some_inj] at h
    obtain ⟨locks, hlock, rfl⟩ := h
    exact ⟨rfl, rfl, nofun, .inr (.inl ⟨_, hlock, rfl⟩)⟩
  | entered ref offset =>
    rw [hp] at h
    simp only [Option.bind_eq_bind, Option.bind_eq_some_iff, Option.pure_def] at h
    obtain ⟨piece, -, h⟩ := h
    split at h <;> obtain rfl := Option.some.inj h <;>
      exact ⟨rfl, rfl, nofun, .inl ⟨rfl, rfl⟩⟩
  | found ref =>
    rw [hp] at h
    simp only [Option.bind_eq_bind, Option.bind_eq_some_iff, Option.pure_def] at h
    obtain ⟨piece, hpiece, h⟩ := h
    split at h
    · rename_i hw
      obtain rfl := Option.some.inj h
      refine ⟨rfl, rfl, fun r hr => ?_, .inl ⟨rfl, rfl⟩⟩
      cases hr
      rw [sees, hp]
      simp only [hpiece, Option.any_some, hw, if_true, Option.mem_def]
    · obtain rfl := Option.some.inj h
      exact ⟨rfl, rfl, nofun, .inl ⟨rfl, rfl⟩⟩
  | reading ref =>
    rw [hp] at h
    obtain rfl := Option.some.inj h
    exact ⟨rfl, rfl, nofun, .inr (.inr ⟨_, rfl, rfl, by simp [PeerAt.held]⟩)⟩
  | leaving ref =>
    rw [hp] at h
    obtain rfl := Option.some.inj h
    exact ⟨rfl, rfl, nofun, .inr (.inr ⟨_, rfl, rfl, by simp [PeerAt.held]⟩)⟩

theorem Safe.peer (h : Safe s) (hc : Calm sha1 t s .peer) (hs : s.peerStep = some s') :
    Safe s' := by
  obtain ⟨-, hwriter, hseen, hcases⟩ := peerStep_cases hs
  have hother : ∀ u, u ≠ Thread.peer → s'.held u = s.held u := by
    intro u hu
    cases u with
    | peer => exact absurd rfl hu
    | writer => exact congrArg WriterAt.held hwriter
  refine ⟨?_, fun ref hr => ?_⟩
  · rcases hcases with ⟨hlocks, hheld⟩ | ⟨m, hlock, hheld⟩ | ⟨m, hlocks, hheld, hm⟩
    · rw [hlocks]
      exact h.holds.congr fun u => by
        cases u with
        | peer => exact hheld
        | writer => exact hother _ nofun
    · exact h.holds.lock hlock hheld hother
    · rw [hlocks]
      exact h.holds.unlock (show s.held .peer = m :: s'.held .peer from hheld) hm hother
  · rw [hwriter]
    exact hc ref (hseen ref hr)

/-- A step of the writer thread. A new target is the piece taken from the queue, or the one that is
reset. -/
theorem writerStep_cases {copies : Nat} (h : s.writerStep sha1 t copies = some s') :
    s'.peer = s.peer ∧
    ((s'.locks = s.locks ∧ s'.writer.held = s.writer.held) ∨
      (∃ m, s.locks.lock m .writer = some s'.locks ∧ s'.writer.held = m :: s.writer.held) ∨
      ∃ m, s'.locks = s.locks.unlock m ∧ s.writer.held = m :: s'.writer.held ∧
        m ∉ s'.writer.held) ∧
    ∀ ref, s'.writer.target = some ref →
      s.writer.target = some ref ∨ takes sha1 t s = some ref := by
  unfold writerStep at h
  cases hw : s.writer with
  | idle =>
    rw [hw] at h
    cases hq : s.world.queue with
    | nil =>
      rw [hq] at h
      cases h
    | cons ref queue =>
      rw [hq] at h
      obtain rfl := Option.some.inj h
      exact ⟨rfl, .inl ⟨rfl, rfl⟩, nofun⟩
  | popped ref =>
    rw [hw] at h
    simp only [Option.bind_eq_bind, Option.bind_eq_some_iff, Option.pure_def, Option.some_inj] at h
    obtain ⟨locks, hlock, rfl⟩ := h
    refine ⟨rfl, .inr (.inl ⟨_, hlock, rfl⟩), fun r hr => .inr ?_⟩
    rw [takes, hw]
    exact hr
  | locked ref | resetting id ref | marked ref =>
    rw [hw] at h
    simp only [Option.bind_eq_bind, Option.bind_eq_some_iff, Option.pure_def, Option.some_inj] at h
    obtain ⟨locks, hlock, rfl⟩ := h
    exact ⟨rfl, .inr (.inl ⟨_, hlock, rfl⟩), fun r hr => .inl (by cases hr <;> rfl)⟩
  | hashing ref | clearing ref =>
    rw [hw] at h
    simp only [Option.bind_eq_bind, Option.bind_eq_some_iff, Option.pure_def, Option.some_inj] at h
    obtain ⟨piece, -, rfl⟩ := h
    exact ⟨rfl, .inr (.inr ⟨_, rfl, rfl, by simp [WriterAt.held]⟩),
      fun r hr => .inl (by cases hr <;> rfl)⟩
  | hashed ref data =>
    rw [hw] at h
    simp only [Option.bind_eq_bind, Option.bind_eq_some_iff, Option.pure_def] at h
    obtain ⟨piece, hpiece, h⟩ := h
    split at h
    · simp only [Option.bind_eq_some_iff, Option.some_inj] at h
      obtain ⟨-, -, rfl⟩ := h
      exact ⟨rfl, .inl ⟨rfl, rfl⟩, fun r hr => .inl hr⟩
    · split at h
      · rename_i active hreset
        obtain rfl := Option.some.inj h
        refine ⟨rfl, .inl ⟨rfl, rfl⟩, fun r hr => .inr ?_⟩
        rw [takes, hw]
        simp only [hpiece, Option.bind_some, hreset]
        exact hr
      · obtain rfl := Option.some.inj h
        exact ⟨rfl, .inl ⟨rfl, rfl⟩, nofun⟩
  | inReset id ref | copying ref n =>
    rw [hw] at h
    obtain rfl := Option.some.inj h
    exact ⟨rfl, .inr (.inr ⟨_, rfl, rfl, by simp [WriterAt.held]⟩),
      fun r hr => .inl (by cases hr <;> rfl)⟩
  | writing ref n =>
    rw [hw] at h
    cases n with
    | zero =>
      simp only [Option.bind_eq_bind, Option.bind_eq_some_iff, Option.pure_def, Option.some_inj] at h
      obtain ⟨piece, -, rfl⟩ := h
      exact ⟨rfl, .inl ⟨rfl, rfl⟩, fun r hr => .inl hr⟩
    | succ n =>
      simp only [Option.bind_eq_bind, Option.bind_eq_some_iff, Option.pure_def, Option.some_inj] at h
      obtain ⟨locks, hlock, rfl⟩ := h
      exact ⟨rfl, .inr (.inl ⟨_, hlock, rfl⟩), fun r hr => .inl hr⟩
  | finishing =>
    rw [hw] at h
    obtain rfl := Option.some.inj h
    exact ⟨rfl, .inr (.inr ⟨_, rfl, rfl, by simp [WriterAt.held]⟩), nofun⟩

theorem Safe.writer (h : Safe s) {copies : Nat} (hc : Calm sha1 t s (.writer copies))
    (hs : s.writerStep sha1 t copies = some s') : Safe s' := by
  obtain ⟨hpeer, hcases, htarget⟩ := writerStep_cases hs
  have hother : ∀ u, u ≠ Thread.writer → s'.held u = s.held u := by
    intro u hu
    cases u with
    | peer => exact congrArg PeerAt.held hpeer
    | writer => exact absurd rfl hu
  have hapart : ∀ ref ∈ s'.seen, s'.writer.target ≠ some ref := by
    intro ref hr ht
    rw [seen, hpeer] at hr
    rcases htarget ref ht with hold | hnew
    · exact h.apart ref hr hold
    · exact hc ref hr hnew
  rcases hcases with ⟨hlocks, hheld⟩ | ⟨m, hlock, hheld⟩ | ⟨m, hlocks, hheld, hm⟩
  · refine ⟨?_, hapart⟩
    rw [hlocks]
    exact h.holds.congr fun u => by
      cases u with
      | peer => exact hother _ nofun
      | writer => exact hheld
  · exact ⟨h.holds.lock hlock hheld hother, hapart⟩
  · refine ⟨?_, hapart⟩
    rw [hlocks]
    exact h.holds.unlock (show s.held .writer = m :: s'.held .writer from hheld) hm hother

theorem Safe.step (h : Safe s) {e : Event} (hs : step sha1 t s e = some s')
    (hc : Calm sha1 t s e) : Safe s' := by
  cases e with
  | getBlock ref offset =>
    simp only [Threads.step, getBlock, Option.bind_eq_bind, Option.bind_eq_some_iff,
      Option.guard_eq_some'] at hs
    obtain ⟨_, hidle, piece, -, _, -, hs⟩ := hs
    obtain rfl := Option.some.inj hs
    refine ⟨h.holds.congr fun u => ?_, nofun⟩
    cases u with
    | peer => exact (congrArg PeerAt.held hidle).symm
    | writer => rfl
  | add ref =>
    obtain rfl := Option.some.inj hs
    exact ⟨h.holds, h.apart⟩
  | peer => exact h.peer hc hs
  | writer copies => exact h.writer hc hs
  | fails =>
    simp only [Threads.step, Threads.fails] at hs
    cases hw : s.writer with
    | writing ref copies =>
      rw [hw] at hs
      obtain rfl := Option.some.inj hs
      refine ⟨h.holds.congr fun u => ?_, fun _ _ => nofun⟩
      cases u with
      | peer => rfl
      | writer => exact (congrArg WriterAt.held hw).symm
    | _ =>
      rw [hw] at hs
      cases hs

end

/-- From every state of the pieces and the queue, in which no thread is at work, a run of calm steps
comes to no deadlock. -/
theorem never_deadlocked {w : World} {s : Threads} {es : List Event}
    (hr : Run (fun s e s' => step sha1 t s e = some s' ∧ Calm sha1 t s e) (start w) es s) :
    ¬s.Deadlocked := by
  have h : Safe s := hr.inv (I := Safe) (fun _ _ _ h hs => h.step hs.1 hs.2) (Safe.start w)
  exact h.not_deadlocked

/-- A written piece is read while it is in the queue again: the writer waits for the file mutex. -/
def readFirst : List Event :=
  [.getBlock 0 0, .peer, .peer, .peer, .add 0, .writer 1, .peer, .peer, .peer, .writer 1, .writer 1]

theorem never_deadlocked_read : ∃ t w s, Constructed Torrent.oneByteSha1 t w ∧
    Run (fun s e s' => step Torrent.oneByteSha1 t s e = some s' ∧ Calm Torrent.oneByteSha1 t s e)
      (start w) readFirst s ∧ ¬s.Deadlocked := by
  have hcheck : checkNew Torrent.oneByteSha1 Torrent.oneByteConfig [] Torrent.oneByteFile [0]
      wholeFile (fun t w => (readFirst.foldlM (fun s e => if Calm Torrent.oneByteSha1 t s e then
        step Torrent.oneByteSha1 t s e else none) (start w)).isSome) = true := by
    decide +kernel
  obtain ⟨t, w, hc, h⟩ := checkNew_true hcheck
  obtain ⟨s, hs⟩ := Option.isSome_iff_exists.1 h
  have hr := (Run.of_foldlM hs).mono fun s e s' h => by
    split at h
    · rename_i hcalm
      exact And.intro h hcalm
    · cases h
  exact ⟨t, w, s, hc, hr, never_deadlocked _ t hr⟩

/-- The writer sets the flag of a piece and then waits for its mutex. -/
def setUnderLock : List Event :=
  [.writer 1, .writer 1, .writer 1, .writer 1, .writer 1, .writer 1, .writer 1, .getBlock 0 0,
    .peer, .peer, .writer 1, .peer]

theorem deadlock_reached : ¬∀ (sha1 : Bytes → Sha1) (t : Torrent) (w0 w : World)
    (as : List Action) (s : Threads) (es : List Event), Constructed sha1 t w0 →
      Run (Step sha1 t) w0 as w → Run (fun s e s' => step sha1 t s e = some s') (start w) es s →
        ¬s.Deadlocked := by
  intro hall
  have hcheck : checkNew Torrent.oneByteSha1 Torrent.oneByteConfig [] Torrent.oneByteFile [0] ⟨∅⟩
      (fun t w0 =>
        (Action.runAll (fun _ _ => true) Torrent.oneByteSha1 t requestRun w0).any fun w =>
          (setUnderLock.foldlM (step Torrent.oneByteSha1 t) (start w)).any fun s =>
            decide (s.wants .peer = some .file ∧ s.locks .file = some .writer ∧
              s.wants .writer = some (.piece 0) ∧ s.locks (.piece 0) = some .peer)) = true := by
    decide +kernel
  obtain ⟨t, w0, hc, h⟩ := checkNew_true hcheck
  simp only [Option.any_eq_true, decide_eq_true_eq] at h
  obtain ⟨w, hr, s, hs, hpeer, hfile, hwriter, hpiece⟩ := h
  exact hall _ t w0 w _ s _ hc ((run_of_runAll hr).mono fun _ _ _ h => h.2) (.of_foldlM hs)
    ⟨⟨_, hpeer, hfile⟩, _, hwriter, hpiece⟩

end Threads

end Zit
