import Zit.Proof.FileWriter
import Zit.Proof.Piece

/-!
# What a step can do

Every call a peer, a timer or the file writer makes is a chain of the few changes of `Change`
(`action_moves`, `step_moves`); every invariant of the running torrent is proved once for each of
them. Some changes need a hazard of `Hazards`, something not every invariant survives; the hazards
of a call are what its arguments and the state before it say (`Action.hazards`).
-/

set_option autoImplicit false

namespace Zit

open Lib Lib.Path World

/-- What not every invariant survives. -/
structure Hazards where
  /-- a block is accepted for a piece that is complete already -/
  late : Prop
  /-- the own bitfield gets a size below the number of pieces -/
  short : Prop
  /-- an id comes in that no piece has -/
  wide : Prop
  /-- a piece that is not written is completed -/
  last : Prop
  /-- a piece that is not known to be wrong is not written -/
  fail : Prop

/-- All of them may happen. -/
def Hazards.all : Hazards := ⟨True, True, True, True, True⟩

structure Hazards.Le (a b : Hazards) : Prop where
  late : a.late → b.late
  short : a.short → b.short
  wide : a.wide → b.wide
  last : a.last → b.last
  fail : a.fail → b.fail

theorem Hazards.le_all (a : Hazards) : a.Le all :=
  ⟨fun _ => trivial, fun _ => trivial, fun _ => trivial, fun _ => trivial, fun _ => trivial⟩

/-- One change of the state of the torrent `t`. -/
inductive Change (sha1 : Bytes → Sha1) (t : Torrent) (hz : Hazards) : World → World → Prop
  /-- Peers come and go and change, with the pieces they had. -/
  | peers {w : World} {ps : List Peer}
      (h : ∀ p ∈ ps, p.remotePieces = .empty ∨ ∃ q ∈ w.peers, q.remotePieces = p.remotePieces) :
      Change sha1 t hz w { w with peers := ps }
  /-- A BITFIELD, which sizes the own bitfield when it has no size yet. -/
  | bitfield {w : World} (i : Nat) (bf : Bitfield)
      (hshort : w.clientPieces.size = 0 → bf.size ≠ 0 → bf.size < t.pieces.length → hz.short)
      (hwide : (∃ j, t.pieces.length ≤ j ∧ bf.bit j = true) → hz.wide) :
      Change sha1 t hz w { w with
        peers := w.peers.modify i fun p => { p with remotePieces := bf }
        clientPieces := if w.clientPieces.size = 0 then .ofCount bf.size else w.clientPieces }
  /-- The own bitfield gets the size of the torrent. -/
  | sizeAll {w : World} (h : w.clientPieces.size = 0) :
      Change sha1 t hz w { w with clientPieces := .ofCount t.pieces.length }
  /-- A HAVE. -/
  | remote {w : World} (i : Nat) (bf : Bitfield)
      (h : w.clientPieces.size = 0 → t.pieces = [] ∨ ∃ p ∈ w.peers, p.remotePieces.size ≠ 0)
      (hbits : ∀ j, t.pieces.length ≤ j → j < 2 ^ 32 → bf.bit j = true →
        (∃ p ∈ w.peers, p.remotePieces.bit j = true) ∨ hz.wide) :
      Change sha1 t hz w { w with
        peers := w.peers.modify i fun p => { p with remotePieces := bf } }
  /-- A piece becomes active. -/
  | newPiece {w : World} {id size : UInt32} (h : w.activePieces.lookup id = none)
      (hsize : t.pieceLengthAt id = .ok size)
      (hrange : t.pieces.length ≤ id.toNat →
        (∃ p ∈ w.peers, p.remotePieces.bit id.toNat = true) ∨ hz.wide) :
      Change sha1 t hz w { w with
        heap := w.heap ++ [Piece.create id size]
        activePieces := w.activePieces.insert id w.heap.length }
  /-- Requests are made or forgotten. -/
  | touch {w : World} {ref : Nat} {p p' : Piece} (hp : w.heap[ref]? = some p)
      (hsame : p.SameBlocks p') :
      Change sha1 t hz w { w with heap := w.heap.set ref p' }
  /-- A block. -/
  | block {w : World} {id offset : UInt32} {ref : Nat} {p p' : Piece} {data : Bytes} {now : Int}
      (ha : w.activePieces.lookup id = some ref) (hp : w.heap[ref]? = some p)
      (hb : p.setBlock offset data now = .ok (false, p')) (hlate : p.complete = true → hz.late) :
      Change sha1 t hz w { w with heap := w.heap.set ref p' }
  /-- The block after which a piece is complete. -/
  | lastBlock {w : World} {id offset : UInt32} {ref : Nat} {p p' : Piece} {data : Bytes}
      {now : Int} (ha : w.activePieces.lookup id = some ref) (hp : w.heap[ref]? = some p)
      (hb : p.setBlock offset data now = .ok (true, p')) (hlate : p.complete = true → hz.late)
      (hshort : w.clientPieces.size = 0 →
        (w.clientPieces.set p'.id.toNat true).size < t.pieces.length → hz.short)
      (hlast : p.pieceWritten = false → hz.last) :
      Change sha1 t hz w { w with
        heap := w.heap.set ref p'
        clientPieces := w.clientPieces.set p'.id.toNat true
        queue := w.queue ++ [ref] }
  /-- Nothing is done for the next piece. -/
  | skip {w : World} {ref : Nat} {rest : List Nat} (hq : w.queue = ref :: rest)
      (hfail : ∀ p, w.heap[ref]? = some p →
        (∀ r, w.activePieces.lookup p.id = some r → w.heap[r]? = none) ∨ hz.fail) :
      Change sha1 t hz w { w with queue := rest }
  /-- The data of the next piece is wrong: the active piece with its id starts over. -/
  | reject {w : World} {ref r : Nat} {rest : List Nat} {p q : Piece} {hash : Sha1}
      (hq : w.queue = ref :: rest) (hp : w.heap[ref]? = some p)
      (hh : t.pieces[p.id.toNat]? = some hash) (hne : sha1 p.data ≠ hash)
      (ha : w.activePieces.lookup p.id = some r) (hr : w.heap[r]? = some q) :
      Change sha1 t hz w { w with
        queue := rest
        heap := w.heap.set r q.reset
        clientPieces := w.clientPieces.set p.id.toNat false
        activePieces := w.activePieces.erase p.id }
  /-- The next piece could not be written. -/
  | fail {w : World} {ref : Nat} {rest : List Nat} {p : Piece} {hash : Sha1} {d d' : Disk}
      (hq : w.queue = ref :: rest) (hp : w.heap[ref]? = some p)
      (hh : t.pieces[p.id.toNat]? = some hash) (hd : Allocated t w.disk d)
      (hd' : Attempt t p d d') (hfail : hz.fail) :
      Change sha1 t hz w { w with queue := rest, disk := d' }
  /-- The next piece has been written. -/
  | written {w : World} {ref : Nat} {rest : List Nat} {p : Piece} {d d' : Disk}
      (hq : w.queue = ref :: rest) (hp : w.heap[ref]? = some p)
      (hh : t.pieces[p.id.toNat]? = some (sha1 p.data)) (hd : Allocated t w.disk d)
      (hpres : d.fs.existsPath d.cwd t.tmpfile = true) (hd' : Stored t p d d') :
      Change sha1 t hz w { w with
        queue := rest
        disk := d'
        heap := w.heap.set ref (p.setPieceWritten true)
        marks := w.marks ++ [⟨ref, p.id, p.data, false⟩] }
  /-- The download is complete. -/
  | complete {w : World} {d' : Disk} (h : t.done w = true) (hd : Completed t w.disk d') :
      Change sha1 t hz w { w with disk := d' }
  /-- An operation on the outside world that changes nothing. -/
  | quiet {w : World} {d' : Disk} (h : Disk.Quiet w.disk d') (hfs : d'.fs = w.disk.fs) :
      Change sha1 t hz w { w with disk := d' }

/-- A chain of changes. -/
abbrev Changes (sha1 : Bytes → Sha1) (t : Torrent) (hz : Hazards) : World → World → Prop :=
  Relation.ReflTransGen (Change sha1 t hz)

theorem Change.mono {sha1 : Bytes → Sha1} {t : Torrent} {hz hz' : Hazards} (h : hz.Le hz')
    {w w' : World} (hc : Change sha1 t hz w w') : Change sha1 t hz' w w' := by
  cases hc with
  | peers h1 => exact .peers h1
  | bitfield i bf hshort hwide =>
    exact .bitfield i bf (fun h1 h2 h3 => h.short (hshort h1 h2 h3)) fun h1 => h.wide (hwide h1)
  | sizeAll h1 => exact .sizeAll h1
  | remote i bf h1 hbits =>
    exact .remote i bf h1 fun j h2 h3 h4 => (hbits j h2 h3 h4).imp_right h.wide
  | newPiece h1 h2 hrange => exact .newPiece h1 h2 fun h3 => (hrange h3).imp_right h.wide
  | touch hp hsame => exact .touch hp hsame
  | block ha hp hb hlate => exact .block ha hp hb fun hc => h.late (hlate hc)
  | lastBlock ha hp hb hlate hshort hlast =>
    exact .lastBlock ha hp hb (fun hc => h.late (hlate hc)) (fun h1 h2 => h.short (hshort h1 h2))
      fun hw => h.last (hlast hw)
  | skip hq hfail => exact .skip hq fun p hp => (hfail p hp).imp_right h.fail
  | reject hq hp hh hne ha hr => exact .reject hq hp hh hne ha hr
  | fail hq hp hh hd hd' hfail => exact .fail hq hp hh hd hd' (h.fail hfail)
  | written hq hp hh hd hpres hd' => exact .written hq hp hh hd hpres hd'
  | complete h1 hd => exact .complete h1 hd
  | quiet h1 hfs => exact .quiet h1 hfs

section
variable {sha1 : Bytes → Sha1} {t : Torrent} {hz : Hazards} {α β : Type} {w : World}

/-! ## Reading the state -/

theorem moves_deref {R : World → World → Prop} {ref : Nat} {f : Piece → App β}
    (h : ∀ p, w.heap[ref]? = some p → Moves R (f p) w) : Moves R (deref ref >>= f) w := by
  unfold deref
  rw [bind_assoc]
  apply Moves.bind_get
  cases hp : w.heap[ref]? with
  | none => exact .refl
  | some p => exact h p hp

theorem wp_deref {ref : Nat} {p : Piece} {Q : Piece → World → Prop} {E : Exn → World → Prop}
    (hp : w.heap[ref]? = some p) : wp (deref ref) w Q E ↔ Q p w := by
  simp only [deref, wp_bind, wp_get, hp, wp_pure]

theorem wp_deref_none {ref : Nat} {Q : Piece → World → Prop} {E : Exn → World → Prop}
    (hp : w.heap[ref]? = none) :
    wp (deref ref) w Q E ↔ E (.undefined "null shared_ptr") w := by
  simp only [deref, wp_bind, wp_get, hp, wp_throw]

theorem wp_onDisk {m : DiskM α} {Q : α → World → Prop} {E : Exn → World → Prop} :
    wp (onDisk m) w Q E ↔ wp m w.disk (fun a d => Q a { w with disk := d })
      fun e d => E e { w with disk := d } := wp_zoom m

theorem moves_getPeer {R : World → World → Prop} {i : Nat} {f : Peer → App β}
    (h : ∀ p, w.peers[i]? = some p → Moves R (f p) w) : Moves R (Peer.getPeer i >>= f) w := by
  unfold Peer.getPeer
  rw [bind_assoc]
  apply Moves.bind_get
  cases hp : w.peers[i]? with
  | none => exact .refl
  | some p => exact h p hp

theorem wp_getPeer {i : Nat} {p : Peer} {Q : Peer → World → Prop} {E : Exn → World → Prop}
    (hp : w.peers[i]? = some p) : wp (Peer.getPeer i) w Q E ↔ Q p w := by
  simp only [Peer.getPeer, wp_bind, wp_get, hp, wp_pure]

/-! ## Peers -/

theorem mem_modify {l : List Peer} {i : Nat} {f : Peer → Peer} {x : Peer}
    (h : x ∈ l.modify i f) : x ∈ l ∨ ∃ y ∈ l, x = f y := by
  obtain ⟨k, hk⟩ := List.mem_iff_getElem?.1 h
  rw [List.getElem?_modify] at hk
  obtain ⟨y, hy, he⟩ := Option.map_eq_some_iff.1 hk
  have hmem := List.mem_of_getElem? hy
  split at he
  · exact .inr ⟨y, hmem, he.symm⟩
  · exact .inl (he ▸ hmem)

theorem moves_modifyPeer {i : Nat} {f : Peer → Peer}
    (hf : ∀ p, (f p).remotePieces = p.remotePieces) :
    Moves (Change sha1 t hz) (Peer.modifyPeer i f) w := by
  refine .single (.peers fun p hp => .inr ?_)
  rcases mem_modify hp with hp | ⟨q, hq, rfl⟩
  · exact ⟨p, hp, rfl⟩
  · exact ⟨q, hq, (hf q).symm⟩

/-! ## Active pieces and requests -/

theorem moves_activePiece (id : UInt32) (create : Bool)
    (hrange : create = true → t.pieces.length ≤ id.toNat →
      (∃ p ∈ w.peers, p.remotePieces.bit id.toNat = true) ∨ hz.wide) :
    Moves (Change sha1 t hz) (t.activePiece id create) w := by
  unfold Torrent.activePiece
  apply Moves.bind_get
  cases hl : w.activePieces.lookup id with
  | some ref => exact .refl
  | none =>
    apply Moves.ite
    · intro hc
      apply Moves.bind_lift
      intro size hsize
      exact .single (.newPiece hl hsize (hrange hc))
    · exact fun _ => .refl

theorem activePiece_peers (id : UInt32) (create : Bool) :
    wp (t.activePiece id create) w (fun _ w' => w'.peers = w.peers) fun _ _ => True := by
  simp only [Torrent.activePiece, wp_bind, wp_get]
  cases w.activePieces.lookup id with
  | some ref => exact rfl
  | none =>
    refine wp_ite (fun _ => ?_) fun _ => rfl
    simp only [wp_bind]
    exact (wp_lift _).2 ⟨fun _ _ => rfl, fun _ _ => trivial⟩

theorem moves_nextPieceFrom (relevantPieces : Bitfield) (nonRequested : Bool) (turns start : Nat)
    (w : World) (hbits : ∀ j, relevantPieces.bit j = true →
      ∃ p ∈ w.peers, p.remotePieces.bit j = true) : Moves (Change sha1 t hz)
      (Peer.nextPieceFrom t relevantPieces nonRequested turns start) w := by
  induction turns generalizing start w with
  | zero => exact .refl
  | succ turns ih =>
    unfold Peer.nextPieceFrom
    split
    · exact .refl
    · rename_i nextId hn
      apply Moves.bind_lift
      intro id hid
      have hidn : id.toNat = nextId := by
        obtain ⟨hlt, rfl⟩ := castSizeU32_eq hid
        exact UInt32.toNat_ofNat_of_lt' hlt
      have hbit := hbits nextId (relevantPieces.next_some hn).2.2.1
      apply Moves.bind (moves_activePiece id true fun _ _ => .inl (hidn ▸ hbit))
      intro r w1 h1
      have hpeers : w1.peers = w.peers :=
        wp_ok (Q := fun _ w1 => w1.peers = w.peers) (activePiece_peers id true) h1
      rw [← hpeers] at hbits
      split
      · exact Moves.ite (fun _ => ih _ w1 hbits) fun _ => .refl
      · apply moves_deref
        intro piece _
        apply Moves.bind_lift
        intro offset _
        exact Moves.ite (fun _ => .refl) fun _ => ih _ w1 hbits

theorem moves_nextPiece (i : Nat) (nonRequested : Bool) :
    Moves (Change sha1 t hz) (Peer.nextPiece t i nonRequested) w := by
  unfold Peer.nextPiece
  apply moves_getPeer
  intro p hp
  apply Moves.bind_get
  refine moves_nextPieceFrom _ _ _ _ w fun j hj => ⟨p, List.mem_of_getElem? hp, ?_⟩
  rw [Torrent.relevantPieces, Bitfield.bit_sub] at hj
  simp only [Bool.and_eq_true] at hj
  exact hj.1.1

theorem moves_requestLoop (i : Nat) (now : Int) (n : Nat) (req : Bytes) (requests : Nat)
    (w : World) : Moves (Change sha1 t hz) (Peer.requestLoop t i now n req requests) w := by
  induction n generalizing req requests w with
  | zero => exact .refl
  | succ n ih =>
    unfold Peer.requestLoop
    apply Moves.bind (moves_nextPiece i true)
    intro r w1 _
    split
    · exact .refl
    · rename_i ref
      apply moves_deref
      intro piece hp
      apply Moves.bind_lift
      intro a ha
      apply Moves.bind_modify (.touch hp (Piece.nextOffset_ok ha))
      split
      · exact .refl
      · refine Moves.bind (moves_modifyPeer ?_) fun _ w2 _ => ih _ _ w2
        exact fun _ => rfl

theorem moves_requestNextBlock (i : Nat) (now : Int) (maxPending : UInt16) :
    Moves (Change sha1 t hz) (Peer.requestNextBlock t i now maxPending) w := by
  unfold Peer.requestNextBlock
  apply moves_getPeer
  intro p _
  apply Moves.ite
  · exact fun _ => .refl
  intro _
  apply Moves.ite
  · exact fun _ => .refl
  intro _
  apply Moves.bind_lift
  intro limit _
  apply Moves.ite
  · exact fun _ => .refl
  intro _
  apply Moves.ite
  · exact fun _ => .refl
  intro _
  apply Moves.bind (moves_requestLoop i now _ _ _ w)
  intro r w1 _
  refine Moves.bind (moves_modifyPeer ?_) fun _ _ _ => .refl
  intro p
  split <;> rfl

theorem moves_discard {R : World → World → Prop} {m : App α} (h : Moves R m w) :
    Moves R (discard m) w := h.map

/-! ## Messages of the remote peer -/

theorem moves_setChoking (i : Nat) (choking : Bool) (now : Int) :
    Moves (Change sha1 t hz) (Peer.setChoking t i choking now) w := by
  unfold Peer.setChoking
  apply moves_getPeer
  intro p _
  apply Moves.ite
  · intro _
    refine Moves.bind (moves_modifyPeer ?_) fun _ w1 _ =>
      moves_discard (moves_requestNextBlock i now 0)
    exact fun _ => rfl
  · intro _
    apply Moves.ite
    · exact fun _ => moves_modifyPeer fun _ => rfl
    · exact fun _ => .refl

theorem setAmChoking_remotePieces (p : Peer) (b : Bool) :
    (p.setAmChoking b).remotePieces = p.remotePieces := by
  simp only [Peer.setAmChoking, Peer.write]
  split <;> split <;> rfl

theorem setAmInterested_remotePieces (p : Peer) (done b : Bool) :
    (p.setAmInterested done b).remotePieces = p.remotePieces := by
  simp only [Peer.setAmInterested, Peer.write]
  split
  · rfl
  · split <;> split <;> rfl

theorem moves_setInterested (i : Nat) (interested : Bool) :
    Moves (Change sha1 t hz) (Peer.setInterested i interested) w := by
  apply moves_modifyPeer
  intro p
  dsimp only
  split
  · exact setAmChoking_remotePieces p false
  · rfl

/-- The own bitfield has no size yet and gets one with less than the number of pieces. -/
def ShortBitfield (t : Torrent) (w : World) (bf : Bitfield) : Prop :=
  w.clientPieces.size = 0 ∧ bf.size ≠ 0 ∧ bf.size < t.pieces.length

instance (t : Torrent) (w : World) (bf : Bitfield) : Decidable (ShortBitfield t w bf) :=
  inferInstanceAs (Decidable (_ ∧ _ ∧ _))

/-- A bit that belongs to no piece. -/
def WideBitfield (t : Torrent) (bf : Bitfield) : Prop :=
  ∃ j, t.pieces.length ≤ j ∧ bf.bit j = true

theorem moves_setRemotePieces (i : Nat) (bf : Bitfield) (hshort : ShortBitfield t w bf → hz.short)
    (hwide : WideBitfield t bf → hz.wide) :
    Moves (Change sha1 t hz) (Peer.setRemotePieces i bf) w := by
  have h : wp (Peer.setRemotePieces i bf) w (fun _ w' => w' = { w with
      peers := w.peers.modify i fun p => { p with remotePieces := bf }
      clientPieces := if w.clientPieces.size = 0 then .ofCount bf.size else w.clientPieces })
      (fun _ _ => False) := by
    simp only [Peer.setRemotePieces, Peer.modifyPeer, Torrent.initClientPieces, wp_bind,
      wp_modify, wp_get]
    by_cases hs : w.clientPieces.size = 0
    · rw [if_pos hs, if_pos hs]
      rfl
    · rw [if_neg hs, if_neg hs]
      rfl
  apply wp_mono h
  · intro _ w' hw
    rw [hw]
    exact .single (.bitfield i bf (fun h0 h1 h2 => hshort ⟨h0, h1, h2⟩) hwide)
  · exact fun _ _ hf => hf.elim

/-- A bitfield filled for the pieces has no bit beyond them. -/
theorem filled_bit {n j : Nat} {bf : Bitfield} (h : (Bitfield.ofCount n).fill n true = .ok bf)
    (hn : n < 2 ^ 32) (hj : n ≤ j) : ¬bf.bit j = true := by
  have hsize := Bitfield.size_ofCount n
  have hin : 0 + n ≤ (Bitfield.ofCount n).size := by omega
  obtain ⟨bf', hok, -, hbit⟩ := (Bitfield.ofCount n).fill_ok true hin (by omega)
  rw [h, Except.ok.injEq] at hok
  rw [hok, hbit, if_neg (by omega), Bitfield.bit_ofCount]
  exact Bool.false_ne_true

/-- The id is beyond the pieces, and remembered. -/
def WideHave (t : Torrent) (w : World) (i : Nat) (id : UInt32) : Prop :=
  t.pieces.length ≤ id.toNat ∧ ∃ p, w.peers[i]? = some p ∧ p.remotePieces.count ≠ 0

theorem moves_addRemotePiece (i : Nat) (id : UInt32) (hwide : WideHave t w i id → hz.wide) :
    Moves (Change sha1 t hz) (Peer.addRemotePiece t i id) w := by
  unfold Peer.addRemotePiece
  apply moves_getPeer
  intro p hp
  apply Moves.ite
  · intro _
    have hsize : wp (Torrent.initClientPieces t.pieces.length) w (fun _ w1 =>
        Changes sha1 t hz w w1 ∧ (w1.clientPieces.size = 0 → t.pieces = []))
        (fun _ _ => False) := by
      simp only [Torrent.initClientPieces, wp_bind, wp_get]
      by_cases hs : w.clientPieces.size = 0
      · rw [if_pos hs]
        refine ⟨.single (.sizeAll hs), fun h0 => ?_⟩
        have := Bitfield.le_size_ofCount t.pieces.length
        exact List.eq_nil_of_length_eq_zero (by simp only at h0; omega)
      · rw [if_neg hs]
        exact ⟨.refl, fun h0 => absurd h0 hs⟩
    apply Moves.bind
    · exact wp_mono hsize (fun _ _ h => h.1) fun _ _ h => h.elim
    · intro _ w1 h1
      apply Moves.bind_lift
      intro filled hfilled
      refine .single (.remote i filled (fun h0 => .inl ((wp_ok hsize h1).2 h0)) ?_)
      intro j hj hlt hbit
      exact absurd hbit (filled_bit hfilled (by omega) hj)
  · intro hc
    refine .single ?_
    have hne : p.remotePieces.size ≠ 0 := by
      intro h0
      apply hc
      rw [Bitfield.count_eq_zero]
      exact fun j => Bitfield.bit_of_size_le _ (by omega)
    have heq : (w.peers.modify i fun p => { p with
        remotePieces := p.remotePieces.set id.toNat true }) =
        w.peers.modify i fun q => { q with remotePieces := p.remotePieces.set id.toNat true } := by
      apply List.ext_getElem?
      intro k
      rw [List.getElem?_modify, List.getElem?_modify]
      by_cases hk : i = k
      · rw [← hk, hp]
        simp
      · simp [hk]
    show Change sha1 t hz w { w with peers := _ }
    rw [heq]
    refine .remote i _ (fun _ => .inr ⟨p, List.mem_of_getElem? hp, hne⟩) fun j hj _ hbit => ?_
    by_cases hji : j = id.toNat
    · exact .inr (hwide ⟨hji ▸ hj, p, hp, hc⟩)
    · rw [Bitfield.bit_set_ne _ _ hji] at hbit
      exact .inl ⟨p, List.mem_of_getElem? hp, hbit⟩

theorem moves_haveId (i : Nat) (id : UInt32) (now : Int) (hwide : WideHave t w i id → hz.wide) :
    Moves (Change sha1 t hz) (Peer.haveId t i id now) w :=
  Moves.bind (moves_addRemotePiece i id hwide) fun _ _ _ =>
    moves_discard (moves_requestNextBlock i now 0)

/-- Reading leaves the disk as it is. -/
theorem readLoop_spec (turns : Nat) (remaining : Int) (cpos : UInt32) (data : Bytes) (d : Disk) :
    wp (FileWriter.readLoop t turns remaining cpos data) d (fun _ d' => d' = d)
      (fun _ d' => d' = d) := by
  induction turns generalizing remaining cpos data with
  | zero => rfl
  | succ turns ih =>
    unfold FileWriter.readLoop
    split
    · simp only [wp_bind]
      refine (wp_lift _).2 ⟨fun a _ => ?_, fun _ _ => rfl⟩
      obtain ⟨path, off, left⟩ := a
      refine (wp_lift _).2 ⟨fun len _ => ?_, fun _ _ => rfl⟩
      simp only [Disk.read, wp_bind, wp_get]
      split
      · exact ih _ _ _
      · rfl
    · rfl

theorem getBlock_spec (p : Piece) (offset length : UInt32) (d : Disk) :
    wp (p.getBlock offset t length) d (fun _ d' => d' = d) (fun _ d' => d' = d) := by
  unfold Piece.getBlock
  refine wp_ite (fun _ => rfl) fun _ => wp_ite (fun _ => rfl) fun _ => ?_
  simp only [wp_bind]
  refine (wp_lift _).2 ⟨fun done _ => ?_, fun _ _ => rfl⟩
  refine wp_ite (fun _ => rfl) fun _ => wp_ite (fun _ => ?_) fun _ => ?_
  · exact readLoop_spec _ _ _ _ d
  · exact wp_ite (fun _ => rfl) fun _ => rfl

/-- The id is beyond the pieces, and the peer may request pieces. -/
def WideRequest (t : Torrent) (w : World) (i : Nat) (index : UInt32) : Prop :=
  t.pieces.length ≤ index.toNat ∧
    ∃ p, w.peers[i]? = some p ∧ p.amChoking = false ∧ p.interested = true

theorem moves_request (i : Nat) (index begin length : UInt32)
    (hwide : WideRequest t w i index → hz.wide) :
    Moves (Change sha1 t hz) (Peer.request t i index begin length) w := by
  unfold Peer.request
  apply moves_getPeer
  intro p hp
  apply Moves.ite
  · exact fun _ => .refl
  intro hchoking
  apply Moves.ite
  · exact fun _ => .refl
  intro hinterested
  have hmay : p.amChoking = false ∧ p.interested = true :=
    ⟨by simpa using hchoking, by simpa using hinterested⟩
  apply Moves.bind (moves_activePiece index true fun _ hle => .inr (hwide ⟨hle, p, hp, hmay⟩))
  intro r w1 _
  split
  · exact .refl
  · apply moves_deref
    intro piece _
    have hdisk : Moves (Change sha1 t hz) (onDisk (piece.getBlock begin t length)) w1 := by
      unfold Moves onDisk
      rw [wp_zoom]
      apply wp_mono (getBlock_spec piece begin length w1.disk)
      · intro _ d' h
        rw [h]
      · intro _ d' h
        rw [h]
    apply Moves.bind hdisk
    intro data w2 _
    apply Moves.ite
    · intro _
      apply Moves.bind_lift
      intro msg _
      exact moves_modifyPeer fun _ => rfl
    · exact fun _ => .refl

theorem moves_reportBitfield (i : Nat) :
    Moves (Change sha1 t hz) (Peer.reportBitfield i) w := by
  unfold Peer.reportBitfield
  apply Moves.bind_get
  apply Moves.ite
  · intro _
    apply Moves.bind_lift
    intro msg _
    exact moves_modifyPeer fun _ => rfl
  · exact fun _ => .refl

theorem moves_setAmInterestedOf (i : Nat) (amInterested : Bool) :
    Moves (Change sha1 t hz) (Peer.setAmInterestedOf t i amInterested) w := by
  unfold Peer.setAmInterestedOf
  apply Moves.bind_get
  exact moves_modifyPeer fun p => setAmInterested_remotePieces p _ _

/-! ## Blocks -/

/-- The active piece with this id is one of `P`. -/
def ActiveIs (w : World) (id : UInt32) (P : Piece → Prop) : Prop :=
  ∃ ref p, w.activePieces.lookup id = some ref ∧ w.heap[ref]? = some p ∧ P p

instance (w : World) (id : UInt32) (P : Piece → Prop) [DecidablePred P] :
    Decidable (ActiveIs w id P) :=
  decidable_of_iff (((w.activePieces.lookup id).any fun ref =>
      (w.heap[ref]?).any fun p => decide (P p)) = true) <| by
    simp only [Option.any_eq_true, decide_eq_true_eq, ActiveIs]
    constructor
    · intro h
      obtain ⟨ref, hl, p, hp, h⟩ := h
      exact ⟨ref, p, hl, hp, h⟩
    · intro h
      obtain ⟨ref, p, hl, hp, h⟩ := h
      exact ⟨ref, hl, p, hp, h⟩

/-- The block is accepted and the piece it is for is complete already. -/
def LateBlock (w : World) (id offset : UInt32) (data : Bytes) (now : Int) : Prop :=
  ActiveIs w id fun p => p.complete = true ∧ (p.setBlock offset data now).isOk = true

/-- The block completes a piece that is not written. -/
def LastBlock (w : World) (id offset : UInt32) (data : Bytes) (now : Int) : Prop :=
  ActiveIs w id fun p =>
    p.pieceWritten = false ∧ (p.setBlock offset data now).map Prod.fst = .ok true

/-- The own bitfield has no size yet and gets a size below the number of pieces from the first
piece that is complete. -/
def EarlyBlock (t : Torrent) (w : World) (id offset : UInt32) (data : Bytes) (now : Int) : Prop :=
  w.clientPieces.size = 0 ∧ ActiveIs w id fun p =>
    (w.clientPieces.set p.id.toNat true).size < t.pieces.length ∧
      (p.setBlock offset data now).map Prod.fst = .ok true

instance (w : World) (id offset : UInt32) (data : Bytes) (now : Int) :
    Decidable (LateBlock w id offset data now) :=
  inferInstanceAs (Decidable (ActiveIs w id _))

instance (w : World) (id offset : UInt32) (data : Bytes) (now : Int) :
    Decidable (LastBlock w id offset data now) :=
  inferInstanceAs (Decidable (ActiveIs w id _))

instance (t : Torrent) (w : World) (id offset : UInt32) (data : Bytes) (now : Int) :
    Decidable (EarlyBlock t w id offset data now) :=
  inferInstanceAs (Decidable (_ ∧ ActiveIs w id _))

theorem moves_setBlock (id offset : UInt32) (data : Bytes) (now : Int)
    (hlate : LateBlock w id offset data now → hz.late)
    (hshort : EarlyBlock t w id offset data now → hz.short)
    (hlast : LastBlock w id offset data now → hz.last) :
    Moves (Change sha1 t hz) (Torrent.setBlock id offset data now) w := by
  unfold Torrent.setBlock
  apply Moves.bind_get
  cases ha : w.activePieces.lookup id with
  | none => exact .refl
  | some ref =>
    apply moves_deref
    intro p hp
    apply Moves.bind_lift
    intro r hr
    obtain ⟨last, p'⟩ := r
    have hlate : p.complete = true → hz.late := 
      fun hc => hlate ⟨ref, p, ha, hp, hc, by rw [hr]; rfl⟩
    have hget : (w.heap.set ref p')[ref]? = some p' := by
      rw [List.getElem?_set_self]
      exact (List.getElem?_eq_some_iff.1 hp).1
    cases last with
    | false => exact .single (.block ha hp hr hlate)
    | true =>
      have h : wp (Torrent.pieceDone ref) { w with heap := w.heap.set ref p' }
          (fun _ w' => w' = { w with
            heap := w.heap.set ref p'
            clientPieces := w.clientPieces.set p'.id.toNat true
            queue := w.queue ++ [ref] }) (fun _ _ => False) := by
        simp only [Torrent.pieceDone, deref, wp_bind, wp_get, hget, wp_pure, wp_modify]
      have hmove : Moves (Change sha1 t hz) (do
          store ref p'
          Torrent.pieceDone ref) w := by
        apply wp_mono (Q := fun _ w' => w' = { w with
            heap := w.heap.set ref p'
            clientPieces := w.clientPieces.set p'.id.toNat true
            queue := w.queue ++ [ref] }) (E := fun _ _ => False) h
        · intro _ w' hw
          rw [hw]
          have hl : (p.setBlock offset data now).map Prod.fst = .ok true :=
            map_eq_ok.2 ⟨_, hr, rfl⟩
          have hid := (Piece.setBlock_ok hr).1
          refine .single (.lastBlock ha hp hr hlate (fun h0 h1 => hshort ⟨h0, ref, p, ha, hp, ?_, hl⟩)
            fun hw => hlast ⟨ref, p, ha, hp, hw, hl⟩)
          rwa [← hid]
        · exact fun _ _ hf => hf.elim
      have := Moves.bind (f := fun _ => pure true) hmove fun _ _ _ => .refl
      rwa [bind_assoc] at this

theorem moves_peerSetBlock (i : Nat) (id offset : UInt32) (data : Bytes) (now : Int)
    (hlate : LateBlock w id offset data now → hz.late)
    (hshort : EarlyBlock t w id offset data now → hz.short)
    (hlast : LastBlock w id offset data now → hz.last) :
    Moves (Change sha1 t hz) (Peer.setBlock t i id offset data now) w := by
  unfold Peer.setBlock
  have hpeer : Change sha1 t hz w { w with peers := w.peers.modify i fun p =>
      { p with pendingRequests := if p.pendingRequests > 0 then p.pendingRequests - 1
        else p.pendingRequests } } := by
    refine .peers fun p hp => .inr ?_
    rcases mem_modify hp with hp | ⟨q, hq, rfl⟩
    · exact ⟨p, hp, rfl⟩
    · exact ⟨q, hq, rfl⟩
  apply Moves.bind_modify hpeer
  refine Moves.bind (moves_discard (moves_setBlock id offset data now hlate hshort hlast))
    fun _ w1 _ => ?_
  exact moves_discard (moves_requestNextBlock i now 0)

theorem moves_retryBlocks (id : UInt32) (now : Int) :
    Moves (Change sha1 t hz) (retryBlocksOf id now) w := by
  unfold retryBlocksOf
  apply Moves.bind_get
  cases w.activePieces.lookup id with
  | none => exact .refl
  | some ref =>
    apply moves_deref
    intro p hp
    exact .single (.touch hp (p.retryBlocks_same now))

/-! ## The file writer -/

/-- What the `try` block does with the disk for a piece that is right. -/
def storePiece (t : Torrent) (p : Piece) : DiskM Unit := do
  TorrentDestination.allocate t
  TorrentDestination.verifyFileSize t
  TorrentDestination.writePiece t p
  TorrentDestination.verifyFileSize t

theorem storePiece_spec {p : Piece} {d : Disk} : wp (storePiece t p) d
    (fun _ d' => ∃ d1, Allocated t d d1 ∧ d1.fs.existsPath d1.cwd t.tmpfile = true ∧
      Stored t p d1 d')
    (fun _ d' => ∃ d1, Allocated t d d1 ∧ Attempt t p d1 d') := by
  simp only [storePiece, wp_bind]
  apply wp_mono allocate_spec
  · intro _ d1 h1
    apply wp_mono verifyFileSize_spec
    · intro _ d2 h2
      rw [h2]
      apply wp_mono writePiece_spec
      · intro _ d3 h3
        apply wp_mono verifyFileSize_spec
        · intro _ d4 h4
          rw [h4]
          exact ⟨d1, h1.1, h1.2, h3⟩
        · intro _ d4 h4
          rw [h4]
          exact ⟨d1, h1.1, h3.toAttempt⟩
      · exact fun _ d3 h3 => ⟨d1, h1.1, h3⟩
    · intro _ d2 h2
      rw [h2]
      exact ⟨d1, h1.1, .refl d1⟩
  · exact fun _ d1 h1 => ⟨d1, h1, .refl d1⟩

/-- The next piece has no hash, or its data is right and cannot be written. -/
def WriteFails (sha1 : Bytes → Sha1) (t : Torrent) (w : World) : Prop :=
  ∃ ref rest p, w.queue = ref :: rest ∧ w.heap[ref]? = some p ∧
    (t.pieces[p.id.toNat]? = none ∨
      t.pieces[p.id.toNat]? = some (sha1 p.data) ∧ ∃ e d', storePiece t p w.disk = .error e d')

theorem lastPieceWritten_changes :
    Moves (Change sha1 t hz) Torrent.lastPieceWritten w := by
  unfold Torrent.lastPieceWritten
  have hpeers : Change sha1 t hz w { w with
      peers := w.peers.map fun p => if p.listening then p else p.setAmInterested false false } := by
    refine .peers fun p hp => .inr ?_
    obtain ⟨q, hq, rfl⟩ := List.mem_map.1 hp
    refine ⟨q, hq, ?_⟩
    split
    · rfl
    · exact (setAmInterested_remotePieces q _ _).symm
  apply Moves.bind_modify hpeers
  refine Moves.bind (.single (.quiet ⟨rfl, rfl, rfl⟩ rfl)) fun r w1 _ => ?_
  cases r <;> exact .refl

section
variable {ref : Nat} {rest : List Nat} {p : Piece} {hash : Sha1}

/-- The next piece is wrong. -/
theorem resetPiece_changes (hq : w.queue = ref :: rest) (hp : w.heap[ref]? = some p)
    (hh : t.pieces[p.id.toNat]? = some hash) (hne : sha1 p.data ≠ hash) :
    wp (Torrent.resetPiece p.id) { w with queue := rest }
      (fun _ w' => Changes sha1 t hz w w') (fun _ w' => Changes sha1 t hz w w') := by
  have hskip : (∀ r, w.activePieces.lookup p.id = some r → w.heap[r]? = none) →
      Changes sha1 t hz w { w with queue := rest } := by
    intro hr
    refine .single (.skip hq fun q hq' => .inl ?_)
    rw [hp] at hq'
    rwa [← Option.some.inj hq']
  simp only [Torrent.resetPiece, wp_bind, wp_get]
  cases ha : w.activePieces.lookup p.id with
  | none => exact hskip fun r hr => by rw [ha] at hr; cases hr
  | some r =>
    simp only [wp_bind]
    cases hr : w.heap[r]? with
    | none =>
      refine (wp_deref_none (w := { w with queue := rest }) hr).2 (hskip fun k hk => ?_)
      rw [ha] at hk
      rw [← Option.some.inj hk, hr]
    | some q =>
      exact (wp_deref (w := { w with queue := rest }) hr).2
        (Relation.ReflTransGen.single (.reject hq hp hh hne ha hr))

/-- What follows when the next piece has been written. -/
theorem written_changes (hq : w.queue = ref :: rest) (hp : w.heap[ref]? = some p)
    (hh : t.pieces[p.id.toNat]? = some (sha1 p.data)) {d d' : Disk} (hd : Allocated t w.disk d)
    (hpres : d.fs.existsPath d.cwd t.tmpfile = true) (hd' : Stored t p d d') :
    wp (do
        setWritten ref p.data false
        let w ← get
        if t.done w then
          onDisk (TorrentDestination.torrentComplete t)
          Torrent.lastPieceWritten) { w with queue := rest, disk := d' }
      (fun _ w' => Changes sha1 t hz w w') (fun _ w' => Changes sha1 t hz w w') := by
  have hwritten : Change sha1 t hz w _ := .written hq hp hh hd hpres hd'
  simp only [setWritten, wp_bind]
  refine (wp_deref (w := { w with queue := rest, disk := d' }) hp).2 ?_
  simp only [store, wp_modify, wp_get]
  refine wp_ite (fun hdone => ?_) fun _ => Relation.ReflTransGen.single hwritten
  simp only [wp_bind, wp_onDisk]
  apply wp_mono torrentComplete_spec
  · intro _ d1 h1
    have hc := (Relation.ReflTransGen.single hwritten).tail (Change.complete hdone h1)
    exact wp_mono lastPieceWritten_changes (fun _ _ h => hc.trans h) fun _ _ h => hc.trans h
  · intro _ d1 h1
    exact (Relation.ReflTransGen.single hwritten).tail (.quiet h1.1 h1.2)

/-- The `try` block, from the state the queue was popped in. -/
theorem writePiece_changes (hq : w.queue = ref :: rest) (hfail : WriteFails sha1 t w → hz.fail) :
    wp (FileWriter.writePiece sha1 t ref) { w with queue := rest }
      (fun _ w' => Changes sha1 t hz w w') (fun _ w' => Changes sha1 t hz w w') := by
  unfold FileWriter.writePiece
  simp only [wp_bind]
  cases hp : w.heap[ref]? with
  | none =>
    refine (wp_deref_none (w := { w with queue := rest }) hp).2 (.single (.skip hq fun p hp' => ?_))
    rw [hp] at hp'
    cases hp'
  | some p =>
    refine (wp_deref (w := { w with queue := rest }) hp).2 ?_
    cases hh : t.pieces[p.id.toNat]? with
    | none =>
      refine Relation.ReflTransGen.single (.skip hq fun q hq' => .inr (hfail ?_))
      exact ⟨ref, rest, p, hq, hp, .inl hh⟩
    | some hash =>
      refine wp_ite (fun hne => resetPiece_changes hq hp hh hne) fun heq => ?_
      have hsha : sha1 p.data = hash := by simpa using heq
      rw [← hsha] at hh
      have hstore : wp (storePiece t p) w.disk
          (fun _ d => wp (do
            setWritten ref p.data false
            let w ← get
            if t.done w then
              onDisk (TorrentDestination.torrentComplete t)
              Torrent.lastPieceWritten) { w with queue := rest, disk := d }
            (fun _ w' => Changes sha1 t hz w w') (fun _ w' => Changes sha1 t hz w w'))
          (fun _ d => Changes sha1 t hz w { w with queue := rest, disk := d }) := by
        apply wp_of
        · intro _ d' hok
          obtain ⟨d, hd, hpres, hd'⟩ := wp_ok storePiece_spec hok
          exact written_changes hq hp hh hd hpres hd'
        · intro e d' herr
          obtain ⟨d, hd, hd'⟩ := wp_error storePiece_spec herr
          have hf := hfail ⟨ref, rest, p, hq, hp, .inr ⟨hh, e, d', herr⟩⟩
          exact .single (.fail hq hp hh hd hd' hf)
      simpa only [storePiece, wp_bind, wp_onDisk] using hstore

end

theorem writeNextPiece_changes (hfail : WriteFails sha1 t w → hz.fail) :
    Moves (Change sha1 t hz) (FileWriter.writeNextPiece sha1 t) w := by
  unfold FileWriter.writeNextPiece
  apply Moves.bind_get
  cases hq : w.queue with
  | nil => exact .refl
  | cons ref rest =>
    have h := writePiece_changes hq hfail
    show wp (do
      set { w with queue := rest }
      tryCatch (FileWriter.writePiece sha1 t ref) fun e =>
        if e.isStd then pure () else throw e) w _ _
    simp only [wp_bind, wp_set, wp_tryCatch]
    refine wp_mono h (fun _ _ h => h) fun e w' h => ?_
    exact wp_ite (fun _ => h) fun _ => h

/-! ## Steps -/

/-- The hazards of a call in a state. -/
def Action.hazards (sha1 : Bytes → Sha1) (t : Torrent) (w : World) : Action → Hazards
  | .setRemotePieces _ bf => ⟨False, ShortBitfield t w bf, WideBitfield t bf, False, False⟩
  | .have i id _ => ⟨False, False, WideHave t w i id, False, False⟩
  | .request i index _ _ => ⟨False, False, WideRequest t w i index, False, False⟩
  | .setBlock _ pieceId offset data now | .storeBlock pieceId offset data now =>
    ⟨LateBlock w pieceId offset data now, EarlyBlock t w pieceId offset data now, False,
      LastBlock w pieceId offset data now, False⟩
  | .activePiece id create =>
    ⟨False, False, t.pieces.length ≤ id.toNat ∧ create = true, False, False⟩
  | .writeNextPiece faults =>
    ⟨False, False, False, False, WriteFails sha1 t { w with disk := { w.disk with faults } }⟩
  | _ => ⟨False, False, False, False, False⟩

theorem action_moves (a : Action) (h : (a.hazards sha1 t w).Le hz) :
    Moves (Change sha1 t hz) (a.run sha1 t) w := by
  cases a with
  | connect listening =>
    refine .single (.peers fun p hp => ?_)
    rcases List.mem_append.1 hp with hp | hp
    · exact .inr ⟨p, hp, rfl⟩
    · rw [List.mem_singleton.1 hp]
      exact .inl rfl
  | disconnect i => exact .single (.peers fun p hp => .inr ⟨p, List.mem_of_mem_eraseIdx hp, rfl⟩)
  | setRemotePieces i bf => exact moves_setRemotePieces i bf h.short h.wide
  | «have» i id now => exact moves_haveId i id now h.wide
  | setChoking i choking now => exact moves_setChoking i choking now
  | setInterested i interested => exact moves_setInterested i interested
  | setAmInterested i amInterested => exact moves_setAmInterestedOf i amInterested
  | setAmChoking i amChoking => exact moves_modifyPeer fun p => setAmChoking_remotePieces p _
  | request i index begin length => exact moves_request i index begin length h.wide
  | reportBitfield i => exact moves_reportBitfield i
  | requestNextBlock i now maxPending =>
    exact moves_discard (moves_requestNextBlock i now maxPending)
  | setBlock i pieceId offset data now =>
    exact moves_peerSetBlock i _ _ _ now h.late h.short h.last
  | storeBlock pieceId offset data now =>
    exact moves_discard (moves_setBlock _ _ _ now h.late h.short h.last)
  | activePiece id create =>
    exact moves_discard (moves_activePiece id create fun hc hle => .inr (h.wide ⟨hle, hc⟩))
  | retryBlocks id now => exact moves_retryBlocks id now
  | writeNextPiece faults =>
    refine Moves.bind_modify (.quiet ⟨rfl, rfl, rfl⟩ rfl) ?_
    exact writeNextPiece_changes h.fail

/-- What a call is specified to do, a step does. -/
theorem Step.spec {a : Action} {w' : World} {Q : Unit → World → Prop} {E : Exn → World → Prop}
    (h : Step sha1 t w a w') (hs : wp (a.run sha1 t) w Q E) : Q () w' ∨ ∃ e, E e w' := by
  unfold Step wp at h
  cases hr : a.run sha1 t w with
  | ok u w1 =>
    rw [hr] at h
    rw [h]
    exact .inl (wp_ok hs hr)
  | error e w1 =>
    rw [hr] at h
    rw [h.2]
    exact .inr ⟨e, wp_error hs hr⟩

theorem step_moves {a : Action} {w' : World} (h : Step sha1 t w a w')
    (hz' : (a.hazards sha1 t w).Le hz) : Changes sha1 t hz w w' :=
  (h.spec (action_moves a hz')).elim id fun h => h.choose_spec

/-- A step whose hazards are all in `hz`. -/
def StepWithin (sha1 : Bytes → Sha1) (t : Torrent) (hz : Hazards) (w : World) (a : Action)
    (w' : World) : Prop := (a.hazards sha1 t w).Le hz ∧ Step sha1 t w a w'

/-- What every change keeps, a run keeps. -/
theorem run_changes {as : List Action} {w' : World} (h : Run (StepWithin sha1 t hz) w as w') :
    Changes sha1 t hz w w' := by
  induction h with
  | nil => exact .refl
  | cons h1 _ ih => exact (step_moves h1.2 h1.1).trans ih

theorem run_all {as : List Action} {w' : World} (h : Run (Step sha1 t) w as w') :
    Run (StepWithin sha1 t .all) w as w' := h.mono fun _ _ _ h => ⟨Hazards.le_all _, h⟩

end

end Zit
