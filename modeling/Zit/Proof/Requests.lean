import Zit.Proof.Answers
import Zit.Proof.Formed
import Zit.Proof.Metadata

/-!
# The requests for blocks

`request_next_block` goes through the pieces the remote peer has and the torrent lacks, and in each
of them through the blocks that are neither requested nor done. `candidates` lists them in this
order, with a gap for a piece that cannot become active. Every turn of the loop takes the first of
them and leaves the others (`mark_spec`), so a call whose gaps are out of reach requests as many as
it needs, or all there are (`requestNextBlock_requests`).
-/

set_option autoImplicit false

namespace Zit

open Lib Lib.Path World

/-! ## The free blocks of a piece -/

namespace Piece

/-- The blocks that are neither requested nor done. -/
def freeBlocks (p : Piece) : List Nat :=
  (List.range p.blockCount.toNat).filter fun j => !p.blocksRequested.bit j && !p.blocksDone.bit j

variable {p p' : Piece} {j : Nat}

theorem mem_freeBlocks : j ∈ p.freeBlocks ↔ j < p.blockCount.toNat ∧
    p.blocksRequested.bit j = false ∧ p.blocksDone.bit j = false := by
  simp [freeBlocks]

theorem freeBlocks_sorted (p : Piece) : p.freeBlocks.Pairwise (· < ·) :=
  List.pairwise_lt_range.filter _

theorem freeBlocks_nodup (p : Piece) : p.freeBlocks.Nodup := List.nodup_range.filter _

/-- A block is marked. -/
theorem freeBlocks_mark {rest : List Nat} (h : p.freeBlocks = j :: rest) (now : Int) :
    freeBlocks { p with blocksRequested := p.blocksRequested.set j true, lastRequest := now } =
      rest := by
  have hrest : freeBlocks
      { p with blocksRequested := p.blocksRequested.set j true, lastRequest := now } =
        p.freeBlocks.filter (· ≠ j) := by
    simp only [freeBlocks, List.filter_filter, blockCount, Bitfield.bit_set]
    apply List.filter_congr
    intro k _
    by_cases hk : k = j <;> simp [hk]
  have hn := p.freeBlocks_nodup
  rw [h, List.nodup_cons] at hn
  rw [hrest, h, List.filter_cons_of_neg (by simp), List.filter_eq_self]
  exact fun k hk => by simpa using ne_of_mem_of_not_mem hk hn.1

/-- `next_offset` finds the first free block. -/
theorem Formed.nextOffset_free (h : p.Formed) (mark : Bool) (now : Int) :
    (p.freeBlocks = [] ∧ p.nextOffset mark now = .ok (none, p)) ∨
      ∃ j rest, p.freeBlocks = j :: rest ∧ p.nextOffset mark now = .ok (some (blockOffset j),
        if mark then { p with blocksRequested := p.blocksRequested.set j true, lastRequest := now }
        else p) := by
  rcases h.nextOffset_first mark now with ⟨hno, hall⟩ | ⟨next, hlt, hreq, hdone, hbefore, hsome⟩
  · refine .inl ⟨List.eq_nil_iff_forall_not_mem.2 fun j hj => ?_, hno⟩
    obtain ⟨hj, hreq, hdone⟩ := mem_freeBlocks.1 hj
    have := hall j hj
    simp [hreq, hdone] at this
  · have hmem : next ∈ p.freeBlocks := mem_freeBlocks.2 ⟨hlt, hreq, hdone⟩
    cases hf : p.freeBlocks with
    | nil =>
      rw [hf] at hmem
      cases hmem
    | cons j rest =>
      have hsorted := p.freeBlocks_sorted
      rw [hf] at hmem hsorted
      obtain ⟨-, hreq', hdone'⟩ := mem_freeBlocks.1 (hf ▸ List.mem_cons_self : j ∈ p.freeBlocks)
      rcases List.mem_cons.1 hmem with rfl | hrest
      · exact .inr ⟨next, rest, rfl, hsome⟩
      · have := hbefore j (List.rel_of_pairwise_cons hsorted hrest)
        simp [hreq', hdone'] at this

end Piece

/-! ## The candidates -/

/-- The piece `active_piece(id)` returns, unless it throws. -/
def pieceFor (t : Torrent) (w : World) (id : UInt32) : Option Piece :=
  (w.activePieces.lookup id).elim ((t.pieceLengthAt id).toOption.map (Piece.create id))
    (w.heap[·]?)

/-- The piece at an index of a bitfield, unless asking for it throws. -/
def pieceAt (t : Torrent) (w : World) (k : Nat) : Option Piece :=
  if k < 2 ^ 32 then pieceFor t w (UInt32.ofNat k) else none

/-- A block of a piece. -/
abbrev Block := UInt32 × Nat

/-- The candidates at an index: the free blocks, or a gap if the piece cannot become active. -/
def candidatesAt (t : Torrent) (w : World) (relevant : Bitfield) (k : Nat) : List (Option Block) :=
  if relevant.bit k then
    (pieceAt t w k).elim [none] fun p => p.freeBlocks.map fun j => some (UInt32.ofNat k, j)
  else []

def candidatesFrom (t : Torrent) (w : World) (relevant : Bitfield) (start : Nat) :
    List (Option Block) :=
  (List.range' start (relevant.size - start)).flatMap (candidatesAt t w relevant)

/-- The blocks to request, in order. -/
def candidates (t : Torrent) (w : World) (relevant : Bitfield) : List (Option Block) :=
  candidatesFrom t w relevant 0

/-- The REQUEST for a block. -/
def requestOf (t : Torrent) (w : World) (b : Block) : Bytes :=
  (pieceFor t w b.1).elim [] fun p =>
    requestMsg b.1 (Piece.blockOffset b.2) (Peer.requestLength p (Piece.blockOffset b.2))

/-- The block is requested. -/
def Requested (w : World) (b : Block) : Prop :=
  ∃ ref p, w.activePieces.lookup b.1 = some ref ∧ w.heap[ref]? = some p ∧
    p.blocksRequested.bit b.2 = true

section
variable {sha1 : Bytes → Sha1} {t : Torrent} {w w' w'' : World} {i : Nat} {relevant : Bitfield}

theorem candidatesFrom_end {start : Nat} (h : ∀ k, start ≤ k → ¬relevant.bit k = true) :
    candidatesFrom t w relevant start = [] := by
  rw [candidatesFrom, List.flatMap_eq_nil_iff]
  intro k hk
  rw [candidatesAt, if_neg (h k (List.mem_range'_1.1 hk).1)]

/-- The candidates at the next piece come first. -/
theorem candidatesFrom_next {start next : Nat} (hle : start ≤ next) (hlt : next < relevant.size)
    (hno : ∀ k, start ≤ k → k < next → ¬relevant.bit k = true) :
    candidatesFrom t w relevant start =
      candidatesAt t w relevant next ++ candidatesFrom t w relevant (next + 1) := by
  have hsplit : List.range' start (relevant.size - start) =
      List.range' start (next - start) ++ next ::
        List.range' (next + 1) (relevant.size - (next + 1)) := by
    have h1 : relevant.size - start = (next - start) + (relevant.size - next) := by omega
    have h2 : relevant.size - next = (relevant.size - (next + 1)) + 1 := by omega
    rw [h1, ← List.range'_append_1, show start + (next - start) = next by omega, h2,
      List.range'_succ]
  rw [candidatesFrom, hsplit, List.flatMap_append, List.flatMap_cons]
  have hnil : (List.range' start (next - start)).flatMap (candidatesAt t w relevant) = [] := by
    rw [List.flatMap_eq_nil_iff]
    intro k hk
    have hin := List.mem_range'_1.1 hk
    rw [candidatesAt, if_neg (hno k hin.1 (by omega))]
  rw [hnil]
  rfl

/-! ## Pieces become active -/

/-- Other pieces may be active, and nothing else has changed. -/
structure Activated (t : Torrent) (w w' : World) : Prop where
  pieces : ∀ id, pieceFor t w' id = pieceFor t w id
  requested : ∀ b, Requested w b → Requested w' b
  peers : w'.peers = w.peers
  own : w'.clientPieces = w.clientPieces
  disk : w'.disk = w.disk

namespace Activated

theorem refl (w : World) : Activated t w w := ⟨fun _ => rfl, fun _ h => h, rfl, rfl, rfl⟩

theorem trans (h : Activated t w w') (h' : Activated t w' w'') : Activated t w w'' :=
  ⟨fun id => (h'.pieces id).trans (h.pieces id), fun b hb => h'.requested b (h.requested b hb),
    h'.peers.trans h.peers, h'.own.trans h.own, h'.disk.trans h.disk⟩

theorem candidatesFrom (h : Activated t w w') (start : Nat) :
    Zit.candidatesFrom t w' relevant start = Zit.candidatesFrom t w relevant start := by
  have hat : candidatesAt t w' relevant = candidatesAt t w relevant := by
    funext k
    simp only [candidatesAt, pieceAt, h.pieces]
  rw [Zit.candidatesFrom, hat]
  rfl

theorem candidates (h : Activated t w w') :
    Zit.candidates t w' relevant = Zit.candidates t w relevant := h.candidatesFrom 0

theorem requestOf (h : Activated t w w') (b : Block) : requestOf t w' b = Zit.requestOf t w b := by
  simp only [Zit.requestOf, h.pieces]

end Activated

/-- An active piece. -/
theorem pieceFor_active {id : UInt32} {ref : Nat} (ha : w.activePieces.lookup id = some ref) :
    pieceFor t w id = w.heap[ref]? := by
  rw [pieceFor, ha]
  rfl

theorem WellFormed.pieceFor_formed (h : WellFormed sha1 t w) {id : UInt32} {p : Piece}
    (hp : pieceFor t w id = some p) : p.Formed := by
  cases hl : w.activePieces.lookup id with
  | some ref =>
    rw [pieceFor_active hl] at hp
    exact h.formed _ _ hp
  | none =>
    rw [pieceFor, hl] at hp
    obtain ⟨size, -, rfl⟩ := Option.map_eq_some_iff.1 hp
    exact Piece.Formed.create id size

/-- What becomes active is the piece that was asked for. -/
theorem activePiece_for (h : WellFormed sha1 t w) {id : UInt32} {p : Piece}
    (hp : pieceFor t w id = some p) :
    wp (t.activePiece id) w (fun r w' => ∃ ref, r = some ref ∧
      w'.activePieces.lookup id = some ref ∧ w'.heap[ref]? = some p ∧ WellFormed sha1 t w' ∧
        Activated t w w') fun _ _ => False := by
  simp only [Torrent.activePiece, wp_bind, wp_get]
  cases hl : w.activePieces.lookup id with
  | some ref =>
    rw [pieceFor_active hl] at hp
    exact ⟨ref, rfl, hl, hp, h, .refl w⟩
  | none =>
    obtain ⟨size, hsize, rfl⟩ : ∃ size, t.pieceLengthAt id = .ok size ∧
        Piece.create id size = p := by
      rw [pieceFor, hl] at hp
      obtain ⟨size, hsize, rfl⟩ := Option.map_eq_some_iff.1 hp
      cases hlen : t.pieceLengthAt id with
      | error e =>
        rw [hlen] at hsize
        cases hsize
      | ok n =>
        rw [hlen] at hsize
        exact ⟨size, by rw [Option.some.inj hsize], rfl⟩
    simp only [if_true, wp_bind]
    rw [wp_lift_ok hsize]
    have hnew : Change sha1 t .all w _ := .newPiece hl hsize fun _ => .inr trivial
    have hold : ∀ ref q, w.heap[ref]? = some q →
        (w.heap ++ [Piece.create id size])[ref]? = some q := fun ref q hq => Heap.append_old hq _
    refine ⟨w.heap.length, rfl, AList.lookup_insert _, List.getElem?_concat_length,
      h.change hnew, fun k => ?_, fun b hb => ?_, rfl, rfl, rfl⟩
    · by_cases hk : k = id
      · rw [hk, pieceFor_active (AList.lookup_insert _), List.getElem?_concat_length, hp]
      · rw [pieceFor, pieceFor, AList.lookup_insert_ne hk]
        cases hlk : w.activePieces.lookup k with
        | none => rfl
        | some ref =>
          obtain ⟨q, hq, -⟩ := h.active k ref hlk
          exact (hold ref q hq).trans hq.symm
    · obtain ⟨ref, q, hlk, hq, hbit⟩ := hb
      exact ⟨ref, q, Heap.insert_old hl hlk _, hold ref q hq, hbit⟩

theorem pieceAt_some {k : Nat} {p : Piece} (h : pieceAt t w k = some p) :
    k < 2 ^ 32 ∧ pieceFor t w (UInt32.ofNat k) = some p := by
  unfold pieceAt at h
  split at h
  · exact ⟨by assumption, h⟩
  · cases h

/-- A piece that cannot become active. -/
theorem activePiece_none (h : WellFormed sha1 t w) {id : UInt32} (hp : pieceFor t w id = none) :
    wp (t.activePiece id) w (fun _ _ => False) fun _ _ => True := by
  simp only [Torrent.activePiece, wp_bind, wp_get]
  cases hl : w.activePieces.lookup id with
  | some ref =>
    obtain ⟨p, hget, -⟩ := h.active id ref hl
    rw [pieceFor_active hl, hget] at hp
    cases hp
  | none =>
    rw [pieceFor, hl] at hp
    simp only [if_true, wp_bind, wp_lift]
    refine ⟨fun size hsize => ?_, fun _ _ => trivial⟩
    rw [hsize] at hp
    cases hp

/-- The scan stops at the piece of the first candidate, and throws if that is a gap. -/
theorem nextPieceFrom_spec (turns start : Nat) (w : World) (h : WellFormed sha1 t w)
    (hstart : start ≤ relevant.size) (hturns : relevant.size < turns + start) :
    wp (Peer.nextPieceFrom t relevant true turns start) w (fun r w' => WellFormed sha1 t w' ∧
      Activated t w w' ∧ (r = none → candidatesFrom t w relevant start = []) ∧
      ∀ ref, r = some ref → ∃ id p j rest, w'.activePieces.lookup id = some ref ∧
        w'.heap[ref]? = some p ∧ p.freeBlocks = j :: rest ∧
        (candidatesFrom t w relevant start).head? = some (some (id, j)))
      fun _ _ => (candidatesFrom t w relevant start).head? = some none := by
  induction turns generalizing start w with
  | zero => omega
  | succ turns ih =>
    unfold Peer.nextPieceFrom
    cases hn : relevant.next true start with
    | none =>
      refine ⟨h, .refl w, fun _ => candidatesFrom_end fun k hk hbit => ?_, by simp⟩
      exact relevant.next_none hn hk (relevant.lt_size_of_bit hbit) hbit
    | some nextId =>
      obtain ⟨hle, hlt, hbit, hleast⟩ := relevant.next_some hn
      rw [candidatesFrom_next hle hlt hleast, candidatesAt, if_pos hbit]
      simp only [wp_bind]
      by_cases hsmall : nextId < 2 ^ 32
      · rw [wp_lift_ok (castSizeU32_of hsmall), pieceAt, if_pos hsmall]
        cases hp : pieceFor t w (UInt32.ofNat nextId) with
        | none =>
          exact wp_mono (activePiece_none h hp) (fun _ _ hf => hf.elim) fun _ _ _ => rfl
        | some p =>
          refine wp_mono (activePiece_for h hp) (fun r w1 h1 => ?_) fun _ _ hf => hf.elim
          obtain ⟨ref, rfl, hl, hget, hw1, hact⟩ := h1
          simp only [wp_bind, Option.elim_some]
          refine (wp_deref hget).2 ?_
          obtain ⟨hfree, hno⟩ | ⟨j, rest, hfree, hsome⟩ :=
            (h.pieceFor_formed hp).nextOffset_free false 0
          · -- no block of this piece is free
            rw [wp_lift_ok hno, hfree, List.map_nil, List.nil_append, ← hact.candidatesFrom]
            refine wp_mono (ih (nextId + 1) w1 hw1 hlt (by omega)) (fun r w2 h2 => ?_)
              fun _ _ hf => hf
            exact ⟨h2.1, hact.trans h2.2.1, h2.2.2⟩
          · rw [wp_lift_ok hsome]
            refine ⟨hw1, hact, ⟨fun hr => absurd hr (by simp), fun k hk => ?_⟩⟩
            rw [hfree]
            exact ⟨_, p, j, rest, by rw [← Option.some.inj hk, hl],
              by rw [← Option.some.inj hk, hget], hfree, rfl⟩
      · rw [wp_lift, pieceAt, if_neg hsmall]
        exact ⟨fun v hv => absurd (castSizeU32_eq hv).1 hsmall, fun _ _ => rfl⟩

/-! ## A block is taken -/

/-- The first element of a list of lists is taken out of the list it is in. -/
theorem flatMap_tail {α β : Type} {f f' : α → List β} {x0 : α} {a : β} {rest : List β}
    {xs : List α} (hn : xs.Nodup) (h : xs.flatMap f = a :: rest) (ha : ∀ x, a ∈ f x → x = x0)
    (hf : a ∈ f x0 → f x0 = a :: f' x0) (hother : ∀ x, x ≠ x0 → f' x = f x) :
    xs.flatMap f' = rest := by
  induction xs with
  | nil => cases h
  | cons x xs ih =>
    rw [List.nodup_cons] at hn
    rw [List.flatMap_cons] at h ⊢
    cases hx : f x with
    | nil =>
      rw [hx, List.nil_append] at h
      have hne : x ≠ x0 := by
        rintro rfl
        obtain ⟨y, hy, hay⟩ := List.mem_flatMap.1 (h ▸ List.mem_cons_self)
        rw [ha y hay] at hy
        exact hn.1 hy
      rw [hother x hne, hx, List.nil_append, ih hn.2 h]
    | cons b l =>
      rw [hx] at h
      obtain ⟨rfl, hrest⟩ := List.cons.inj h
      have hmem : b ∈ f x := hx ▸ List.mem_cons_self
      obtain rfl := ha x hmem
      have hl : f' x = l := (List.cons.inj ((hf hmem).symm.trans hx)).2
      have hxs : xs.flatMap f' = xs.flatMap f :=
        List.flatMap_congr fun y hy => hother y fun he => hn.1 (he ▸ hy)
      rw [hl, hxs]
      exact hrest

/-- The first candidate has been taken, and nothing else. -/
structure Took (t : Torrent) (relevant : Bitfield) (w w' : World) (b : Block) : Prop where
  candidates : candidates t w relevant = some b :: Zit.candidates t w' relevant
  requests : ∀ b, requestOf t w' b = requestOf t w b
  marked : Requested w' b
  requested : ∀ b, Requested w b → Requested w' b
  peers : w'.peers = w.peers
  own : w'.clientPieces = w.clientPieces

/-- The piece of an active id changes. -/
theorem pieceFor_set (h : WellFormed sha1 t w) {id : UInt32} {ref : Nat} {p p' : Piece}
    (ha : w.activePieces.lookup id = some ref) (hp : w.heap[ref]? = some p) (k : UInt32) :
    pieceFor t { w with heap := w.heap.set ref p' } k =
      if k = id then some p' else pieceFor t w k := by
  split_ifs with hk
  · rw [hk]
    exact (@pieceFor_active t { w with heap := w.heap.set ref p' } _ _ ha).trans
      (Heap.set_self hp p')
  · cases hl : w.activePieces.lookup k with
    | none =>
      rw [pieceFor, pieceFor, hl]
      rfl
    | some r =>
      rw [pieceFor_active hl]
      refine (@pieceFor_active t { w with heap := w.heap.set ref p' } _ _ hl).trans
        (List.getElem?_set_ne fun he => hk ?_)
      rw [← h.active_id hl (he ▸ hp), h.active_id ha hp]

theorem candidatesAt_some {k j : Nat} {id : UInt32}
    (h : some (id, j) ∈ candidatesAt t w relevant k) :
    k = id.toNat ∧ relevant.bit k = true ∧ ∃ p, pieceAt t w k = some p ∧
      pieceFor t w id = some p ∧ j ∈ p.freeBlocks := by
  unfold candidatesAt at h
  split at h
  · rename_i hbit
    cases hat : pieceAt t w k with
    | none =>
      rw [hat] at h
      exact absurd (List.mem_singleton.1 h) (by simp)
    | some p =>
      rw [hat] at h
      obtain ⟨j', hj', he⟩ := List.mem_map.1 h
      obtain ⟨rfl, rfl⟩ := Prod.mk.inj (Option.some.inj he)
      obtain ⟨hk, hp⟩ := pieceAt_some hat
      exact ⟨(UInt32.toNat_ofNat_of_lt' hk).symm, hbit, p, rfl, hp, hj'⟩
  · cases h

/-- A free block of an active piece is marked. -/
def markBlock (w : World) (ref : Nat) (p : Piece) (j : Nat) (now : Int) : World :=
  { w with
    heap := w.heap.set ref
      { p with blocksRequested := p.blocksRequested.set j true, lastRequest := now } }

theorem mark_spec (h : WellFormed sha1 t w) {id : UInt32} {ref : Nat} {p : Piece} {j : Nat}
    {rest : List Nat} (ha : w.activePieces.lookup id = some ref) (hp : w.heap[ref]? = some p)
    (hfree : p.freeBlocks = j :: rest)
    (hhead : (candidates t w relevant).head? = some (some (id, j))) (now : Int) :
    Took t relevant w (markBlock w ref p j now) (id, j) := by
  unfold markBlock
  generalize hp' : { p with blocksRequested := p.blocksRequested.set j true, lastRequest := now } =
    p'
  have hset := @pieceFor_set sha1 t w h id ref p p' ha hp
  have hactive := pieceFor_active (t := t) ha
  rw [hp] at hactive
  have hrest : p'.freeBlocks = rest := by
    rw [← hp']
    exact Piece.freeBlocks_mark hfree now
  have hsize : p'.pieceSize = p.pieceSize := by rw [← hp']
  have hget : (w.heap.set ref p')[ref]? = some p' := Heap.set_self hp p'
  have hbits : ∀ k, p.blocksRequested.bit k = true → p'.blocksRequested.bit k = true := by
    intro k hk
    rw [← hp']
    exact Bitfield.bit_set_true _ hk _
  refine ⟨?_, fun b => ?_, ?_, fun b hb => ?_, rfl, rfl⟩
  · obtain ⟨tail, htail⟩ := List.head?_eq_some_iff.1 hhead
    rw [htail]
    congr 1
    symm
    refine flatMap_tail List.nodup_range' htail (fun k hk => (candidatesAt_some hk).1) (fun hk => ?_)
      fun k hk => ?_
    · obtain ⟨-, hbit, q, hat, hq, -⟩ := candidatesAt_some hk
      rw [hactive] at hq
      obtain rfl := Option.some.inj hq
      have hlt := (pieceAt_some hat).1
      have hid : UInt32.ofNat id.toNat = id := UInt32.ofNat_toNat
      simp only [candidatesAt, if_pos hbit, pieceAt, if_pos hlt, hset, hid, if_true, hactive,
        Option.elim_some, hfree, hrest, List.map_cons]
    · have hne : k < 2 ^ 32 → UInt32.ofNat k ≠ id := by
        rintro hlt rfl
        exact hk (UInt32.toNat_ofNat_of_lt' hlt).symm
      have hat : pieceAt t { w with heap := w.heap.set ref p' } k = pieceAt t w k := by
        unfold pieceAt
        split
        · rw [hset, if_neg (hne (by assumption))]
        · rfl
      simp only [candidatesAt, hat]
  · unfold requestOf
    rw [hset]
    split_ifs with hb
    · rw [hb, hactive, Option.elim_some, Option.elim_some, Peer.requestLength, Peer.requestLength,
        hsize]
    · rfl
  · exact ⟨ref, p', ha, hget, by rw [← hp', Bitfield.bit_set, if_pos rfl]⟩
  · obtain ⟨r, q, hl, hq, hbit⟩ := hb
    by_cases hr : r = ref
    · rw [hr] at hl hq
      rw [hp] at hq
      obtain rfl := Option.some.inj hq
      exact ⟨ref, p', hl, hget, hbits _ hbit⟩
    · exact ⟨r, q, hl, (List.getElem?_set_ne (Ne.symm hr)).trans hq, hbit⟩

/-! ## The loop -/

/-- The relevant pieces of the peer `i`. -/
def RelevantTo (w : World) (i : Nat) (relevant : Bitfield) : Prop :=
  ∃ p, w.peers[i]? = some p ∧ Torrent.relevantPieces w p.remotePieces = relevant

/-- So many requests more are pending. -/
def morePending (w : World) (i n : Nat) : List Peer :=
  w.peers.modify i fun p => { p with pendingRequests := p.pendingRequests + n }

theorem modify_same {ps : List Peer} {f : Peer → Peer} (h : ∀ p, f p = p) : ps.modify i f = ps := by
  rw [show f = id from funext h, List.modify_id]

theorem morePending_zero (w : World) (i : Nat) : morePending w i 0 = w.peers :=
  modify_same fun p => by simp

/-- These blocks have been requested, one after the other. -/
structure Requests (t : Torrent) (i : Nat) (w w' : World) (taken : List Block) : Prop where
  wellFormed : WellFormed sha1 t w'
  marked : ∀ b ∈ taken, Requested w' b
  requested : ∀ b, Requested w b → Requested w' b
  peers : w'.peers = morePending w i taken.length

/-- Another request is pending. -/
def onePending (w : World) (i : Nat) : World := { w with peers := morePending w i 1 }

theorem morePending_succ (h : w''.peers = morePending w i 1) (n : Nat) :
    morePending w'' i n = morePending w i (n + 1) := by
  refine List.ext_getElem? fun k => ?_
  simp only [morePending, h, List.getElem?_modify]
  cases w.peers[k]? with
  | none => rfl
  | some p =>
    by_cases hk : i = k
    · simp only [hk, if_true, Option.map_eq_map, Option.map_some, Nat.cast_add, Nat.cast_one]
      rw [Int.add_assoc, Int.add_comm 1]
    · simp [hk]

theorem Requests.cons {b : Block} {taken : List Block} (hact : Activated t w w')
    (htook : Took t relevant w' w'' b) {w3 : World}
    (h : @Requests sha1 t i (onePending w'' i) w3 taken) :
    @Requests sha1 t i w w3 (b :: taken) := by
  refine ⟨h.wellFormed, fun c hc => ?_, fun c hc => ?_, ?_⟩
  · rcases List.mem_cons.1 hc with rfl | hc
    · exact h.requested _ htook.marked
    · exact h.marked c hc
  · exact h.requested c (htook.requested c (hact.requested c hc))
  · have hone : (onePending w'' i).peers = morePending w i 1 := by
      simp only [onePending, morePending, htook.peers, hact.peers]
    rw [h.peers, List.length_cons, morePending_succ hone]

theorem RelevantTo.onePending (h : RelevantTo w i relevant) (hp : w'.peers = w.peers)
    (hown : w'.clientPieces = w.clientPieces) : RelevantTo (onePending w' i) i relevant := by
  obtain ⟨p, hget, rfl⟩ := h
  refine ⟨{ p with pendingRequests := p.pendingRequests + 1 }, ?_, ?_⟩
  · simp [Zit.onePending, morePending, hp, hget]
  · simp [Torrent.relevantPieces, Zit.onePending, hown]

theorem nextPiece_spec (h : WellFormed sha1 t w) (hrel : RelevantTo w i relevant) :
    wp (Peer.nextPiece t i true) w (fun r w' => WellFormed sha1 t w' ∧
      Activated t w w' ∧ (r = none → candidates t w relevant = []) ∧
      ∀ ref, r = some ref → ∃ id p j rest, w'.activePieces.lookup id = some ref ∧
        w'.heap[ref]? = some p ∧ p.freeBlocks = j :: rest ∧
        (candidates t w relevant).head? = some (some (id, j)))
      fun _ _ => (candidates t w relevant).head? = some none := by
  obtain ⟨p, hp, rfl⟩ := hrel
  simp only [Peer.nextPiece, wp_bind]
  refine (wp_getPeer hp).2 ?_
  rw [wp_get]
  exact nextPieceFrom_spec _ _ w h (Nat.zero_le _) (by omega)

/-- The loop requests the first candidates, and throws if it reaches a gap. -/
theorem requestLoop_spec (now : Int) (n : Nat) (req : Bytes) (requests : Nat) (w : World)
    (h : WellFormed sha1 t w) (hrel : RelevantTo w i relevant) :
    wp (Peer.requestLoop t i now n req requests) w (fun r w' => ∃ taken : List Block,
      (candidates t w relevant).take n = taken.map some ∧
      r = (req ++ taken.flatMap (requestOf t w), requests + taken.length) ∧
      @Requests sha1 t i w w' taken) fun _ _ => none ∈ (candidates t w relevant).take n := by
  induction n generalizing req requests w with
  | zero =>
    exact ⟨[], by simp, by simp, h, by simp, fun _ hb => hb, (morePending_zero w i).symm⟩
  | succ n ih =>
    unfold Peer.requestLoop
    simp only [wp_bind]
    refine wp_mono (nextPiece_spec h hrel) (fun r w1 h1 => ?_) fun _ _ hhead => ?_
    rotate_left
    · obtain ⟨tail, htail⟩ := List.head?_eq_some_iff.1 hhead
      rw [htail, List.take_succ_cons]
      exact List.mem_cons_self
    obtain ⟨hw1, hact, hnone, hsome⟩ := h1
    cases r with
    | none =>
      refine ⟨[], by simp [hnone rfl], by simp, hw1, by simp, hact.requested, ?_⟩
      exact hact.peers.trans (morePending_zero w i).symm
    | some ref =>
      obtain ⟨id, p, j, rest, hl, hp, hfree, hfirst⟩ := hsome ref rfl
      simp only [wp_bind]
      refine (wp_deref hp).2 ?_
      obtain ⟨hnil, -⟩ | ⟨j', rest', hfree', hnext⟩ := (hw1.formed _ _ hp).nextOffset_free true now
      · rw [hnil] at hfree
        cases hfree
      rw [hfree] at hfree'
      obtain ⟨rfl, rfl⟩ := List.cons.inj hfree'
      rw [wp_lift_ok hnext, if_pos rfl]
      rw [← hact.candidates] at hfirst
      have htook := mark_spec hw1 hl hp hfree hfirst now
      let next := onePending (markBlock w1 ref p j now) i
      have hchange : Change sha1 t .all w1 (markBlock w1 ref p j now) :=
        .touch hp (Piece.nextOffset_ok hnext)
      have hcand : candidates t w relevant = some (id, j) :: candidates t next relevant :=
        hact.candidates.symm.trans htook.candidates
      have hrequest : requestOf t next = requestOf t w := funext fun b =>
        (htook.requests b).trans (hact.requestOf b)
      have hmsg : requestOf t w (id, j) = requestMsg p.id (Piece.blockOffset j)
          (Peer.requestLength p (Piece.blockOffset j)) := by
        rw [← hact.requestOf, requestOf, pieceFor_active hl, hp, hw1.active_id hl hp]
        rfl
      rw [hcand, List.take_succ_cons]
      simp only [store, Peer.modifyPeer, wp_bind, wp_modify]
      refine wp_mono (ih _ _ next ?_ ?_) (fun r w' h2 => ?_)
        fun _ _ hgap => List.mem_cons_of_mem _ hgap
      · have hpeers : Change sha1 t .all (markBlock w1 ref p j now) next := .peers fun q hq => by
          rcases mem_modify hq with hq | ⟨q', hq', rfl⟩
          · exact .inr ⟨q, hq, rfl⟩
          · exact .inr ⟨q', hq', rfl⟩
        exact (hw1.change hchange).change hpeers
      · exact hrel.onePending (htook.peers.trans hact.peers) (htook.own.trans hact.own)
      · obtain ⟨taken, htake, rfl, hreqs⟩ := h2
        refine ⟨(id, j) :: taken, by rw [htake, List.map_cons], ?_, .cons hact htook hreqs⟩
        rw [hrequest, List.flatMap_cons, List.length_cons, hmsg, List.append_assoc, Nat.add_assoc,
          Nat.add_comm 1]
        rfl

/-! ## The blocks that can be requested -/

/-- The number of blocks of the relevant pieces that are neither requested nor done. -/
def available (t : Torrent) (w : World) (relevant : Bitfield) : Nat :=
  ((List.range relevant.size).map fun k =>
    if relevant.bit k then (pieceAt t w k).elim 0 (·.freeBlocks.length) else 0).sum

theorem filterMap_candidatesAt (k : Nat) : (candidatesAt t w relevant k).filterMap id =
    if relevant.bit k then
      (pieceAt t w k).elim [] fun p => p.freeBlocks.map (Prod.mk (UInt32.ofNat k))
    else [] := by
  unfold candidatesAt
  split
  · cases pieceAt t w k with
    | none => rfl
    | some p => simp [List.filterMap_map]
  · rfl

theorem filterMap_candidates :
    ((candidates t w relevant).filterMap id).length = available t w relevant := by
  rw [candidates, candidatesFrom, List.filterMap_flatMap, List.length_flatMap, available,
    Nat.sub_zero, List.range_eq_range']
  congr 2
  funext k
  rw [filterMap_candidatesAt]
  split
  · cases pieceAt t w k <;> simp
  · rfl

/-- A list that begins without gaps. -/
theorem take_gapless {α : Type} {l : List (Option α)} {n : Nat} (h : none ∉ l.take n) :
    (l.take n).length = min n (l.filterMap id).length := by
  induction l generalizing n with
  | nil => simp
  | cons a l ih =>
    cases n with
    | zero => simp
    | succ n =>
      rw [List.take_succ_cons, List.mem_cons, not_or] at h
      obtain ⟨b, rfl⟩ := Option.ne_none_iff_exists'.1 (Ne.symm h.1)
      rw [List.take_succ_cons, List.length_cons, ih h.2, List.filterMap_cons_some (f := id) rfl,
        List.length_cons, Nat.add_min_add_right]

theorem candidates_nodup (w : World) (relevant : Bitfield) :
    ((candidates t w relevant).filterMap id).Nodup := by
  rw [candidates, candidatesFrom, List.filterMap_flatMap, List.nodup_flatMap]
  refine ⟨fun k _ => ?_, List.Pairwise.imp (fun hne => ?_) List.nodup_range'⟩
  · rw [filterMap_candidatesAt]
    split
    · cases pieceAt t w k with
      | none => exact List.nodup_nil
      | some p => exact p.freeBlocks_nodup.map (Prod.mk_right_injective _)
    · exact List.nodup_nil
  · intro b h1 h2
    simp only [List.mem_filterMap, id_eq, exists_eq_right] at h1 h2
    exact hne ((candidatesAt_some h1).1.trans (candidatesAt_some h2).1.symm)

/-- A block the remote peer has and the torrent lacks, neither requested nor done. -/
structure FreeBlock (t : Torrent) (w : World) (p : Peer) (b : Block) : Prop where
  remote : p.remotePieces.bit b.1.toNat = true
  lacking : w.clientPieces.bit b.1.toNat = false
  free : ∃ piece, pieceFor t w b.1 = some piece ∧ b.2 ∈ piece.freeBlocks ∧
    (Piece.blockOffset b.2).toNat = b.2 * 16384 ∧ b.2 * 16384 < piece.pieceSize.toNat

/-- The blocks are requested of the peer `i`, in one message if there are any. -/
structure Emitted (t : Torrent) (i : Nat) (p : Peer) (w w' : World) (taken : List Block) :
    Prop where
  free : ∀ b ∈ taken, FreeBlock t w p b
  distinct : (taken.map fun b => (b.1, Piece.blockOffset b.2)).Nodup
  marked : ∀ b ∈ taken, Requested w' b
  peers : w'.peers = w.peers.modify i fun p =>
    { p with
      pendingRequests := p.pendingRequests + taken.length
      sent := p.sent ++ if taken = [] then [] else [taken.flatMap (requestOf t w)] }

theorem candidates_free {p : Peer} {b : Block}
    (hb : some b ∈ candidates t w (Torrent.relevantPieces w p.remotePieces)) :
    FreeBlock t w p b := by
  obtain ⟨k, -, hk⟩ := List.mem_flatMap.1 hb
  obtain ⟨rfl, hbit, q, -, hq, hfree⟩ := candidatesAt_some hk
  rw [Torrent.relevantPieces, Bitfield.bit_sub] at hbit
  simp only [Bool.and_eq_true, Bool.not_eq_true'] at hbit
  exact ⟨hbit.1.1, hbit.1.2, q, hq, hfree,
    @Piece.blockOffset_toNat q.pieceSize _ (Piece.mem_freeBlocks.1 hfree).1⟩

theorem taken_free {p : Peer} {taken : List Block} {n : Nat}
    (h : (candidates t w (Torrent.relevantPieces w p.remotePieces)).take n = taken.map some) :
    (∀ b ∈ taken, FreeBlock t w p b) ∧
      taken.length = min n (available t w (Torrent.relevantPieces w p.remotePieces)) := by
  refine ⟨fun b hb => candidates_free (List.mem_of_mem_take (h ▸ List.mem_map_of_mem hb)), ?_⟩
  have hlen := take_gapless (show none ∉ _ by rw [h]; simp)
  rwa [h, List.length_map, filterMap_candidates] at hlen

theorem taken_nodup {taken : List Block} {n : Nat}
    (h : (candidates t w relevant).take n = taken.map some) : taken.Nodup := by
  have hsome : taken = (taken.map some).filterMap id := by simp [List.filterMap_map]
  rw [hsome, ← h]
  exact (candidates_nodup w relevant).sublist ((List.take_sublist _ _).filterMap id)

theorem free_distinct {p : Peer} {taken : List Block} (h : ∀ b ∈ taken, FreeBlock t w p b)
    (hn : taken.Nodup) : (taken.map fun b => (b.1, Piece.blockOffset b.2)).Nodup := by
  refine hn.map_on fun b hb c hc he => ?_
  obtain ⟨_, -, -, hoff, -⟩ := (h b hb).free
  obtain ⟨_, -, -, hoff', -⟩ := (h c hc).free
  obtain ⟨hid, heq⟩ := Prod.mk.inj he
  rw [heq] at hoff
  exact Prod.ext hid (by omega)

/-! ## The call -/

/-- The limit of a call: the configured value if it is 0. -/
def pendingLimit (t : Torrent) (maxPending : UInt16) : Int :=
  if maxPending = 0 then t.maxPendingRequests else maxPending.toNat

theorem requestLimit_of {maxPending : UInt16}
    (h : 0 < pendingLimit t maxPending ∧ pendingLimit t maxPending < 2 ^ 16) :
    ∃ limit, Peer.requestLimit t maxPending = .ok limit ∧ limit ≠ 0 ∧
      limit.toNat = pendingLimit t maxPending := by
  unfold pendingLimit at h ⊢
  unfold Peer.requestLimit
  split_ifs at h ⊢ with hz
  · rw [castU16_of ⟨by omega, h.2⟩]
    have hnat : (UInt16.ofNat t.maxPendingRequests.toNat).toNat = t.maxPendingRequests.toNat :=
      UInt16.toNat_ofNat_of_lt' (show _ < 2 ^ 16 by omega)
    refine ⟨_, rfl, fun he => ?_, by omega⟩
    rw [he, UInt16.toNat_zero] at hnat
    omega
  · exact ⟨_, rfl, hz, rfl⟩

theorem requestLimit_not {maxPending : UInt16}
    (h : ¬(0 < pendingLimit t maxPending ∧ pendingLimit t maxPending < 2 ^ 16)) :
    (∃ e, Peer.requestLimit t maxPending = .error e) ∨ Peer.requestLimit t maxPending = .ok 0 := by
  unfold pendingLimit at h
  unfold Peer.requestLimit
  split_ifs at h ⊢ with hz
  · by_cases hn : 0 ≤ t.maxPendingRequests ∧ t.maxPendingRequests < 2 ^ 16
    · rw [castU16_of hn, show t.maxPendingRequests = 0 by omega]
      exact .inr rfl
    · exact .inl ⟨_, castU16_not hn _⟩
  · have := maxPending.toNat_lt
    have : maxPending.toNat ≠ 0 := fun he => hz (UInt16.toNat.inj he)
    omega

theorem requestOf_ne_nil {p : Peer} {b : Block} (h : FreeBlock t w p b) :
    requestOf t w b ≠ [] := by
  obtain ⟨q, hq, -⟩ := h.free
  rw [requestOf, hq, Option.elim_some, requestMsg]
  simp [toBigEndian]

/-- A call with a limit: it throws if it reaches a gap. -/
theorem requestNextBlock_emits (h : WellFormed sha1 t w) {p : Peer} (hp : w.peers[i]? = some p)
    (hint : p.amInterested = true) (hchoke : p.choking = false) (now : Int) {maxPending : UInt16}
    (hlimit : 0 < pendingLimit t maxPending ∧ pendingLimit t maxPending < 2 ^ 16) :
    wp (Peer.requestNextBlock t i now maxPending) w (fun n w' => ∃ taken, n = taken.length ∧
      (candidates t w (Torrent.relevantPieces w p.remotePieces)).take
        (pendingLimit t maxPending - p.pendingRequests).toNat = taken.map some ∧
      Emitted t i p w w' taken)
      fun _ _ => none ∈ (candidates t w (Torrent.relevantPieces w p.remotePieces)).take
        (pendingLimit t maxPending - p.pendingRequests).toNat := by
  obtain ⟨limit, hok, hne, heq⟩ := requestLimit_of hlimit
  rw [← heq]
  simp only [Peer.requestNextBlock, wp_bind]
  refine (wp_getPeer hp).2 ?_
  simp only [hint, hchoke, Bool.not_true, Bool.false_eq_true, if_false, wp_bind]
  rw [wp_lift_ok hok]
  simp only [if_neg hne]
  refine wp_ite (fun hle => ?_) fun hpos => ?_
  · rw [show (_ - p.pendingRequests : Int).toNat = 0 by omega]
    exact ⟨[], rfl, rfl, by simp, List.nodup_nil, by simp, (modify_same fun p => by simp).symm⟩
  · simp only [wp_bind]
    refine wp_mono (requestLoop_spec now _ [] 0 w h ⟨p, hp, rfl⟩) (fun r w1 h1 => ?_)
      fun _ _ hgap => hgap
    obtain ⟨taken, htake, rfl, hreqs⟩ := h1
    have hfree := (taken_free htake).1
    have hdistinct := free_distinct hfree (taken_nodup htake)
    refine ⟨taken, Nat.zero_add _, htake, hfree, hdistinct, hreqs.marked, ?_⟩
    show w1.peers.modify i _ = _
    rw [hreqs.peers, morePending, List.modify_modify_eq]
    congr 1
    funext q
    cases taken with
    | nil => simp
    | cons b taken =>
      have hne := requestOf_ne_nil (hfree b List.mem_cons_self)
      simp [hne, Peer.write]

/-- A call without a limit changes nothing. -/
theorem requestNextBlock_throws {p : Peer} (hp : w.peers[i]? = some p) (hint : p.amInterested = true)
    (hchoke : p.choking = false) (now : Int) {maxPending : UInt16}
    (hlimit : ¬(0 < pendingLimit t maxPending ∧ pendingLimit t maxPending < 2 ^ 16)) :
    wp (Peer.requestNextBlock t i now maxPending) w (fun _ _ => False) fun _ w' => w' = w := by
  simp only [Peer.requestNextBlock, wp_bind]
  refine (wp_getPeer hp).2 ?_
  simp only [hint, hchoke, Bool.not_true, Bool.false_eq_true, if_false, wp_bind]
  rcases requestLimit_not hlimit with ⟨e, he⟩ | hzero
  · rw [he]
    exact rfl
  · rw [wp_lift_ok hzero]
    exact rfl

theorem requestNextBlock_idle {p : Peer} (hp : w.peers[i]? = some p)
    (hidle : p.amInterested = false ∨ p.choking = true) (now : Int) (maxPending : UInt16) :
    Peer.requestNextBlock t i now maxPending w = .ok 0 w := by
  have hspec : wp (Peer.requestNextBlock t i now maxPending) w (fun n w' => n = 0 ∧ w' = w)
      fun _ _ => False := by
    simp only [Peer.requestNextBlock, wp_bind]
    refine (wp_getPeer hp).2 ?_
    rcases hidle with hint | hchoke
    · simp [hint]
    · cases p.amInterested <;> simp [hchoke]
  obtain ⟨n, w', hok, rfl, rfl⟩ := ok_of_wp hspec
  exact hok

/-- A call of a choked or not interested peer requests nothing. Any other call with a limit requests
as many free blocks as the limit allows, or all there are, unless a piece cannot become active. -/
theorem requestNextBlock_requests {w0 : World} {as : List Action} (hc : Constructed sha1 t w0)
    (hr : Run (Step sha1 t) w0 as w) {p : Peer} (hp : w.peers[i]? = some p) (now : Int)
    (maxPending : UInt16) :
    (p.amInterested = false ∨ p.choking = true →
      Peer.requestNextBlock t i now maxPending w = .ok 0 w) ∧
    (p.amInterested = true ∧ p.choking = false →
      (¬(0 < pendingLimit t maxPending ∧ pendingLimit t maxPending < 2 ^ 16) →
        ∃ e, Peer.requestNextBlock t i now maxPending w = .error e w) ∧
      (0 < pendingLimit t maxPending ∧ pendingLimit t maxPending < 2 ^ 16 →
        none ∉ (candidates t w (Torrent.relevantPieces w p.remotePieces)).take
          (pendingLimit t maxPending - p.pendingRequests).toNat →
        ∃ taken w', Peer.requestNextBlock t i now maxPending w = .ok taken.length w' ∧
          taken.length = min (pendingLimit t maxPending - p.pendingRequests).toNat
            (available t w (Torrent.relevantPieces w p.remotePieces)) ∧
          Emitted t i p w w' taken)) := by
  have hw : WellFormed sha1 t w := (WellFormed.of_constructed hc).changes (run_changes (run_all hr))
  refine ⟨fun hidle => requestNextBlock_idle hp hidle now maxPending, fun ⟨hint, hchoke⟩ =>
    ⟨fun hlimit => ?_, fun hlimit hgap => ?_⟩⟩
  · obtain ⟨e, _, he, rfl⟩ := error_of_wp (requestNextBlock_throws hp hint hchoke now hlimit)
    exact ⟨e, he⟩
  · obtain ⟨_, w', hok, taken, rfl, htake, he⟩ := ok_of_wp (wp_mono
      (requestNextBlock_emits hw hp hint hchoke now hlimit) (fun _ _ h => h)
        fun _ _ hin => hgap hin)
    exact ⟨taken, w', hok, (taken_free htake).2, he⟩

end

/-- Unchoked, interested, and one block to request. -/
def oneByteIdle : List Action :=
  [.connect false, .setAmInterested 0 true, .setChoking 0 false 5, .setRemotePieces 0 ⟨[0x80]⟩]

theorem requestNextBlock_requests_oneByte : ∃ t w0 w p w',
    Constructed Torrent.oneByteSha1 t w0 ∧ Run (Step Torrent.oneByteSha1 t) w0 oneByteIdle w ∧
    w.peers[0]? = some p ∧ Peer.requestNextBlock t 0 7 0 w = .ok 1 w' ∧
    ∃ taken, taken.length = 1 ∧ Emitted t 0 p w w' taken := by
  have hcheck : checkNew Torrent.oneByteSha1 Torrent.oneByteConfig [] Torrent.oneByteFile [0] ⟨∅⟩
      (fun t w0 => decide (pendingLimit t 0 = 10) &&
        (Action.runAll (fun _ _ => true) Torrent.oneByteSha1 t oneByteIdle w0).elim false fun w =>
          w.peers[0]?.elim false fun p => p.amInterested && !p.choking &&
            decide (p.pendingRequests = 0) &&
            decide (candidates t w (Torrent.relevantPieces w p.remotePieces) = [some (0, 0)]) &&
            decide (available t w (Torrent.relevantPieces w p.remotePieces) = 1)) = true := by
    decide +kernel
  obtain ⟨t, w0, hc, h⟩ := checkNew_true hcheck
  simp only [Bool.and_eq_true, decide_eq_true_eq] at h
  obtain ⟨hlimit, h⟩ := h
  cases hr : Action.runAll (fun _ _ => true) Torrent.oneByteSha1 t oneByteIdle w0 with
  | none => simp [hr] at h
  | some w =>
    cases hp : w.peers[0]? with
    | none => simp [hr, hp] at h
    | some p =>
      simp only [hr, hp, Option.elim_some, Bool.and_eq_true, Bool.not_eq_true',
        decide_eq_true_eq] at h
      obtain ⟨⟨⟨⟨hint, hchoke⟩, hpending⟩, hcand⟩, havail⟩ := h
      have hrun := (run_of_runAll hr).mono fun _ _ _ h => h.2
      obtain ⟨taken, w', hok, hlen, he⟩ :=
        ((requestNextBlock_requests hc hrun hp 7 0).2 ⟨hint, hchoke⟩).2 (by omega)
          (by simp [hcand, hlimit, hpending])
      rw [hlimit, hpending, havail] at hlen
      rw [show taken.length = 1 from hlen] at hok
      exact ⟨t, w0, w, p, w', hc, hrun, hp, hok, taken, hlen, he⟩

/-- The configured value is 0. -/
def noPendingConfig : Config := { Torrent.oneByteConfig with maxPendingRequests := 0 }

/-- The limit and the pieces are never in the way. -/
def AlwaysEmits (t : Torrent) (i : Nat) (p : Peer) (w : World) (now : Int) (maxPending : UInt16) :
    Prop :=
  (p.amInterested = false ∨ p.choking = true →
    Peer.requestNextBlock t i now maxPending w = .ok 0 w) ∧
  (p.amInterested = true ∧ p.choking = false →
    ∃ taken w', Peer.requestNextBlock t i now maxPending w = .ok taken.length w' ∧
      taken.length = min (pendingLimit t maxPending - p.pendingRequests).toNat
        (available t w (Torrent.relevantPieces w p.remotePieces)) ∧
      Emitted t i p w w' taken)

/-- A call after `oneByteIdle` throws. -/
def throwsIdle (limit : Torrent → Bool) (t : Torrent) (w0 : World) : Bool :=
  limit t && (Action.runAll (fun _ _ => true) Torrent.oneByteSha1 t oneByteIdle w0).elim false
    fun w => w.peers[0]?.elim false fun p => p.amInterested && !p.choking &&
      decide (wp (Peer.requestNextBlock t 0 7 0) w (fun _ _ => False) fun _ _ => True)

theorem idle_throws {config : Config} {file : Bytes} {limit : Torrent → Bool}
    (h : checkNew Torrent.oneByteSha1 config [] file [0] ⟨∅⟩ (throwsIdle limit) = true) :
    ∃ t w0 w p, limit t = true ∧ Constructed Torrent.oneByteSha1 t w0 ∧
      Run (Step Torrent.oneByteSha1 t) w0 oneByteIdle w ∧ w.peers[0]? = some p ∧
      ¬AlwaysEmits t 0 p w 7 0 := by
  obtain ⟨t, w0, hc, h⟩ := checkNew_true h
  simp only [throwsIdle, Bool.and_eq_true] at h
  obtain ⟨hlimit, h⟩ := h
  cases hr : Action.runAll (fun _ _ => true) Torrent.oneByteSha1 t oneByteIdle w0 with
  | none => simp [hr] at h
  | some w =>
    cases hp : w.peers[0]? with
    | none => simp [hr, hp] at h
    | some p =>
      simp only [hr, hp, Option.elim_some, Bool.and_eq_true, Bool.not_eq_true',
        decide_eq_true_eq] at h
      obtain ⟨hactive, hthrows⟩ := h
      have hrun := (run_of_runAll hr).mono fun _ _ _ h => h.2
      refine ⟨t, w0, w, p, hlimit, hc, hrun, hp, fun hall => ?_⟩
      obtain ⟨taken, w', hok, -⟩ := hall.2 hactive
      exact wp_ok hthrows hok

/-- Without a limit the call of an unchoked and interested peer throws, and with one it may reach a
piece that cannot become active. -/
theorem requestNextBlock_refuses :
    (¬∀ sha1 t w0 as w i p now maxPending, Constructed sha1 t w0 → Run (Step sha1 t) w0 as w →
      w.peers[i]? = some p → AlwaysEmits t i p w now maxPending) ∧
    ¬∀ sha1 t w0 as w i p now maxPending, Constructed sha1 t w0 → Run (Step sha1 t) w0 as w →
      w.peers[i]? = some p →
      0 < pendingLimit t maxPending ∧ pendingLimit t maxPending < 2 ^ 16 →
        AlwaysEmits t i p w now maxPending := by
  constructor <;> intro hall
  · have hcheck : checkNew Torrent.oneByteSha1 noPendingConfig [] Torrent.oneByteFile [0] ⟨∅⟩
        (throwsIdle fun _ => true) = true := by
      decide +kernel
    obtain ⟨t, w0, w, p, -, hc, hr, hp, hno⟩ := idle_throws hcheck
    exact hno (hall _ t w0 _ w 0 p 7 0 hc hr hp)
  · have hcheck : checkNew Torrent.oneByteSha1 Torrent.oneByteConfig [] Torrent.zeroFile [0] ⟨∅⟩
        (throwsIdle fun t => decide (pendingLimit t 0 = 10)) = true := by
      decide +kernel
    obtain ⟨t, w0, w, p, hlimit, hc, hr, hp, hno⟩ := idle_throws hcheck
    have hlimit := of_decide_eq_true hlimit
    exact hno (hall _ t w0 _ w 0 p 7 0 hc hr hp (by omega))

end Zit
