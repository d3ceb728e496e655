import Zit.Proof.Select
import Zit.Proof.Tracks

/-!
# A download completes

With seeders that answer what they are asked for, in any order, every event is a step of the window
(`Refines.step`), so a download is over after one event for each block, each piece and each seeder;
and when nothing is left to happen, the disk refuses a piece or the torrent is done, with the bytes
of its pieces on disk (`download_completes`).
-/

set_option autoImplicit false

namespace Zit

open Lib World

/-- What the seeders have not answered is what they are asked for. -/
structure Unanswered (t : Torrent) (m : Nat) (todo : Nat → List BlockRequest) (a : Asking) : Prop
    where
  asked : ∀ i < m, ∃ bs : List Block, todo i = bs.map (blockRequest t) ∧ bs.Nodup ∧
    bs.toFinset = a.asked i
  others : ∀ i, m ≤ i → todo i = []

structure Refines (sha1 : Bytes → Sha1) (t : Torrent) (content : Bytes) (c : Loc) (m : Nat)
    (d : Download) (a : Asking) : Prop where
  tracks : Tracks sha1 t content c m d.world a
  todo : Unanswered t m d.todo a

section
variable {sha1 : Bytes → Sha1} {t : Torrent} {content : Bytes} {c : Loc} {m i : Nat}
  {w w' : World} {d d' : Download} {a a' : Asking} {b : Block}

/-! ## What the seeders have read -/

theorem map_erase_mem {α β : Type} [BEq α] [LawfulBEq α] [BEq β] [LawfulBEq β] {f : α → β}
    {l : List α} {x : α}
    (hx : x ∈ l) (hinj : ∀ y ∈ l, f y = f x → y = x) :
    (l.map f).erase (f x) = (l.erase x).map f := by
  induction l with
  | nil => cases hx
  | cons y l ih =>
    by_cases hy : y = x
    · rw [hy, List.map_cons, List.erase_cons_head, List.erase_cons_head]
    · have hne : f y ≠ f x := fun he => hy (hinj y List.mem_cons_self he)
      rw [List.map_cons, List.erase_cons_tail (by simpa using hne),
        List.erase_cons_tail (by simpa using hy), List.map_cons,
        ih ((List.mem_cons.1 hx).resolve_left (Ne.symm hy))
          fun z hz => hinj z (List.mem_cons_of_mem _ hz)]

namespace Unanswered
variable {todo : Nat → List BlockRequest}

theorem mem (h : Unanswered t m todo a) {r : BlockRequest} (hr : r ∈ todo i) :
    i < m ∧ ∃ b ∈ a.asked i, r = blockRequest t b := by
  have hi : i < m := by
    by_contra hle
    rw [h.others i (Nat.le_of_not_lt hle)] at hr
    cases hr
  obtain ⟨bs, htodo, -, hset⟩ := h.asked i hi
  rw [htodo] at hr
  obtain ⟨b, hb, rfl⟩ := List.mem_map.1 hr
  exact ⟨hi, b, hset ▸ List.mem_toFinset.2 hb, rfl⟩

theorem nil (h : Unanswered t m todo a) (hi : i < m) (hnil : todo i = []) : a.asked i = ∅ := by
  obtain ⟨bs, htodo, -, hset⟩ := h.asked i hi
  rw [hnil] at htodo
  rw [← hset, List.map_eq_nil_iff.1 htodo.symm]
  rfl

/-- The seeder that is asked for more reads it. -/
theorem hear (h : Unanswered t m d.todo a) (hi : i < m) (hcount : d.world.peers.length = m)
    {taken : List Block} (hs : Sends t i d.world w' taken) (hnodup : taken.Nodup)
    (hnew : ∀ b ∈ taken, b ∉ a.asked i) :
    Unanswered t m (d.hear w').todo (a.give i taken.toFinset) := by
  have hother (k : Nat) (hk : k ≠ i) : (d.hear w').todo k = d.todo k := by
    simp only [Download.hear, hs.silent hk, Seeder.hears_nil, List.append_nil]
  refine ⟨fun k hk => ?_, fun k hk => ?_⟩
  · by_cases hki : k = i
    · subst hki
      obtain ⟨bs, htodo, hbs, hset⟩ := h.asked k hk
      refine ⟨bs ++ taken, ?_, List.nodup_append'.2 ⟨hbs, hnodup, fun b hb hb' => ?_⟩, ?_⟩
      · simp only [Download.hear, hs.hears (hcount.symm ▸ hk), htodo, List.map_append]
      · exact hnew b hb' (hset ▸ List.mem_toFinset.2 hb)
      · rw [List.toFinset_append, hset, Window.State.give_self]
    · rw [hother k hki, Window.State.give_of_ne hki]
      exact h.asked k hk
  · rw [hother k (by omega)]
    exact h.others k hk

/-- A request has been answered. -/
theorem answered (h : Unanswered t m d.todo a) (hd : ContentOf sha1 t content)
    (hs : (t.window m).Sound a) (hi : i < m) (hb : b ∈ a.asked i) :
    Unanswered t m (d.answered i (blockRequest t b)).todo (a.take i b) := by
  refine ⟨fun k hk => ?_, fun k hk => ?_⟩
  · by_cases hki : k = i
    · subst hki
      obtain ⟨bs, htodo, hbs, hset⟩ := h.asked k hk
      have hmem : b ∈ bs := by rwa [← List.mem_toFinset, hset]
      refine ⟨bs.erase b, ?_, hbs.erase b, ?_⟩
      · simp only [Download.answered, Function.update_self, htodo]
        have hin (c : Block) (hc : c ∈ bs) : c ∈ blocksOf t :=
          hs.asked k (Finset.mem_range.2 hk) (hset ▸ List.mem_toFinset.2 hc)
        exact map_erase_mem (f := blockRequest t) hmem fun c hc heq =>
          blockRequest_inj hd.count (hin c hc) (hin b hmem) heq
      · ext c
        rw [List.mem_toFinset, hbs.mem_erase_iff, Window.State.take_self, Finset.mem_erase, ← hset,
          List.mem_toFinset]
    · simp only [Download.answered, Function.update_of_ne hki, Window.State.take_of_ne hki]
      exact h.asked k hk
  · simp only [Download.answered, Function.update_of_ne (show k ≠ i by omega)]
    exact h.others k hk

end Unanswered

/-! ## The steps -/

namespace Tracks
variable (h : Tracks sha1 t content c m w a) (hd : Downloadable sha1 t content c)
include h hd

/-- A seeder has unchoked us. -/
theorem wake (i : Nat) :
    Tracks sha1 t content c m
      { w with peers := w.peers.modify i fun p => { p with choking := false } } (a.wake i) := by
  have hchanges : Changes sha1 t .orderly w _ :=
    (moves_modifyPeer fun _ => rfl :
      Moves _ (Peer.modifyPeer i fun p => { p with choking := false }) w)
  refine ⟨h.steady.changes hd.separate hd.pieceLength_ne hchanges, h.sized,
    (List.length_modify _ _ _).trans h.count, fun k q hq => ?_, fun id hid q hq => ?_, h.marks⟩
  · rw [List.getElem?_modify] at hq
    obtain ⟨q', hq', rfl⟩ := Option.map_eq_some_iff.1 hq
    have hold := h.peer k q' hq'
    by_cases hk : i = k
    · subst hk
      simp only [if_true]
      exact ⟨hold.remote, hold.pending, iff_of_true rfl (Finset.mem_insert_self i _),
        hold.interested⟩
    · simp only [hk, if_false]
      refine ⟨hold.remote, hold.pending, ?_, hold.interested⟩
      rw [hold.awake, Window.State.wake, Finset.mem_insert, or_iff_right (Ne.symm hk)]
  · have hold := h.piece id hid q hq
    exact ⟨hold.done, hold.asked, hold.data, hold.written⟩

/-- An unchoke, with what is requested then. -/
theorem unchoke (hs : (t.window m).Sound a) (hi : i < m) (hasleep : i ∉ a.awake) (now : Int) :
    wp (Peer.setChoking t i false now) w (fun _ w' => ∃ taken : List Block, taken.Nodup ∧
      (t.window m).Tops (a.wake i) (t.window m).limit taken.toFinset ∧
      Tracks sha1 t content c m w' ((a.wake i).give i taken.toFinset) ∧ Sends t i w w' taken)
      fun _ _ => False := by
  have hworker : i ∈ (t.window m).workers := Finset.mem_range.2 hi
  obtain ⟨p, hp⟩ : ∃ p, w.peers[i]? = some p :=
    ⟨_, List.getElem?_eq_getElem (show i < w.peers.length by rwa [h.count])⟩
  have hchoking : p.choking = true := by
    by_contra hc
    exact hasleep ((h.peer i p hp).awake.1 (by simpa using hc))
  have hnone : ((a.wake i).asked i).card = 0 := by
    rw [Finset.card_eq_zero]
    exact hs.asleep i hworker hasleep
  have htop := (h.wake hd i).topUp hd (hs.wake hworker) (Finset.mem_insert_self i _) now
  simp only [Peer.setChoking, wp_bind]
  refine (wp_getPeer hp).2 ?_
  simp only [hchoking, Bool.not_false, Bool.and_self, if_true, Peer.modifyPeer, wp_bind, wp_modify,
    wp_discard]
  refine wp_mono htop (fun _ w' h1 => ?_) fun _ _ hf => hf
  obtain ⟨taken, hnodup, htops, htracks, hsends⟩ := h1
  rw [hnone, Nat.sub_zero] at htops
  exact ⟨taken, hnodup, htops, htracks, hsends.after (.of_modify rfl fun _ => ⟨rfl, rfl⟩)⟩

/-- An answer, with what is requested then. -/
theorem answer (hs : (t.window m).Sound a) (hi : i < m) (hb : b ∈ a.asked i) (now : Int) :
    wp (Peer.setBlock t i b.1 (Piece.blockOffset b.2)
        (Seeder.answer t content (blockRequest t b)) now) w
      (fun _ w' => ∃ taken : List Block, taken.Nodup ∧
        (t.window m).Tops (a.take i b) ((t.window m).limit - ((a.asked i).card - 1))
          taken.toFinset ∧
        Tracks sha1 t content c m w' ((a.take i b).give i taken.toFinset) ∧ Sends t i w w' taken)
      fun _ _ => False := by
  have hworker : i ∈ (t.window m).workers := Finset.mem_range.2 hi
  have hawake : i ∈ a.awake := by
    by_contra hne
    rw [hs.asleep i hworker hne] at hb
    exact absurd hb (Finset.notMem_empty b)
  have hsplit : Peer.setBlock t i b.1 (Piece.blockOffset b.2)
      (Seeder.answer t content (blockRequest t b)) now = (do
        Peer.storeBlock i b.1 (Piece.blockOffset b.2)
          (Seeder.answer t content (blockRequest t b)) now
        discard (Peer.requestNextBlock t i now)) := by
    rw [Peer.storeBlock, bind_assoc]
    rfl
  rw [hsplit, wp_bind]
  refine wp_mono (h.store hd hs hi hb now) (fun _ w1 h1 => ?_) fun _ _ hf => hf
  obtain ⟨htracks, hsame⟩ := h1
  rw [wp_discard]
  refine wp_mono (htracks.topUp hd (hs.take hworker hb) hawake now) (fun _ w' h2 => ?_)
    fun _ _ hf => hf
  obtain ⟨taken, hnodup, htops, htracks', hsends⟩ := h2
  rw [Window.State.take_self, Finset.card_erase_of_mem hb] at htops
  exact ⟨taken, hnodup, htops, htracks', hsends.after hsame⟩

end Tracks

namespace Refines
variable (h : Refines sha1 t content c m d a) (hd : Downloadable sha1 t content c)
include h hd

/-- A seeder unchokes. -/
theorem unchoke (hs : (t.window m).Sound a) (hi : i < m) (hasleep : i ∉ a.awake) (now : Int) :
    ∃ w' taken, Returns sha1 t d.world (.setChoking i false now) w' ∧ taken.Nodup ∧
      (t.window m).Tops (a.wake i) (t.window m).limit taken.toFinset ∧
      Refines sha1 t content c m (d.hear w') ((a.wake i).give i taken.toFinset) ∧
      Sends t i d.world w' taken := by
  obtain ⟨_, w', hrun, taken, hnodup, htops, htracks, hsends⟩ :=
    ok_of_wp (h.tracks.unchoke hd hs hi hasleep now)
  refine ⟨w', taken, hrun, hnodup, htops, ⟨htracks, ?_⟩, hsends⟩
  have htodo : Unanswered t m d.todo (a.wake i) := ⟨h.todo.asked, h.todo.others⟩
  refine htodo.hear hi h.tracks.count hsends hnodup fun b hb => ?_
  exact (Window.mem_free.1 (htops.1 (List.mem_toFinset.2 hb))).2.2 i (Finset.mem_range.2 hi)

/-- A seeder answers a request. -/
theorem answer (hs : (t.window m).Sound a) (hi : i < m) (hb : b ∈ a.asked i) (now : Int) :
    ∃ w' taken, Returns sha1 t d.world (.setBlock i b.1 (Piece.blockOffset b.2)
        (Seeder.answer t content (blockRequest t b)) now) w' ∧ taken.Nodup ∧
      (t.window m).Tops (a.take i b) ((t.window m).limit - ((a.asked i).card - 1))
        taken.toFinset ∧
      Refines sha1 t content c m ((d.answered i (blockRequest t b)).hear w')
        ((a.take i b).give i taken.toFinset) ∧
      Sends t i d.world w' taken := by
  obtain ⟨_, w', hrun, taken, hnodup, htops, htracks, hsends⟩ :=
    ok_of_wp (h.tracks.answer hd hs hi hb now)
  refine ⟨w', taken, hrun, hnodup, htops, ⟨htracks, ?_⟩, hsends⟩
  refine (h.todo.answered hd.toContentOf hs hi hb).hear hi h.tracks.count hsends hnodup
    fun b hb => ?_
  exact (Window.mem_free.1 (htops.1 (List.mem_toFinset.2 hb))).2.2 i (Finset.mem_range.2 hi)

/-- The file writer writes a piece. -/
theorem write (hq : d.world.queue ≠ []) (hdisk : d.world.Writable t) :
    ∃ w' k, Returns sha1 t d.world (.writeNextPiece []) w' ∧
      (t.window m).Step a (.close k) (a.close k) ∧
      Refines sha1 t content c m (d.hear w') (a.close k) ∧ Parted d.world w' := by
  cases hqueue : d.world.queue with
  | nil => exact absurd hqueue hq
  | cons ref rest =>
    obtain ⟨k, hk, hopen, hall, hwrote⟩ := h.tracks.wrote hd hqueue hdisk
    obtain ⟨_, w', hrun, htracks, hparted⟩ := ok_of_wp hwrote
    refine ⟨w', k, hrun, .close (Finset.mem_range.2 hk) hopen hall, ⟨htracks, ?_⟩, hparted⟩
    have htodo : (d.hear w').todo = d.todo := by
      funext i
      simp only [Download.hear, hparted.silent, List.append_nil]
    rw [htodo]
    exact ⟨h.todo.asked, h.todo.others⟩

/-- Every event is a step of the window. -/
theorem step (hs : (t.window m).Sound a) {e : Download.Event}
    (hstep : Download.Step sha1 t content d e d') :
    ∃ e' a', (t.window m).Step a e' a' ∧ Refines sha1 t content c m d' a' := by
  have hsame {x : Action} {w1 w2 : World} (h1 : Returns sha1 t d.world x w1)
      (h2 : Returns sha1 t d.world x w2) : w1 = w2 := (EStateM.Result.ok.inj (h1.symm.trans h2)).2
  cases hstep with
  | @unchoke i p now w' hp hchoking hrun =>
    have hi : i < m := by
      rw [← h.tracks.count]
      exact (List.getElem?_eq_some_iff.1 hp).1
    have hasleep : i ∉ a.awake := fun hawake => by
      rw [(h.tracks.peer i p hp).awake.2 hawake] at hchoking
      cases hchoking
    obtain ⟨w1, taken, hrun1, -, htops, h1, -⟩ := h.unchoke hd hs hi hasleep now
    obtain rfl := hsame hrun1 hrun
    exact ⟨_, _, .wake (Finset.mem_range.2 hi) hasleep htops, h1⟩
  | @answer i r now w' hr hrun =>
    obtain ⟨hi, b, hb, rfl⟩ := h.todo.mem hr
    obtain ⟨w1, taken, hrun1, -, htops, h1, -⟩ := h.answer hd hs hi hb now
    obtain rfl := hsame hrun1 hrun
    exact ⟨_, _, .answer (Finset.mem_range.2 hi) hb htops, h1⟩
  | @write w' hq hdisk hrun =>
    obtain ⟨w1, k, hrun1, hstep, h1, -⟩ := h.write hd hq hdisk
    obtain rfl := hsame hrun1 hrun
    exact ⟨_, _, hstep, h1⟩

end Refines

/-! ## When nothing is left to happen -/

namespace Tracks
variable (h : Tracks sha1 t content c m w a) (hd : Downloadable sha1 t content c)
include h hd

theorem written_of_closed {id : UInt32} (hid : id.toNat < t.pieces.length)
    (hclosed : id.toNat ∈ a.closed) :
    ∃ ref p, Written w id ref p ∧ p.id = id ∧ p.pieceSize = sizeAt t id := by
  obtain ⟨p, hp, hpid, hsize, -, htracks⟩ := h.piece_of hd hid
  have hw := htracks.written.2 hclosed
  cases hl : w.activePieces.lookup id with
  | some ref => exact ⟨ref, p, ⟨hl, (pieceFor_active hl).symm.trans hp, hw⟩, hpid, hsize⟩
  | none =>
    rw [pieceFor, hl] at hp
    obtain ⟨size, -, rfl⟩ := Option.map_eq_some_iff.1 hp
    cases hw

/-- A piece that is not written and not queued lacks a block. -/
theorem lacks {id : UInt32} (hid : id.toNat < t.pieces.length) (hopen : id.toNat ∉ a.closed)
    (hqueue : w.queue = []) : ∃ b ∈ blocksOf t, b.1.toNat = id.toNat ∧ b ∉ a.done := by
  obtain ⟨p, hp, -, hsize, hformed, htracks⟩ := h.piece_of hd hid
  by_contra hnone
  push Not at hnone
  have hcomplete : p.complete = true := by
    refine hformed.complete_iff_all.2 fun j hj => (htracks.done j hj).2 ?_
    refine hnone (id, j) ((mem_blocksOf hd.count).2 ⟨hid, ?_⟩) rfl
    rwa [← hsize]
  by_cases hown : w.clientPieces.bit id.toNat = true
  · obtain ⟨k, ref, q, hk, hl, hq, hq'⟩ := h.steady.tracked.kept _ hown
    obtain rfl := UInt32.toNat.inj hk
    rw [pieceFor_active hl, hq] at hp
    obtain rfl := Option.some.inj hp
    rcases hq' with hw | hmem
    · exact hopen (htracks.written.1 hw)
    · rw [hqueue] at hmem
      cases hmem
  · cases hl : w.activePieces.lookup id with
    | some ref =>
      rw [pieceFor_active hl] at hp
      rw [h.steady.tracked.again id ref p hl hp (by simpa using hown)] at hcomplete
      cases hcomplete
    | none =>
      rw [pieceFor, hl] at hp
      obtain ⟨size, hlen, rfl⟩ := Option.map_eq_some_iff.1 hp
      have hpos := (hd.size_ok hid).2.1
      rw [Piece.create_incomplete] at hcomplete
      · cases hcomplete
      · intro h0
        have hsize' : size = sizeAt t id := hsize
        rw [← hsize', h0] at hpos
        exact Nat.lt_irrefl 0 hpos

/-- When every piece is written, the torrent is done. -/
theorem done (hclosed : a.closed = Finset.range t.pieces.length) : t.done w = true := by
  have hall {id : UInt32} (hid : id.toNat < t.pieces.length) :
      ∃ ref p, Written w id ref p ∧ p.id = id ∧ p.pieceSize = sizeAt t id :=
    h.written_of_closed hd hid (hclosed ▸ Finset.mem_range.2 hid)
  have hbits (k : Nat) : w.clientPieces.bit k = true ↔ k < t.pieces.length := by
    constructor
    · intro hk
      obtain ⟨id, ref, rfl, hl⟩ := h.steady.wellFormed.bits k hk
      exact h.steady.ranged.active id ref hl
    · intro hk
      have hto : (UInt32.ofNat k).toNat = k := toNat_ofNat_lt (Nat.lt_of_lt_of_le hk hd.count)
      obtain ⟨ref, p, hw, -⟩ := @hall (UInt32.ofNat k) (by rwa [hto])
      rw [← hto]
      exact h.steady.written_own hw
  have hcount : w.clientPieces.count = t.pieces.length := by
    rw [Bitfield.count_eq]
    have hfilter : ((Finset.range w.clientPieces.size).filter fun k =>
        w.clientPieces.bit k = true) = Finset.range t.pieces.length := by
      ext k
      rw [Finset.mem_filter, Finset.mem_range, Finset.mem_range, hbits]
      exact and_iff_right_of_imp fun hk => Nat.lt_of_lt_of_le hk h.sized
    rw [hfilter, Finset.card_range]
  have hpos := hd.consistent.pieces
  have hne : t.pieces.isEmpty = false := by
    rw [List.isEmpty_eq_false_iff]
    exact List.ne_nil_of_length_pos hpos
  have hpending : (w.activePieces.entries.any fun e => !w.isWritten e.2) = false := by
    rw [List.any_eq_false]
    intro e he
    have hl : w.activePieces.lookup e.1 = some e.2 := AList.mem_lookup_iff.2 he
    obtain ⟨ref, p, hw, -⟩ := hall (h.steady.ranged.active e.1 e.2 hl)
    obtain rfl := Option.some.inj (hl.symm.trans hw.1)
    rw [isWritten, hw.2.1, Option.map_some, Option.getD_some, hw.2.2]
    simp
  simp only [Torrent.done, hcount, hne, hpending, beq_self_eq_true, Bool.not_false, Bool.and_self]

/-- The bytes of a piece that was not found at start-up. -/
theorem onDisk {id : UInt32} (hid : id.toNat < t.pieces.length) (hclosed : id.toNat ∈ a.closed)
    (hnew : ∀ x ∈ w.marks, x.id = id → x.found = false) :
    OnDisk t w.disk id (pieceData t content id) (sizeAt t id).toNat := by
  obtain ⟨ref, p, hw, hpid, hsize⟩ := h.written_of_closed hd hid hclosed
  obtain ⟨x, hx, hxref, hxid⟩ := h.steady.wellFormed.written ref p hw.2.1 hw.2.2
  rw [hpid] at hxid
  obtain ⟨q, hq, -, hdisk⟩ := h.steady.kept.holds x hx (hnew x hx hxid)
  have hqget := hq.2.1
  rw [hxref, hw.2.1, Option.some.injEq] at hqget
  rwa [hxid, h.marks x hx, hxid, ← hqget, hsize] at hdisk

end Tracks

theorem Downloadable.limit_pos (hd : Downloadable sha1 t content c) : 0 < (t.window m).limit := by
  have := hd.limit.1
  show 0 < t.maxPendingRequests.toNat
  omega

namespace Refines
variable (h : Refines sha1 t content c m d a) (hd : Downloadable sha1 t content c)
include h hd

/-- When nothing can be asked for, nobody has anything to answer and no piece is queued, everything
is done. -/
theorem finished (hs : (t.window m).Sound a) (hfree : (t.window m).free a = ∅)
    (hasked : ∀ i < m, a.asked i = ∅) (hqueue : d.world.queue = []) :
    a.done = blocksOf t ∧ a.closed = Finset.range t.pieces.length := by
  refine hs.finished hfree (fun i hi => hasked i (Finset.mem_range.1 hi)) fun k hk hopen => ?_
  have hlt := Finset.mem_range.1 hk
  have hto : (UInt32.ofNat k).toNat = k := toNat_ofNat_lt (Nat.lt_of_lt_of_le hlt hd.count)
  have hid : (UInt32.ofNat k).toNat < t.pieces.length := by rwa [hto]
  obtain ⟨b, hb, hbid, hundone⟩ := h.tracks.lacks hd hid (by rwa [hto]) hqueue
  exact ⟨b, hb, hbid.trans hto, hundone⟩

/-- When nothing can happen any more and the disk takes every piece, everything is done. -/
theorem stuck (hf : (t.window m).Fair a) (hm : 0 < m)
    (hstuck : Stuck (Download.Step sha1 t content) d) (hdisk : d.world.Writable t) :
    a.awake = Finset.range m ∧ a.done = blocksOf t ∧
      a.closed = Finset.range t.pieces.length := by
  have hawake : Finset.range m ⊆ a.awake := by
    intro i hi
    by_contra hasleep
    have him := Finset.mem_range.1 hi
    obtain ⟨p, hp⟩ : ∃ p, d.world.peers[i]? = some p :=
      ⟨_, List.getElem?_eq_getElem (show i < d.world.peers.length by rwa [h.tracks.count])⟩
    have hchoking : p.choking = true := by
      by_contra hc
      exact hasleep ((h.tracks.peer i p hp).awake.1 (by simpa using hc))
    obtain ⟨w', _, hrun, -⟩ := h.unchoke hd hf.toSound him hasleep 0
    exact hstuck _ _ (.unchoke hp hchoking hrun)
  have hasked (i : Nat) (hi : i < m) : a.asked i = ∅ := by
    refine h.todo.nil hi (List.eq_nil_iff_forall_not_mem.2 fun r hr => ?_)
    obtain ⟨-, b, hb, rfl⟩ := h.todo.mem hr
    obtain ⟨w', _, hrun, -⟩ := h.answer hd hf.toSound hi hb 0
    exact hstuck _ _ (.answer hr hrun)
  have hqueue : d.world.queue = [] := by
    by_contra hq
    obtain ⟨w', _, hrun, -⟩ := h.write hd hq hdisk
    exact hstuck _ _ (.write hq hdisk hrun)
  have hfree := hf.idle hd.limit_pos (hawake (Finset.mem_range.2 hm)) (hasked 0 hm)
  exact ⟨hf.awake.antisymm hawake, h.finished hd hf.toSound hfree hasked hqueue⟩

/-- A run of events is a run of the window, one step each. -/
theorem run (hf : (t.window m).Fair a) {es : List Download.Event}
    (hr : Run (Download.Step sha1 t content) d es d') :
    ∃ a', Refines sha1 t content c m d' a' ∧ (t.window m).Fair a' ∧
      (t.window m).left a' + es.length = (t.window m).left a := by
  induction hr generalizing a with
  | nil => exact ⟨a, h, hf, rfl⟩
  | cons hstep _ ih =>
    obtain ⟨e', a1, hs, h1⟩ := h.step hd hf.toSound hstep
    obtain ⟨a', h', hf', hleft⟩ := ih h1 (hf.step hs)
    have hone := hs.left hf
    refine ⟨a', h', hf', ?_⟩
    rw [List.length_cons]
    omega

end Refines

/-! ## The start -/

/-- What is there when the torrent has been constructed is done; nobody has been asked for the
rest. -/
def Asking.start (t : Torrent) (w : World) : Asking where
  asked _ := ∅
  done := (blocksOf t).filter fun b => w.clientPieces.bit b.1.toNat = true
  awake := ∅
  closed := (Finset.range t.pieces.length).filter fun k => w.clientPieces.bit k = true

/-- What a new torrent is like: every piece was found, and no piece waits. -/
structure Fresh (w : World) : Prop where
  peers : w.peers = []
  written : ∀ (ref : Nat) (p : Piece), w.heap[ref]? = some p → p.pieceWritten = true
  marks : ∀ x ∈ w.marks, w.clientPieces.bit x.id.toNat = true

theorem Fresh.constructed (hc : Constructed sha1 t w) : Fresh w := by
  refine constructed_inv (I := Fresh) (fun _ _ => ⟨rfl, nofun, nofun⟩) (fun w w' id h hf => ?_) hc
  cases hf
  refine ⟨h.peers, Heap.forall_append h.written rfl, fun x hx => ?_⟩
  rcases List.mem_append.1 hx with hx | hx
  · exact Bitfield.bit_set_true _ (h.marks x hx) _
  · rw [List.mem_singleton.1 hx]
    exact Bitfield.bit_set_self _ _ _

/-- A seeder has been shown our pieces, and told that we are interested if we are. -/
def Showed (p : Peer) : Prop :=
  ∃ shown, idMsg .interested ∉ shown ∧
    p.sent = shown ++ if p.amInterested then [idMsg .interested] else []

/-- Seeders have connected and shown their pieces. -/
structure Gathered (t : Torrent) (bf : Bitfield) (m : Nat) (w w' : World) : Prop where
  heap : w'.heap = w.heap
  active : w'.activePieces = w.activePieces
  marks : w'.marks = w.marks
  own : w'.clientPieces = w.clientPieces ∧ (w.clientPieces.size = 0 → m = 0) ∨
    w.clientPieces.size = 0 ∧ w'.clientPieces = .ofCount bf.size
  count : w'.peers.length = m
  peer : ∀ p ∈ w'.peers, p.remotePieces = bf ∧ p.pendingRequests = 0 ∧ p.choking = true ∧
    (p.amInterested = true ∨ w.clientPieces.count = t.pieces.length) ∧ Showed p

theorem modify_last {α : Type} (l : List α) (x : α) (f : α → α) :
    (l ++ [x]).modify l.length f = l ++ [f x] := by
  induction l with
  | nil => rfl
  | cons y l ih => rw [List.cons_append, List.length_cons, List.modify_succ_cons, ih,
      List.cons_append]

/-- A peer that has just connected. -/
def withLast (w : World) (q : Peer) : World := { w with peers := w.peers ++ [q] }

theorem modifyPeer_last (w : World) (q : Peer) (f : Peer → Peer) :
    Peer.modifyPeer w.peers.length f (withLast w q) = .ok ⟨⟩ (withLast w (f q)) := by
  rw [Peer.modifyPeer, modify_run, withLast]
  simp only [modify_last]
  rfl

/-- The last peer is shown our pieces, in a message that is not an INTERESTED. -/
theorem reportBitfield_last {q : Peer}
    (hr : Returns sha1 t (withLast w q) (.reportBitfield w.peers.length) w') :
    ∃ told, w' = withLast w { q with sent := q.sent ++ told } ∧ idMsg .interested ∉ told := by
  refine wp_ok (Q := fun _ s => ∃ told, s = withLast w { q with sent := q.sent ++ told } ∧
    idMsg .interested ∉ told) (E := fun _ _ => True) ?_ hr
  simp only [Action.run, Peer.reportBitfield, wp_bind, wp_get]
  refine wp_ite (fun _ => ?_) fun _ => ⟨[], by rw [List.append_nil], List.not_mem_nil⟩
  rw [wp_bind, wp_lift]
  refine ⟨fun msg hmsg => ?_, fun _ _ => trivial⟩
  refine wp_intro (modifyPeer_last w _ (·.write msg)) ⟨[msg], rfl, fun hmem => ?_⟩
  obtain ⟨len, -, hmsg⟩ := Lib.bind_eq_ok.1 hmsg
  rw [← pure_eq_ok.1 hmsg] at hmem
  simp [idMsg, toBigEndian, PeerWireId.toByte] at hmem

/-- The last peer shows its pieces. -/
theorem setRemotePieces_last {q : Peer} {bf : Bitfield}
    (hr : Returns sha1 t (withLast w q) (.setRemotePieces w.peers.length bf) w') :
    w' = { w with
      peers := w.peers ++ [{ q with remotePieces := bf }]
      clientPieces := if w.clientPieces.size = 0 then .ofCount bf.size else w.clientPieces } := by
  refine wp_ok (Q := fun _ s => s = _) (E := fun _ _ => True) ?_ hr
  simp only [Action.run, Peer.setRemotePieces, wp_bind]
  refine wp_intro (modifyPeer_last w _ fun p => { p with remotePieces := bf }) ?_
  simp only [Torrent.initClientPieces, wp_bind, wp_get, withLast]
  refine wp_ite (fun h0 => ?_) fun h0 => ?_
  · rw [if_pos h0]
    exact rfl
  · rw [if_neg h0]
    exact rfl

/-- One seeder more. -/
theorem greetOne_leaves {bf : Bitfield} (hr : Run (Returns sha1 t) w (greetOne bf w.peers.length) w') :
    ∃ q : Peer, w' = { w with
      peers := w.peers ++ [q]
      clientPieces := if w.clientPieces.size = 0 then .ofCount bf.size else w.clientPieces } ∧
      q.remotePieces = bf ∧ q.pendingRequests = 0 ∧ q.choking = true ∧
      (q.amInterested = true ∨ t.done w = true) ∧ Showed q := by
  obtain _ | ⟨h1, _ | ⟨h2, _ | ⟨h3, _ | ⟨h4, _ | _⟩⟩⟩⟩ := hr
  rename_i w1 w2 w3
  have hw1 : w1 = withLast w { listening := false } := by
    cases h1
    rfl
  rw [hw1] at h2
  obtain ⟨told, rfl, hnot⟩ := reportBitfield_last h2
  have hw3 : w3 = withLast w (Peer.setAmInterested { listening := false, sent := [] ++ told }
      (t.done w) true) := by
    have hrun : (Action.setAmInterested w.peers.length true).run sha1 t
        (withLast w { listening := false, sent := [] ++ told }) = .ok ⟨⟩ (withLast w
          (Peer.setAmInterested { listening := false, sent := [] ++ told } (t.done w) true)) :=
      modifyPeer_last w _ fun p => p.setAmInterested (t.done w) true
    exact (EStateM.Result.ok.inj (h3.symm.trans hrun)).2
  subst hw3
  refine ⟨_, setRemotePieces_last h4, rfl, ?_⟩
  rw [List.nil_append]
  cases hdone : t.done w with
  | true => exact ⟨rfl, rfl, .inr rfl, told, hnot, by simp [Peer.setAmInterested]⟩
  | false => exact ⟨rfl, rfl, .inl rfl, told, hnot, by simp [Peer.setAmInterested, Peer.write]⟩

namespace Gathered
variable {bf : Bitfield}

theorem bit (h : Gathered t bf m w w') (k : Nat) :
    w'.clientPieces.bit k = w.clientPieces.bit k := by
  rcases h.own with ⟨hown, -⟩ | ⟨h0, hown⟩
  · rw [hown]
  · rw [hown, Bitfield.bit_ofCount, Bitfield.bit_of_size_le _ (by omega)]

theorem count_own (h : Gathered t bf m w w') : w'.clientPieces.count = w.clientPieces.count := by
  rcases h.own with ⟨hown, -⟩ | ⟨h0, hown⟩
  · rw [hown]
  · have hnone : w.clientPieces.count = 0 :=
      (Bitfield.count_eq_zero _).2 fun k => Bitfield.bit_of_size_le _ (by omega)
    rw [hown, hnone]
    exact (Bitfield.count_eq_zero _).2 fun k => Bitfield.bit_ofCount _ k

theorem of_run (h0 : w.peers = []) (hr : Run (Returns sha1 t) w (greet bf m) w') :
    Gathered t bf m w w' := by
  induction m generalizing w' with
  | zero =>
    cases hr
    exact ⟨rfl, rfl, rfl, .inl ⟨rfl, fun _ => rfl⟩, by rw [h0]; rfl, fun p hp => by rw [h0] at hp; cases hp⟩
  | succ m ih =>
    obtain ⟨w1, hr1, hr2⟩ := hr.of_append
    have h1 := ih hr1
    rw [← h1.count] at hr2
    obtain ⟨q, rfl, hbf, hpending, hchoking, hint, hshowed⟩ := greetOne_leaves hr2
    refine ⟨h1.heap, h1.active, h1.marks, ?_, ?_, fun p hp => ?_⟩
    · rcases h1.own with ⟨hown, -⟩ | ⟨hsize, hown⟩
      · simp only [hown]
        split_ifs with hsize
        · exact .inr ⟨hsize, rfl⟩
        · exact .inl ⟨rfl, fun h0 => absurd h0 hsize⟩
      · refine .inr ⟨hsize, ?_⟩
        simp only [hown, ite_self]
    · rw [List.length_append, h1.count]
      rfl
    · rcases List.mem_append.1 hp with hp | hp
      · exact h1.peer p hp
      · rw [List.mem_singleton.1 hp]
        refine ⟨hbf, hpending, hchoking, hint.imp_right fun hdone => ?_, hshowed⟩
        simp only [Torrent.done, Bool.and_eq_true, beq_iff_eq] at hdone
        rw [← h1.count_own]
        exact hdone.1.1

/-- Greeting seeders is an orderly chain of changes. -/
theorem changes (hbf : Seeder.Complete t bf) (hr : Run (Returns sha1 t) w (greet bf m) w') :
    Changes sha1 t .orderly w w' := by
  have hmem (m : Nat) (x : Action) (hx : x ∈ greet bf m) : ∃ i, x ∈ greetOne bf i := by
    induction m with
    | zero => cases hx
    | succ m ih => exact (List.mem_append.1 hx).elim ih fun hx => ⟨m, hx⟩
  have hhazards (x : Action) (hx : x ∈ greet bf m) (s : World) :
      (x.hazards sha1 t s).Le .orderly := by
    obtain ⟨i, hx⟩ := hmem m x hx
    simp only [greetOne, List.mem_cons, List.not_mem_nil, or_false] at hx
    rcases hx with rfl | rfl | rfl | rfl
    · exact ⟨False.elim, False.elim, False.elim, False.elim, False.elim⟩
    · exact ⟨False.elim, False.elim, False.elim, False.elim, False.elim⟩
    · exact ⟨False.elim, False.elim, False.elim, False.elim, False.elim⟩
    · refine ⟨False.elim, fun _ => trivial, fun ⟨j, hj, hbit⟩ => ?_, False.elim, False.elim⟩
      exact absurd ((hbf.2 j).1 hbit) (Nat.not_lt.2 hj)
  have hstep (x : Action) (hx : x ∈ greet bf m) (s s' : World) (hs : Returns sha1 t s x s') :
      Changes sha1 t .orderly s s' := by
    have hmoves : Moves (Change sha1 t .orderly) (x.run sha1 t) s := action_moves x (hhazards x hx s)
    exact wp_ok (Q := fun _ s' => Changes sha1 t .orderly s s') hmoves hs
  exact (hr.mono_mem hstep).inv (I := Changes sha1 t .orderly w) (fun _ _ _ h h1 => h.trans h1) .refl

end Gathered

/-- The pieces of a torrent that has been constructed. -/
theorem PieceTracks.start (hs : Steady sha1 t c w) (hfresh : Fresh w) (hd : ContentOf sha1 t content)
    {id : UInt32} {p : Piece} (hid : id.toNat < t.pieces.length) (hp : pieceFor t w id = some p) :
    PieceTracks t content m (Asking.start t w) id p := by
  obtain ⟨q, hq, -, hsize, hformed⟩ := hs.pieceFor_some hd hid
  obtain rfl := Option.some.inj (hp.symm.trans hq)
  have hmem (j : Nat) (hj : j < p.blockCount.toNat) :
      (id, j) ∈ (Asking.start t w).done ↔ w.clientPieces.bit id.toNat = true := by
    rw [Asking.start, Finset.mem_filter]
    refine and_iff_right ((mem_blocksOf hd.count).2 ⟨hid, ?_⟩)
    rwa [← hsize]
  have hclosed : id.toNat ∈ (Asking.start t w).closed ↔ w.clientPieces.bit id.toNat = true := by
    rw [Asking.start, Finset.mem_filter]
    exact and_iff_right (Finset.mem_range.2 hid)
  cases hl : w.activePieces.lookup id with
  | some ref =>
    rw [pieceFor_active hl] at hp
    have hw := hfresh.written ref p hp
    have hown := hs.written_own ⟨hl, hp, hw⟩
    have hall := hformed.complete_iff_all.1 (hs.kept.complete ref p hp hw)
    refine ⟨fun j hj => iff_of_true (hall j hj) ((hmem j hj).2 hown),
      fun j hj hne => absurd ((hmem j hj).2 hown) hne, fun hnot => ?_,
      iff_of_true hw (hclosed.2 hown)⟩
    rw [hw] at hnot
    cases hnot
  | none =>
    have hown : ¬w.clientPieces.bit id.toNat = true := fun hown => by
      obtain ⟨k, ref, hk, hl'⟩ := hs.wellFormed.bits _ hown
      rw [UInt32.toNat.inj hk, hl] at hl'
      cases hl'
    rw [pieceFor, hl] at hp
    obtain ⟨size, -, rfl⟩ := Option.map_eq_some_iff.1 hp
    refine ⟨fun j hj => iff_of_false ?_ ((hmem j hj).not.2 hown), fun j hj _ => iff_of_false ?_ ?_,
      fun _ j hj hdone => absurd ((hmem j hj).1 hdone) hown, iff_of_false ?_ (hclosed.not.2 hown)⟩
    · rw [Piece.create, Bitfield.bit_ofCount]
      exact Bool.false_ne_true
    · rw [Piece.create, Bitfield.bit_ofCount]
      exact Bool.false_ne_true
    · rintro ⟨i, -, hi⟩
      exact Finset.notMem_empty _ hi
    · exact Bool.false_ne_true

/-- The window starts where the torrent does. -/
theorem Refines.start (hc : Constructed sha1 t w) (hd : Downloadable sha1 t content w.disk.cwd)
    (hown : w.clientPieces.size = 0 ∨ t.pieces.length ≤ w.clientPieces.size)
    (hfound : ∀ x ∈ w.marks, x.data = pieceData t content x.id) (hm : 0 < m) {bf : Bitfield}
    (hbf : Seeder.Complete t bf) (hr : Run (Returns sha1 t) w (greet bf m) w') :
    Refines sha1 t content w.disk.cwd m (Download.start w') (Asking.start t w) := by
  have hfresh := Fresh.constructed hc
  have hsteady := Steady.constructed hc
  have hgathered := Gathered.of_run hfresh.peers hr
  have hchanges := Gathered.changes hbf hr
  refine ⟨⟨hsteady.changes hd.separate hd.pieceLength_ne hchanges, ?_, hgathered.count,
    fun i p hp => ?_, fun id hid p hp => ?_, fun x hx => ?_⟩,
    fun i _ => ⟨[], rfl, List.nodup_nil, rfl⟩, fun i _ => rfl⟩
  · show t.pieces.length ≤ w'.clientPieces.size
    rcases hgathered.own with ⟨hsame, hnot⟩ | ⟨-, hnew⟩
    · rw [hsame]
      exact hown.resolve_left fun h0 => by have := hnot h0; omega
    · rw [hnew]
      exact Nat.le_trans hbf.1 (Bitfield.le_size_ofCount _)
  · obtain ⟨hremote, hpending, hchoking, hint, -⟩ := hgathered.peer p (List.mem_of_getElem? hp)
    refine ⟨fun k => hremote ▸ hbf.2 k, hpending, ?_, hint.imp_right fun hcount => ?_⟩
    · rw [hchoking]
      exact iff_of_false (by simp) (Finset.notMem_empty i)
    · refine Finset.eq_empty_of_forall_notMem fun b hb => ?_
      obtain ⟨hmem, hundone, -⟩ := Window.mem_free_iff.1 hb
      refine hundone (Finset.mem_filter.2 ⟨hmem, ?_⟩)
      refine Bitfield.bit_of_count_eq _ (fun k hk => ?_) hcount ((mem_blocksOf hd.count).1 hmem).1
      obtain ⟨id, ref, rfl, hl⟩ := hsteady.wellFormed.bits k hk
      exact hsteady.ranged.active id ref hl
  · have hsame : pieceFor t w' id = pieceFor t w id := by
      rw [pieceFor, pieceFor, hgathered.active, hgathered.heap]
    exact .start hsteady hfresh hd.toContentOf hid (hsame ▸ hp)
  · exact hfound x (hgathered.marks ▸ hx)

theorem Asking.start_fair (t : Torrent) (m : Nat) (w : World) :
    (t.window m).Fair (Asking.start t w) where
  done := Finset.filter_subset _ _
  asked _ _ := Finset.empty_subset _
  undone _ _ _ hb := absurd hb (Finset.notMem_empty _)
  apart _ _ _ _ _ _ hb := absurd hb (Finset.notMem_empty _)
  awake := Finset.empty_subset _
  asleep _ _ _ := rfl
  closed := Finset.filter_subset _ _
  full _ hi := absurd hi (Finset.notMem_empty _)

/-- What was found stays the only thing that was found. -/
theorem found_old {hz : Hazards} (hc : Changes sha1 t hz w w') :
    ∀ x ∈ w'.marks, x.found = true → x ∈ w.marks := by
  refine chain_inv (I := fun w' => ∀ x ∈ w'.marks, x.found = true → x ∈ w.marks)
    (fun w1 w2 h h1 x hx hf => ?_) hc fun _ hx _ => hx
  cases h1 with
  | written _ _ _ _ _ _ =>
    rcases List.mem_append.1 hx with hx | hx
    · exact h x hx hf
    · rw [List.mem_singleton.1 hx] at hf
      cases hf
  | _ => exact h x hx hf

/-- An event makes a call. -/
theorem Download.Step.returns {e : Download.Event} (h : Download.Step sha1 t content d e d') :
    ∃ x, Returns sha1 t d.world x d'.world := by
  cases h with
  | unchoke _ _ hrun => exact ⟨_, hrun⟩
  | answer _ hrun => exact ⟨_, hrun⟩
  | write _ _ hrun => exact ⟨_, hrun⟩

theorem Returns.changes {x : Action} (h : Returns sha1 t w x w') : Changes sha1 t .all w w' := by
  have hmoves : Moves (Change sha1 t .all) (x.run sha1 t) w := action_moves x (Hazards.le_all _)
  exact wp_ok (Q := fun _ s' => Changes sha1 t .all w s') hmoves h

/-- The blocks that are left, the pieces that are left and the seeders. -/
def Torrent.remaining (t : Torrent) (w : World) (m : Nat) : Nat :=
  ((blocksOf t).filter fun b => w.clientPieces.bit b.1.toNat = false).card +
    ((Finset.range t.pieces.length).filter fun k => w.clientPieces.bit k = false).card + m

theorem Asking.start_left (t : Torrent) (m : Nat) (w : World) :
    (t.window m).left (Asking.start t w) = t.remaining w m := by
  have hsdiff {α : Type} [DecidableEq α] (u : Finset α) (f : α → Bool) :
      u \ u.filter (f · = true) = u.filter (f · = false) := by
    rw [← Finset.filter_not]
    refine Finset.filter_congr fun x _ => ?_
    rw [Bool.not_eq_true]
  rw [Window.left, Torrent.remaining]
  simp only [Torrent.window, Asking.start, hsdiff, Finset.sdiff_empty, Finset.card_range]

/-- When every piece has been written, the torrent is done, and the bytes of the pieces that were not
there when it was constructed are on disk. -/
theorem Refines.downloaded {bf : Bitfield} {es : List Download.Event} (hc : Constructed sha1 t w)
    (hd : Downloadable sha1 t content w.disk.cwd) (hbf : Seeder.Complete t bf)
    (hg : Run (Returns sha1 t) w (greet bf m) w')
    (hr : Run (Download.Step sha1 t content) (.start w') es d)
    (h : Refines sha1 t content w.disk.cwd m d a)
    (hclosed : a.closed = Finset.range t.pieces.length) :
    t.done d.world = true ∧
      ∀ id : UInt32, id.toNat < t.pieces.length → w.clientPieces.bit id.toNat = false →
        OnDisk t d.world.disk id (pieceData t content id) (sizeAt t id).toNat := by
  have hold : ∀ x ∈ d.world.marks, x.found = true → x ∈ w.marks := by
    refine hr.inv (I := fun d => ∀ x ∈ d.world.marks, x.found = true → x ∈ w.marks)
      (fun d1 e d2 h1 hstep x hx hxf => ?_) fun x hx hxf => ?_
    · obtain ⟨_, hreturns⟩ := hstep.returns
      exact h1 x (found_old hreturns.changes x hx hxf) hxf
    · exact found_old (Gathered.changes hbf hg) x hx hxf
  refine ⟨h.tracks.done hd hclosed, fun id hid hnew => ?_⟩
  refine h.tracks.onDisk hd hid (hclosed ▸ Finset.mem_range.2 hid) fun x hx hxid => ?_
  by_contra hxf
  have hmark := hold x hx (by simpa using hxf)
  have hbit := (Fresh.constructed hc).marks x hmark
  rw [hxid, hnew] at hbit
  cases hbit

end

/-- The torrent is the one of the byte 120, for evaluation. -/
def Torrent.isOneByte (t : Torrent) : Bool :=
  decide (t.pieceLength.toNat = 1) && decide (t.length = .ok 1) &&
    decide (t.pieces = [oneByteSha1 [120]]) && t.isSingleFile && t.files.isEmpty &&
    decide (t.maxPendingRequests = 10)

theorem Torrent.isOneByte_downloadable {t : Torrent} (h : t.isOneByte = true) (c : Loc) :
    t.pieces.length = 1 ∧ Downloadable oneByteSha1 t [120] c := by
  simp only [isOneByte, Bool.and_eq_true, decide_eq_true_eq, List.isEmpty_iff] at h
  obtain ⟨⟨⟨⟨⟨hP, hlen⟩, hpieces⟩, hsingle⟩, hfiles⟩, hmax⟩ := h
  have hn : t.pieces.length = 1 := by rw [hpieces, List.length_singleton]
  refine ⟨hn, ⟨⟨by omega, hlen, by omega, by rw [hP, hn]; rfl⟩, ?_, by omega⟩,
    ⟨fun id hid => ?_, fun j k f g hj => ?_, fun hs => ?_⟩, by omega, by omega⟩
  · rw [hP]
    exact hpieces
  · rw [show id.toNat = 0 by omega, Nat.zero_mul]
    exact Nat.two_pow_pos 32
  · rw [hfiles] at hj
    cases hj
  · rw [hsingle] at hs
    cases hs

theorem Seeder.Complete.oneByte {t : Torrent} (hn : t.pieces.length = 1) :
    Seeder.Complete t ⟨[0x80]⟩ := by
  refine ⟨by rw [hn]; decide, fun k => ?_⟩
  rw [hn]
  have hlow : ∀ k < 8, ((⟨[0x80]⟩ : Bitfield).bit k = true ↔ k < 1) := by decide
  by_cases hk : k < 8
  · exact hlow k hk
  · rw [Bitfield.bit_of_size_le _ (Nat.le_of_not_lt hk)]
    exact iff_of_false Bool.false_ne_true (by omega)

/-- One seeder of one byte: it unchokes, and sends the byte it is asked for. -/
def oneByteEvents : List Download.Event := [.unchoke 0 5, .answer 0 ⟨0, 0, 1⟩ 7, .write]

end Zit
