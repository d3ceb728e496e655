import Zit.Proof.Change

/-!
# What a constructor establishes

Checking the existing files of a torrent is a chain of `Found`: each piece that is found becomes
active and written, its bit is set and its bytes are at their homes. So the first state of a torrent
is reached from the empty one by finding pieces (`constructed_found`), and an invariant of a running
torrent holds initially once it holds of the empty state and `Found` keeps it.
-/

set_option autoImplicit false

namespace Zit

open Lib Lib.Path World

/-- The piece `id` is found by the verification, in the places `es`. -/
inductive Found (sha1 : Bytes → Sha1) (t : Torrent) (id : UInt32) : World → World → Prop
  | intro {w : World} {size : UInt32} {data : Bytes} {es : List Placed}
      (hnew : w.activePieces.lookup id = none) (hsize : t.pieceLengthAt id = .ok size)
      (hhash : t.pieces[id.toNat]? = some (sha1 data))
      (hhome : ∀ e ∈ es, e.id = id ∧ e.AtHome t w.disk.cwd)
      (hcovers : ∀ i < data.length, ∃ e ∈ es, e.Covers id i) :
      Found sha1 t id w { w with
        heap := w.heap ++ [(Piece.create id size).setPieceWritten true]
        clientPieces := w.clientPieces.set id.toNat true
        activePieces := w.activePieces.insert id w.heap.length
        disk := { w.disk with placed := w.disk.placed ++ es }
        marks := w.marks ++ [⟨w.heap.length, id, data, true⟩] }

/-- Pieces are found, one after the other. -/
abbrev Verified (sha1 : Bytes → Sha1) (t : Torrent) : World → World → Prop :=
  Relation.ReflTransGen fun w w' => ∃ id, Found sha1 t id w w'

section
variable {sha1 : Bytes → Sha1} {t : Torrent} {w : World}

theorem Found.lookup {id : UInt32} {w' : World} (h : Found sha1 t id w w') {k : UInt32}
    (hk : k ≠ id) : w'.activePieces.lookup k = w.activePieces.lookup k := by
  cases h
  exact AList.lookup_insert_ne hk

/-! ## One piece -/

/-- A piece that matches, up to the record of its places. -/
theorem foundPiece_spec {id : UInt32} {data : Bytes} (hnew : w.activePieces.lookup id = none) :
    wp (t.foundPiece id data) w (fun _ w' => ∃ size, t.pieceLengthAt id = .ok size ∧
      w' = { w with
        heap := w.heap ++ [(Piece.create id size).setPieceWritten true]
        clientPieces := w.clientPieces.set id.toNat true
        activePieces := w.activePieces.insert id w.heap.length
        marks := w.marks ++ [⟨w.heap.length, id, data, true⟩] })
      fun _ _ => ∀ size, t.pieceLengthAt id ≠ .ok size := by
  simp only [Torrent.foundPiece, Torrent.activePiece, wp_bind, wp_modify, wp_get, hnew, if_true]
  refine (wp_lift _).2 ⟨fun size hsize => ?_, fun e he size hs => by
    rw [hs] at he
    cases he⟩
  have hget : (w.heap ++ [Piece.create id size])[w.heap.length]? = some (Piece.create id size) :=
    List.getElem?_concat_length
  simp only [makePiece, setWritten, store, deref, wp_bind, wp_get, wp_set, wp_modify, wp_pure,
    hget]
  refine ⟨size, hsize, ?_⟩
  rw [List.set_append_right _ _ (Nat.le_refl _), Nat.sub_self]
  rfl

/-- What checking the piece at `index` may do. -/
def Checked (sha1 : Bytes → Sha1) (t : Torrent) (index : Nat) (w w' : World) : Prop :=
  w' = w ∨ ∃ id : UInt32, id.toNat = index ∧ Found sha1 t id w w'

section
variable {index : Nat} {hash : Sha1}

theorem verifyPieceSingleFile_spec (hs : t.isSingleFile = true) (fileLength : Nat)
    (hh : t.pieces[index]? = some hash)
    (hnew : ∀ id : UInt32, id.toNat = index → w.activePieces.lookup id = none) :
    wp (t.verifyPieceSingleFile sha1 fileLength index hash) w
      (fun _ w' => Checked sha1 t index w w') fun _ _ => True := by
  simp only [Torrent.verifyPieceSingleFile, wp_bind]
  refine (wp_lift _).2 ⟨fun id hid => ?_, fun _ _ => trivial⟩
  have hidx : id.toNat = index := by
    have := castU32_ok hid
    omega
  simp only [wp_onDisk]
  refine wp_mono (Disk.openFile_spec _) (fun _ d0 h0 => ?_) fun _ _ _ => trivial
  subst h0
  refine (wp_lift _).2 ⟨fun tail _ => ?_, fun _ _ => trivial⟩
  refine wp_mono (Disk.read_spec _ _ _) (fun data d1 h1 => ?_) fun _ _ _ => trivial
  obtain ⟨rfl, hlen, -⟩ := h1
  refine wp_ite (fun heq => ?_) fun _ => .inl rfl
  simp only [wp_bind]
  refine wp_mono (foundPiece_spec (hnew id hidx)) (fun _ w1 h1 => ?_) fun _ _ _ => trivial
  obtain ⟨size, hsize, rfl⟩ := h1
  simp only [wp_onDisk, Disk.wp_place, wp_pure]
  refine .inr ⟨id, hidx, ?_⟩
  refine @Found.intro _ _ _ _ _ _ [_] (hnew id hidx) hsize (by rw [hidx, hh, heq]) ?_ ?_
  · intro e he
    rw [List.mem_singleton.1 he]
    refine ⟨rfl, fun j _ => ?_⟩
    rw [home_single hs, Nat.zero_add]
    rfl
  · intro i hi
    refine ⟨_, List.mem_singleton.2 rfl, rfl, Nat.zero_le i, ?_⟩
    show i < 0 + data.length
    omega

/-- The chunks of `data` are the homes of its bytes. -/
structure AtHomes (t : Torrent) (cwd : Loc) (id : UInt32) (data : Bytes)
    (chunks : List Torrent.Chunk) : Prop where
  home : ∀ c ∈ chunks, ∀ j < c.len,
    t.home cwd id (c.off + j) = some (locate cwd c.path, c.pos + j)
  covers : ∀ i < data.length, ∃ c ∈ chunks, c.off ≤ i ∧ i < c.off + c.len

/-- One more chunk. -/
theorem AtHomes.append {cwd : Loc} {id : UInt32} {data bytes : Bytes}
    {chunks : List Torrent.Chunk} (h : AtHomes t cwd id data chunks) {path : Path} {pos : Nat}
    (hhome : ∀ j < bytes.length,
      t.home cwd id (data.length + j) = some (locate cwd path, pos + j)) :
    AtHomes t cwd id (data ++ bytes) (chunks ++ [⟨data.length, bytes.length, path, pos⟩]) := by
  constructor
  · intro c hc
    rcases List.mem_append.1 hc with hc | hc
    · exact h.home c hc
    · rw [List.mem_singleton.1 hc]
      exact hhome
  · intro i hi
    rw [List.length_append] at hi
    by_cases hlt : i < data.length
    · obtain ⟨c, hc, hin⟩ := h.covers i hlt
      exact ⟨c, List.mem_append_left _ hc, hin⟩
    · refine ⟨_, List.mem_append_right _ (List.mem_singleton.2 rfl), ?_, ?_⟩
      · show data.length ≤ i
        omega
      · show i < data.length + bytes.length
        omega

theorem verifyLoop_spec (hs : t.isSingleFile = false) (id : UInt32) (globalLen : Int)
    (turns : Nat) (gpos remaining : Int) (data : Bytes) (chunks : List Torrent.Chunk) (d : Disk)
    (hpos : gpos = t.pieceStart id + data.length) (h : AtHomes t d.cwd id data chunks) :
    wp (t.verifyLoop globalLen turns gpos remaining data chunks) d
      (fun r d' => d' = d ∧ ∀ x, r = some x → AtHomes t d.cwd id x.1 x.2) fun _ _ => True := by
  induction turns generalizing gpos remaining data chunks with
  | zero => trivial
  | succ turns ih =>
    unfold Torrent.verifyLoop
    split
    · rename_i hmore
      simp only [wp_bind]
      refine (wp_lift _).2 ⟨fun a ha => ?_, fun _ _ => trivial⟩
      obtain ⟨fi, off, left⟩ := a
      obtain ⟨hoff, hleft⟩ := fileAtPos_left hs (by omega) ha
      simp only [Disk.wp_existsPath]
      refine wp_ite (fun _ => ⟨rfl, fun _ hx => by cases hx⟩) fun _ => ?_
      simp only [wp_bind]
      refine wp_mono (Disk.read_spec _ _ _) (fun bytes d1 h1 => ?_) fun _ _ _ => trivial
      obtain ⟨rfl, hlen, -⟩ := h1
      rw [hpos] at ha
      refine ih _ _ _ _ ?_ (h.append fun j hj => ?_)
      · rw [hpos, List.length_append]
        omega
      · exact home_multi hs (by omega) ha (min left remaining) (by omega) (by omega)
    · exact ⟨rfl, fun x hx => by rw [← Option.some.inj hx]; exact h⟩

/-- The record of the chunks. -/
theorem placeChunks_spec (id : UInt32) (chunks : List Torrent.Chunk) (d : Disk) :
    wp (forM chunks fun c => Disk.place id c.off c.len c.path c.pos) d
      (fun _ d' => d' = { d with placed := d.placed ++ chunks.map fun c =>
        ⟨id, c.off, c.len, locate d.cwd c.path, c.pos⟩ }) fun _ _ => False := by
  induction chunks generalizing d with
  | nil =>
    rw [List.map_nil, List.append_nil]
    rfl
  | cons c chunks ih =>
    simp only [List.forM_cons, wp_bind, Disk.wp_place]
    refine wp_mono (ih _) (fun _ d' h => ?_) fun _ _ hf => hf
    rw [h, List.map_cons, List.append_assoc]
    rfl

theorem verifyPieceMultiFile_spec (hs : t.isSingleFile = false) (globalLen : Int)
    (hh : t.pieces[index]? = some hash)
    (hnew : ∀ id : UInt32, id.toNat = index → w.activePieces.lookup id = none) :
    wp (t.verifyPieceMultiFile sha1 globalLen index hash) w
      (fun _ w' => Checked sha1 t index w w') fun _ _ => True := by
  simp only [Torrent.verifyPieceMultiFile, wp_bind]
  refine (wp_lift _).2 ⟨fun id hid => ?_, fun _ _ => trivial⟩
  have hidx : id.toNat = index := by
    have := castU32_ok hid
    omega
  simp only [wp_onDisk]
  have hloop := verifyLoop_spec hs id globalLen (t.pieceLength.toNat + 1) (t.verifyPos id)
    t.pieceLength.toNat [] [] w.disk (by simp [Torrent.verifyPos, Torrent.pieceStart])
    ⟨by simp, by simp⟩
  refine wp_mono hloop (fun r d0 h0 => ?_) fun _ _ _ => trivial
  obtain ⟨rfl, hr⟩ := h0
  cases r with
  | none => exact .inl rfl
  | some x =>
    obtain ⟨data, chunks⟩ := x
    have hat := hr _ rfl
    refine wp_ite (fun heq => ?_) fun _ => .inl rfl
    simp only [wp_bind]
    refine wp_mono (foundPiece_spec (hnew id hidx)) (fun _ w1 h1 => ?_) fun _ _ _ => trivial
    obtain ⟨size, hsize, rfl⟩ := h1
    simp only [wp_onDisk]
    refine wp_mono (placeChunks_spec id chunks w.disk) (fun _ d1 h1 => ?_) fun _ _ _ => trivial
    rw [h1]
    refine .inr ⟨id, hidx, .intro (hnew id hidx) hsize (by rw [hidx, hh, heq]) ?_ ?_⟩
    · intro e he
      obtain ⟨c, hc, rfl⟩ := List.mem_map.1 he
      exact ⟨rfl, hat.home c hc⟩
    · intro i hi
      obtain ⟨c, hc, hin⟩ := hat.covers i hi
      exact ⟨_, List.mem_map_of_mem hc, rfl, hin⟩

end

/-! ## All pieces -/

/-- The pieces are checked in any order, each once. -/
theorem verifyPieces_spec {verify : Nat → Sha1 → App Bool}
    (hverify : ∀ index hash w, t.pieces[index]? = some hash →
      (∀ id : UInt32, id.toNat = index → w.activePieces.lookup id = none) →
      wp (verify index hash) w (fun _ w' => Checked sha1 t index w w') fun _ _ => True)
    (order : List Nat) (hnodup : order.Nodup) (w : World)
    (hnew : ∀ id : UInt32, id.toNat ∈ order → w.activePieces.lookup id = none) :
    wp (t.verifyPieces verify order) w (fun _ w' => Verified sha1 t w w') fun _ _ => True := by
  induction order generalizing w with
  | nil => exact .refl
  | cons index order ih =>
    obtain ⟨hnot, hnodup⟩ := List.nodup_cons.1 hnodup
    have hrest : ∀ w', Checked sha1 t index w w' →
        ∀ id : UInt32, id.toNat ∈ order → w'.activePieces.lookup id = none := by
      intro w' hc id hid
      rcases hc with rfl | ⟨k, hk, hf⟩
      · exact hnew id (List.mem_cons_of_mem _ hid)
      · rw [hf.lookup fun he => hnot (by rwa [← hk, ← he])]
        exact hnew id (List.mem_cons_of_mem _ hid)
    unfold Torrent.verifyPieces
    cases hh : t.pieces[index]? with
    | none => exact ih hnodup w (hrest w (.inl rfl))
    | some hash =>
      have h1 := hverify index hash w hh fun id hid => hnew id (by simp [hid])
      simp only [wp_bind, wp_tryCatch, wp_throw]
      refine wp_mono h1 (fun _ w1 hc => ?_) fun _ _ _ => trivial
      refine wp_mono (ih hnodup w1 (hrest w1 hc)) (fun _ w2 h2 => ?_) fun _ _ _ => trivial
      rcases hc with rfl | ⟨id, -, hf⟩
      · exact h2
      · exact .head ⟨id, hf⟩ h2

/-- What `construct` makes of the torrent a file describes. -/
structure Opened (t0 t : Torrent) : Prop where
  tmpfile : t.tmpfile = t0.tmpfile ∨ t.tmpfile = t0.name
  rest : t = { t0 with tmpfile := t.tmpfile }

theorem existingTmpfile_spec (t : Torrent) (d : Disk) : wp t.existingTmpfile d
    (fun p d' => d' = d ∧ (p = t.tmpfile ∨ p = t.name)) fun _ _ => True := by
  simp only [Torrent.existingTmpfile, wp_bind, Disk.wp_existsPath]
  refine wp_ite (fun _ => ?_) fun _ => ⟨rfl, .inl rfl⟩
  refine wp_ite (fun _ => ?_) fun _ => ⟨rfl, .inr rfl⟩
  simp only [wp_bind, Disk.wp_existsPath]
  exact wp_ite (fun _ => trivial) fun _ => ⟨rfl, .inr rfl⟩

/-- The check of all pieces, by the kind of the torrent. -/
theorem checkAll_spec {order : List Nat} (hnodup : order.Nodup) (fullFile : Bool)
    (hnew : ∀ id : UInt32, w.activePieces.lookup id = none) :
    wp (do
        let numPieces ←
          if t.isSingleFile then do
            let fileLength ← onDisk (Disk.fileSize t.tmpfile)
            t.verifyPieces (t.verifyPieceSingleFile sha1 fileLength) order
          else do
            let globalLen ← lift t.length
            t.verifyPieces (t.verifyPieceMultiFile sha1 globalLen) order
        if fullFile ∧ numPieces ≠ t.pieces.length then
          throw (.runtimeError "Filename exists but does not match all pieces")
        else return t) w (fun t' w' => t' = t ∧ Verified sha1 t w w') fun _ _ => True := by
  have hall : ∀ verify : Nat → Sha1 → App Bool,
      (∀ index hash w, t.pieces[index]? = some hash →
        (∀ id : UInt32, id.toNat = index → w.activePieces.lookup id = none) →
        wp (verify index hash) w (fun _ w' => Checked sha1 t index w w') fun _ _ => True) →
      wp (t.verifyPieces verify order) w (fun _ w' => Verified sha1 t w w') fun _ _ => True :=
    fun verify hv => verifyPieces_spec hv order hnodup w fun id _ => hnew id
  have hend : ∀ (n : Nat) (w' : World), Verified sha1 t w w' →
      wp (if fullFile ∧ n ≠ t.pieces.length then
          throw (.runtimeError "Filename exists but does not match all pieces")
        else return t : App Torrent) w' (fun t' w' => t' = t ∧ Verified sha1 t w w')
        fun _ _ => True :=
    fun n w' h => wp_ite (fun _ => trivial) fun _ => ⟨rfl, h⟩
  dsimp only
  split
  · rename_i hs
    simp only [wp_bind, wp_onDisk]
    refine wp_mono (Disk.fileSize_spec _) (fun n d' h => ?_) fun _ _ _ => trivial
    rw [h.1]
    refine wp_mono (hall _ fun index hash w hh hnew => ?_) hend fun _ _ _ => trivial
    exact verifyPieceSingleFile_spec hs n hh hnew
  · rename_i hs
    simp only [wp_bind]
    refine (wp_lift _).2 ⟨fun globalLen _ => ?_, fun _ _ => trivial⟩
    refine wp_mono (hall _ fun index hash w hh hnew => ?_) hend fun _ _ _ => trivial
    exact verifyPieceMultiFile_spec (by simpa using hs) globalLen hh hnew

theorem verifyExistingFile_spec (t0 : Torrent) (order : List Nat) (hnodup : order.Nodup)
    (hnew : ∀ id : UInt32, w.activePieces.lookup id = none) :
    wp (t0.verifyExistingFile sha1 order) w
      (fun t w' => Opened t0 t ∧ Verified sha1 t w w') fun _ _ => True := by
  simp only [Torrent.verifyExistingFile, wp_bind, wp_onDisk, Disk.wp_existsPath]
  refine wp_mono (existingTmpfile_spec t0 w.disk) (fun p d' h => ?_) fun _ _ _ => trivial
  obtain ⟨rfl, hp⟩ := h
  have hopen : Opened t0 { t0 with tmpfile := p } := ⟨hp, rfl⟩
  refine wp_ite (fun _ => ?_) fun _ => ⟨hopen, .refl⟩
  refine wp_mono (checkAll_spec (t := { t0 with tmpfile := p }) hnodup
    (t0.isSingleFile && w.disk.fs.existsPath w.disk.cwd t0.name) hnew)
      (fun t w' h => ?_) fun _ _ _ => trivial
  obtain ⟨rfl, hv⟩ := h
  exact ⟨hopen, hv⟩

/-- A new torrent is one that a file describes, and its state is reached by finding pieces. -/
theorem constructed_found (h : Constructed sha1 t w) :
    ∃ config dataDir content t0 cwd fs,
      Torrent.ofContent sha1 config dataDir content = .ok t0 ∧ Opened t0 t ∧
        Verified sha1 t (World.start cwd fs) w := by
  obtain ⟨config, dataDir, content, existing, order, cwd, fs, hperm, hc⟩ := h
  have hnodup : order.Nodup := hperm.nodup_iff.2 List.nodup_range
  have hspec : wp (Torrent.construct sha1 config dataDir content existing order)
      (World.start cwd fs) (fun t w => ∃ t0,
        Torrent.ofContent sha1 config dataDir content = .ok t0 ∧ Opened t0 t ∧
          Verified sha1 t (World.start cwd fs) w) fun _ _ => True := by
    simp only [Torrent.construct, wp_bind]
    refine (wp_lift _).2 ⟨fun t0 ht0 => ?_, fun _ _ => trivial⟩
    have hend : ∀ t w, Opened t0 t → Verified sha1 t (World.start cwd fs) w →
        wp (if t.infoHash ∈ existing then throw (.runtimeError "Torrent already exists")
          else pure t : App Torrent) w (fun t w => ∃ t0,
          Torrent.ofContent sha1 config dataDir content = .ok t0 ∧ Opened t0 t ∧
            Verified sha1 t (World.start cwd fs) w) fun _ _ => True :=
      fun t w ho hv => wp_ite (fun _ => trivial) fun _ => ⟨t0, ht0, ho, hv⟩
    split
    · simp only [wp_bind]
      refine wp_mono (verifyExistingFile_spec t0 order hnodup fun _ => rfl) ?_ fun _ _ _ => trivial
      exact fun t w h => hend t w h.1 h.2
    · exact hend t0 _ ⟨.inl rfl, rfl⟩ .refl
  obtain ⟨t0, ht0, ho, hv⟩ := wp_ok hspec hc
  exact ⟨config, dataDir, content, t0, cwd, fs, ht0, ho, hv⟩

/-- What holds of the empty state and what finding a piece keeps, holds of a new torrent. -/
theorem constructed_inv {I : World → Prop} (hstart : ∀ cwd fs, I (World.start cwd fs))
    (hfound : ∀ w w' id, I w → Found sha1 t id w w' → I w') (h : Constructed sha1 t w) : I w := by
  obtain ⟨_, _, _, _, cwd, fs, _, _, hv⟩ := constructed_found h
  exact chain_inv (fun w w' hw h1 => hfound w w' h1.choose hw h1.choose_spec) hv (hstart cwd fs)

end

end Zit
