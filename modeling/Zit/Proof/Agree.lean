import Zit.Proof.Accounting
import Zit.Proof.Verify
import Zit.Proof.Writer

/-!
# Writer and client

The torrent file of a regular file or a directory is given to the constructor, with the directory
it is in. When all its bytes are on disk, the check of a piece finds it exactly when the bytes it
reads have the hash (`HoldsData.checkHits_iff`). So the client takes the torrent and finds every
piece exactly within the limits of the decoder and of its 32-bit positions (`agrees_iff`).
-/

set_option autoImplicit false

namespace Zit

open Lib Lib.Path World FileSystem

namespace Torrent

variable {sha1 : Bytes → Sha1} {t : Torrent} {fs : FileSystem} {cwd : Loc} {bytes : Bytes}

/-! ## Data that is all there -/

theorem HoldsData.range (h : t.HoldsData fs cwd 0 bytes) (start n : Nat) :
    t.HoldsData fs cwd start ((bytes.drop start).take n) := by
  intro j hj
  rw [List.length_take, List.length_drop] at hj
  have hbyte := h (start + j) (by omega)
  rw [Nat.zero_add] at hbyte
  rw [hbyte, List.getElem?_take_of_lt (by omega), List.getElem?_drop]

theorem checkedLength_eq (bytes : Bytes) (id : UInt32) : t.checkedLength bytes.length id =
    ((bytes.drop (t.pieceStart id)).take t.pieceLength.toNat).length := by
  rw [List.length_take, List.length_drop, checkedLength]

/-- The check of a piece finds it when what it reads has the hash. -/
theorem HoldsData.checkHits_iff (h : t.HoldsData fs cwd 0 bytes) {i : Nat} {hash : Sha1} :
    t.CheckHits sha1 fs cwd bytes.length i hash ↔
      sha1 ((bytes.drop (t.pieceStart (UInt32.ofNat i))).take t.pieceLength.toNat) = hash := by
  rw [CheckHits, checkedLength_eq]
  exact (h.range _ _).hits_iff

theorem HoldsData.runs (h : t.HoldsData fs cwd 0 bytes) {i : Nat} {hash : Sha1} (hi : i < 2 ^ 32)
    (htail : t.isSingleFile = true → t.pieceStart (UInt32.ofNat i) ≤ bytes.length ∧
      bytes.length - t.pieceStart (UInt32.ofNat i) < 2 ^ 32)
    (hsize : ∃ size, t.pieceLengthAt (UInt32.ofNat i) = .ok size) :
    t.Runs sha1 fs cwd bytes.length i hash := by
  refine ⟨hi, htail, fun _ pos ha => ?_, fun _ => hsize⟩
  rw [checkedLength_eq] at ha
  exact absurd ha (h.range _ _).not_absent

/-! ## The check when the data has its own name -/

/-- The torrent as it is when the data has the name of the torrent. -/
def opened (t : Torrent) : Torrent := { t with tmpfile := t.name }

/-- With the name there the temporary file is the name itself, unless a single file has both. -/
theorem existingTmpfile_named (hname : fs.existsPath cwd t.name = true) :
    wp t.existingTmpfile (World.start cwd fs).disk
      (fun tmpfile d => d = (World.start cwd fs).disk ∧ tmpfile = t.name ∧
        (t.isSingleFile = true → fs.existsPath cwd t.tmpfile = false))
      fun _ _ => ¬(t.isSingleFile = true → fs.existsPath cwd t.tmpfile = false) := by
  simp only [existingTmpfile, wp_bind, Disk.wp_existsPath]
  refine wp_ite (fun _ => ?_) fun hno => absurd hname hno
  refine wp_ite (fun hs => ?_) fun hs => ⟨rfl, rfl, fun hs' => absurd hs' hs⟩
  simp only [wp_bind, Disk.wp_existsPath]
  refine wp_ite (fun hex hno => ?_) fun hno =>
    ⟨rfl, rfl, fun _ => Bool.eq_false_of_not_eq_true hno⟩
  exact Bool.false_ne_true ((hno hs).symm.trans hex)

/-- The check of a torrent whose data has its name. -/
theorem verifyExistingFile_exact {order : List Nat} {bound : Nat}
    (hperm : order.Perm (List.range t.pieces.length)) (hlen : ∀ fi ∈ t.files, 0 ≤ fi.length)
    (hname : fs.existsPath cwd t.name = true) (hbound : t.opened.IsBound fs cwd bound) :
    wp (t.verifyExistingFile sha1 order) (World.start cwd fs)
      (fun t' w => t' = t.opened ∧
        (t.isSingleFile = true → fs.existsPath cwd t.tmpfile = false) ∧
        (∀ i hash, t.pieces[i]? = some hash → t.opened.Runs sha1 fs cwd bound i hash) ∧
        Exactly (fun i => ∃ hash, t.pieces[i]? = some hash ∧
          t.opened.CheckHits sha1 fs cwd bound i hash) w)
      fun _ _ => (t.isSingleFile = true → fs.existsPath cwd t.tmpfile = false) →
        ∃ i hash, t.pieces[i]? = some hash ∧ ¬(t.opened.Runs sha1 fs cwd bound i hash ∧
          t.opened.CheckHits sha1 fs cwd bound i hash) := by
  have hcheck := @checkPieces_exact sha1 t.opened fs cwd order bound hperm hlen hbound
  rw [verifyExistingFile_eq]
  simp only [wp_bind, wp_onDisk, Disk.wp_existsPath]
  refine wp_mono (existingTmpfile_named hname) (fun tmpfile d h => ?_)
    fun _ _ hno hyes => absurd hyes hno
  obtain ⟨rfl, rfl, hfree⟩ := h
  refine wp_ite (fun _ => ?_) fun hno => absurd hname hno
  simp only [wp_bind]
  refine wp_mono hcheck (fun n w h => ?_) fun _ _ h _ => ?_
  · refine wp_ite (fun hne _ => ?_) fun _ => ⟨rfl, hfree, h.1, h.2.1⟩
    by_contra hall
    refine hne.2 (h.2.2 fun i hash hi => ?_)
    by_contra hmiss
    exact hall ⟨i, hash, hi, fun hr => hmiss hr.2⟩
  · obtain ⟨i, hash, hi, hno⟩ := h
    exact ⟨i, hash, hi, fun hr => hno hr.1⟩

/-- The bytes that the check of piece `i` reads and the bytes of the piece have the same hash. -/
def SameHash (sha1 : Bytes → Sha1) (n : Nat) (bytes : Bytes) (i : Nat) : Prop :=
  sha1 ((bytes.drop (i * n % 2 ^ 32)).take n) = sha1 ((bytes.drop (i * n)).take n)

/-- The piece is marked as there. -/
def Marked (w : World) (i : Nat) : Prop :=
  w.clientPieces.bit i = true ∧ ∃ id ref p, id.toNat = i ∧ Written w id ref p

theorem pieceStart_ofNat {i : Nat} (hi : i < 2 ^ 32) :
    t.pieceStart (UInt32.ofNat i) = i * t.pieceLength.toNat % 2 ^ 32 := by
  rw [pieceStart, UInt32.toNat_mul, UInt32.toNat_ofNat_of_lt' hi]

/-! The pieces are those of the data. -/

section
variable (hpieces : t.pieces = (chunks t.pieceLength.toNat bytes).map sha1)
  (hpos : 0 < t.pieceLength.toNat)
include hpieces hpos

theorem lt_pieces_length (i : Nat) : i * t.pieceLength.toNat < bytes.length ↔ i < t.pieces.length := by
  rw [hpieces, List.length_map, lt_chunks_length hpos]

theorem consistent_of_pieces (hsome : 0 < t.pieces.length)
    (hlength : t.length = .ok (bytes.length : Int)) : Consistent t bytes.length := by
  refine ⟨hpos, hlength, hsome, ?_⟩
  rw [hpieces, List.length_map, chunks_length, ← Int.natCast_add, ← Int.natCast_ediv]
  congr 2
  omega

omit hpos

theorem pieces_hash {i : Nat} (hi : i < t.pieces.length) : t.pieces[i]? =
    some (sha1 ((bytes.drop (i * t.pieceLength.toNat)).take t.pieceLength.toNat)) := by
  have hi' : i < (chunks t.pieceLength.toNat bytes).length := by
    rwa [hpieces, List.length_map] at hi
  rw [hpieces, List.getElem?_map, chunks_getElem? hi', Option.map_some]

variable (hmax : t.pieces.length ≤ 2 ^ 32) (hold : t.opened.HoldsData fs cwd 0 bytes)
include hmax hold

theorem checkHits_iff_sameHash {i : Nat} {hash : Sha1} (hi : t.pieces[i]? = some hash) :
    t.opened.CheckHits sha1 fs cwd bytes.length i hash ↔
      SameHash sha1 t.pieceLength.toNat bytes i := by
  have hlt := (List.getElem?_eq_some_iff.1 hi).1
  rw [pieces_hash hpieces hlt, Option.some_inj] at hi
  have hstart := @pieceStart_ofNat t.opened i (by omega)
  rw [hold.checkHits_iff, hstart, ← hi]
  rfl

include hpos

/-- A check runs to its end when the data of a single file is below 4 GiB. -/
theorem runs_of_small (hlength : t.length = .ok (bytes.length : Int))
    (hsmall : t.isSingleFile = true → bytes ≠ [] → bytes.length < 2 ^ 32) {i : Nat} {hash : Sha1}
    (hi : t.pieces[i]? = some hash) : t.opened.Runs sha1 fs cwd bytes.length i hash := by
  have hlt := (List.getElem?_eq_some_iff.1 hi).1
  have hin : i * t.opened.pieceLength.toNat < bytes.length :=
    (lt_pieces_length hpieces hpos i).2 hlt
  have hstart := @pieceStart_ofNat t.opened i (by omega)
  refine hold.runs (by omega) (fun hs => ?_) ?_
  · have hsmall' := hsmall hs (List.ne_nil_of_length_pos (by omega))
    rw [hstart, Nat.mod_eq_of_lt (Nat.lt_trans hin hsmall')]
    omega
  · obtain ⟨size, hsize, -⟩ :=
      (consistent_of_pieces hpieces hpos (by omega) hlength).pieceLengthAt hmax hlt
    exact ⟨size, hsize⟩

end

/-- The check of a torrent whose data is all there and has its name marks all pieces. -/
theorem verifyExistingFile_marks_iff {order : List Nat}
    (hpieces : t.pieces = (chunks t.pieceLength.toNat bytes).map sha1)
    (hpos : 0 < t.pieceLength.toNat) (hmax : t.pieces.length ≤ 2 ^ 32)
    (hlength : t.length = .ok (bytes.length : Int)) (hlen : ∀ fi ∈ t.files, 0 ≤ fi.length)
    (hname : fs.existsPath cwd t.name = true) (hbound : t.opened.IsBound fs cwd bytes.length)
    (hold : t.opened.HoldsData fs cwd 0 bytes) (hperm : order.Perm (List.range t.pieces.length)) :
    (∃ t' w, t.verifyExistingFile sha1 order (World.start cwd fs) = .ok t' w ∧
        ∀ i < t.pieces.length, Marked w i) ↔
      (t.isSingleFile = true → fs.existsPath cwd t.tmpfile = false ∧
        (bytes ≠ [] → bytes.length < 2 ^ 32)) ∧
      ∀ i, i * t.pieceLength.toNat < bytes.length →
        SameHash sha1 t.pieceLength.toNat bytes i := by
  have hspec := @verifyExistingFile_exact sha1 t fs cwd order _ hperm hlen hname hbound
  have hindex := lt_pieces_length hpieces hpos
  have hhits : ∀ {i hash}, t.pieces[i]? = some hash →
      (t.opened.CheckHits sha1 fs cwd bytes.length i hash ↔
        SameHash sha1 t.pieceLength.toNat bytes i) :=
    checkHits_iff_sameHash hpieces hmax hold
  constructor
  · intro hsome
    obtain ⟨t', w, hok, hmarks⟩ := hsome
    obtain ⟨-, hfree, hruns, hex⟩ := wp_ok hspec hok
    refine ⟨fun hs => ⟨hfree hs, fun hne => ?_⟩, fun i hi => ?_⟩
    · have h0 := (hindex 0).1 (by rw [Nat.zero_mul]; exact List.length_pos_iff.2 hne)
      have htail := (hruns 0 _ (pieces_hash hpieces h0)).tail hs
      have hstart := @pieceStart_ofNat t.opened 0 (by omega)
      rw [Nat.zero_mul, Nat.zero_mod] at hstart
      rw [hstart] at htail
      exact htail.2
    · obtain ⟨hash, hhash, hhit⟩ := (hex.bits i).1 (hmarks i ((hindex i).1 hi)).1
      exact (hhits hhash).1 hhit
  · intro hsome
    obtain ⟨hsingle, hsame⟩ := hsome
    have hall : ∀ i hash, t.pieces[i]? = some hash →
        t.opened.Runs sha1 fs cwd bytes.length i hash ∧
          t.opened.CheckHits sha1 fs cwd bytes.length i hash := by
      intro i hash hi
      have hin := (hindex i).2 (List.getElem?_eq_some_iff.1 hi).1
      exact ⟨runs_of_small hpieces hpos hmax hold hlength (fun hs => (hsingle hs).2) hi,
        (hhits hi).2 (hsame i hin)⟩
    have hreturns := wp_mono hspec (fun _ _ h => h) fun _ _ h => by
      obtain ⟨i, hash, hi, hno⟩ := h fun hs => (hsingle hs).1
      exact hno (hall i hash hi)
    obtain ⟨t', w, hok, -, -, -, hex⟩ := ok_of_wp hreturns
    refine ⟨t', w, hok, fun i hi => ?_⟩
    have hset : ∃ hash, t.pieces[i]? = some hash ∧
        t.opened.CheckHits sha1 fs cwd bytes.length i hash :=
      ⟨_, pieces_hash hpieces hi, (hall i _ (pieces_hash hpieces hi)).2⟩
    exact ⟨(hex.bits i).2 hset, hex.written i hset⟩

end Torrent

/-! ## The data a torrent is about -/

namespace Data

theorem mode_file {content : Bytes} (h : content.length < 2 ^ 63) :
    (Data.file content).mode = ((content.length : Int), []) := by
  rw [mode, Int64.toInt_ofNat_of_lt h]

theorem mode_directory {files : List (List Name × Bytes)}
    (h : (Data.directory files).bytes.length < 2 ^ 63) :
    (Data.directory files).mode = (0, (Data.directory files).infos) := by
  rw [mode, infos, Prod.mk.injEq]
  refine ⟨rfl, List.map_congr_left fun f hf => ?_⟩
  have hmem : f.2 ∈ files.map (·.2) := List.mem_map_of_mem hf
  have hle : f.2.length ≤ (Data.directory files).bytes.length :=
    (List.sublist_flatten_of_mem hmem).length_le
  rw [Int64.toInt_ofNat_of_lt (Nat.lt_of_le_of_lt hle h)]

theorem infos_nonneg (data : Data) : ∀ fi ∈ data.infos, 0 ≤ fi.length := by
  cases data with
  | file content => exact fun fi hfi => by cases hfi
  | directory files =>
    intro fi hfi
    obtain ⟨f, -, rfl⟩ := List.mem_map.1 hfi
    exact Int.natCast_nonneg _

end Data

section
variable {t : Torrent} {fs : FileSystem} {cwd l : Loc}

theorem holdsData_file {content : Bytes} (hs : t.isSingleFile = true)
    (hname : fs.resolve cwd t.name = some l) (hc : fs.content l = some content) :
    t.opened.HoldsData fs cwd 0 content := by
  intro j _
  have hs' : t.opened.isSingleFile = true := hs
  rw [Nat.zero_add, Torrent.diskByte, if_pos hs']
  exact pathByte_content hname hc j

/-- The files of a torrent that holds `contents` hold them as one. -/
theorem Stores.holdsData {d : Disk} {contents : List Bytes} (h : Stores t t.name d contents)
    (hs : t.isSingleFile = false) {total : Int} (ht : t.length = .ok total) :
    t.HoldsData d.fs d.cwd 0 contents.flatten := by
  intro j hj
  obtain ⟨k, fi, c, off, hfi, hc, hoff, hpos, hat⟩ := h.fileAtPos hs ht j hj
  obtain ⟨hof, -⟩ := t.fileAtPos_multi hs hat
  obtain ⟨-, l, hl, hlc⟩ := h.file k fi c hfi hc
  rw [Nat.zero_add, Torrent.diskByte, hs, if_neg Bool.false_ne_true, hof, Option.bind_some,
    Int.toNat_natCast, pathByte_content hl hlc, flatten_split hc, hpos, List.append_assoc,
    List.getElem?_append_right (by omega), Nat.add_sub_cancel_left, List.getElem?_append_left hoff]

theorem mem_filesBelow {entries : List (List Name)} {f : List Name × Bytes}
    (hf : f ∈ Data.filesBelow fs l entries) : f.1 ∈ entries ∧ fs.content (l ++ f.1) = some f.2 := by
  obtain ⟨rel, hrel, hmap⟩ := List.mem_filterMap.1 hf
  obtain ⟨c, hc, rfl⟩ := Option.map_eq_some_iff.1 hmap
  exact ⟨hrel, hc⟩

theorem stores_directory (listing : fs.Listing l) (hname : fs.resolve cwd t.name = some l)
    (hfiles : t.files = (Data.directory (Data.filesBelow fs l listing.entries)).infos) {d : Disk}
    (hfs : d.fs = fs) (hcwd : d.cwd = cwd) :
    Stores t t.name d ((Data.filesBelow fs l listing.entries).map (·.2)) := by
  refine ⟨by simp [hfiles, Data.infos], fun k fi c hfi hc => ?_⟩
  rw [hfiles, Data.infos, List.getElem?_map] at hfi
  rw [List.getElem?_map] at hc
  obtain ⟨f, hf, rfl⟩ := Option.map_eq_some_iff.1 hfi
  rw [hf, Option.map_some, Option.some_inj] at hc
  obtain ⟨hmem, hcontent⟩ := mem_filesBelow (List.mem_of_getElem? hf)
  have hunder := (listing.mem_iff _).1 hmem
  have hnames := listing.names _ hmem
  have hne : f.1 ≠ [] := by
    intro hnil
    rw [hnil] at hunder
    cases hunder
  refine ⟨by rw [← hc], l ++ f.1, ?_, by rw [hfs, hcontent, hc]⟩
  rw [hfs, hcwd, join_below hne hnames]
  exact resolve_below hunder hnames hname

end

/-! ## Agreement -/

/-- The torrent describes the data. -/
structure Describes (t : Torrent) (n : UInt32) (data : Data) : Prop where
  length : t.length = .ok (data.bytes.length : Int)
  files : t.files = data.infos
  pieceLength : t.pieceLength = n
  pieces : t.pieces.length = (data.bytes.length + n.toNat - 1) / n.toNat

/-- The constructor takes the torrent file in the directory of the data, whether or not it checks
the files that are there, and its check marks every piece. -/
def Agrees (sha1 : Bytes → Sha1) (config : Config) (fs : FileSystem) (cwd : Loc) (p : Path)
    (pieceLength : UInt32) (data : Data) (order : List Nat) (content : Bytes) : Prop :=
  ∀ verify, ∃ t w,
    Torrent.construct sha1 { config with verifyPiecesOnStartup := verify } (parentPath p) content []
      order (World.start cwd fs) = .ok t w ∧
    Describes t pieceLength data ∧
    (verify = true → ∀ i < t.pieces.length, Torrent.Marked w i)

/-- The data has a mode, its positions are small, and nothing is in the way of the check. -/
def Data.Checkable (sha1 : Bytes → Sha1) (n : Nat) (free : Prop) : Data → Prop
  | .file content => content ≠ [] ∧ content.length < 2 ^ 32 ∧ free
  | .directory files => files ≠ [] ∧ (Data.directory files).bytes.length < 2 ^ 63 ∧
      ∀ i, i * n < (Data.directory files).bytes.length →
        Torrent.SameHash sha1 n (Data.directory files).bytes i

theorem Data.Checkable.mode {sha1 : Bytes → Sha1} {n : Nat} {free : Prop} {data : Data}
    (h : data.Checkable sha1 n free) : data.mode ≠ (0, []) ∧ data.bytes.length < 2 ^ 63 := by
  cases data with
  | file content =>
    obtain ⟨hne, hlt, -⟩ := h
    have hsmall : content.length < 2 ^ 63 := Nat.lt_trans hlt (by decide)
    refine ⟨fun hmode => ?_, hsmall⟩
    rw [Data.mode_file hsmall, Prod.mk.injEq] at hmode
    exact hne (List.eq_nil_of_length_eq_zero (Int.ofNat_eq_zero.1 hmode.1))
  | directory files =>
    obtain ⟨hne, hlt, -⟩ := h
    refine ⟨fun hmode => ?_, hlt⟩
    rw [Data.mode, Prod.mk.injEq, List.map_eq_nil_iff] at hmode
    exact hne hmode.2

/-- What the data and the settings must be for writer and client to agree. -/
structure Manageable (sha1 : Bytes → Sha1) (config : Config) (args : WriterArgs) (fs : FileSystem)
    (cwd : Loc) (p : Path) (data : Data) : Prop where
  listeningPort : 0 ≤ config.listeningPort ∧ config.listeningPort < 2 ^ 16
  connectionPort : 0 ≤ config.connectionPort ∧ config.connectionPort < 2 ^ 16
  short : TorrentWriter.Short args (filename p) data
  checkable : data.Checkable sha1 args.pieceLength.toNat
    (fs.existsPath cwd (p ++ Torrent.tmpfileExtension) = false)

section
variable {sha1 : Bytes → Sha1} {config : Config} {args : WriterArgs} {fs : FileSystem}
  {cwd l : Loc} {p dataDir : Path} {content : Bytes} {order : List Nat}

theorem construct_eq {t : Torrent} {s : World}
    (h : Torrent.ofContent sha1 config dataDir content = .ok t) :
    Torrent.construct sha1 config dataDir content [] order s =
      (if config.verifyPiecesOnStartup then t.verifyExistingFile sha1 order else pure t) s := by
  simp only [Torrent.construct, bind, EStateM.bind, lift, h]
  cases config.verifyPiecesOnStartup with
  | false => rfl
  | true =>
    simp only [if_true, EStateM.bind]
    cases t.verifyExistingFile sha1 order s <;> rfl

theorem construct_ok {t : Torrent} {s w : World}
    (h : Torrent.construct sha1 { config with verifyPiecesOnStartup := true } dataDir content []
      order s = .ok t w) : ∃ t0,
    Torrent.ofContent sha1 { config with verifyPiecesOnStartup := true } dataDir content = .ok t0 ∧
      t0.verifyExistingFile sha1 order s = .ok t w := by
  cases hof : Torrent.ofContent sha1 { config with verifyPiecesOnStartup := true } dataDir
      content with
  | ok t0 =>
    rw [construct_eq hof, if_pos rfl] at h
    exact ⟨t0, rfl, h⟩
  | error e =>
    simp only [Torrent.construct, bind, EStateM.bind, lift, hof] at h
    cases h

/-- The settings are in range when a torrent is made. -/
theorem ofContent_ports {t : Torrent} (h : Torrent.ofContent sha1 config dataDir content = .ok t) :
    (0 ≤ config.listeningPort ∧ config.listeningPort < 2 ^ 16) ∧
      (0 ≤ config.connectionPort ∧ config.connectionPort < 2 ^ 16) := by
  unfold Torrent.ofContent at h
  obtain ⟨_, hl, h⟩ := bind_eq_ok.1 h
  obtain ⟨_, hc, -⟩ := bind_eq_ok.1 h
  exact ⟨castU16_ok hl, castU16_ok hc⟩

/-- A text that is written and read again is short. -/
theorem short_of_ofContent {name : Bytes} {data : Data} {t : Torrent}
    (h : Torrent.ofContent sha1 config dataDir
      (Element.dict (TorrentWriter.rootDict args
        (TorrentWriter.infoDict sha1 args name data))).encode = .ok t) :
    TorrentWriter.Short args name data := by
  by_contra hlong
  obtain ⟨root, info, hr⟩ := Torrent.ofContent_ok h
  have hord := @TorrentWriter.rootDict_ordered sha1 args name data
  obtain ⟨what, hwhat⟩ := (Bencode.decode_encode hord).2 fun hf =>
    hlong ((TorrentWriter.fits_rootDict name data).1 hf)
  have hdec := hr.decoded
  rw [hwhat] at hdec
  cases hdec

theorem existsPath_filename (hp : filename p ≠ []) (ext : Path) :
    fs.existsPath cwd (join (parentPath p) (filename p) ++ ext) = fs.existsPath cwd (p ++ ext) := by
  rw [existsPath, existsPath, resolve_filename hp]

/-- The torrent that the text for the data at `p` describes. -/
def writtenTorrent (sha1 : Bytes → Sha1) (config : Config) (args : WriterArgs) (p : Path)
    (data : Data) : Torrent :=
  TorrentWriter.described sha1 args config (parentPath p) (filename p) data

theorem writtenTorrent_mode (data : Data) (hmode : data.mode ≠ (0, [])) :
    (writtenTorrent sha1 config args p data).isSingleFile = true ↔
      ∃ content, data = .file content := by
  cases data with
  | file content =>
    have hne : (Data.file content).mode.1 ≠ 0 := fun h0 => hmode (Prod.ext h0 rfl)
    simpa [writtenTorrent, TorrentWriter.described, Torrent.isSingleFile] using hne
  | directory files =>
    simp [writtenTorrent, TorrentWriter.described, Torrent.isSingleFile, Data.mode]

/-- The text describes the data when its length is an `int64_t`. -/
theorem describes_iff (data : Data) (hmode : data.mode ≠ (0, [])) :
    Describes (writtenTorrent sha1 config args p data) args.pieceLength data ↔
      data.bytes.length < 2 ^ 63 := by
  have hsingle := @writtenTorrent_mode sha1 config args p data hmode
  constructor
  · intro h
    have hlength := h.length
    rw [Torrent.length] at hlength
    split at hlength
    · rename_i hs
      obtain ⟨content, rfl⟩ := hsingle.1 hs
      have hlt := (Int64.ofNat content.length).toInt_lt
      have hn : (Int64.ofNat content.length).toInt = content.length := Except.ok.inj hlength
      show content.length < 2 ^ 63
      omega
    · have := Torrent.filesLength_lt hlength (by decide)
      omega
  · intro h
    have hcount : (writtenTorrent sha1 config args p data).pieces.length =
        (data.bytes.length + args.pieceLength.toNat - 1) / args.pieceLength.toNat := by
      show (TorrentWriter.hashes sha1 args.pieceLength.toNat data.bytes).length = _
      rw [TorrentWriter.hashes, List.length_map, chunks_length]
    cases data with
    | file content =>
      have hs := hsingle.2 ⟨content, rfl⟩
      refine ⟨?_, rfl, rfl, hcount⟩
      rw [Torrent.length, if_pos hs]
      show Except.ok (Data.file content).mode.1 = _
      rw [@Data.mode_file content h]
      rfl
    | directory files =>
      have hfiles : (writtenTorrent sha1 config args p (.directory files)).files =
          (Data.directory files).infos := by
        show (Data.directory files).mode.2 = _
        rw [Data.mode_directory h]
      refine ⟨?_, hfiles, rfl, hcount⟩
      have hsum : ((Data.directory files).infos.map (·.length)).sum =
          ((Data.directory files).bytes.length : Int) := by
        rw [Data.bytes, Stores.flatten_length, Data.infos, List.map_map, List.map_map]
        rfl
      show Torrent.filesLength 0 (writtenTorrent sha1 config args p (.directory files)).files = _
      rw [hfiles, Torrent.filesLength_of (Int.le_refl 0) (Data.infos_nonneg _) (by omega), hsum,
        Int.zero_add]

/-- The data a torrent describes is all there when the torrent has the name of it. -/
theorem Describes.held {t : Torrent} {n : UInt32} {data : Data} (hd : Describes t n data)
    (hsingle : t.isSingleFile = true ↔ ∃ content, data = .file content)
    (hname : fs.resolve cwd t.name = some l) (listing : fs.Listing l)
    (hdata : data = .found fs l listing.entries) (hsmall : data.bytes.length < 2 ^ 63) :
    t.opened.IsBound fs cwd data.bytes.length ∧ t.opened.HoldsData fs cwd 0 data.bytes := by
  cases hc : fs.content l with
  | some content =>
    have hfile : data = .file content := by rw [hdata, Data.found, hc]
    have hs := hsingle.2 ⟨content, hfile⟩
    have hsize : fs.fileSize cwd t.name = some content.length := by
      rw [fileSize, hname, Option.bind_some, hc, Option.map_some]
    have hs' : t.opened.isSingleFile = true := hs
    subst hfile
    rw [Torrent.IsBound, if_pos hs']
    exact ⟨⟨hsize, Nat.lt_trans hsmall (by decide)⟩, holdsData_file hs hname hc⟩
  | none =>
    have hdir : data = .directory (Data.filesBelow fs l listing.entries) := by
      rw [hdata, Data.found, hc]
    have hs : t.isSingleFile = false := by
      rw [Bool.eq_false_iff, ne_eq, hsingle, hdir]
      exact not_exists.2 fun content h => by cases h
    have hs' : t.opened.isSingleFile = false := hs
    have hstores := @stores_directory t.opened fs cwd l listing hname
      (by rw [← hdir]; exact hd.files) (World.start cwd fs).disk rfl rfl
    rw [Torrent.IsBound, hs', if_neg Bool.false_ne_true]
    refine ⟨hd.length, ?_⟩
    rw [hdir]
    exact hstores.holdsData hs' hd.length

/-- What the check needs of the data, for both kinds of it. -/
theorem Data.checkable_iff {n : Nat} {free : Prop} {data : Data} (hmode : data.mode ≠ (0, []))
    (hsmall : data.bytes.length < 2 ^ 63) : data.Checkable sha1 n free ↔
      ((∃ content, data = .file content) → free ∧ (data.bytes ≠ [] → data.bytes.length < 2 ^ 32)) ∧
      ∀ i, i * n < data.bytes.length → Torrent.SameHash sha1 n data.bytes i := by
  cases data with
  | file content =>
    have hne : content ≠ [] := fun hnil => hmode (by rw [hnil]; rfl)
    constructor
    · intro hin
      obtain ⟨-, hlt, hfree⟩ := hin
      refine ⟨fun _ => ⟨hfree, fun _ => hlt⟩, fun i hi => ?_⟩
      rw [Torrent.SameHash, Nat.mod_eq_of_lt (Nat.lt_trans hi hlt)]
    · intro h
      obtain ⟨hfree, hlt⟩ := h.1 ⟨content, rfl⟩
      exact ⟨hne, hlt hne, hfree⟩
  | directory files =>
    have hne : files ≠ [] := fun hnil => hmode (by rw [hnil]; rfl)
    constructor
    · refine fun h => ⟨fun hex => ?_, h.2.2⟩
      obtain ⟨content, hcontent⟩ := hex
      cases hcontent
    · exact fun h => ⟨hne, hsmall, h.2⟩

/-- The check of what has been written marks all pieces. -/
theorem written_marks_iff (hp : filename p ≠ []) (hl : fs.resolve cwd p = some l)
    (hnode : (fs.node l).isSome = true) (listing : fs.Listing l)
    (hpos : 0 < args.pieceLength.toNat) {data : Data} (hdata : data = .found fs l listing.entries)
    (hshort : TorrentWriter.Short args (filename p) data) (hmode : data.mode ≠ (0, []))
    (hsmall : data.bytes.length < 2 ^ 63)
    (hperm : order.Perm
      (List.range ((data.bytes.length + args.pieceLength.toNat - 1) / args.pieceLength.toNat))) :
    (∃ t' w, (writtenTorrent sha1 config args p data).verifyExistingFile sha1 order
        (World.start cwd fs) = .ok t' w ∧
        ∀ i < (writtenTorrent sha1 config args p data).pieces.length, Torrent.Marked w i) ↔
      data.Checkable sha1 args.pieceLength.toNat
        (fs.existsPath cwd (p ++ Torrent.tmpfileExtension) = false) := by
  have hd := (@describes_iff sha1 config args p data hmode).2 hsmall
  have hsingle := @writtenTorrent_mode sha1 config args p data hmode
  generalize ht : writtenTorrent sha1 config args p data = t at hd hsingle
  have hname : fs.resolve cwd t.name = some l := by
    have := @resolve_filename fs cwd p hp []
    rw [List.append_nil, List.append_nil, hl] at this
    rw [← ht]
    exact this
  have hthere : fs.existsPath cwd t.name = true := by
    rw [existsPath, hname]
    exact hnode
  have htmpfile : fs.existsPath cwd t.tmpfile =
      fs.existsPath cwd (p ++ Torrent.tmpfileExtension) := by
    rw [← existsPath_filename hp, ← ht]
    rfl
  have hmax : t.pieces.length ≤ 2 ^ 32 := by
    have hcount := hshort.2
    have hlimit : Bencode.maxStringLength = 100000000 := rfl
    rw [chunks_length, ← hd.pieces] at hcount
    omega
  have hlen : ∀ fi ∈ t.files, 0 ≤ fi.length := by
    rw [hd.files]
    exact data.infos_nonneg
  have hpieces : t.pieces = (chunks t.pieceLength.toNat data.bytes).map sha1 := by
    rw [← ht]
    rfl
  have hperm' : order.Perm (List.range t.pieces.length) := by rwa [hd.pieces]
  have hpos' : 0 < t.pieceLength.toNat := by rwa [hd.pieceLength]
  have hheld := hd.held hsingle hname listing hdata hsmall
  rw [Torrent.verifyExistingFile_marks_iff hpieces hpos' hmax hd.length hlen hthere hheld.1 hheld.2
    hperm', htmpfile, hd.pieceLength, hsingle, Data.checkable_iff hmode hsmall]

/-- Writer and client agree exactly when the settings are in range, the decoder takes the strings,
the data has a mode, the start of every piece is read from the right position or from one with bytes
of the same hash, and a regular file has no temporary file next to it. -/
theorem agrees_iff (sha1 : Bytes → Sha1) (config : Config) (args : WriterArgs) {fs : FileSystem}
    {cwd l : Loc} {p : Path} {order : List Nat} (hp : filename p ≠ [])
    (hl : fs.resolve cwd p = some l) (hnode : (fs.node l).isSome = true) (listing : fs.Listing l)
    (hpos : 0 < args.pieceLength.toNat) {data : Data} (hdata : data = .found fs l listing.entries)
    (hperm : order.Perm
      (List.range ((data.bytes.length + args.pieceLength.toNat - 1) / args.pieceLength.toNat))) :
    ∃ content, TorrentWriter.writeTorrent sha1 args fs cwd listing.entries p = .ok content ∧
      (Agrees sha1 config fs cwd p args.pieceLength data order content ↔
        Manageable sha1 config args fs cwd p data) := by
  refine ⟨_, TorrentWriter.writeTorrent_eq hpos hl hnode, ?_⟩
  rw [← hdata]
  constructor
  · intro h
    obtain ⟨t, w, hc, hd, hmarks⟩ := h true
    obtain ⟨t0, hof, hverify⟩ := construct_ok hc
    obtain ⟨hlisten, hconnect⟩ := ofContent_ports hof
    have hshort := short_of_ofContent hof
    rw [TorrentWriter.ofContent_written hlisten hconnect _ _ _ hshort] at hof
    split at hof
    · cases hof
    rename_i hmode
    obtain rfl := Except.ok.inj hof
    obtain ⟨-, hrest⟩ := (wp_ok (verifyExistingFile_spec _ order
      (hperm.nodup_iff.2 List.nodup_range) fun _ => rfl) hverify).1
    have hd0 : Describes (writtenTorrent sha1 config args p data) args.pieceLength data := by
      rw [hrest] at hd
      exact ⟨hd.length, hd.files, hd.pieceLength, hd.pieces⟩
    have hsmall := (describes_iff data hmode).1 hd0
    refine ⟨hlisten, hconnect, hshort,
      (written_marks_iff hp hl hnode listing hpos hdata hshort hmode hsmall hperm).1
        ⟨t, w, hverify, fun i hi => hmarks rfl i ?_⟩⟩
    rwa [hd.pieces, ← hd0.pieces]
  · intro h verify
    obtain ⟨hmode, hsmall⟩ := h.checkable.mode
    have hd := (@describes_iff sha1 config args p data hmode).2 hsmall
    have hof := @TorrentWriter.ofContent_written sha1 args
      { config with verifyPiecesOnStartup := verify } h.listeningPort h.connectionPort
      (parentPath p) (filename p) data h.short
    rw [if_neg hmode] at hof
    rw [construct_eq hof]
    cases verify with
    | false => exact ⟨_, _, rfl, hd, nofun⟩
    | true =>
      obtain ⟨t, w, hverify, hmarks⟩ := (@written_marks_iff sha1 config args fs cwd l p order hp hl
        hnode listing hpos data hdata h.short hmode hsmall hperm).2 h.checkable
      obtain ⟨-, hrest⟩ := (wp_ok (verifyExistingFile_spec _ order
        (hperm.nodup_iff.2 List.nodup_range) fun _ => rfl) hverify).1
      refine ⟨t, w, hverify, ?_, fun _ => ?_⟩
      · rw [hrest]
        exact ⟨hd.length, hd.files, hd.pieceLength, hd.pieces⟩
      · rw [hrest]
        exact hmarks

end

/-- A regular file has no entries below it. -/
def fileListing {fs : FileSystem} {l : Loc} (h : fs.isDir l = false) : fs.Listing l where
  entries := []
  nodup := List.nodup_nil
  mem_iff rel := by
    cases rel with
    | nil => simp [under]
    | cons c cs => simp [under, h]
  names := nofun

/-- A file `n` with these contents. -/
def fileOnDisk (content : Bytes) : FileSystem := FileSystem.put ⟨∅⟩ [[110]] (.file content)

def oneByteArgs : WriterArgs := ⟨[97], [], 1, 0, [90]⟩

theorem agrees_iff_oneByte : ∃ content,
    TorrentWriter.writeTorrent Torrent.oneByteSha1 oneByteArgs (fileOnDisk [120]) [] [] [110] =
      .ok content ∧
    Agrees Torrent.oneByteSha1 Torrent.oneByteConfig (fileOnDisk [120]) [] [110] 1 (.file [120]) [0]
      content := by
  have hfile : (fileOnDisk [120]).isDir [[110]] = false := by decide
  obtain ⟨content, hwrite, hiff⟩ := @agrees_iff Torrent.oneByteSha1 Torrent.oneByteConfig
    oneByteArgs (fileOnDisk [120]) [] [[110]] [110] [0] (by decide) (by decide) (by decide)
    (fileListing hfile) (by decide) (.file [120]) rfl (List.Perm.refl _)
  refine ⟨content, hwrite, hiff.2 ⟨by decide, by decide, ⟨by decide, by decide⟩, ?_⟩⟩
  exact ⟨by decide, by decide, by decide⟩

/-- The torrent file of an empty file has no mode. -/
theorem agrees_empty : ¬∀ (sha1 : Bytes → Sha1) (config : Config) (args : WriterArgs)
    (fs : FileSystem) (cwd l : Loc) (p : Path) (order : List Nat) (listing : fs.Listing l),
    (0 ≤ config.listeningPort ∧ config.listeningPort < 2 ^ 16) →
    (0 ≤ config.connectionPort ∧ config.connectionPort < 2 ^ 16) →
    filename p ≠ [] → fs.resolve cwd p = some l → (fs.node l).isSome = true →
    0 < args.pieceLength.toNat →
    order.Perm (List.range (((Data.found fs l listing.entries).bytes.length +
      args.pieceLength.toNat - 1) / args.pieceLength.toNat)) →
    ∃ content, TorrentWriter.writeTorrent sha1 args fs cwd listing.entries p = .ok content ∧
      Agrees sha1 config fs cwd p args.pieceLength (.found fs l listing.entries) order content := by
  intro hall
  let sha1 := Torrent.oneByteSha1
  let fs := fileOnDisk []
  let config : Config := { Torrent.oneByteConfig with verifyPiecesOnStartup := false }
  have hfile : fs.isDir [[110]] = false := by decide
  have hrange : List.range (((Data.found fs [[110]] []).bytes.length +
      oneByteArgs.pieceLength.toNat - 1) / oneByteArgs.pieceLength.toNat) = [] := by decide
  obtain ⟨content, hwrite, hagrees⟩ := hall sha1 config oneByteArgs fs [] [[110]] [110] []
    (fileListing hfile) (by decide) (by decide) (by decide) (by decide) (by decide) (by decide)
    (.of_eq hrange.symm)
  obtain ⟨t, w, hconstruct, -⟩ := hagrees false
  have hcheck : (TorrentWriter.writeTorrent sha1 oneByteArgs fs [] [] [110]).map (fun content =>
      decide (wp (Torrent.construct sha1 config [] content [] []) (World.start [] fs)
        (fun _ _ => False) fun _ _ => True)) = .ok true := by
    decide +kernel
  obtain ⟨content', hwrite', hno⟩ := map_eq_ok.1 hcheck
  obtain rfl := Except.ok.inj (hwrite.symm.trans hwrite')
  exact wp_ok (of_decide_eq_true hno) hconstruct

end Zit
