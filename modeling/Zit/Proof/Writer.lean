import Zit.Proof.Canonical
import Zit.Writer

/-!
# What the torrent writer writes

The pieces of a directory are those of its files' contents, one after the other, however the chunks
fall (`multiInfo_pieces`). The text is decoded again exactly when its strings are not too long, and
the constructor then takes the fields it needs (`ofContent_written`).
-/

set_option autoImplicit false

namespace Zit

open Lib Lib.Path

/-- What is at the data path: a regular file, or the regular files in a directory. -/
inductive Data
  | file (content : Bytes)
  | directory (files : List (List Name × Bytes))

namespace Data

def bytes : Data → Bytes
  | .file content => content
  | .directory files => (files.map (·.2)).flatten

/-- The files as a torrent lists them. -/
def infos : Data → List FileInfo
  | .file _ => []
  | .directory files => files.map fun f => ⟨f.2.length, below [] f.1, []⟩

/-- The length and the files, as the constructor reads them. -/
def mode : Data → Int × List FileInfo
  | .file content => ((Int64.ofNat content.length).toInt, [])
  | .directory files => (0, files.map fun f => ⟨(Int64.ofNat f.2.length).toInt, below [] f.1, []⟩)

/-- The names in the paths. -/
def names : Data → List Name
  | .file _ => []
  | .directory files => files.flatMap (·.1)

/-- The regular files among the entries below `l`. -/
def filesBelow (fs : FileSystem) (l : Loc) (entries : List (List Name)) :
    List (List Name × Bytes) :=
  entries.filterMap fun rel => (fs.content (l ++ rel)).map (rel, ·)

/-- What is at `l`, the files in the order of the entries. -/
def found (fs : FileSystem) (l : Loc) (entries : List (List Name)) : Data :=
  match fs.content l with
  | some content => .file content
  | none => .directory (filesBelow fs l entries)

end Data

namespace TorrentWriter

variable {sha1 : Bytes → Sha1} {args : WriterArgs}

/-- The hashes of the pieces of the data. -/
def hashes (sha1 : Bytes → Sha1) (n : Nat) (data : Bytes) : List Sha1 := (chunks n data).map sha1

/-- The text of hashes. -/
def hashText (hs : List Sha1) : Bytes := (hs.map (·.bytes)).flatten

theorem hashText_append (hs hs' : List Sha1) :
    hashText (hs ++ hs') = hashText hs ++ hashText hs' := by
  simp [hashText]

@[simp] theorem hashText_nil : hashText [] = [] := rfl

@[simp] theorem hashText_singleton (h : Sha1) : hashText [h] = h.bytes := by simp [hashText]

theorem hashText_length (hs : List Sha1) : (hashText hs).length = hs.length * 20 := by
  induction hs with
  | nil => rfl
  | cons h hs ih =>
    rw [hashText] at ih ⊢
    rw [List.map_cons, List.flatten_cons, List.length_append, ih, h.size, List.length_cons]
    omega

/-! ## The chunks of several files -/

/-- The pieces of `data` that are complete have been hashed, and the rest is kept. -/
def Buffered (sha1 : Bytes → Sha1) (n : Nat) (data : Bytes) (st : State) : Prop :=
  ∃ done, data = done ++ st.pieceData ∧ n ∣ done.length ∧ st.pieceData.length < n ∧
    st.pieces = hashText (hashes sha1 n done)

section
variable {n : Nat} {data : Bytes} {st : State} (hn : args.pieceLength.toNat = n) (hpos : 0 < n)
include hn hpos

/-- A chunk that does not reach beyond the piece. -/
theorem Buffered.addChunk {chunk : Bytes} (h : Buffered sha1 n data st)
    (hle : st.pieceData.length + chunk.length ≤ n) :
    Buffered sha1 n (data ++ chunk) (addChunk sha1 args st chunk) := by
  obtain ⟨done, hdata, hdvd, hlt, hpieces⟩ := h
  unfold TorrentWriter.addChunk
  rw [hn]
  dsimp only
  have hlen : (st.pieceData ++ chunk).length = st.pieceData.length + chunk.length :=
    List.length_append
  split
  · rename_i hfull
    have hne : st.pieceData ++ chunk ≠ [] := List.ne_nil_of_length_pos (by omega)
    refine ⟨done ++ (st.pieceData ++ chunk), by simp [hdata], ?_, hpos, ?_⟩
    · rw [List.length_append, hfull]
      exact Nat.dvd_add hdvd (Nat.dvd_refl n)
    · rw [hashes, chunks_append hpos hdvd, chunks_of_le hpos hne (by omega), List.map_append,
        hashText_append, hpieces]
      simp [hashes]
  · refine ⟨done, by simp [hdata], hdvd, ?_, hpieces⟩
    show (st.pieceData ++ chunk).length < n
    omega

/-- The chunks of what is left of a file, when a new piece begins with it. -/
theorem Buffered.addChunks {rest : Bytes} (h : Buffered sha1 n data st) (hst : st.pieceData = []) :
    Buffered sha1 n (data ++ rest)
      ((chunks n rest).foldl (TorrentWriter.addChunk sha1 args) st) := by
  induction hk : rest.length using Nat.strongRecOn generalizing data st rest with
  | ind k ih =>
    by_cases hrest : rest = []
    · rw [hrest, chunks_nil hpos, List.append_nil]
      exact h
    · have hlen : 0 < rest.length := List.length_pos_iff.2 hrest
      rw [chunks_cons hpos hrest, List.foldl_cons]
      have hroom : st.pieceData.length + (rest.take n).length ≤ n := by
        rw [hst, List.length_take]
        simp
      have hnext := h.addChunk hn hpos hroom
      by_cases hle : n ≤ rest.length
      · have hempty : (TorrentWriter.addChunk sha1 args st (rest.take n)).pieceData = [] := by
          unfold TorrentWriter.addChunk
          rw [hst, hn]
          simp [hle]
        have := ih (rest.drop n).length (by rw [List.length_drop]; omega) hnext hempty rfl
        rwa [List.append_assoc, List.take_append_drop] at this
      · rw [List.drop_of_length_le (by omega), chunks_nil hpos, List.foldl_nil]
        rwa [List.take_of_length_le (by omega)] at hnext ⊢

/-- All chunks of a file. -/
theorem Buffered.addFile {file : Bytes} (h : Buffered sha1 n data st) :
    Buffered sha1 n (data ++ file)
      ((getChunks file (n - st.pieceData.length) n).foldl
        (TorrentWriter.addChunk sha1 args) st) := by
  have hlt : st.pieceData.length < n := by
    obtain ⟨_, _, _, hlt, _⟩ := h
    exact hlt
  unfold getChunks
  by_cases hfile : file = []
  · simpa [hfile, chunks_nil hpos] using h
  · have hpos' : 0 < file.length := List.length_pos_iff.2 hfile
    have hfirst : file.take (n - st.pieceData.length) ≠ [] :=
      List.ne_nil_of_length_pos (by rw [List.length_take]; omega)
    rw [if_neg hfirst, List.singleton_append, List.foldl_cons]
    have hroom : st.pieceData.length + (file.take (n - st.pieceData.length)).length ≤ n := by
      rw [List.length_take]
      omega
    have hnext := h.addChunk hn hpos hroom
    by_cases hle : n - st.pieceData.length ≤ file.length
    · have hempty : (TorrentWriter.addChunk sha1 args st
          (file.take (n - st.pieceData.length))).pieceData = [] := by
        unfold TorrentWriter.addChunk
        rw [hn]
        dsimp only
        rw [if_pos]
        rw [List.length_append, List.length_take]
        omega
      have hall := @Buffered.addChunks sha1 args n _ _ hn hpos
        (file.drop (n - st.pieceData.length)) hnext hempty
      rwa [List.append_assoc, List.take_append_drop] at hall
    · rw [List.drop_of_length_le (by omega), chunks_nil hpos, List.foldl_nil]
      rwa [List.take_of_length_le (by omega)] at hnext ⊢

omit hn hpos in
theorem foldl_addChunk_files (cs : List Bytes) (st : State) :
    (cs.foldl (TorrentWriter.addChunk sha1 args) st).files = st.files := by
  induction cs generalizing st with
  | nil => rfl
  | cons c cs ih =>
    rw [List.foldl_cons, ih]
    unfold TorrentWriter.addChunk
    dsimp only
    split <;> rfl

/-- All files of a directory, one after the other. -/
theorem Buffered.addEntries {fs : FileSystem} {l : Loc} (entries : List (List Name))
    (h : Buffered sha1 n data st) :
    Buffered sha1 n (data ++ ((Data.filesBelow fs l entries).map (·.2)).flatten)
        (entries.foldl (addEntry sha1 args fs l) st) ∧
      (entries.foldl (addEntry sha1 args fs l) st).files =
        st.files ++ (Data.filesBelow fs l entries).map fun f => fileDict f.1 f.2.length := by
  induction entries generalizing data st with
  | nil => simpa [Data.filesBelow] using h
  | cons rel entries ih =>
    rw [List.foldl_cons]
    cases hc : fs.content (l ++ rel) with
    | none =>
      have hsame : addEntry sha1 args fs l st rel = st := by rw [addEntry, hc]
      have hfiles : Data.filesBelow fs l (rel :: entries) = Data.filesBelow fs l entries := by
        simp [Data.filesBelow, hc]
      rw [hsame, hfiles]
      exact ih h
    | some file =>
      have hfiles : Data.filesBelow fs l (rel :: entries) =
          (rel, file) :: Data.filesBelow fs l entries := by
        simp [Data.filesBelow, hc]
      have hnext : Buffered sha1 n (data ++ file) (addEntry sha1 args fs l st rel) := by
        have hst : Buffered sha1 n data
          { st with files := st.files ++ [fileDict rel file.length] } := h
        rw [addEntry, hc]
        dsimp only
        rw [hn]
        exact hst.addFile hn hpos
      have hkeep : (addEntry sha1 args fs l st rel).files =
          st.files ++ [fileDict rel file.length] := by
        rw [addEntry, hc]
        exact foldl_addChunk_files _ _
      obtain ⟨hb, hf⟩ := ih hnext
      rw [hfiles, List.map_cons, List.flatten_cons, ← List.append_assoc]
      refine ⟨hb, ?_⟩
      rw [hf, hkeep, List.map_cons, List.append_assoc, List.singleton_append]

end

/-- The entry that tells the mode. -/
def modeEntry : Data → Bytes × Element
  | .file content => (ascii "length".toList, .int (Int64.ofNat content.length))
  | .directory files =>
    (ascii "files".toList, .list (files.map fun f => fileDict f.1 f.2.length))

/-- The dictionary of the data. -/
def infoDict (sha1 : Bytes → Sha1) (args : WriterArgs) (name : Bytes) (data : Data) :
    List (Bytes × Element) :=
  modeEntry data :: [
    (ascii "name".toList, .str name),
    (ascii "name.utf-8".toList, .str name),
    (ascii "piece length".toList, .int (Int64.ofNat args.pieceLength.toNat)),
    (ascii "pieces".toList, .str (hashText (hashes sha1 args.pieceLength.toNat data.bytes)))]

theorem singleInfo_eq (name content : Bytes) :
    singleInfo sha1 args name content = infoDict sha1 args name (.file content) := by
  simp [singleInfo, infoDict, modeEntry, hashText, hashes, Data.bytes, Function.comp_def]

theorem multiInfo_eq (hpos : 0 < args.pieceLength.toNat) (name : Bytes) (fs : FileSystem) (l : Loc)
    (entries : List (List Name)) : multiInfo sha1 args name fs l entries =
      infoDict sha1 args name (.directory (Data.filesBelow fs l entries)) := by
  have hstart : Buffered sha1 args.pieceLength.toNat [] {} :=
    ⟨[], rfl, Nat.dvd_zero _, hpos, by rw [hashes, chunks_nil hpos]; rfl⟩
  obtain ⟨⟨done, hdata, hdvd, hlt, hpieces⟩, hfiles⟩ :=
    @Buffered.addEntries sha1 args _ _ _ rfl hpos fs l entries hstart
  rw [List.nil_append] at hdata hfiles
  have htext : (if (entries.foldl (addEntry sha1 args fs l) {}).pieceData ≠ [] then
      (entries.foldl (addEntry sha1 args fs l) {}).pieces ++
        (sha1 (entries.foldl (addEntry sha1 args fs l) {}).pieceData).bytes
      else (entries.foldl (addEntry sha1 args fs l) {}).pieces) =
        hashText (hashes sha1 args.pieceLength.toNat
          ((Data.filesBelow fs l entries).map (·.2)).flatten) := by
    rw [hdata, hashes, chunks_append hpos hdvd, List.map_append, hashText_append, hpieces]
    split
    · rename_i hne
      rw [chunks_of_le hpos hne (by omega)]
      simp [hashes]
    · rename_i hnil
      rw [not_not.1 hnil, chunks_nil hpos]
      simp [hashes]
  simp only [multiInfo, infoDict, modeEntry, hfiles, Data.bytes]
  rw [htext]

/-- What is written. -/
theorem writeTorrent_eq {fs : FileSystem} {cwd l : Loc} {entries : List (List Name)} {p : Path}
    (hpos : 0 < args.pieceLength.toNat) (hl : fs.resolve cwd p = some l)
    (hnode : (fs.node l).isSome = true) : writeTorrent sha1 args fs cwd entries p =
      .ok (Element.dict (rootDict args
        (infoDict sha1 args (filename p) (Data.found fs l entries)))).encode := by
  obtain ⟨node, hnode⟩ := Option.isSome_iff_exists.1 hnode
  rw [writeTorrent, hl]
  cases node with
  | file content =>
    simp only [hnode, singleInfo_eq, Data.found, FileSystem.content]
  | dir =>
    simp only [hnode, multiInfo_eq hpos, Data.found, FileSystem.content]

/-! ## Decoding it -/

/-- The texts whose length nothing else bounds. -/
def texts (args : WriterArgs) (name : Bytes) (data : Data) : List Bytes :=
  [args.announceUrl, args.comment, args.createdBy, name] ++ data.names

/-- The decoder takes strings of this length. -/
def Short (args : WriterArgs) (name : Bytes) (data : Data) : Prop :=
  (∀ s ∈ texts args name data, s.length ≤ Bencode.maxStringLength) ∧
    (chunks args.pieceLength.toNat data.bytes).length * 20 ≤ Bencode.maxStringLength

theorem rootDict_ordered (name : Bytes) (data : Data) :
    (Element.dict (rootDict args (infoDict sha1 args name data))).Ordered := by
  have hnames : ∀ rel : List Name, (Element.list (rel.map .str)).Ordered := fun rel =>
    .list fun e he => by
      obtain ⟨c, -, rfl⟩ := List.mem_map.1 he
      exact .str c
  have hfile : ∀ rel size, (fileDict rel size).Ordered := fun rel size => by
    refine .dict (by simp only [List.map_cons, List.map_nil]; decide) ?_
    simp only [List.forall_mem_cons]
    exact ⟨.int _, hnames rel, hnames rel, by simp⟩
  have hinfo : (Element.dict (infoDict sha1 args name data)).Ordered := by
    cases data with
    | file content =>
      refine .dict (by simp only [infoDict, modeEntry, List.map_cons, List.map_nil]; decide) ?_
      simp only [infoDict, modeEntry, List.forall_mem_cons]
      exact ⟨.int _, .str _, .str _, .int _, .str _, by simp⟩
    | directory files =>
      refine .dict (by simp only [infoDict, modeEntry, List.map_cons, List.map_nil]; decide) ?_
      simp only [infoDict, modeEntry, List.forall_mem_cons]
      refine ⟨.list fun e he => ?_, .str _, .str _, .int _, .str _, by simp⟩
      obtain ⟨f, -, rfl⟩ := List.mem_map.1 he
      exact hfile _ _
  refine .dict (by simp only [rootDict, List.map_cons, List.map_nil]; decide) ?_
  simp only [rootDict, List.forall_mem_cons]
  exact ⟨.str _, .str _, .str _, .int _, .str _, hinfo, by simp⟩

section
variable {d : Nat} {rel : List Name}

theorem fits_names (hd : d + 1 ≤ Bencode.recursionLimit) :
    Element.Fits d (.list (rel.map .str)) ↔ ∀ c ∈ rel, c.length ≤ Bencode.maxStringLength := by
  rw [Element.fits_list, List.forall_mem_map, and_iff_right (by omega)]
  refine forall₂_congr fun c _ => ?_
  rw [Element.fits_str, and_iff_right hd]

theorem fits_fileDict (hd : d + 2 ≤ Bencode.recursionLimit) (size : Nat) :
    Element.Fits d (fileDict rel size) ↔ ∀ c ∈ rel, c.length ≤ Bencode.maxStringLength := by
  have hkey : ∀ k ∈ ["length", "path", "path.utf-8"],
      (ascii k.toList).length ≤ Bencode.maxStringLength := by decide
  simp only [List.forall_mem_cons] at hkey
  rw [fileDict, Element.fits_dict, and_iff_right (by omega)]
  simp only [List.forall_mem_cons, hkey, true_and, Element.fits_int, fits_names hd]
  have : d + 1 ≤ Bencode.recursionLimit := by omega
  simp [this]

end

/-- Everything else in the file is short and not deep. -/
theorem fits_rootDict (name : Bytes) (data : Data) :
    Element.Fits 0 (.dict (rootDict args (infoDict sha1 args name data))) ↔
      Short args name data := by
  have hlimit : ∀ d ≤ 5, d ≤ Bencode.recursionLimit := fun d hd => by
    have : Bencode.recursionLimit = 200 := rfl
    omega
  have hkey : ∀ k ∈ ["announce", "comment", "created by", "creation date", "encoding", "info",
      "name", "name.utf-8", "piece length", "pieces", "UTF-8"],
      (ascii k.toList).length ≤ Bencode.maxStringLength := by decide
  simp only [List.forall_mem_cons] at hkey
  have hmode : Element.Fits 2 (modeEntry data).2 ↔
      ∀ c ∈ data.names, c.length ≤ Bencode.maxStringLength := by
    cases data with
    | file content => simp [modeEntry, Element.fits_int, hlimit, Data.names]
    | directory files =>
      rw [modeEntry, Element.fits_list, List.forall_mem_map, and_iff_right (hlimit 2 (by decide)),
        Data.names]
      simp only [List.mem_flatMap]
      refine (forall₂_congr fun f _ => fits_fileDict (hlimit 5 (by decide)) _).trans ?_
      exact ⟨fun h c hc => h _ hc.choose_spec.1 c hc.choose_spec.2,
        fun h f hf c hc => h c ⟨f, hf, hc⟩⟩
  have hkind : (modeEntry data).1.length ≤ Bencode.maxStringLength := by
    cases data with
    | file _ =>
      show (ascii "length".toList).length ≤ _
      decide
    | directory _ =>
      show (ascii "files".toList).length ≤ _
      decide
  have hinfo : Element.Fits 1 (.dict (infoDict sha1 args name data)) ↔
      (∀ c ∈ data.names, c.length ≤ Bencode.maxStringLength) ∧
        name.length ≤ Bencode.maxStringLength ∧
          (chunks args.pieceLength.toNat data.bytes).length * 20 ≤ Bencode.maxStringLength := by
    have hcount : (hashText (hashes sha1 args.pieceLength.toNat data.bytes)).length =
        (chunks args.pieceLength.toNat data.bytes).length * 20 := by
      rw [hashText_length, hashes, List.length_map]
    rw [← hmode, ← hcount, Element.fits_dict, and_iff_right (hlimit 1 (by decide)),
      infoDict]
    simp only [List.forall_mem_cons, hkey, hkind, Element.fits_str, Element.fits_int,
      hlimit 2 (by decide), true_and, and_true, List.not_mem_nil]
    simp
  rw [Element.fits_dict, and_iff_right (hlimit 0 (by decide)), Short, texts]
  simp only [rootDict, List.forall_mem_cons, hkey, Element.fits_str, Element.fits_int, hinfo,
    hlimit 1 (by decide), true_and, List.not_mem_nil, List.cons_append, List.nil_append]
  constructor
  · intro hin
    obtain ⟨ha, hc, hcb, ⟨hnames, hname, hcount⟩, -⟩ := hin
    exact ⟨⟨ha, hc, hcb, hname, hnames⟩, hcount⟩
  · intro hin
    obtain ⟨⟨ha, hc, hcb, hname, hnames⟩, hcount⟩ := hin
    exact ⟨ha, hc, hcb, ⟨hnames, hname, hcount⟩, fun x hx => hx.elim⟩

/-! ## What the constructor reads -/

/-- The hashes that are left in the text. -/
theorem sha1sFrom_hashText (done hs : List Sha1) (h : (done.length + hs.length) * 20 < 2 ^ 64) :
    sha1sFrom (hashText (done ++ hs)) hs.length (done.length * 20) = .ok hs := by
  induction hs generalizing done with
  | nil => rfl
  | cons x hs ih =>
    rw [List.length_cons] at h
    have htake : ((hashText (done ++ x :: hs)).drop (done.length * 20)).take 20 = x.bytes := by
      rw [hashText_append, ← hashText_length done, List.drop_left, ← x.size]
      exact List.take_left
    have hlen := hashText_length (done ++ x :: hs)
    rw [List.length_append, List.length_cons] at hlen
    have hbuf : Sha1.fromBuffer (hashText (done ++ x :: hs)) (done.length * 20) = .ok x := by
      unfold Sha1.fromBuffer
      rw [if_neg (by omega), dif_pos (by rw [htake, x.size])]
      simp only [htake]
    have hrest := ih (done ++ [x]) (by rw [List.length_append, List.length_singleton]; omega)
    rw [List.append_assoc, List.singleton_append, List.length_append, List.length_singleton,
      Nat.add_mul, Nat.one_mul] at hrest
    rw [List.length_cons, sha1sFrom, hbuf]
    show (do return x :: (← sha1sFrom _ _ _) : Except Exn (List Sha1)) = _
    rw [hrest]
    rfl

theorem beDictToFileInfo_fileDict (rel : List Name) (size : Nat) :
    beDictToFileInfo (fileDict rel size) = .ok ⟨(Int64.ofNat size).toInt, below [] rel, []⟩ := by
  have hpath : ∀ p : Path, (rel.map Element.str).foldlM (fun a b => (join a ·) <$> b.toStr) p =
      (.ok (below p rel) : Except Exn Path) := by
    intro p
    induction rel generalizing p with
    | nil => rfl
    | cons c rel ih => exact ih (join p c)
  show (do
    let path ← (rel.map Element.str).foldlM (fun a b => (join a ·) <$> b.toStr) []
    return (⟨(Int64.ofNat size).toInt, path, []⟩ : FileInfo) : Except Exn FileInfo) = _
  rw [hpath]
  rfl

theorem mode_infoDict (name : Bytes) (data : Data) :
    Torrent.mode (infoDict sha1 args name data) =
      if data.mode = (0, []) then .error (.runtimeError "Invalid torrent: no mode")
      else .ok data.mode := by
  cases data with
  | file content =>
    show (if (Int64.ofNat content.length).toInt = 0 ∧ ([] : List FileInfo) = [] then _ else _) = _
    simp only [Data.mode, Prod.mk.injEq]
    rfl
  | directory files =>
    have hfiles : (files.map fun f => fileDict f.1 f.2.length).mapM beDictToFileInfo =
        (.ok (Data.directory files).mode.2 : Except Exn (List FileInfo)) := by
      induction files with
      | nil => rfl
      | cons f files ih =>
        rw [List.map_cons, List.mapM_cons, beDictToFileInfo_fileDict, ih]
        rfl
    show (do
      let fs ← (files.map fun f => fileDict f.1 f.2.length).mapM beDictToFileInfo
      if (0 : Int) = 0 ∧ fs = [] then .error (.runtimeError "Invalid torrent: no mode")
      else return (0, fs) : Except Exn (Int × List FileInfo)) = _
    rw [hfiles]
    simp only [Data.mode, Prod.mk.injEq]
    rfl

/-- The torrent that the written text describes. -/
def described (sha1 : Bytes → Sha1) (args : WriterArgs) (config : Config) (dataDir : Path)
    (name : Bytes) (data : Data) : Torrent where
  announce := args.announceUrl
  creationDate := args.time.toInt
  comment := args.comment
  createdBy := args.createdBy
  encoding := ascii "UTF-8".toList
  pieceLength := args.pieceLength
  pieces := hashes sha1 args.pieceLength.toNat data.bytes
  name := join dataDir name
  mLength := data.mode.1
  files := data.mode.2
  tmpfile := join dataDir name ++ Torrent.tmpfileExtension
  infoHash := sha1 (Element.dict (infoDict sha1 args name data)).encode
  listeningPort := UInt16.ofNat config.listeningPort.toNat
  connectionPort := UInt16.ofNat config.connectionPort.toNat
  maxPendingRequests := config.maxPendingRequests

/-- What the constructor makes of the text that is written. -/
theorem ofContent_written {config : Config}
    (hl : 0 ≤ config.listeningPort ∧ config.listeningPort < 2 ^ 16)
    (hc : 0 ≤ config.connectionPort ∧ config.connectionPort < 2 ^ 16) (dataDir : Path)
    (name : Bytes) (data : Data) (hshort : Short args name data) :
    Torrent.ofContent sha1 config dataDir
        (Element.dict (rootDict args (infoDict sha1 args name data))).encode =
      if data.mode = (0, []) then .error (.runtimeError "Invalid torrent: no mode")
      else .ok (described sha1 args config dataDir name data) := by
  have hord := @rootDict_ordered sha1 args name data
  have hdecode := (Bencode.decode_encode hord).1 ((fits_rootDict name data).2 hshort)
  have hhashes : sha1sFrom (hashText (hashes sha1 args.pieceLength.toNat data.bytes))
      ((hashText (hashes sha1 args.pieceLength.toNat data.bytes)).length / 20) 0 =
        .ok (hashes sha1 args.pieceLength.toNat data.bytes) := by
    have hmax : Bencode.maxStringLength = 100000000 := rfl
    have hcount := hshort.2
    rw [hmax] at hcount
    rw [hashText_length, Nat.mul_div_cancel _ (by omega)]
    rw [← List.length_map (f := sha1)] at hcount
    refine sha1sFrom_hashText [] _ (Nat.lt_of_le_of_lt ?_ (by decide : 100000000 < 2 ^ 64))
    rwa [List.length_nil, Nat.zero_add]
  have hpiece : castU32 (Int64.ofNat args.pieceLength.toNat).toInt = .ok args.pieceLength := by
    have hlt := args.pieceLength.toNat_lt
    rw [Int64.toInt_ofNat_of_lt (by omega), castU32_of hlt, UInt32.ofNat_toNat]
  -- the entries that come after the one that tells the mode
  have hname : dictAt (infoDict sha1 args name data) "name" = .ok (.str name) := by
    cases data <;> rfl
  have hpieces : dictAt (infoDict sha1 args name data) "pieces" =
      .ok (.str (hashText (hashes sha1 args.pieceLength.toNat data.bytes))) := by
    cases data <;> rfl
  have hlength : dictAt (infoDict sha1 args name data) "piece length" =
      .ok (.int (Int64.ofNat args.pieceLength.toNat)) := by
    cases data <;> rfl
  unfold Torrent.ofContent
  rw [castU16_of hl, castU16_of hc, hdecode]
  show dictAt (infoDict sha1 args name data) "name" >>= _ = _
  rw [hname]
  show dictAt (infoDict sha1 args name data) "pieces" >>= _ = _
  rw [hpieces]
  show (if (hashText (hashes sha1 args.pieceLength.toNat data.bytes)).length % 20 ≠ 0 then _
    else sha1sFrom _ _ _ >>= _) = _
  rw [if_neg (by rw [hashText_length]; omega), hhashes]
  show dictAt (infoDict sha1 args name data) "piece length" >>= _ = _
  rw [hlength]
  show castU32 (Int64.ofNat args.pieceLength.toNat).toInt >>= _ = _
  rw [hpiece]
  show Torrent.mode (infoDict sha1 args name data) >>= _ = _
  rw [mode_infoDict]
  split <;> rfl
end TorrentWriter

end Zit
