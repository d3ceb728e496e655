import Mathlib.Algebra.Order.BigOperators.Group.List
import Zit.Proof.FileWriter

/-!
# A torrent's files as one

The contents of the files of a torrent in their order are one list of bytes. When different entries
are different files, `writePiece` overwrites one range of it (`writePiece_splice`); `read_block`
returns one range of it (`readBlock_slice`).
-/

set_option autoImplicit false

namespace Zit

open Lib Lib.Path FileSystem

/-- The files of the torrent are below `base`, with these contents. -/
structure Stores (t : Torrent) (base : Path) (d : Disk) (contents : List Bytes) : Prop where
  count : contents.length = t.files.length
  file : ∀ (k : Nat) (fi : FileInfo) (c : Bytes), t.files[k]? = some fi → contents[k]? = some c →
    (c.length : Int) = fi.length ∧
      ∃ l, d.fs.resolve d.cwd (join base fi.path) = some l ∧ d.fs.content l = some c

/-- No operation on the outside world fails. -/
def Disk.Healthy (d : Disk) : Prop := ∀ f ∈ d.faults, f = none

/-- No other file is changed. -/
def Disk.KeepsOthers (t : Torrent) (d d' : Disk) : Prop :=
  ∀ l, (∀ fi ∈ t.files, locate d.cwd (join t.name fi.path) ≠ l) → d'.fs.content l = d.fs.content l

/-! ## The file at a position -/

namespace Torrent

theorem filesLength_ok {a total : Int} {files : List FileInfo}
    (h : filesLength a files = .ok total) : total = a + (files.map (·.length)).sum := by
  induction files generalizing a with
  | nil =>
    cases h
    simp
  | cons fi files ih =>
    obtain ⟨b, hb, h⟩ := bind_eq_ok.1 h
    rw [ih h, (int64_ok hb).1, List.map_cons, List.sum_cons, Int.add_assoc]

/-- The sum is there when it is small. -/
theorem filesLength_of {a : Int} {files : List FileInfo} (ha : 0 ≤ a)
    (hlen : ∀ fi ∈ files, 0 ≤ fi.length) (hmax : a + (files.map (·.length)).sum < 2 ^ 63) :
    filesLength a files = .ok (a + (files.map (·.length)).sum) := by
  induction files generalizing a with
  | nil => simp [filesLength]
  | cons fi files ih =>
    have hfi := hlen fi List.mem_cons_self
    have hrest : ∀ f ∈ files, 0 ≤ f.length := fun f hf => hlen f (List.mem_cons_of_mem _ hf)
    have hsum : 0 ≤ (files.map (·.length)).sum :=
      List.sum_nonneg fun x hx => by
        obtain ⟨f, hf, rfl⟩ := List.mem_map.1 hx
        exact hrest f hf
    rw [List.map_cons, List.sum_cons] at hmax ⊢
    rw [filesLength, int64_of (by omega), ← Int.add_assoc]
    exact ih (by omega) hrest (by omega)

theorem filesLength_lt {a total : Int} {files : List FileInfo}
    (h : filesLength a files = .ok total) (ha : a < 2 ^ 63) : total < 2 ^ 63 := by
  induction files generalizing a with
  | nil =>
    cases h
    exact ha
  | cons fi files ih =>
    obtain ⟨b, hb, h⟩ := bind_eq_ok.1 h
    obtain ⟨rfl, -, hlt⟩ := int64_ok hb
    exact ih h hlt

/-- The loop finds a file for every position before the end. -/
theorem fileAtPosFrom_found {pos cpos total : Int} {files : List FileInfo}
    (h : filesLength cpos files = .ok total) (hlen : ∀ fi ∈ files, 0 ≤ fi.length) (hc : 0 ≤ cpos)
    (hpos : cpos ≤ pos) (hlt : pos < total) : ∃ x, fileAtPosFrom pos cpos files = .ok (some x) := by
  induction files generalizing cpos with
  | nil =>
    cases h
    omega
  | cons fi files ih =>
    obtain ⟨bound, hb, h⟩ := bind_eq_ok.1 h
    obtain ⟨rfl, hmin, hmax⟩ := int64_ok hb
    have hfi := hlen fi List.mem_cons_self
    simp only [fileAtPosFrom, hb, bind, Except.bind]
    by_cases hin : pos < cpos + fi.length
    · rw [if_pos hin, int64_of (by omega), int64_of (by omega)]
      exact ⟨_, rfl⟩
    · rw [if_neg hin]
      exact ih h (fun f hf => hlen f (List.mem_cons_of_mem _ hf)) (by omega) (by omega)

theorem le_filesLength {a total : Int} {files : List FileInfo}
    (h : filesLength a files = .ok total) (hlen : ∀ fi ∈ files, 0 ≤ fi.length) : a ≤ total := by
  induction files generalizing a with
  | nil =>
    cases h
    exact Int.le_refl _
  | cons fi files ih =>
    obtain ⟨b, hb, h⟩ := bind_eq_ok.1 h
    have hfi := hlen fi List.mem_cons_self
    have hle := ih h fun x hx => hlen x (List.mem_cons_of_mem _ hx)
    rw [(int64_ok hb).1] at hle
    omega

/-- A file ends before the end of the torrent. -/
theorem fileOf_end {pos cpos total : Int} {files : List FileInfo} {fi : FileInfo} {off : Int}
    (hof : fileOf pos cpos files = some (fi, off)) (h : filesLength cpos files = .ok total)
    (hlen : ∀ fi ∈ files, 0 ≤ fi.length) : pos + (fi.length - off) ≤ total := by
  induction files generalizing cpos with
  | nil => cases hof
  | cons f files ih =>
    obtain ⟨bound, hb, h⟩ := bind_eq_ok.1 h
    obtain ⟨rfl, -⟩ := int64_ok hb
    have hrest : ∀ fi ∈ files, 0 ≤ fi.length := fun x hx => hlen x (List.mem_cons_of_mem _ hx)
    unfold fileOf at hof
    split at hof
    · simp only [Option.some.injEq, Prod.mk.injEq] at hof
      obtain ⟨rfl, rfl⟩ := hof
      have := le_filesLength h hrest
      omega
    · exact ih hof h hrest

/-- Every position before the end is in one of the files. -/
theorem fileAtPos_found {t : Torrent} (hs : t.isSingleFile = false) {pos total : Int}
    (h : filesLength 0 t.files = .ok total) (hlen : ∀ fi ∈ t.files, 0 ≤ fi.length) (hpos : 0 ≤ pos)
    (hlt : pos < total) : ∃ x, t.fileAtPos pos = .ok x := by
  obtain ⟨x, hx⟩ := fileAtPosFrom_found h hlen (Int.le_refl 0) hpos hlt
  refine ⟨x, ?_⟩
  simp only [fileAtPos, hs, hx, bind, Except.bind]
  rfl

end Torrent

namespace Stores

variable {t : Torrent} {base : Path} {d : Disk} {contents : List Bytes}

theorem lengths (h : Stores t base d contents) :
    contents.map (fun c => (c.length : Int)) = t.files.map (·.length) := by
  apply List.ext_getElem
  · simp [h.count]
  · intro k hk hk'
    simp only [List.length_map] at hk hk'
    simp only [List.getElem_map]
    exact (h.file k _ _ (List.getElem?_eq_getElem hk') (List.getElem?_eq_getElem hk)).1

theorem flatten_length (cs : List Bytes) :
    (cs.flatten.length : Int) = (cs.map fun c => (c.length : Int)).sum := by
  induction cs with
  | nil => rfl
  | cons c cs ih =>
    rw [List.flatten_cons, List.length_append, Int.natCast_add, ih]
    rfl

/-- Where the file with index `k` begins. -/
theorem start (h : Stores t base d contents) (k : Nat) :
    ((contents.take k).flatten.length : Int) = Torrent.startOf 0 t.files k := by
  rw [flatten_length, List.map_take, h.lengths, ← List.map_take, Torrent.startOf, Int.zero_add]

theorem nonneg (h : Stores t base d contents) : ∀ fi ∈ t.files, 0 ≤ fi.length := by
  intro fi hfi
  obtain ⟨k, hk, rfl⟩ := List.getElem_of_mem hfi
  obtain ⟨c, hc⟩ : ∃ c, contents[k]? = some c := ⟨_, List.getElem?_eq_getElem (h.count ▸ hk)⟩
  have := (h.file k _ _ (List.getElem?_eq_getElem hk) hc).1
  omega

theorem total (h : Stores t base d contents) (hs : t.isSingleFile = false) {total : Int}
    (ht : t.length = .ok total) : (contents.flatten.length : Int) = total := by
  rw [Torrent.length, hs] at ht
  rw [flatten_length, h.lengths, Torrent.filesLength_ok ht, Int.zero_add]

/-- Where the file at a position and the position in it are. -/
theorem fileAtPos (h : Stores t base d contents) (hs : t.isSingleFile = false) {total : Int}
    (ht : t.length = .ok total) (pos : Nat) (hpos : pos < contents.flatten.length) :
    ∃ k fi c off, t.files[k]? = some fi ∧ contents[k]? = some c ∧ off < c.length ∧
      pos = (contents.take k).flatten.length + off ∧
      t.fileAtPos pos = .ok (fi, (off : Int), ((c.length - off : Nat) : Int)) := by
  have htotal := h.total hs ht
  have hlen : Torrent.filesLength 0 t.files = .ok total := by
    rw [Torrent.length, hs] at ht
    exact ht
  obtain ⟨⟨fi, off, left⟩, hat⟩ := Torrent.fileAtPos_found hs hlen h.nonneg
    (Int.natCast_nonneg pos) (by omega)
  obtain ⟨hof, hleft⟩ := t.fileAtPos_multi hs hat
  obtain ⟨k, hk, hstart, hoff, hlt⟩ := Torrent.fileOf_some hof (by omega)
  obtain ⟨hk', hfi⟩ := List.getElem?_eq_some_iff.1 hk
  obtain ⟨c, hc⟩ : ∃ c, contents[k]? = some c := ⟨_, List.getElem?_eq_getElem (h.count ▸ hk')⟩
  have hsize := (h.file k fi _ hk hc).1
  rw [← h.start k] at hstart
  refine ⟨k, fi, _, off.toNat, hk, hc, by omega, by omega, ?_⟩
  rw [hat, hleft]
  congr 3
  · omega
  · omega

end Stores

/-! ## Writing -/

namespace Disk

variable {d : Disk}

theorem Healthy.head (h : d.Healthy) : d.faults.head?.join = none := by
  unfold Healthy at h
  cases hf : d.faults with
  | nil => rfl
  | cons f fs =>
    rw [hf] at h
    rw [h f List.mem_cons_self]
    rfl

theorem Healthy.tail (h : d.Healthy) : ∀ f ∈ d.faults.tail, f = none :=
  fun f hf => h f (List.mem_of_mem_tail hf)

theorem openFile_ok {p : Path} {l : Loc} {c : Bytes} (hl : d.fs.resolve d.cwd p = some l)
    (hc : d.fs.content l = some c) : openFile p d = .ok () d := by
  have hsize : d.fs.fileSize d.cwd p = some c.length := by
    rw [FileSystem.fileSize, hl, Option.bind_some, hc, Option.map_some]
  simp only [openFile, bind, EStateM.bind, get_run, hsize]
  rfl

theorem write_ok (h : d.Healthy) {p : Path} {l : Loc} {c : Bytes}
    (hl : d.fs.resolve d.cwd p = some l) (hc : d.fs.content l = some c) (off : Nat) {data : Bytes}
    (hdata : data ≠ []) : Disk.write p off data d =
      .ok () { d with
        fs := d.fs.put l (.file (overwrite 0 c off data)), faults := d.faults.tail } := by
  have hfs : d.fs.write d.cwd p off data = some (d.fs.put l (.file (overwrite 0 c off data))) := by
    simp [FileSystem.write, hl, hc, hdata]
  simp only [Disk.write, nextFault, bind, EStateM.bind, get_run, set_run, pure, EStateM.pure,
    h.head, hfs]

end Disk

/-- One of the files gets another content of the same length. -/
theorem Stores.put {t : Torrent} {d d' : Disk} {contents : List Bytes}
    (h : Stores t t.name d contents) (hd : t.DistinctFiles d.cwd) {k : Nat} {fi : FileInfo}
    {c c' : Bytes} {l : Loc} (hfi : t.files[k]? = some fi) (hc : contents[k]? = some c)
    (hl : d.fs.resolve d.cwd (join t.name fi.path) = some l) (hlc : d.fs.content l = some c)
    (hpos : 0 < c.length) (hlen : c'.length = c.length) (hcwd : d'.cwd = d.cwd)
    (hfs : d'.fs = d.fs.put l (.file c')) : Stores t t.name d' (contents.set k c') := by
  have hgrows : d.fs.Grows d'.fs := by
    rw [hfs]
    exact grows_put_file hlc
  refine ⟨by rw [List.length_set, h.count], fun j fj cj hfj hcj => ?_⟩
  rw [hcwd]
  by_cases hj : k = j
  · subst hj
    obtain ⟨hk, -⟩ := List.getElem?_eq_some_iff.1 hc
    rw [List.getElem?_set_self hk, Option.some_inj] at hcj
    rw [hfi, Option.some_inj] at hfj
    subst hcj hfj
    refine ⟨by rw [hlen, (h.file k _ _ hfi hc).1], l, resolve_grows hgrows hl, ?_⟩
    rw [hfs, content_put_file (ne_nil_of_content hlc), if_pos rfl]
  · rw [List.getElem?_set_ne hj] at hcj
    obtain ⟨hsize, lj, hlj, hcontent⟩ := h.file j fj cj hfj hcj
    refine ⟨hsize, lj, resolve_grows hgrows hlj, ?_⟩
    rw [hfs, content_put_file (ne_nil_of_content hlc), if_neg fun he => hj ?_, hcontent]
    -- an entry for the same file would have its content
    rw [he, hlc, Option.some_inj] at hcontent
    have hsize' := (h.file k _ _ hfi hc).1
    rw [← hcontent] at hsize
    refine hd k j fi fj hfi hfj (by omega) (by omega) ?_
    rw [← resolve_some hl, ← resolve_some hlj, he]

/-- The first `n` bytes of the piece have been written into the files. -/
structure Spliced (t : Torrent) (p : Piece) (d : Disk) (contents : List Bytes) (n : Nat)
    (d' : Disk) : Prop where
  cwd : d'.cwd = d.cwd
  healthy : d'.Healthy
  grows : d.fs.Grows d'.fs
  others : d.KeepsOthers t d'
  stores : ∃ contents', Stores t t.name d' contents' ∧
    contents'.flatten = overwrite 0 contents.flatten (t.pieceStart p.id) (p.data.take n)

section
variable {t : Torrent} {p : Piece} {d : Disk} {contents : List Bytes} {total : Int}

/-- The loop, by induction on the turns; what is left to write says where it is. -/
theorem writeLoop_splice (hs : t.isSingleFile = false) (ht : t.length = .ok total)
    (hd : t.DistinctFiles d.cwd) (h0 : Stores t t.name d contents)
    (hsize : p.data.length = p.pieceSize.toNat)
    (hin : t.pieceStart p.id + p.data.length ≤ contents.flatten.length) (turns : Nat) {remaining : Nat}
    (hrem : remaining ≤ p.data.length) (hturns : remaining < turns) {d1 : Disk}
    (h : Spliced t p d contents (p.data.length - remaining) d1) :
    wp (MultiTorrentDestination.writeLoop t p turns remaining) d1
      (fun _ d' => Spliced t p d contents p.data.length d') fun _ _ => False := by
  induction turns generalizing remaining d1 with
  | zero => omega
  | succ turns ih =>
    unfold MultiTorrentDestination.writeLoop
    refine wp_ite (fun hpos => ?_) fun hpos => ?_
    · obtain ⟨contents1, hstores, hflat⟩ := h.stores
      obtain ⟨done, hdone⟩ : ∃ done, p.data.length - remaining = done := ⟨_, rfl⟩
      rw [hdone] at hflat
      have hlen1 : contents1.flatten.length = contents.flatten.length := by
        have := h0.total hs ht
        have := hstores.total hs ht
        omega
      obtain ⟨k, fi, c, off, hfi, hc, hoff, hstart, hat⟩ :=
        hstores.fileAtPos hs ht (t.pieceStart p.id + done) (by omega)
      obtain ⟨-, l, hl, hlc⟩ := hstores.file k fi c hfi hc
      have hp : MultiTorrentDestination.pos t p (p.pieceSize.toNat - remaining) =
          ((t.pieceStart p.id + done : Nat) : Int) := by
        unfold MultiTorrentDestination.pos Torrent.pieceStart
        omega
      -- the turn writes the bytes from `done` to `done + len`
      obtain ⟨len, hlen⟩ : ∃ len, min remaining (c.length - off) = len := ⟨_, rfl⟩
      have hchunk : ((p.data.drop done).take len).length = len := by
        rw [List.length_take, List.length_drop]
        omega
      simp only [wp_bind, wp_lift, hp, hat]
      refine ⟨fun x hx => ?_, fun e he => by cases he⟩
      obtain rfl := Except.ok.inj hx
      refine wp_intro (Disk.openFile_ok hl hlc) ?_
      rw [show min (remaining : Int) ((c.length - off : Nat) : Int) = len by omega,
        show (p.pieceSize.toNat : Int) - remaining = done by omega]
      simp only [Int.toNat_natCast]
      refine wp_ite (fun hbad => by omega) fun _ => ?_
      have hne : (p.data.drop done).take len ≠ [] := List.ne_nil_of_length_pos (by omega)
      rw [wp_bind]
      refine wp_intro (Disk.write_ok h.healthy hl hlc off hne) ?_
      rw [wp_bind, Disk.wp_place]
      rw [show (remaining : Int) - len = ((remaining - len : Nat) : Int) by omega]
      have hmem : fi ∈ t.files := List.mem_of_getElem? hfi
      refine ih (by omega) (by omega) ⟨h.cwd, h.healthy.tail, h.grows.trans (grows_put_file hlc),
        fun l' hl' => ?_, _, hstores.put (h.cwd ▸ hd) hfi hc hl hlc (by omega) ?_ rfl rfl, ?_⟩
      · show (d1.fs.put l _).content l' = d.fs.content l'
        have hother : l' ≠ l := by
          rw [resolve_some hl, h.cwd]
          exact fun he => hl' fi hmem he.symm
        rw [content_put_file (ne_nil_of_content hlc), if_neg hother, h.others l' hl']
      · rw [overwrite_length, hchunk]
        omega
      · have htake : (p.data.take done).length = done := by
          rw [List.length_take]
          omega
        rw [overwrite_flatten 0 hc (by omega), ← hstart, hflat,
          show p.data.length - (remaining - len) = done + len by omega, List.take_add]
        conv_lhs => rw [show t.pieceStart p.id + done =
          t.pieceStart p.id + (p.data.take done).length by rw [htake]]
        exact overwrite_overwrite 0 _ _ (by omega)
    · have hzero : remaining = 0 := by omega
      rw [hzero, Nat.sub_zero] at h
      exact h

/-! ## Reading -/

theorem Disk.read_ok {p : Path} {l : Loc} {c : Bytes} (hl : d.fs.resolve d.cwd p = some l)
    (hc : d.fs.content l = some c) {off n : Nat} (hle : off + n ≤ c.length) :
    Disk.read p off n d = .ok ((c.drop off).take n) d := by
  have hfs : d.fs.read d.cwd p off n = some ((c.drop off).take n) := by
    simp [FileSystem.read, hl, hc, hle]
  simp only [Disk.read, bind, EStateM.bind, get_run, hfs]
  rfl

/-- The loop of `read_block`, by induction on the turns. -/
theorem readLoop_slice (hs : t.isSingleFile = false) (ht : t.length = .ok total)
    (h : Stores t (FileWriter.base t) d contents) {turns remaining : Nat} {cpos : UInt32}
    {data : Bytes} (hturns : remaining < turns)
    (hin : cpos.toNat + remaining ≤ contents.flatten.length)
    (hmax : cpos.toNat + remaining < 2 ^ 32) :
    FileWriter.readLoop t turns remaining cpos data d =
      .ok (data ++ (contents.flatten.drop cpos.toNat).take remaining) d := by
  induction turns generalizing remaining cpos data with
  | zero => omega
  | succ turns ih =>
    unfold FileWriter.readLoop
    by_cases hpos : (remaining : Int) > 0
    · obtain ⟨k, fi, c, off, hfi, hc, hoff, hstart, hat⟩ :=
        h.fileAtPos hs ht cpos.toNat (by omega)
      obtain ⟨-, l, hl, hlc⟩ := h.file k fi c hfi hc
      obtain ⟨len, hlen⟩ : ∃ len, min remaining (c.length - off) = len := ⟨_, rfl⟩
      have hpath : FileWriter.readPath t cpos.toNat =
          .ok (join (FileWriter.base t) fi.path, (off : Int), ((c.length - off : Nat) : Int)) := by
        simp only [FileWriter.readPath, hat, bind, Except.bind]
        rfl
      have hmin : min (remaining : Int) ((c.length - off : Nat) : Int) = len := by omega
      have hnat : (UInt32.ofNat len).toNat = len := by
        rw [UInt32.toNat_ofNat']
        omega
      have hread : Disk.read (join (FileWriter.base t) fi.path) off len d =
          .ok ((c.drop off).take len) d := Disk.read_ok hl hlc (by omega)
      have hadd : (cpos + UInt32.ofNat len).toNat = cpos.toNat + len := by
        rw [UInt32.toNat_add, hnat]
        omega
      have hcast := castU32_of (show len < 2 ^ 32 by omega)
      rw [if_pos hpos]
      simp only [bind, EStateM.bind, lift, hpath, hmin, hcast, hnat, Int.toNat_natCast, hread]
      rw [show (remaining : Int) - len = ((remaining - len : Nat) : Int) by omega,
        ih (by omega) (by omega) (by omega), hadd, ← slice_flatten hc (by omega), ← hstart,
        List.append_assoc, ← List.drop_drop, ← List.take_add]
      congr 4
      omega
    · have hzero : remaining = 0 := by omega
      subst hzero
      simp [pure, EStateM.pure]

theorem readBlock_slice (hs : t.isSingleFile = false) (ht : t.length = .ok total)
    (h : Stores t (FileWriter.base t) d contents) {offset length : UInt32}
    (hin : offset.toNat + length.toNat ≤ contents.flatten.length)
    (hmax : offset.toNat + length.toNat < 2 ^ 32) :
    FileWriter.readBlock t offset length d =
      .ok ((contents.flatten.drop offset.toNat).take length.toNat) d := by
  unfold FileWriter.readBlock
  rw [readLoop_slice hs ht h (by omega) hin hmax]
  rfl

/-! ## Both -/

/-- `read_block` reads the files that `writePiece` writes. -/
def SameFiles (t : Torrent) (d : Disk) : Prop :=
  ∀ fi ∈ t.files, d.fs.resolve d.cwd (join (FileWriter.base t) fi.path) =
    d.fs.resolve d.cwd (join t.name fi.path)

theorem Stores.same {d' : Disk} {contents' : List Bytes} (h : Stores t t.name d contents)
    (hsame : SameFiles t d) (hgrows : d.fs.Grows d'.fs) (hcwd : d'.cwd = d.cwd)
    (h' : Stores t t.name d' contents') : Stores t (FileWriter.base t) d' contents' := by
  refine ⟨h'.count, fun k fi c hfi hc => ?_⟩
  obtain ⟨hsize, l', hl', hlc'⟩ := h'.file k fi c hfi hc
  obtain ⟨hk, -⟩ := List.getElem?_eq_some_iff.1 hfi
  obtain ⟨_, hold⟩ : ∃ c, contents[k]? = some c := ⟨_, List.getElem?_eq_getElem (h.count ▸ hk)⟩
  obtain ⟨-, l, hl, -⟩ := h.file k fi _ hfi hold
  obtain rfl : l' = l := by rw [resolve_some hl', resolve_some hl, hcwd]
  refine ⟨hsize, l', ?_, hlc'⟩
  rw [hcwd]
  rw [← hsame fi (List.mem_of_getElem? hfi)] at hl
  exact resolve_grows hgrows hl

theorem writePiece_splice (hs : t.isSingleFile = false) (ht : t.length = .ok total)
    (hd : t.DistinctFiles d.cwd) (h : Stores t t.name d contents) (hhealthy : d.Healthy)
    (hsize : p.data.length = p.pieceSize.toNat)
    (hin : t.pieceStart p.id + p.data.length ≤ contents.flatten.length) :
    ∃ d', MultiTorrentDestination.writePiece t p d = .ok () d' ∧
      Spliced t p d contents p.data.length d' := by
  have hnone : Spliced t p d contents (p.data.length - p.data.length) d := by
    refine ⟨rfl, hhealthy, .refl d.fs, fun l _ => rfl, contents, h, ?_⟩
    rw [Nat.sub_self, List.take_zero, overwrite_nil 0 (by omega)]
  have hloop := writeLoop_splice hs ht hd h hsize hin (p.pieceSize.toNat + 1)
    (Nat.le_refl _) (by omega) hnone
  rw [hsize] at hloop
  obtain ⟨_, d', hok, hspliced⟩ := ok_of_wp hloop
  rw [hsize]
  exact ⟨d', hok, hspliced⟩

end

/-- Writing a piece replaces one range of the contents `C`, and a later reading finds it. -/
structure Splices (t : Torrent) (p : Piece) (d : Disk) (C : Bytes) (d' : Disk) (C' : Bytes) :
    Prop where
  returns : MultiTorrentDestination.writePiece t p d = .ok () d'
  others : d.KeepsOthers t d'
  splice : C' = C.take (t.pieceStart p.id) ++ p.data ++ C.drop (t.pieceStart p.id + p.data.length)
  reads : SameFiles t d → ∀ offset length : UInt32, offset.toNat + length.toNat ≤ C.length →
    offset.toNat + length.toNat < 2 ^ 32 →
      ∃ data, FileWriter.readBlock t offset length d' = .ok data d' ∧
        data.length = length.toNat ∧ ∀ i < length.toNat, data[i]? =
          if t.pieceStart p.id ≤ offset.toNat + i ∧
              offset.toNat + i < t.pieceStart p.id + p.data.length then
            p.data[offset.toNat + i - t.pieceStart p.id]?
          else C[offset.toNat + i]?

/-- A piece is spliced into different files, and any range of the files is read. -/
theorem splice_slice {t : Torrent} {d : Disk} {contents : List Bytes} {total : Int}
    (hs : t.isSingleFile = false) (ht : t.length = .ok total) :
    (t.DistinctFiles d.cwd → Stores t t.name d contents → d.Healthy → ∀ p : Piece,
      p.data.length = p.pieceSize.toNat → (t.pieceStart p.id + p.data.length : Nat) ≤ total →
        ∃ d' contents', Stores t t.name d' contents' ∧
          Splices t p d contents.flatten d' contents'.flatten) ∧
    (Stores t (FileWriter.base t) d contents → ∀ offset length : UInt32,
      (offset.toNat + length.toNat : Nat) ≤ total → offset.toNat + length.toNat < 2 ^ 32 →
        FileWriter.readBlock t offset length d =
          .ok ((contents.flatten.drop offset.toNat).take length.toNat) d) := by
  refine ⟨fun hd h hhealthy p hsize hin => ?_, fun h offset length hin hmax => ?_⟩
  · have htotal := h.total hs ht
    obtain ⟨d', hok, hspliced⟩ := writePiece_splice hs ht hd h hhealthy hsize (by omega)
    obtain ⟨contents', h', hflat⟩ := hspliced.stores
    rw [List.take_length] at hflat
    have hlen : contents'.flatten.length = contents.flatten.length := by
      have := h'.total hs ht
      omega
    refine ⟨d', contents', h', hok, hspliced.others, ?_, fun hsame offset length hle hmax => ?_⟩
    · rw [hflat, overwrite_of_le 0 _ (by omega)]
    · have hbase := h.same hsame hspliced.grows hspliced.cwd h'
      refine ⟨_, readBlock_slice hs ht hbase (by omega) hmax, ?_, fun i hi => ?_⟩
      · rw [List.length_take, List.length_drop]
        omega
      · rw [List.getElem?_take_of_lt hi, List.getElem?_drop, hflat]
        split
        · rename_i hrange
          rw [← overwrite_get_in 0 contents.flatten (t.pieceStart p.id) p.data (by omega)]
          congr 1
          omega
        · exact overwrite_get_out 0 _ _ _ (by omega) (by omega)
  · have htotal := h.total hs ht
    exact readBlock_slice hs ht h (by omega) hmax

/-! ## Files that are one -/

theorem Stores.of_zip {t : Torrent} {base : Path} {d : Disk} {contents : List Bytes}
    (hcount : contents.length = t.files.length)
    (h : ∀ x ∈ t.files.zip contents, (x.2.length : Int) = x.1.length ∧
      (d.fs.resolve d.cwd (join base x.1.path)).bind d.fs.content = some x.2) :
    Stores t base d contents := by
  refine ⟨hcount, fun k fi c hfi hc => ?_⟩
  have hzip : (t.files.zip contents)[k]? = some (fi, c) := List.getElem?_zip_eq_some.2 ⟨hfi, hc⟩
  obtain ⟨hsize, hcontent⟩ := h _ (List.mem_of_getElem? hzip)
  exact ⟨hsize, Option.bind_eq_some_iff.1 hcontent⟩

theorem Torrent.DistinctFiles.of_pairwise {t : Torrent} {cwd : Loc}
    (h : t.files.Pairwise fun f g => 0 < f.length → 0 < g.length →
      locate cwd (join t.name f.path) ≠ locate cwd (join t.name g.path)) : t.DistinctFiles cwd := by
  intro j k f g hf hg hf0 hg0 hloc
  obtain ⟨hj, rfl⟩ := List.getElem?_eq_some_iff.1 hf
  obtain ⟨hk, rfl⟩ := List.getElem?_eq_some_iff.1 hg
  rw [List.pairwise_iff_getElem] at h
  rcases Nat.lt_trichotomy j k with hlt | heq | hlt
  · exact absurd hloc (h j k hj hk hlt hf0 hg0)
  · exact heq
  · exact absurd hloc.symm (h k j hk hj hlt hg0 hf0)

/-- A directory with files. -/
def diskOf (dir : Name) (files : List (Name × Bytes)) : Disk where
  cwd := []
  fs := files.foldl (fun fs f => fs.put [dir, f.1] (.file f.2)) (FileSystem.put ⟨∅⟩ [dir] .dir)
  faults := []

/-- A torrent of these files. -/
def torrentOf (name tmpfile : Path) (files : List FileInfo) : Torrent where
  announce := []
  pieceLength := 2
  pieces := []
  name := name
  files := files
  tmpfile := tmpfile
  infoHash := .zero
  listeningPort := 0
  connectionPort := 0
  maxPendingRequests := 0

/-- A piece with this data. -/
def pieceOf (id : UInt32) (data : Bytes) : Piece :=
  { Piece.create id (UInt32.ofNat data.length) with data := data }

/-- A piece over three files, the middle one empty. -/
theorem splice_slice_three : ∃ d' contents',
    let t := torrentOf [110] [110] [⟨3, [97], []⟩, ⟨0, [98], []⟩, ⟨2, [99], []⟩]
    let d := diskOf [110] [([97], [1, 2, 3]), ([98], []), ([99], [4, 5])]
    Stores t t.name d' contents' ∧
      Splices t (pieceOf 1 [7, 8]) d [1, 2, 3, 4, 5] d' contents'.flatten := by
  refine (@splice_slice _ _ [[1, 2, 3], [], [4, 5]] 5 (by decide) (by decide)).1
    (.of_pairwise (by decide)) (.of_zip (by decide) (by decide))
    (fun f hf => by cases hf) _ (by decide) (by decide)

/-- Two entries with one path. -/
def sameFileTwice : Bytes := ascii
  "d8:announce1:a4:infod5:filesld6:lengthi1e4:pathl1:aeed6:lengthi1e4:pathl1:aeee4:name1:n".toList
    ++ ascii "12:piece lengthi1e6:pieces40:".toList ++ List.replicate 40 0 ++ ascii "ee".toList

/-- Its first piece is written over its second one. -/
theorem splice_twice : ¬∀ (sha1 : Bytes → Sha1) (config : Config) (dataDir : Path)
    (content : Bytes) (t : Torrent) (d : Disk) (contents : List Bytes) (total : Int) (p : Piece),
    Torrent.ofContent sha1 config dataDir content = .ok t → t.isSingleFile = false →
      t.length = .ok total → Stores t t.name d contents → d.Healthy →
        p.data.length = p.pieceSize.toNat → (t.pieceStart p.id + p.data.length : Nat) ≤ total →
          ∃ d' contents', Stores t t.name d' contents' ∧
            Splices t p d contents.flatten d' contents'.flatten := by
  intro hall
  let sha1 : Bytes → Sha1 := fun _ => .zero
  have hcheck : (Torrent.ofContent sha1 ⟨6881, 6881, 10, true⟩ [] sameFileTwice).map (fun t =>
      (t.name, t.files, t.mLength, t.pieceLength)) =
        .ok ([110], [⟨1, [97], []⟩, ⟨1, [97], []⟩], 0, 1) := by
    decide +kernel
  obtain ⟨t, ht, h⟩ := map_eq_ok.1 hcheck
  simp only [Prod.mk.injEq] at h
  obtain ⟨hname, hfiles, hsingle, hlength⟩ := h
  have hmulti : t.isSingleFile = false := by
    rw [Torrent.isSingleFile, hsingle]
    rfl
  have htotal : t.length = .ok 2 := by
    rw [Torrent.length, hmulti, hfiles]
    rfl
  have hstores : Stores t t.name (diskOf [110] [([97], [0])]) [[0], [0]] := by
    apply Stores.of_zip
    · rw [hfiles]
      rfl
    · rw [hfiles, hname]
      decide
  have hstart : t.pieceStart (pieceOf 0 [7]).id = 0 := by
    rw [Torrent.pieceStart, hlength]
    rfl
  obtain ⟨d', contents', h', hsplices⟩ := hall _ _ _ _ t _ _ _ (pieceOf 0 [7]) ht hmulti
    htotal hstores (fun f hf => by cases hf) rfl (by rw [hstart]; decide)
  have hflat : contents'.flatten = [7, 0] := by
    rw [hsplices.splice, hstart]
    rfl
  have hcount := h'.count
  rw [hfiles] at hcount
  obtain ⟨c, c', rfl⟩ := List.length_eq_two.1 hcount
  obtain ⟨hc, l, hl, hlc⟩ := h'.file 0 ⟨1, [97], []⟩ c (by rw [hfiles]; rfl) rfl
  obtain ⟨-, l', hl', hlc'⟩ := h'.file 1 ⟨1, [97], []⟩ c' (by rw [hfiles]; rfl) rfl
  rw [hl, Option.some_inj] at hl'
  rw [hl', hlc', Option.some_inj] at hlc
  subst hlc
  obtain ⟨b, rfl⟩ := List.length_eq_one_iff.1 (Int.ofNat.inj hc)
  cases hflat

end Zit
