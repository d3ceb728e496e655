import Mathlib.Data.List.AList
import Zit.Lib.Path
import Zit.Lib.Splice

/-!
# A file system

A map from places to files and directories, without links and permissions. An operation answers
`none` where the system call fails. `byteAt` is what a file holds; each operation has a lemma that
says which bytes it keeps (`byteAt_write`, `rename_content`, …).
-/

set_option autoImplicit false

open Lib.Path

namespace Lib

inductive Node
  | file (content : List UInt8)
  | dir
  deriving DecidableEq, Repr

/-- The root directory has no entry. -/
structure FileSystem where
  nodes : AList (fun _ : Loc => Node)

namespace FileSystem

def node (fs : FileSystem) (l : Loc) : Option Node :=
  if l = [] then some .dir else fs.nodes.lookup l

def isDir (fs : FileSystem) (l : Loc) : Bool := fs.node l == some .dir

/-- Every component is taken in a directory. -/
def reach (fs : FileSystem) : Loc → List Name → Bool
  | _, [] => true
  | l, c :: cs => fs.isDir l && reach fs (descend l c) cs

/-- The place of a path, when the directories on the way are there. -/
def resolve (fs : FileSystem) (cwd : Loc) (p : Path) : Option Loc :=
  if p ≠ [] ∧ fs.reach (origin cwd p) p.components = true then some (locate cwd p) else none

def content (fs : FileSystem) (l : Loc) : Option (List UInt8) :=
  match fs.node l with
  | some (.file c) => some c
  | _ => none

/-- The byte at position `k` of the file at `l`. -/
def byteAt (fs : FileSystem) (l : Loc) (k : Nat) : Option UInt8 := (fs.content l).bind (·[k]?)

/-- The byte at position `k` of the file `p` denotes. -/
def pathByte (fs : FileSystem) (cwd : Loc) (p : Path) (k : Nat) : Option UInt8 :=
  (fs.resolve cwd p).bind fun l => fs.byteAt l k

def put (fs : FileSystem) (l : Loc) (n : Node) : FileSystem := ⟨fs.nodes.insert l n⟩

def existsPath (fs : FileSystem) (cwd : Loc) (p : Path) : Bool :=
  match fs.resolve cwd p with
  | some l => (fs.node l).isSome
  | none => false

def fileSize (fs : FileSystem) (cwd : Loc) (p : Path) : Option Nat :=
  (fs.resolve cwd p).bind fun l => (fs.content l).map (·.length)

/-- Opens for output: an empty file, new or truncated. -/
def openTrunc (fs : FileSystem) (cwd : Loc) (p : Path) : Option FileSystem := do
  let l ← fs.resolve cwd p
  if fs.isDir l then none else some (fs.put l (.file []))

/-- `ftruncate`: a longer file is filled with zeros. -/
def resize (fs : FileSystem) (cwd : Loc) (p : Path) (n : Nat) : Option FileSystem := do
  let l ← fs.resolve cwd p
  let c ← fs.content l
  some (fs.put l (.file (c.take n ++ List.replicate (n - c.length) 0)))

/-- Writes `d` at position `off` of a file that exists; writing nothing does not extend it. -/
def write (fs : FileSystem) (cwd : Loc) (p : Path) (off : Nat) (d : List UInt8) :
    Option FileSystem := do
  let l ← fs.resolve cwd p
  let c ← fs.content l
  some (if d = [] then fs else fs.put l (.file (overwrite 0 c off d)))

/-- Exactly `n` bytes from position `off` of a file; nothing can be read anywhere. -/
def read (fs : FileSystem) (cwd : Loc) (p : Path) (off n : Nat) : Option (List UInt8) := do
  let l ← fs.resolve cwd p
  let c ← fs.content l
  if n = 0 ∨ off + n ≤ c.length then some ((c.drop off).take n) else none

/-- A directory that exists already is no failure. -/
def mkdirAt (fs : FileSystem) (l : Loc) : Option FileSystem :=
  match fs.node l with
  | some .dir => some fs
  | some (.file _) => none
  | none => some (fs.put l .dir)

def mkdir (fs : FileSystem) (cwd : Loc) (p : Path) : Option FileSystem := do
  let l ← fs.resolve cwd p
  fs.mkdirAt l

/-- `mkdir` for every component of a path. -/
def mkdirsFrom (fs : FileSystem) : Loc → List Name → Option FileSystem
  | _, [] => some fs
  | l, c :: cs => do
    let fs ← fs.mkdirAt (descend l c)
    fs.mkdirsFrom (descend l c) cs

def mkdirs (fs : FileSystem) (cwd : Loc) (p : Path) : Option FileSystem :=
  if p = [] then none else fs.mkdirsFrom (origin cwd p) p.components

/-- Renames a file, over a file or to a new name. -/
def rename (fs : FileSystem) (cwd : Loc) (p q : Path) : Option FileSystem := do
  let a ← fs.resolve cwd p
  let c ← fs.content a
  let b ← fs.resolve cwd q
  if a = b then some fs
  else if fs.isDir b then none
  else some (FileSystem.put ⟨fs.nodes.erase a⟩ b (.file c))

/-- Removes a file or an empty directory; nothing to remove is no failure. -/
def remove (fs : FileSystem) (cwd : Loc) (p : Path) : Option FileSystem :=
  match fs.resolve cwd p with
  | none => some fs
  | some l =>
    match fs.node l with
    | none => some fs
    | some (.file _) => some ⟨fs.nodes.erase l⟩
    | some .dir =>
      if l = [] ∨ fs.nodes.keys.any (fun k => k != [] && k.dropLast == l) then none
      else some ⟨fs.nodes.erase l⟩

/-! ## What the operations keep -/

section
variable {fs fs' : FileSystem} {cwd : Loc} {p q : Path}

theorem resolve_some {l : Loc} (h : fs.resolve cwd p = some l) : l = locate cwd p := by
  unfold resolve at h
  split at h
  · exact (Option.some.inj h).symm
  · cases h

theorem node_put {l : Loc} (hl : l ≠ []) (n : Node) (k : Loc) :
    (fs.put l n).node k = if k = l then some n else fs.node k := by
  unfold node put
  by_cases hk : k = []
  · subst hk
    simp [hl.symm]
  · rw [if_neg hk, if_neg hk]
    by_cases he : k = l
    · rw [if_pos he, he, AList.lookup_insert]
    · rw [if_neg he, AList.lookup_insert_ne he]

theorem node_erase {l : Loc} (hl : l ≠ []) (k : Loc) :
    (FileSystem.mk (fs.nodes.erase l)).node k = if k = l then none else fs.node k := by
  unfold node
  by_cases hk : k = []
  · subst hk
    simp [hl.symm]
  · rw [if_neg hk, if_neg hk]
    by_cases he : k = l
    · rw [if_pos he, he, AList.lookup_erase]
    · rw [if_neg he, AList.lookup_erase_ne he]

theorem ne_nil_of_content {l : Loc} {c : List UInt8} (h : fs.content l = some c) : l ≠ [] := by
  intro hl
  subst hl
  cases h

theorem content_put_file {l : Loc} (hl : l ≠ []) (c : List UInt8) (k : Loc) :
    (fs.put l (.file c)).content k = if k = l then some c else fs.content k := by
  unfold content
  rw [node_put hl]
  by_cases h : k = l
  · rw [if_pos h, if_pos h]
  · rw [if_neg h, if_neg h]

theorem isDir_false_of_content {l : Loc} {c : List UInt8} (h : fs.content l = some c) :
    fs.isDir l = false := by
  unfold content at h
  unfold isDir
  cases hn : fs.node l with
  | none =>
    rw [hn] at h
    cases h
  | some n =>
    cases n with
    | file _ => rfl
    | dir =>
      rw [hn] at h
      cases h

theorem openTrunc_eq (h : fs.openTrunc cwd p = some fs') :
    locate cwd p ≠ [] ∧ fs' = fs.put (locate cwd p) (.file []) := by
  simp only [openTrunc, Option.bind_eq_bind, Option.bind_eq_some_iff] at h
  obtain ⟨l, hl, h⟩ := h
  rw [resolve_some hl] at h
  split at h
  · cases h
  · rename_i hd
    refine ⟨?_, (Option.some.inj h).symm⟩
    intro hnil
    rw [hnil] at hd
    exact hd rfl

theorem resize_eq {n : Nat} (h : fs.resize cwd p n = some fs') :
    ∃ c, fs.content (locate cwd p) = some c ∧
      fs' = fs.put (locate cwd p) (.file (c.take n ++ List.replicate (n - c.length) 0)) := by
  simp only [resize, Option.bind_eq_bind, Option.bind_eq_some_iff] at h
  obtain ⟨l, hl, c, hc, h⟩ := h
  rw [resolve_some hl] at h hc
  exact ⟨c, hc, (Option.some.inj h).symm⟩

theorem write_eq {off : Nat} {d : List UInt8} (h : fs.write cwd p off d = some fs') :
    ∃ c, fs.content (locate cwd p) = some c ∧
      fs' = if d = [] then fs else fs.put (locate cwd p) (.file (overwrite 0 c off d)) := by
  simp only [write, Option.bind_eq_bind, Option.bind_eq_some_iff] at h
  obtain ⟨l, hl, c, hc, h⟩ := h
  rw [resolve_some hl] at h hc
  exact ⟨c, hc, (Option.some.inj h).symm⟩

/-- The file is at its new name and not at the old one; every other file is where it was. -/
theorem rename_content (h : fs.rename cwd p q = some fs') :
    ∃ c, fs.content (locate cwd p) = some c ∧ fs'.content (locate cwd q) = some c ∧
      (locate cwd p ≠ locate cwd q → fs'.content (locate cwd p) = none) ∧
      ∀ k, k ≠ locate cwd p → k ≠ locate cwd q → fs'.content k = fs.content k := by
  simp only [rename, Option.bind_eq_bind, Option.bind_eq_some_iff] at h
  obtain ⟨a, ha, c, hc, b, hb, h⟩ := h
  rw [resolve_some ha] at h hc
  rw [resolve_some hb] at h
  have hne := ne_nil_of_content hc
  refine ⟨c, hc, ?_⟩
  split at h
  · rename_i he
    rw [← Option.some.inj h, ← he]
    exact ⟨hc, fun hpq => absurd rfl hpq, fun _ _ _ => rfl⟩
  · split at h
    · cases h
    · rename_i he hd
      have hb' : locate cwd q ≠ [] := by
        intro hnil
        rw [hnil] at hd
        exact hd rfl
      rw [← Option.some.inj h]
      refine ⟨by rw [content_put_file hb', if_pos rfl], fun hpq => ?_, fun k hka hkb => ?_⟩
      · rw [content_put_file hb', if_neg hpq]
        unfold content
        rw [node_erase hne, if_pos rfl]
      · rw [content_put_file hb', if_neg hkb]
        unfold content
        rw [node_erase hne, if_neg hka]

theorem remove_content (h : fs.remove cwd p = some fs') {k : Loc} (hk : k ≠ locate cwd p) :
    fs'.content k = fs.content k := by
  unfold remove at h
  cases hr : fs.resolve cwd p with
  | none =>
    rw [hr] at h
    rw [Option.some.inj h]
  | some l =>
    rw [hr] at h
    obtain rfl := resolve_some hr
    have herase : locate cwd p ≠ [] →
        (FileSystem.mk (fs.nodes.erase (locate cwd p))).content k = fs.content k := by
      intro hl
      unfold content
      rw [node_erase hl, if_neg hk]
    cases hn : fs.node (locate cwd p) with
    | none =>
      simp only [hn] at h
      rw [Option.some.inj h]
    | some n =>
      cases n with
      | file c =>
        simp only [hn] at h
        rw [← Option.some.inj h]
        exact herase (ne_nil_of_content (c := c) (by rw [content, hn]))
      | dir =>
        simp only [hn] at h
        split at h
        · cases h
        · rename_i hc
          rw [← Option.some.inj h]
          exact herase fun hl => hc (.inl hl)

/-! ## Growing -/

/-- Directories stay directories and nothing disappears. -/
def Grows (fs fs' : FileSystem) : Prop :=
  (∀ l, fs.isDir l = true → fs'.isDir l = true) ∧
    ∀ l, (fs.node l).isSome = true → (fs'.node l).isSome = true

theorem Grows.refl (fs : FileSystem) : Grows fs fs := ⟨fun _ h => h, fun _ h => h⟩

theorem Grows.trans {fs'' : FileSystem} (h : Grows fs fs') (h' : Grows fs' fs'') :
    Grows fs fs'' := ⟨fun l hl => h'.1 l (h.1 l hl), fun l hl => h'.2 l (h.2 l hl)⟩

theorem grows_put {l : Loc} (hl : l ≠ []) {n : Node}
    (hd : fs.isDir l = true → n = .dir) : Grows fs (fs.put l n) := by
  refine ⟨fun k hk => ?_, fun k hk => ?_⟩
  · unfold isDir at hk ⊢
    rw [node_put hl]
    by_cases h : k = l
    · subst h
      rw [if_pos rfl, hd hk]
      rfl
    · rwa [if_neg h]
  · rw [node_put hl]
    by_cases h : k = l
    · rw [if_pos h]
      rfl
    · rwa [if_neg h]

theorem grows_put_file {l : Loc} {c c' : List UInt8} (hc : fs.content l = some c) :
    Grows fs (fs.put l (.file c')) := by
  refine grows_put (ne_nil_of_content hc) fun hd => ?_
  rw [isDir_false_of_content hc] at hd
  cases hd

theorem openTrunc_grows (h : fs.openTrunc cwd p = some fs') : Grows fs fs' := by
  have hl := (openTrunc_eq h).1
  rw [(openTrunc_eq h).2]
  refine grows_put hl fun hd => ?_
  simp only [openTrunc, Option.bind_eq_bind, Option.bind_eq_some_iff] at h
  obtain ⟨l, hr, h⟩ := h
  rw [resolve_some hr, if_pos hd] at h
  cases h

theorem resize_grows {n : Nat} (h : fs.resize cwd p n = some fs') : Grows fs fs' := by
  obtain ⟨c, hc, rfl⟩ := resize_eq h
  exact grows_put_file hc

theorem write_grows {off : Nat} {d : List UInt8} (h : fs.write cwd p off d = some fs') :
    Grows fs fs' := by
  obtain ⟨c, hc, rfl⟩ := write_eq h
  by_cases hd : d = []
  · rw [if_pos hd]
    exact .refl fs
  · rw [if_neg hd]
    exact grows_put_file hc

theorem mkdirAt_grows {l : Loc} (h : fs.mkdirAt l = some fs') : Grows fs fs' := by
  unfold mkdirAt at h
  cases hn : fs.node l with
  | none =>
    rw [hn] at h
    rw [← Option.some.inj h]
    refine grows_put (fun hl => ?_) fun _ => rfl
    subst hl
    cases hn
  | some n =>
    rw [hn] at h
    cases n with
    | file c => cases h
    | dir =>
      rw [Option.some.inj h]
      exact .refl _

theorem mkdirsFrom_grows {l : Loc} {cs : List Name} (h : fs.mkdirsFrom l cs = some fs') :
    Grows fs fs' := by
  induction cs generalizing fs l with
  | nil =>
    rw [Option.some.inj h]
    exact .refl _
  | cons c cs ih =>
    simp only [mkdirsFrom, Option.bind_eq_bind, Option.bind_eq_some_iff] at h
    obtain ⟨fs1, h1, h⟩ := h
    exact (mkdirAt_grows h1).trans (ih h)

theorem mkdir_grows (h : fs.mkdir cwd p = some fs') : Grows fs fs' := by
  simp only [mkdir, Option.bind_eq_bind, Option.bind_eq_some_iff] at h
  obtain ⟨l, -, h⟩ := h
  exact mkdirAt_grows h

theorem mkdirs_grows (h : fs.mkdirs cwd p = some fs') : Grows fs fs' := by
  unfold mkdirs at h
  split at h
  · cases h
  · exact mkdirsFrom_grows h

theorem reach_grows (hg : Grows fs fs') {l : Loc} {cs : List Name}
    (h : fs.reach l cs = true) : fs'.reach l cs = true := by
  induction cs generalizing l with
  | nil => rfl
  | cons c cs ih =>
    simp only [reach, Bool.and_eq_true] at h ⊢
    exact ⟨hg.1 l h.1, ih h.2⟩

theorem resolve_grows (hg : Grows fs fs') {l : Loc} (h : fs.resolve cwd p = some l) :
    fs'.resolve cwd p = some l := by
  unfold resolve at h ⊢
  split at h
  · rename_i hc
    rwa [if_pos ⟨hc.1, reach_grows hg hc.2⟩]
  · cases h

theorem existsPath_grows (hg : Grows fs fs') (h : fs.existsPath cwd p = true) :
    fs'.existsPath cwd p = true := by
  unfold existsPath at h ⊢
  cases hr : fs.resolve cwd p with
  | none =>
    rw [hr] at h
    cases h
  | some l =>
    rw [hr] at h
    rw [resolve_grows hg hr]
    exact hg.2 l h

theorem openTrunc_exists (h : fs.openTrunc cwd p = some fs') : fs'.existsPath cwd p = true := by
  obtain ⟨hl, hput⟩ := openTrunc_eq h
  have hg := openTrunc_grows h
  simp only [openTrunc, Option.bind_eq_bind, Option.bind_eq_some_iff] at h
  obtain ⟨l, hr, -⟩ := h
  obtain rfl := resolve_some hr
  rw [existsPath, resolve_grows hg hr, hput]
  show ((fs.put (locate cwd p) (.file [])).node (locate cwd p)).isSome = true
  rw [node_put hl, if_pos rfl]
  rfl

/-! ## The bytes of a file -/

/-- A write changes the bytes of its range in its file. -/
theorem byteAt_write {off : Nat} {d : List UInt8} (h : fs.write cwd p off d = some fs')
    {l : Loc} {k : Nat} {b : UInt8} (hb : fs.byteAt l k = some b)
    (hout : l = locate cwd p → k < off ∨ off + d.length ≤ k) : fs'.byteAt l k = some b := by
  obtain ⟨c, hc, rfl⟩ := write_eq h
  by_cases hd : d = []
  · rwa [if_pos hd]
  rw [if_neg hd]
  unfold byteAt at hb ⊢
  rw [content_put_file (ne_nil_of_content hc)]
  by_cases hl : l = locate cwd p
  · rw [if_pos hl, Option.bind_some]
    rw [hl, hc, Option.bind_some] at hb
    rw [overwrite_get_out 0 c off d (List.getElem?_eq_some_iff.1 hb).1 (hout hl), hb]
  · rw [if_neg hl]
    exact hb

/-- The bytes of a write are in its file. -/
theorem byteAt_write_in {off : Nat} {d : List UInt8} (h : fs.write cwd p off d = some fs')
    {i : Nat} (hi : i < d.length) : fs'.byteAt (locate cwd p) (off + i) = d[i]? := by
  obtain ⟨c, hc, rfl⟩ := write_eq h
  rw [if_neg (List.ne_nil_of_length_pos (by omega))]
  rw [byteAt, content_put_file (ne_nil_of_content hc), if_pos rfl, Option.bind_some,
    overwrite_get_in 0 c off d hi]

theorem read_eq {off n : Nat} {d : List UInt8} (h : fs.read cwd p off n = some d) :
    d.length = n ∧ ∀ i < n, fs.byteAt (locate cwd p) (off + i) = d[i]? := by
  simp only [read, Option.bind_eq_bind, Option.bind_eq_some_iff] at h
  obtain ⟨l, hl, c, hc, h⟩ := h
  rw [resolve_some hl] at hc
  split at h
  · rename_i hle
    rw [← Option.some.inj h]
    refine ⟨by simp only [List.length_take, List.length_drop]; omega, fun i hi => ?_⟩
    rw [byteAt, hc, Option.bind_some, List.getElem?_take_of_lt hi, List.getElem?_drop]
  · cases h

/-! ## What reading finds -/

theorem pathByte_none_of_missing (h : fs.existsPath cwd p = false) (k : Nat) :
    fs.pathByte cwd p k = none := by
  unfold existsPath at h
  unfold pathByte
  cases hr : fs.resolve cwd p with
  | none => rfl
  | some l =>
    simp only [hr, Option.isSome_eq_false_iff, Option.isNone_iff_eq_none] at h
    rw [Option.bind_some, byteAt, content, h]
    rfl

theorem pathByte_of_read {off n : Nat} {d : List UInt8} (h : fs.read cwd p off n = some d)
    {i : Nat} (hi : i < n) : fs.pathByte cwd p (off + i) = d[i]? := by
  have hread := (read_eq h).2 i hi
  simp only [read, Option.bind_eq_bind, Option.bind_eq_some_iff] at h
  obtain ⟨l, hl, -⟩ := h
  rw [pathByte, hl, Option.bind_some, resolve_some hl, hread]

theorem pathByte_content {l : Loc} {data : List UInt8} (hl : fs.resolve cwd p = some l)
    (hc : fs.content l = some data) (k : Nat) : fs.pathByte cwd p k = data[k]? := by
  rw [pathByte, hl, Option.bind_some, byteAt, hc, Option.bind_some]

/-- Where a reading fails there is a first byte that is not there. -/
theorem pathByte_none_of_read {off n : Nat} (hn : 0 < n) (h : fs.read cwd p off n = none) :
    ∃ i < n, fs.pathByte cwd p (off + i) = none ∧
      ∀ j < i, fs.pathByte cwd p (off + j) ≠ none := by
  have hzero (h0 : ∀ k, fs.pathByte cwd p k = none) : ∃ i < n,
      fs.pathByte cwd p (off + i) = none ∧ ∀ j < i, fs.pathByte cwd p (off + j) ≠ none :=
    ⟨0, hn, h0 _, fun j hj => absurd hj (Nat.not_lt_zero j)⟩
  cases hl : fs.resolve cwd p with
  | none => exact hzero fun k => by rw [pathByte, hl]; rfl
  | some l =>
    cases hc : fs.content l with
    | none => exact hzero fun k => by rw [pathByte, hl, Option.bind_some, byteAt, hc]; rfl
    | some c =>
      simp only [read, hl, hc, Option.bind_eq_bind, Option.bind_some, ite_eq_right_iff,
        reduceCtorEq, imp_false, not_or, Nat.not_le] at h
      refine ⟨c.length - off, by omega, ?_, fun j hj => ?_⟩
      · rw [pathByte_content hl hc]
        exact List.getElem?_eq_none (by omega)
      · rw [pathByte_content hl hc, List.getElem?_eq_getElem (by omega)]
        exact Option.some_ne_none _

end

end FileSystem

end Lib
