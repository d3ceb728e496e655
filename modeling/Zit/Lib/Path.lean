import Mathlib.Data.List.TakeDrop
import Mathlib.Data.List.TakeWhile

/-!
# POSIX paths

A path is the string of its bytes, as `std::filesystem::path` keeps it. `join` is `operator/`,
`parentPath` is `parent_path`; `locate cwd p` is the place a path denotes, as the names of the
directories down from the root, when `cwd` is the working directory and no directory is a symbolic
link. What a path denotes depends on its components only (`locate_join`).
-/

set_option autoImplicit false

namespace Lib

/-- The name of a file or directory. -/
abbrev Name := List UInt8

abbrev Path := List UInt8

/-- A place in the file system: the names from the root down. -/
abbrev Loc := List Name

namespace Path

/-- The directory separator. -/
def sep : UInt8 := 47

def dot : Name := [46]

def dotdot : Name := [46, 46]

def isAbsolute (p : Path) : Bool := p.head? == some sep

/-- `a / b`: a separator goes in between where `a` ends in a filename. -/
def join (a b : Path) : Path :=
  if b.isAbsolute = true ∨ a = [] then b
  else if a.getLast? = some sep then a ++ b
  else a ++ sep :: b

/-- `p` without its filename, and without the separators before it unless they are the root. -/
def parentPath (p : Path) : Path :=
  if p.all (· == sep) then p
  else
    let parent := ((p.reverse.dropWhile (· != sep)).dropWhile (· == sep)).reverse
    if parent = [] ∧ p.isAbsolute = true then [sep] else parent

def endsWith (p ext : Path) : Bool := ext.isSuffixOf p

def components (p : Path) : List Name := p.splitOn sep

/-- One component of a path, taken at a place. -/
def descend (l : Loc) (c : Name) : Loc :=
  if c = [] ∨ c = dot then l else if c = dotdot then l.dropLast else l ++ [c]

/-- Where a walk begins. -/
def origin (cwd : Loc) (p : Path) : Loc := if p.isAbsolute then [] else cwd

/-- The place `p` denotes. -/
def locate (cwd : Loc) (p : Path) : Loc := p.components.foldl descend (origin cwd p)

/-! ## Joined paths -/

@[simp] theorem join_empty (b : Path) : join [] b = b := by simp [join]

theorem join_absolute {b : Path} (a : Path) (h : b.isAbsolute = true) : join a b = b := by
  simp [join, h]

theorem isAbsolute_append {a : Path} (b : Path) (h : a ≠ []) :
    isAbsolute (a ++ b) = a.isAbsolute := by
  cases a with
  | nil => exact absurd rfl h
  | cons c a => rfl

theorem components_append (a b : Path) :
    components (a ++ sep :: b) = components a ++ components b :=
  List.splitOn_append_cons_self a b

@[simp] theorem descend_nil (l : Loc) : descend l [] = l := by simp [descend]

/-- A trailing separator adds an empty component, which denotes the same place. -/
theorem foldl_components_sep (a : Path) (l : Loc) :
    (components (a ++ [sep])).foldl descend l = (components a).foldl descend l := by
  rw [components_append, List.foldl_append]
  exact descend_nil _

/-- Separators at the end of a path make no difference to what it denotes. -/
theorem foldl_components_seps (a : Path) (k : Nat) (l : Loc) :
    (components (a ++ List.replicate k sep)).foldl descend l = (components a).foldl descend l := by
  induction k with
  | zero => rw [List.replicate_zero, List.append_nil]
  | succ k ih => rw [List.replicate_succ', ← List.append_assoc, foldl_components_sep, ih]

theorem locate_relative {p : Path} (cwd : Loc) (h : p.isAbsolute = false) :
    locate cwd p = p.components.foldl descend cwd := by
  simp [locate, origin, h]

@[simp] theorem locate_empty (cwd : Loc) : locate cwd [] = cwd := rfl

theorem isAbsolute_join {a b : Path} (ha : a ≠ []) (h : b.isAbsolute = false) :
    (join a b).isAbsolute = a.isAbsolute := by
  unfold join
  rw [if_neg (by simp [h, ha])]
  split <;> exact isAbsolute_append _ ha

/-- A walk that skips empty components walks a joined path one part after the other. -/
theorem foldl_join {β : Type} {f : β → Name → β} (hf : ∀ l, f l [] = l) {a b : Path} (ha : a ≠ [])
    (h : b.isAbsolute = false) (l : β) :
    (components (join a b)).foldl f l = b.components.foldl f (a.components.foldl f l) := by
  unfold join
  rw [if_neg (by simp [h, ha])]
  by_cases hl : a.getLast? = some sep
  · have hsplit : a = a.dropLast ++ [sep] := by
      rw [List.getLast?_eq_some_getLast ha, Option.some.injEq] at hl
      rw [← hl, List.dropLast_concat_getLast ha]
    have hc : components (a ++ b) = components a.dropLast ++ components b := by
      conv_lhs => rw [hsplit, List.append_assoc]
      exact components_append _ _
    have hw : (components a).foldl f l = (components a.dropLast).foldl f l := by
      conv_lhs => rw [hsplit, components_append, List.foldl_append]
      exact hf _
    rw [if_pos hl, hc, hw, List.foldl_append]
  · rw [if_neg hl, components_append, List.foldl_append]

/-- The components of a relative path are walked from the place of the path it is joined to. -/
theorem locate_join (cwd : Loc) (a b : Path) (h : b.isAbsolute = false) :
    locate cwd (join a b) = b.components.foldl descend (locate cwd a) := by
  by_cases ha : a = []
  · rw [ha, join_empty, locate_empty, locate_relative cwd h]
  · unfold locate origin
    rw [isAbsolute_join ha h, foldl_join descend_nil ha h]

/-! ## The parent -/

/-- What follows the last separator. -/
def filename (p : Path) : Name := (p.reverse.takeWhile (· != sep)).reverse

theorem filename_no_sep (p : Path) : sep ∉ filename p := by
  intro h
  have := List.mem_takeWhile_imp (List.mem_reverse.1 h)
  simp at this

/-- A relative path with a separator is its parent, separators and its filename. -/
theorem parentPath_split {p : Path} (h : p.isAbsolute = false) (hs : sep ∈ p) :
    ∃ k, p = parentPath p ++ List.replicate k sep ++ sep :: filename p := by
  have hrel : p.all (· == sep) = false := by
    cases p with
    | nil => cases hs
    | cons c p =>
      have : (c == sep) = false := by simpa [isAbsolute] using h
      simp [this]
  let rest := p.reverse.dropWhile (· != sep)
  have hrest : p.reverse = p.reverse.takeWhile (· != sep) ++ rest :=
    (List.takeWhile_append_dropWhile).symm
  have hpar : parentPath p = (rest.dropWhile (· == sep)).reverse := by
    rw [parentPath, hrel]
    simp [h, rest]
  have hseps : rest.takeWhile (· == sep) = List.replicate (rest.takeWhile (· == sep)).length sep :=
    List.eq_replicate_of_mem fun c hc => by simpa using List.mem_takeWhile_imp hc
  have hne : rest ≠ [] := by
    intro hnil
    have hall := List.dropWhile_eq_nil_iff.1 hnil sep (List.mem_reverse.2 hs)
    simp at hall
  obtain ⟨k, hk⟩ : ∃ k, (rest.takeWhile (· == sep)).length = k + 1 := by
    cases hr : rest with
    | nil => exact absurd hr hne
    | cons c cs =>
      have hc : ¬(c != sep) = true := by
        have := List.head_dropWhile_not (· != sep) (l := p.reverse) (by simpa [rest] using hne)
        simpa [rest, hr] using this
      have : (c == sep) = true := by simpa using hc
      exact ⟨(cs.takeWhile (· == sep)).length, by simp [this]⟩
  refine ⟨k, ?_⟩
  have hsplit : rest = List.replicate (k + 1) sep ++ rest.dropWhile (· == sep) := by
    conv_lhs => rw [← List.takeWhile_append_dropWhile (p := (· == sep)) (l := rest), hseps, hk]
  have := congrArg List.reverse hrest
  rw [List.reverse_reverse, List.reverse_append, hsplit, List.reverse_append,
    List.reverse_replicate, ← hpar, List.replicate_succ'] at this
  simpa [filename] using this

/-- A relative path without a separator has no parent. -/
theorem parentPath_of_filename {p : Path} (h : p.isAbsolute = false) (hs : sep ∉ p) :
    parentPath p = [] := by
  have hall : ∀ c ∈ p.reverse, (c != sep) = true := by
    intro c hc
    have : c ≠ sep := fun he => hs (he ▸ List.mem_reverse.1 hc)
    simpa using this
  have hdrop : p.reverse.dropWhile (· != sep) = [] := List.dropWhile_eq_nil_iff.2 hall
  cases p with
  | nil => rfl
  | cons c p =>
    have hc : (c == sep) = false := by simpa [isAbsolute] using h
    rw [parentPath, hdrop]
    simp [hc, h]

/-- What a relative path denotes is its filename in what its parent denotes. -/
theorem foldl_components_parent {p : Path} (h : p.isAbsolute = false) (l : Loc) :
    p.components.foldl descend l =
      descend ((parentPath p).components.foldl descend l) (filename p) := by
  have hone : ∀ {q : Path}, sep ∉ q → components q = [q] := fun hq => List.splitOn_eq_singleton hq
  by_cases hs : sep ∈ p
  · obtain ⟨k, hk⟩ := parentPath_split h hs
    conv_lhs => rw [hk]
    rw [components_append, List.foldl_append, foldl_components_seps, hone (filename_no_sep p)]
    rfl
  · have hall : ∀ c ∈ p.reverse, (c != sep) = true := by
      intro c hc
      have : c ≠ sep := fun he => hs (he ▸ List.mem_reverse.1 hc)
      simpa using this
    have htake : p.reverse.takeWhile (· != sep) = p.reverse := List.takeWhile_eq_self_iff.2 hall
    have hf : filename p = p := by rw [filename, htake, List.reverse_reverse]
    rw [hone hs, hf, parentPath_of_filename h hs]
    simp [components]

theorem parentPath_relative {p : Path} (h : p.isAbsolute = false) :
    (parentPath p).isAbsolute = false := by
  by_cases hs : sep ∈ p
  · obtain ⟨k, hk⟩ := parentPath_split h hs
    by_cases hnil : parentPath p = []
    · rw [hnil]
      rfl
    · rw [hk, List.append_assoc, isAbsolute_append _ hnil] at h
      exact h
  · rw [parentPath_of_filename h hs]
    rfl

/-- A relative path, taken from its own parent, denotes the same place when the parent does. -/
theorem locate_parent_join {cwd : Loc} {p : Path} (h : p.isAbsolute = false)
    (hp : locate (locate cwd (parentPath p)) (parentPath p) = locate cwd (parentPath p)) :
    locate cwd (join (parentPath p) p) = locate cwd p := by
  have hrel := parentPath_relative h
  rw [locate_relative _ hrel] at hp
  rw [locate_join cwd _ _ h, foldl_components_parent h, hp, locate_relative cwd h,
    foldl_components_parent h, locate_relative cwd hrel]

end Path

end Lib
