import Mathlib.Data.List.Induction
import Zit.Lib.FileSystem

/-!
# Directory trees

`Listing fs l` is what a recursive walk through the directory at `l` visits: the entries below it,
each as the names on the way down, in some order. A path with such names joined to it denotes the
entry (`resolve_below`). A path without a trailing separator denotes what its filename denotes in
its parent (`resolve_filename`).
-/

set_option autoImplicit false

open Lib.Path

namespace Lib

/-- What a directory entry can be called. -/
structure IsName (c : Name) : Prop where
  ne_nil : c ≠ []
  ne_dot : c ≠ dot
  ne_dotdot : c ≠ dotdot
  no_sep : sep ∉ c

/-- The names joined to a path. -/
def below (p : Path) (rel : List Name) : Path := rel.foldl join p

namespace FileSystem

/-- There is an entry below `l`, with directories on the way to it. -/
def under (fs : FileSystem) : Loc → List Name → Bool
  | _, [] => false
  | l, c :: cs =>
    fs.isDir l && if cs = [] then (fs.node (l ++ [c])).isSome else under fs (l ++ [c]) cs

/-- The entries in the order in which they are visited. -/
structure Listing (fs : FileSystem) (l : Loc) where
  entries : List (List Name)
  nodup : entries.Nodup
  mem_iff : ∀ rel, rel ∈ entries ↔ fs.under l rel = true
  names : ∀ rel ∈ entries, ∀ c ∈ rel, IsName c

/-! ## Joining names -/

end FileSystem

theorem IsName.relative {c : Name} (h : IsName c) : Path.isAbsolute c = false := by
  obtain ⟨x, xs, rfl⟩ := List.exists_cons_of_ne_nil h.ne_nil
  have : x ≠ sep := fun hx => h.no_sep (hx ▸ List.mem_cons_self)
  simpa [isAbsolute] using this

theorem IsName.descend {c : Name} (h : IsName c) (l : Loc) : descend l c = l ++ [c] := by
  rw [Path.descend, if_neg (by simp [h.ne_nil, h.ne_dot]), if_neg h.ne_dotdot]

theorem components_of_no_sep {c : Name} (h : sep ∉ c) : components c = [c] :=
  List.splitOn_eq_singleton h

theorem join_eq {a b : Path} (ha : a ≠ []) (hb : b.isAbsolute = false) :
    join a b = a ++ (if a.getLast? = some sep then [] else [sep]) ++ b := by
  unfold join
  rw [if_neg (by simp [ha, hb])]
  split <;> simp

/-- The separator a joined path has before its last part. -/
theorem exists_join_eq {a b : Path} (ha : a ≠ []) (hb : b.isAbsolute = false) :
    ∃ a', (a = a' ∨ a = a' ++ [sep]) ∧ join a b = a' ++ sep :: b := by
  rw [join_eq ha hb]
  by_cases hl : a.getLast? = some sep
  · refine ⟨a.dropLast, .inr ?_, ?_⟩
    · rw [List.getLast?_eq_some_getLast ha, Option.some.injEq] at hl
      rw [← hl, List.dropLast_concat_getLast ha]
    · rw [if_pos hl]
      rw [List.getLast?_eq_some_getLast ha, Option.some.injEq] at hl
      conv_lhs => rw [← List.dropLast_concat_getLast ha, hl]
      simp
  · rw [if_neg hl]
    exact ⟨a, .inl rfl, by simp⟩

theorem join_join {a b c : Path} (hb : b ≠ []) (hrel : b.isAbsolute = false)
    (hc : c.isAbsolute = false) : join (join a b) c = join a (join b c) := by
  by_cases ha : a = []
  · rw [ha, join_empty, join_empty]
  have hbc : (join b c).isAbsolute = false := by rw [isAbsolute_join hb hc, hrel]
  have hlast : (join a b).getLast? = b.getLast? := by
    rw [join_eq ha hrel, List.getLast?_append_of_ne_nil _ hb]
  have hab : join a b ≠ [] := by
    rw [join_eq ha hrel]
    simp [hb]
  rw [join_eq hab hc, join_eq ha hbc, hlast, join_eq hb hc, join_eq ha hrel]
  simp only [List.append_assoc]

theorem below_concat (p : Path) (rel : List Name) (c : Name) :
    below p (rel ++ [c]) = join (below p rel) c := by
  simp [below]

/-- Joined names are a relative path. -/
theorem below_relative {rel : List Name} (hne : rel ≠ []) (hnames : ∀ c ∈ rel, IsName c) :
    below [] rel ≠ [] ∧ (below [] rel).isAbsolute = false := by
  induction rel using List.reverseRecOn with
  | nil => exact absurd rfl hne
  | append_singleton rel c ih =>
    have hc := hnames c (by simp)
    rw [below_concat]
    by_cases hrel : rel = []
    · rw [hrel, below, List.foldl_nil, join_empty]
      exact ⟨hc.ne_nil, hc.relative⟩
    · obtain ⟨hne', habs⟩ := ih hrel fun x hx => hnames x (List.mem_append_left _ hx)
      refine ⟨?_, (isAbsolute_join hne' hc.relative).trans habs⟩
      rw [join_eq hne' hc.relative]
      simp [hc.ne_nil]

/-- Joining the names to each other first makes no difference. -/
theorem join_below {p : Path} {rel : List Name} (hne : rel ≠ []) (hnames : ∀ c ∈ rel, IsName c) :
    join p (below [] rel) = below p rel := by
  induction rel using List.reverseRecOn with
  | nil => exact absurd rfl hne
  | append_singleton rel c ih =>
    have hc := hnames c (by simp)
    have hnames' : ∀ x ∈ rel, IsName x := fun x hx => hnames x (List.mem_append_left _ hx)
    rw [below_concat, below_concat]
    by_cases hrel : rel = []
    · rw [hrel, below, List.foldl_nil, join_empty]
      rfl
    · obtain ⟨hne', habs⟩ := below_relative hrel hnames'
      rw [← join_join hne' habs hc.relative, ih hrel hnames']

namespace FileSystem

variable {fs : FileSystem} {cwd l : Loc} {p : Path} {c : Name}

/-! ## What they denote -/

theorem reach_append (l : Loc) (xs ys : List Name) :
    fs.reach l (xs ++ ys) = (fs.reach l xs && fs.reach (xs.foldl descend l) ys) := by
  induction xs generalizing l with
  | nil => simp [reach]
  | cons x xs ih => simp [reach, ih, Bool.and_assoc]

/-- A name taken in a directory. -/
theorem resolve_join (h : IsName c) (hl : fs.resolve cwd p = some l) (hd : fs.isDir l = true) :
    fs.resolve cwd (join p c) = some (l ++ [c]) := by
  have hloc := resolve_some hl
  unfold resolve at hl
  split at hl
  case isFalse => cases hl
  rename_i hreach
  obtain ⟨hp, hreach⟩ := hreach
  have hrel := h.relative
  have hjoin : locate cwd (join p c) = l ++ [c] := by
    rw [locate_join cwd p c hrel, components_of_no_sep h.no_sep, List.foldl_cons, List.foldl_nil,
      ← hloc, h.descend]
  have horigin : origin cwd (join p c) = origin cwd p := by
    rw [origin, origin, isAbsolute_join hp hrel]
  obtain ⟨a, ha, hja⟩ := exists_join_eq hp hrel
  have hwalk : fs.reach (origin cwd p) (components a) = true ∧
      (components a).foldl descend (origin cwd p) = l := by
    rcases ha with rfl | rfl
    · exact ⟨hreach, by rw [hloc]; rfl⟩
    · rw [components_append, reach_append, Bool.and_eq_true] at hreach
      refine ⟨hreach.1, ?_⟩
      rw [hloc, locate, foldl_components_sep]
  have hne : join p c ≠ [] := by simp [hja]
  have hreach' : fs.reach (origin cwd (join p c)) (components (join p c)) = true := by
    rw [horigin, hja, components_append, components_of_no_sep h.no_sep, reach_append, hwalk.1,
      hwalk.2]
    simp [reach, hd]
  rw [resolve, if_pos ⟨hne, hreach'⟩, hjoin]

/-- An entry is what its names joined to the path denote. -/
theorem resolve_below {rel : List Name} (hrel : fs.under l rel = true)
    (hnames : ∀ c ∈ rel, IsName c) (hl : fs.resolve cwd p = some l) :
    fs.resolve cwd (below p rel) = some (l ++ rel) := by
  induction rel generalizing p l with
  | nil => cases hrel
  | cons c cs ih =>
    rw [List.forall_mem_cons] at hnames
    simp only [under, Bool.and_eq_true] at hrel
    have hc := resolve_join hnames.1 hl hrel.1
    rw [below, List.foldl_cons]
    by_cases hcs : cs = []
    · rw [hcs]
      exact hc
    · rw [if_neg hcs] at hrel
      have hrest := ih hrel.2 hnames.2 hc
      rw [List.append_assoc, List.singleton_append] at hrest
      exact hrest

/-! ## The filename in the parent -/

/-- More separators make no difference in front of what is walked next. -/
theorem reach_seps {k : Nat} {cs : List Name} (hcs : cs ≠ []) (l : Loc) :
    fs.reach l (List.replicate k [] ++ cs) = fs.reach l cs := by
  induction k with
  | zero => rfl
  | succ k ih =>
    obtain ⟨c, cs, rfl⟩ := List.exists_cons_of_ne_nil hcs
    rw [List.replicate_succ, List.cons_append, reach, descend_nil, ih]
    simp [reach]

theorem foldl_seps (k : Nat) (cs : List Name) (l : Loc) :
    (List.replicate k [] ++ cs).foldl descend l = cs.foldl descend l := by
  induction k with
  | zero => rfl
  | succ k ih => rw [List.replicate_succ, List.cons_append, List.foldl_cons, descend_nil, ih]

theorem components_seps (k : Nat) (f : Path) :
    components (List.replicate k sep ++ f) = List.replicate k [] ++ components f := by
  induction k with
  | zero => rfl
  | succ k ih =>
    have hcons := components_append [] (List.replicate k sep ++ f)
    rw [List.nil_append] at hcons
    rw [List.replicate_succ, List.cons_append, hcons, ih, List.replicate_succ]
    rfl

theorem components_ne_nil (p : Path) : components p ≠ [] := List.splitOn_ne_nil _ _

/-- How many separators there are between two parts of a path makes no difference. -/
theorem resolve_seps (a f : Path) (j k : Nat) :
    fs.resolve cwd (a ++ List.replicate (k + 1) sep ++ f) =
      fs.resolve cwd (a ++ List.replicate (j + 1) sep ++ f) := by
  have hcomponents : ∀ k, components (a ++ List.replicate (k + 1) sep ++ f) =
      components a ++ (List.replicate k [] ++ components f) := by
    intro k
    rw [List.replicate_succ, List.append_assoc, List.cons_append, components_append,
      components_seps]
  have horigin : ∀ k, origin cwd (a ++ List.replicate (k + 1) sep ++ f) =
      origin cwd (a ++ [sep]) := by
    intro k
    rw [List.replicate_succ, List.append_cons, List.append_assoc (a ++ [sep]), origin, origin,
      isAbsolute_append _ (by simp)]
  have hreach : ∀ k, fs.reach (origin cwd (a ++ [sep]))
      (components (a ++ List.replicate (k + 1) sep ++ f)) =
        fs.reach (origin cwd (a ++ [sep])) (components a ++ components f) := by
    intro k
    rw [hcomponents, reach_append, reach_seps (components_ne_nil f), ← reach_append]
  have hlocate : ∀ k, locate cwd (a ++ List.replicate (k + 1) sep ++ f) =
      (components a ++ components f).foldl descend (origin cwd (a ++ [sep])) := by
    intro k
    rw [locate, horigin, hcomponents, List.foldl_append, foldl_seps, ← List.foldl_append]
  unfold resolve
  rw [horigin, horigin, hreach, hreach, hlocate, hlocate]
  simp

theorem filename_head {p : Path} (h : filename p ≠ []) :
    ∃ c cs, filename p = c :: cs ∧ c ≠ sep := by
  obtain ⟨c, cs, hc⟩ := List.exists_cons_of_ne_nil h
  exact ⟨c, cs, hc, fun he => filename_no_sep p (he ▸ hc ▸ List.mem_cons_self)⟩

theorem filename_relative {p : Path} (h : filename p ≠ []) :
    Path.isAbsolute (filename p) = false := by
  obtain ⟨c, cs, hc, hne⟩ := filename_head h
  rw [hc]
  simpa [isAbsolute] using hne

/-- What stands in front of the filename. -/
theorem eq_append_filename (p : Path) :
    p = (p.reverse.dropWhile (· != sep)).reverse ++ filename p := by
  rw [filename, ← List.reverse_append, List.takeWhile_append_dropWhile, List.reverse_reverse]

theorem parentPath_of_filename {p : Path} (h : filename p ≠ []) :
    parentPath p =
      let parent := ((p.reverse.dropWhile (· != sep)).dropWhile (· == sep)).reverse
      if parent = [] ∧ p.isAbsolute = true then [sep] else parent := by
  obtain ⟨c, cs, hc, hne⟩ := filename_head h
  have hmem : c ∈ p := by
    rw [eq_append_filename p]
    exact List.mem_append_right _ (hc ▸ List.mem_cons_self)
  have hall : p.all (· == sep) = false := List.all_eq_false.2 ⟨c, hmem, by simpa using hne⟩
  rw [parentPath, hall]
  rfl

theorem dropWhile_sep_head {l cs : Path} {c : UInt8} (h : l.dropWhile (· == sep) = c :: cs) :
    c ≠ sep := by
  have := List.head?_dropWhile_not (· == sep) l
  rw [h] at this
  simpa using this

/-- A path without a trailing separator and the filename in the parent differ in how many separators
there are between the two. -/
theorem filename_split {p : Path} (h : filename p ≠ []) : ∃ a j k,
    p = a ++ List.replicate j sep ++ filename p ∧
      join (parentPath p) (filename p) = a ++ List.replicate k sep ++ filename p ∧
        (j = 0 ↔ k = 0) := by
  have hp := eq_append_filename p
  have hrel := filename_relative h
  have hparent := parentPath_of_filename h
  generalize hrst : p.reverse.dropWhile (· != sep) = rest at hp hparent
  have hrest : rest = List.replicate (rest.takeWhile (· == sep)).length sep ++
      rest.dropWhile (· == sep) := by
    conv_lhs => rw [← List.takeWhile_append_dropWhile (p := (· == sep)) (l := rest)]
    congr 1
    exact List.eq_replicate_of_mem fun c hc => by simpa using List.mem_takeWhile_imp hc
  generalize (rest.takeWhile (· == sep)).length = j at hrest
  generalize hb : rest.dropWhile (· == sep) = b at hrest hparent
  have hpa : p = b.reverse ++ List.replicate j sep ++ filename p := by
    conv_lhs => rw [hp, hrest, List.reverse_append, List.reverse_replicate]
  cases j with
  | zero =>
    have hnil : b = [] := by
      cases hcs : b with
      | nil => rfl
      | cons c cs =>
        have := List.head?_dropWhile_not (· != sep) p.reverse
        rw [hrst, show rest = b from hrest, hcs] at this
        exact absurd (by simpa using this) (dropWhile_sep_head (hb.trans hcs))
    have hpf : p = filename p := by
      rw [hnil] at hpa
      exact hpa
    refine ⟨[], 0, 0, hpf, ?_, Iff.rfl⟩
    rw [hparent, hnil, hpf, if_neg (by rw [hrel]; simp), List.reverse_nil, join_empty]
    rw [← hpf]
    rfl
  | succ j =>
    refine ⟨b.reverse, j + 1, 1, hpa, ?_, by omega⟩
    cases hcs : b with
    | nil =>
      have habs : p.isAbsolute = true := by
        rw [hpa, hcs]
        rfl
      rw [hparent, if_pos ⟨by rw [hcs]; rfl, habs⟩, join_eq (List.cons_ne_nil _ _) hrel]
      rfl
    | cons c cs =>
      have hne : (c :: cs).reverse ≠ [] := by simp
      have hlast : (c :: cs).reverse.getLast? ≠ some sep := by
        rw [List.getLast?_reverse, List.head?_cons, ne_eq, Option.some_inj]
        exact dropWhile_sep_head (hb.trans hcs)
      rw [hparent, hcs, if_neg (fun h => hne h.1), join_eq hne hrel, if_neg hlast]
      rfl

/-- The filename in the parent denotes what the path does, also when both are continued. -/
theorem resolve_filename {p : Path} (h : filename p ≠ []) (ext : Path) :
    fs.resolve cwd (join (parentPath p) (filename p) ++ ext) = fs.resolve cwd (p ++ ext) := by
  obtain ⟨a, j, k, hp, hjoin, hiff⟩ := filename_split h
  rw [hjoin]
  conv_rhs => rw [hp]
  cases j with
  | zero =>
    obtain rfl := hiff.1 rfl
    rfl
  | succ j =>
    obtain ⟨k, rfl⟩ : ∃ k', k = k' + 1 := ⟨k - 1, by omega⟩
    rw [List.append_assoc _ (filename p) ext, List.append_assoc _ (filename p) ext]
    exact resolve_seps a (filename p ++ ext) j k

end FileSystem

end Lib
