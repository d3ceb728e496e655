import Zit.Lib.Path

/-!
# Lexical normal forms

`here.walk p` is the normal form of the path `p`: how many `..` it begins with, and the names that
follow. `r.takenFrom l` is `r` taken from `l`; joining paths is walking their strings one after the other
(`walk_join`, `walk_takenFrom`). A path is `Within` another one when its names begin with the names of
the other, and `Returns` says when a path taken from `l` ends there (`within_iff`).
-/

set_option autoImplicit false

open Lib.Path

namespace Lib

structure Lexical where
  /-- nothing when the path is absolute -/
  ups : Option Nat
  names : List Name
  deriving DecidableEq, Repr

namespace Lexical

/-- The working directory. -/
def here : Lexical := ⟨some 0, []⟩

def root : Lexical := ⟨none, []⟩

/-- One component of a path. -/
def descend (l : Lexical) (c : Name) : Lexical :=
  if c = [] ∨ c = dot then l
  else if c = dotdot then
    if l.names = [] then { l with ups := l.ups.map (· + 1) }
    else { l with names := l.names.dropLast }
  else { l with names := l.names ++ [c] }

/-- The components of a string; an absolute one begins again. -/
def walk (l : Lexical) (s : Path) : Lexical :=
  s.components.foldl descend (if s.isAbsolute then root else l)

/-- Inside, or the same. -/
def Within (p l : Lexical) : Prop := p.ups = l.ups ∧ l.names <+: p.names

instance (p l : Lexical) : Decidable (p.Within l) := inferInstanceAs (Decidable (_ ∧ _))

theorem Within.trans {p q l : Lexical} (h : p.Within q) (h' : q.Within l) : p.Within l :=
  ⟨h.1.trans h'.1, h'.2.trans h.2⟩

@[simp] theorem descend_nil (l : Lexical) : l.descend [] = l := by simp [descend]

@[simp] theorem walk_nil (l : Lexical) : l.walk [] = l := descend_nil l

theorem walk_join (l : Lexical) (a b : Path) : l.walk (join a b) = (l.walk a).walk b := by
  by_cases hb : b.isAbsolute = true
  · rw [join_absolute a hb]
    unfold walk
    rw [if_pos hb, if_pos hb]
  · have hb' : b.isAbsolute = false := by simpa using hb
    by_cases ha : a = []
    · rw [ha, join_empty, walk_nil]
    · unfold walk
      rw [isAbsolute_join ha hb', foldl_join descend_nil ha hb', if_neg hb]

theorem walk_foldl_join (l : Lexical) (a : Path) (strs : List Path) :
    l.walk (strs.foldl join a) = strs.foldl walk (l.walk a) := by
  induction strs generalizing a with
  | nil => rfl
  | cons s strs ih => rw [List.foldl_cons, ih, walk_join, List.foldl_cons]

/-- The path that joins the strings. -/
def joined (strs : List Path) : Lexical := strs.foldl walk here

/-! ## Going up -/

theorem descend_dotdot (l : Lexical) : l.descend dotdot =
    if l.names = [] then { l with ups := l.ups.map (· + 1) }
    else { l with names := l.names.dropLast } := by
  simp [descend, dotdot, dot]

/-- `u` times `..`. -/
def climb (l : Lexical) : Nat → Lexical
  | 0 => l
  | u + 1 => (l.climb u).descend dotdot

theorem climb_names (l : Lexical) (u : Nat) :
    (l.climb u).names = l.names.take (l.names.length - u) := by
  induction u with
  | zero => simp [climb]
  | succ u ih =>
    have hdrop : (l.climb (u + 1)).names = (l.climb u).names.dropLast := by
      rw [climb, descend_dotdot]
      split
      · rename_i h
        simp [h]
      · rfl
    rw [hdrop, ih, List.dropLast_eq_take, List.take_take, List.length_take]
    congr 1
    omega

theorem climb_ups (l : Lexical) (u : Nat) :
    (l.climb u).ups = l.ups.map (· + (u - l.names.length)) := by
  induction u with
  | zero => simp [climb]
  | succ u ih =>
    have hlen : (l.climb u).names = [] ↔ l.names.length ≤ u := by
      rw [climb_names, List.take_eq_nil_iff, Nat.sub_eq_zero_iff_le, ← List.length_eq_zero_iff]
      omega
    rw [climb, descend_dotdot]
    split
    · rename_i hn
      have hle := hlen.1 hn
      show (l.climb u).ups.map (· + 1) = _
      rw [ih, Option.map_map]
      congr 1
      funext k
      show k + (u - l.names.length) + 1 = k + (u + 1 - l.names.length)
      omega
    · rename_i hn
      have hlt := mt hlen.2 hn
      show (l.climb u).ups = _
      rw [ih, show u - l.names.length = u + 1 - l.names.length by omega]

/-! ## Going on from a path -/

/-- The path `r`, taken from `l`. -/
def takenFrom (r l : Lexical) : Lexical :=
  match r.ups with
  | none => r
  | some u => { l.climb u with names := (l.climb u).names ++ r.names }

@[simp] theorem here_takenFrom (l : Lexical) : here.takenFrom l = l := by
  simp [takenFrom, climb, here]

/-- One more component. -/
theorem descend_takenFrom (r l : Lexical) (c : Name) :
    (r.descend c).takenFrom l = (r.takenFrom l).descend c := by
  obtain ⟨ups, names⟩ := r
  cases ups with
  | none =>
    have hnone : ((⟨none, names⟩ : Lexical).descend c).ups = none := by
      unfold descend
      split
      · rfl
      · split
        · split <;> rfl
        · rfl
    show Lexical.takenFrom _ l = (⟨none, names⟩ : Lexical).descend c
    unfold takenFrom
    rw [hnone]
  | some u =>
    unfold descend
    by_cases hskip : c = [] ∨ c = dot
    · rw [if_pos hskip, if_pos hskip]
    rw [if_neg hskip, if_neg hskip]
    by_cases hup : c = dotdot
    · rw [if_pos hup, if_pos hup]
      by_cases hn : names = []
      · have hsucc : l.climb (u + 1) = _ := descend_dotdot (l.climb u)
        rw [hn]
        simp only [takenFrom, List.append_nil, if_true, Option.map_some]
        exact hsucc
      · simp only [takenFrom, hn, List.append_eq_nil_iff, and_false, if_false]
        rw [List.dropLast_append_of_ne_nil hn]
    · rw [if_neg hup, if_neg hup]
      simp only [takenFrom, List.append_assoc]

/-- One more string. -/
theorem walk_takenFrom (r l : Lexical) (s : Path) :
    (r.walk s).takenFrom l = (r.takenFrom l).walk s := by
  have hfold : ∀ (cs : List Name) (r : Lexical),
      (cs.foldl descend r).takenFrom l = cs.foldl descend (r.takenFrom l) := by
    intro cs
    induction cs with
    | nil => exact fun _ => rfl
    | cons c cs ih =>
      intro r
      rw [List.foldl_cons, List.foldl_cons, ih, descend_takenFrom]
  unfold walk
  rw [hfold]
  split <;> rfl

/-- The strings are walked from `l`, or on their own and then taken from `l`. -/
theorem foldl_walk (l : Lexical) (strs : List Path) :
    strs.foldl walk l = (joined strs).takenFrom l := by
  have h : ∀ r : Lexical, (strs.foldl walk r).takenFrom l = strs.foldl walk (r.takenFrom l) := by
    induction strs with
    | nil => exact fun _ => rfl
    | cons s strs ih =>
      intro r
      rw [List.foldl_cons, List.foldl_cons, ih, walk_takenFrom]
  rw [joined, h, here_takenFrom]

/-- An absolute path leads back to `l`; a relative one does not leave it, or goes down again the way
it went up. -/
def Returns (l r : Lexical) : Prop :=
  match r.ups with
  | none => l.ups = none ∧ l.names <+: r.names
  | some u => (l.ups = none ∨ u ≤ l.names.length) ∧ l.names.drop (l.names.length - u) <+: r.names

theorem within_iff (l r : Lexical) : (r.takenFrom l).Within l ↔ l.Returns r := by
  obtain ⟨ups, names⟩ := r
  cases ups with
  | none =>
    unfold Within Returns takenFrom
    rw [eq_comm]
  | some u =>
    have hups : (l.climb u).ups = l.ups ↔ l.ups = none ∨ u ≤ l.names.length := by
      rw [climb_ups]
      cases l.ups with
      | none => simp
      | some k =>
        simp only [Option.map_some, Option.some.injEq, reduceCtorEq, false_or]
        omega
    have hnames : l.names <+: (l.climb u).names ++ names ↔
        l.names.drop (l.names.length - u) <+: names := by
      rw [climb_names]
      generalize l.names.length - u = k
      conv_lhs =>
        lhs
        rw [← List.take_append_drop k l.names]
      exact List.prefix_append_right_inj _
    exact and_congr hups hnames

end Lexical

end Lib
