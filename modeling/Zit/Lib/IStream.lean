import Zit.Lib.Decimal

/-!
# Input string streams

`std::istringstream` with its two state bits, as the standard library's unformatted and integer
extractors leave them. On a stream in a good state each operation has one lemma that says what it
reads (`peek_good`, `get_good`, `ignore_good`, `read_good`, `extractInt_good`, `extractNat_good`).
Backwards, an operation that succeeded found the stream good, and what it read decided the result:
it `Takes` that from any stream (`get_some`, `read_takes`, `extract_takes`).
-/

set_option autoImplicit false

namespace Lib

open Decimal

/-- `str()`, the characters not read yet, `eofbit` and `failbit`. -/
structure IStream where
  str : List UInt8
  rest : List UInt8
  eof : Bool
  fail : Bool
  deriving DecidableEq, Repr

namespace IStream

def ofStr (str : List UInt8) : IStream := ⟨str, str, false, false⟩

/-- The stream over `str` with `rest` left to read and no state bit set. -/
@[reducible] def goodAt (str rest : List UInt8) : IStream := ⟨str, rest, false, false⟩

def good (s : IStream) : Bool := !s.eof && !s.fail

/-- What an operation does when its sentry fails. -/
def setFail (s : IStream) : IStream := { s with fail := true }

/-- `none` is `traits::eof()`. -/
def peek (s : IStream) : Option UInt8 × IStream :=
  if s.good then
    match s.rest with
    | [] => (none, { s with eof := true })
    | c :: _ => (some c, s)
  else (none, s.setFail)

def get (s : IStream) : Option UInt8 × IStream :=
  if s.good then
    match s.rest with
    | [] => (none, { s with eof := true, fail := true })
    | c :: cs => (some c, { s with rest := cs })
  else (none, s.setFail)

def ignore (s : IStream) : IStream :=
  if s.good then
    match s.rest with
    | [] => { s with eof := true }
    | _ :: cs => { s with rest := cs }
  else s.setFail

/-- The first `n` characters, fewer at the end of the stream. -/
def read (s : IStream) (n : Nat) : List UInt8 × IStream :=
  if s.good then
    if s.rest.length < n then (s.rest, { s with rest := [], eof := true, fail := true })
    else (s.rest.take n, { s with rest := s.rest.drop n })
  else ([], s.setFail)

/-- `std::getline` into an empty string. -/
def getline (s : IStream) : List UInt8 × IStream :=
  if s.good then
    let line := s.rest.takeWhile (· != 10)
    match s.rest.dropWhile (· != 10) with
    | [] => (line, { s with rest := [], eof := true, fail := line.isEmpty })
    | _ :: rest => (line, { s with rest })
  else ([], s.setFail)

/-- `none` is `pos_type(-1)`. -/
def tellg (s : IStream) : Option Nat × IStream :=
  if s.good then (some (s.str.length - s.rest.length), s) else (none, s.setFail)

/-- `seekg(0, end)` -/
def seekEnd (s : IStream) : IStream := if s.fail then { s with eof := false }
  else { s with eof := false, rest := [] }

/-! ## Integer extraction -/

/-- `isspace` in the "C" locale. -/
def isSpace (c : UInt8) : Bool := c == 32 || (9 ≤ c.toNat && c.toNat ≤ 13)

/-- A leading sign: whether it is a minus, and what follows. -/
def scanSign (cs : List UInt8) : Bool × List UInt8 :=
  match cs with
  | 45 :: cs => (true, cs)
  | 43 :: cs => (false, cs)
  | cs => (false, cs)

/-- The white space is skipped, then an optional sign and all digits are read. `conv negative n` is
the value of the number read, `none` on overflow. -/
def extract (conv : Bool → Nat → Option Int) (s : IStream) : Int × IStream :=
  if s.good then
    let cs := s.rest.dropWhile isSpace
    if cs.isEmpty then (0, { s with rest := [], eof := true, fail := true })
    else
      let (negative, cs) := scanSign cs
      let ds := cs.takeWhile isDigit
      let cs := cs.dropWhile isDigit
      let s := { s with rest := cs, eof := cs.isEmpty }
      if ds.isEmpty then (0, s.setFail)
      else
        match conv negative (value ds) with
        | none => (0, s.setFail)
        | some v => (v, s)
  else (0, s.setFail)

/-- The range of a 32-bit `unsigned`; a minus sign is accepted and the value negated modulo
`2 ^ 32`. -/
def convUnsigned (negative : Bool) (n : Nat) : Option Int :=
  if n ≤ 2 ^ 32 - 1 then
    some (if negative then (((2 ^ 32 - n) % 2 ^ 32 : Nat) : Int) else (n : Int))
  else none

/-- The range of `int64_t`. -/
def convInt64 (negative : Bool) (n : Nat) : Option Int :=
  if negative then (if n ≤ 2 ^ 63 then some (-(n : Int)) else none)
  else if n ≤ 2 ^ 63 - 1 then some (n : Int) else none

/-- The range of `uint64_t`; a minus sign is accepted and the value negated modulo `2 ^ 64`. -/
def convUInt64 (negative : Bool) (n : Nat) : Option Int :=
  if n ≤ 2 ^ 64 - 1 then
    some (if negative then (((2 ^ 64 - n) % 2 ^ 64 : Nat) : Int) else (n : Int))
  else none

/-- `>>` into an `int64_t`. -/
def extractInt (s : IStream) : Int × IStream := extract convInt64 s

/-- `>>` into an `unsigned`. -/
def extractUnsigned (s : IStream) : Nat × IStream :=
  let (v, s) := extract convUnsigned s
  (v.toNat, s)

/-- `>>` into a `uint64_t`. -/
def extractNat (s : IStream) : Nat × IStream :=
  let (v, s) := extract convUInt64 s
  (v.toNat, s)

/-- `>>` into an empty `std::string`: the characters up to the next white space. -/
def word (s : IStream) : List UInt8 × IStream :=
  if s.good then
    let cs := s.rest.dropWhile isSpace
    if cs.isEmpty then ([], { s with rest := [], eof := true, fail := true })
    else
      let rest := cs.dropWhile fun c => !isSpace c
      (cs.takeWhile fun c => !isSpace c, { s with rest, eof := rest.isEmpty })
  else ([], s.setFail)

/-! ## What a good stream reads -/

section
variable (str : List UInt8)

@[simp] theorem peek_good (c : UInt8) (cs : List UInt8) :
    (goodAt str (c :: cs)).peek = (some c, goodAt str (c :: cs)) := rfl

@[simp] theorem get_good (c : UInt8) (cs : List UInt8) :
    (goodAt str (c :: cs)).get = (some c, goodAt str cs) := rfl

@[simp] theorem ignore_good (c : UInt8) (cs : List UInt8) :
    (goodAt str (c :: cs)).ignore = goodAt str cs := rfl

theorem read_good (p q : List UInt8) :
    (goodAt str (p ++ q)).read p.length = (p, goodAt str q) := by
  simp [read, good]

/-- A reading that ends early takes what is left. -/
theorem read_short {rest : List UInt8} {n : Nat} (h : rest.length < n) :
    (goodAt str rest).read n = (rest, ⟨str, [], true, true⟩) := by
  simp [read, good, h]

theorem getline_good {line : List UInt8} (hline : 10 ∉ line) (rest : List UInt8) :
    (goodAt str (line ++ 10 :: rest)).getline = (line, goodAt str rest) := by
  have hall : ∀ c ∈ line, (c != 10) = true := fun c hc => by
    rw [bne_iff_ne]
    exact fun he => hline (he ▸ hc)
  simp [getline, good, List.takeWhile_append_of_pos hall, List.dropWhile_append_of_pos hall]

/-- A line that does not end. -/
theorem getline_last {line : List UInt8} (hline : 10 ∉ line) :
    (goodAt str line).getline = (line, ⟨str, [], true, line.isEmpty⟩) := by
  have hall : ∀ c ∈ line, (c != 10) = true := fun c hc => by
    rw [bne_iff_ne]
    exact fun he => hline (he ▸ hc)
  have htake : (line ++ []).takeWhile (· != 10) = line ++ [] := List.takeWhile_append_of_pos hall
  have hdrop : (line ++ []).dropWhile (· != 10) = [] := List.dropWhile_append_of_pos hall
  rw [List.append_nil] at htake hdrop
  simp only [getline, good, Bool.not_false, Bool.and_self, if_true, htake, hdrop]

theorem takeWhile_digits {ds : List UInt8} (cs : List UInt8) (hd : ∀ c ∈ ds, isDigit c = true)
    (hc : ∀ c ∈ cs.head?, isDigit c = false) :
    (ds ++ cs).takeWhile isDigit = ds ∧ (ds ++ cs).dropWhile isDigit = cs := by
  have htail : cs.takeWhile isDigit = [] ∧ cs.dropWhile isDigit = cs := by
    cases cs with
    | nil => exact ⟨rfl, rfl⟩
    | cons c cs => simp [hc c (by simp)]
  rw [List.takeWhile_append_of_pos hd, List.dropWhile_append_of_pos hd, htail.1, htail.2,
    List.append_nil]
  exact ⟨rfl, rfl⟩

theorem not_isSpace_of_isDigit {c : UInt8} (h : isDigit c = true) : isSpace c = false := by
  simp only [isDigit, Bool.and_eq_true, decide_eq_true_eq] at h
  simp only [isSpace, Bool.or_eq_false_iff, beq_eq_false_iff_ne, Bool.and_eq_false_iff,
    decide_eq_false_iff_not]
  exact ⟨fun hc => by subst hc; simp at h, .inr (by omega)⟩

theorem scanSign_of_isDigit {c : UInt8} {cs : List UInt8} (h : isDigit c = true) :
    scanSign (c :: cs) = (false, c :: cs) := by
  unfold scanSign
  split
  · rename_i heq
    cases heq
    simp [isDigit] at h
  · rename_i heq
    cases heq
    simp [isDigit] at h
  · rfl

/-- Digits, ended by a character that is none, are read as the number they denote. -/
theorem extract_digits (conv : Bool → Nat → Option Int) {ds : List UInt8} (c : UInt8)
    (cs : List UInt8) (hne : ds ≠ []) (hd : ∀ c ∈ ds, isDigit c = true)
    (hc : isDigit c = false) :
    extract conv (goodAt str (ds ++ c :: cs)) =
      match conv false (value ds) with
      | none => (0, (goodAt str (c :: cs)).setFail)
      | some v => (v, goodAt str (c :: cs)) := by
  obtain ⟨d, ds', rfl⟩ := List.exists_cons_of_ne_nil hne
  have hd0 := hd d (by simp)
  obtain ⟨h1, h2⟩ := takeWhile_digits (c :: cs) hd (by simpa using hc)
  have hskip : (d :: ds' ++ c :: cs).dropWhile isSpace = d :: ds' ++ c :: cs := by
    simp [not_isSpace_of_isDigit hd0]
  have hsign : scanSign (d :: ds' ++ c :: cs) = (false, d :: ds' ++ c :: cs) :=
    scanSign_of_isDigit hd0
  simp only [extract, good, Bool.not_false, Bool.and_self, if_true, hskip, hsign, h1, h2]
  simp

/-- The same after a minus sign. -/
theorem extract_minus (conv : Bool → Nat → Option Int) {ds : List UInt8} (c : UInt8)
    (cs : List UInt8) (hne : ds ≠ []) (hd : ∀ c ∈ ds, isDigit c = true)
    (hc : isDigit c = false) :
    extract conv (goodAt str (45 :: ds ++ c :: cs)) =
      match conv true (value ds) with
      | none => (0, (goodAt str (c :: cs)).setFail)
      | some v => (v, goodAt str (c :: cs)) := by
  obtain ⟨h1, h2⟩ := takeWhile_digits (c :: cs) hd (by simpa using hc)
  have hskip : (45 :: ds ++ c :: cs).dropWhile isSpace = 45 :: ds ++ c :: cs := by
    simp [isSpace]
  have hsign : scanSign (45 :: ds ++ c :: cs) = (true, ds ++ c :: cs) := rfl
  simp only [extract, good, Bool.not_false, Bool.and_self, if_true, hskip, hsign, h1, h2]
  simp [hne]

/-- A spelling `intDigits` writes is read back, when its value fits. -/
theorem extractInt_good {i : Int} (hi : -2 ^ 63 ≤ i ∧ i < 2 ^ 63) (c : UInt8) (cs : List UInt8)
    (hc : isDigit c = false) :
    extractInt (goodAt str (intDigits i ++ c :: cs)) = (i, goodAt str (c :: cs)) := by
  unfold extractInt intDigits
  by_cases h : i < 0
  · rw [if_pos h, extract_minus str _ c cs (digits_ne_nil _) (isDigit_digits _) hc, value_digits,
      convInt64, if_pos rfl, if_pos (by omega), show -(i.natAbs : Int) = i by omega]
  · rw [if_neg h, extract_digits str _ c cs (digits_ne_nil _) (isDigit_digits _) hc, value_digits,
      convInt64, if_neg (by simp), if_pos (by omega), show (i.natAbs : Int) = i by omega]

theorem extractNat_good {n : Nat} (hn : n < 2 ^ 64) (c : UInt8) (cs : List UInt8)
    (hc : isDigit c = false) :
    extractNat (goodAt str (digits n ++ c :: cs)) = (n, goodAt str (c :: cs)) := by
  unfold extractNat
  rw [extract_digits str _ c cs (digits_ne_nil _) (isDigit_digits _) hc, value_digits, convUInt64,
    if_pos (by omega)]
  rfl

theorem extractUnsigned_good {n : Nat} (hn : n < 2 ^ 32) (c : UInt8) (cs : List UInt8)
    (hc : isDigit c = false) :
    extractUnsigned (goodAt str (digits n ++ c :: cs)) = (n, goodAt str (c :: cs)) := by
  unfold extractUnsigned
  rw [extract_digits str _ c cs (digits_ne_nil _) (isDigit_digits _) hc, value_digits, convUnsigned,
    if_pos (by omega)]
  rfl

/-- White space in front of a number is skipped. -/
theorem extract_space (conv : Bool → Nat → Option Int) {c : UInt8} (hc : isSpace c = true)
    (cs : List UInt8) : extract conv (goodAt str (c :: cs)) = extract conv (goodAt str cs) := by
  simp only [extract, good, List.dropWhile_cons_of_pos hc, Bool.not_false, Bool.and_self, if_true]

theorem word_good {w : List UInt8} (hne : w ≠ []) (hw : ∀ c ∈ w, isSpace c = false) {c : UInt8}
    (hc : isSpace c = true) (cs : List UInt8) :
    (goodAt str (w ++ c :: cs)).word = (w, goodAt str (c :: cs)) := by
  have hall : ∀ d ∈ w, (!isSpace d) = true := fun d hd => by rw [hw d hd, Bool.not_false]
  have hskip : (w ++ c :: cs).dropWhile isSpace = w ++ c :: cs := by
    obtain ⟨d, w', rfl⟩ := List.exists_cons_of_ne_nil hne
    exact List.dropWhile_cons_of_neg (by simp [hw d List.mem_cons_self])
  have hempty : (w ++ c :: cs).isEmpty = false := by simp
  simp only [word, good, hskip, hempty, List.takeWhile_append_of_pos hall,
    List.dropWhile_append_of_pos hall]
  simp [hc]

/-- A number that is too large sets the fail bit. -/
theorem extractNat_overflow {n : Nat} (hn : 2 ^ 64 ≤ n) (c : UInt8) (cs : List UInt8)
    (hc : isDigit c = false) :
    (extractNat (goodAt str (digits n ++ c :: cs))).2.fail = true := by
  unfold extractNat
  rw [extract_digits str _ c cs (digits_ne_nil _) (isDigit_digits _) hc, value_digits, convUInt64,
    if_neg (by omega)]
  rfl

end

/-! ## What was read -/

/-- The reader returns `a` on every stream that begins with `p`, and leaves what follows. -/
def Takes {ε α : Type} (f : IStream → Except ε (α × IStream)) (p : List UInt8) (a : α) : Prop :=
  ∀ str r, f (goodAt str (p ++ r)) = .ok (a, goodAt str r)

section
variable {s s' : IStream} {c : UInt8}

theorem eq_goodAt (h : s.good = true) : s = goodAt s.str s.rest := by
  obtain ⟨str, rest, eof, fail⟩ := s
  simp only [good, Bool.and_eq_true, Bool.not_eq_true'] at h
  obtain ⟨rfl, rfl⟩ := h
  rfl

theorem get_some (h : s.get = (some c, s')) :
    ∃ str r, s = goodAt str (c :: r) ∧ s' = goodAt str r := by
  unfold get at h
  by_cases hg : s.good = true
  · rw [if_pos hg] at h
    have hs := eq_goodAt hg
    cases hr : s.rest with
    | nil =>
      rw [hr] at h
      cases h
    | cons d cs =>
      rw [hs, hr] at h
      cases h
      exact ⟨s.str, cs, by rw [hs, hr], rfl⟩
  · rw [if_neg hg] at h
    cases h

theorem peek_some (h : s.peek.1 = some c) :
    ∃ str r, s = goodAt str (c :: r) ∧ s.peek.2 = goodAt str (c :: r) := by
  unfold peek at h ⊢
  by_cases hg : s.good = true
  · rw [if_pos hg] at h ⊢
    have hs := eq_goodAt hg
    cases hr : s.rest with
    | nil =>
      rw [hr] at h
      cases h
    | cons d cs =>
      rw [hr] at h
      cases h
      rw [hr] at hs
      exact ⟨s.str, cs, hs, hs⟩
  · rw [if_neg hg] at h
    cases h

theorem read_takes {n : Nat} {text : List UInt8} (h : s.read n = (text, s'))
    (heof : s'.eof = false) (hfail : s'.fail = false) :
    ∃ str r, s = goodAt str (text ++ r) ∧ s' = goodAt str r ∧ text.length = n := by
  unfold read at h
  by_cases hg : s.good = true
  · rw [if_pos hg] at h
    have hs := eq_goodAt hg
    by_cases hn : s.rest.length < n
    · rw [if_pos hn] at h
      cases h
      cases heof
    · rw [if_neg hn] at h
      cases h
      refine ⟨s.str, s.rest.drop n, ?_, by rw [hs], List.length_take_of_le (Nat.not_lt.1 hn)⟩
      rw [List.take_append_drop]
      exact hs
  · rw [if_neg hg] at h
    cases h
    cases hfail

/-- The text of a sign. -/
theorem scanSign_text {cs cs' : List UInt8} {negative : Bool} (h : scanSign cs = (negative, cs')) :
    ∃ sign, cs = sign ++ cs' ∧ (∀ d ∈ sign.head?, isSpace d = false) ∧
      ∀ d rest, isDigit d = true → scanSign (sign ++ d :: rest) = (negative, d :: rest) := by
  unfold scanSign at h
  split at h
  · cases h
    exact ⟨[45], rfl, by simp [isSpace], fun _ _ _ => rfl⟩
  · cases h
    exact ⟨[43], rfl, by simp [isSpace], fun _ _ _ => rfl⟩
  · cases h
    exact ⟨[], rfl, by simp, fun d rest hd => scanSign_of_isDigit hd⟩

/-- A number that is followed by `c` takes its text, and `c` ends it. -/
theorem extract_takes {conv : Bool → Nat → Option Int} {v : Int} {t : IStream}
    (h : extract conv s = (v, t)) (hfail : t.fail = false) (hget : t.get = (some c, s'))
    (hc : isDigit c = false) :
    ∃ str p r, s = goodAt str (p ++ c :: r) ∧ s' = goodAt str r ∧
      ∀ str' r', extract conv (goodAt str' (p ++ c :: r')) = (v, goodAt str' (c :: r')) := by
  unfold extract at h
  by_cases hg : s.good = true
  swap
  · rw [if_neg hg] at h
    cases h
    cases hfail
  rw [if_pos hg] at h
  have hs := eq_goodAt hg
  simp only at h
  by_cases hempty : (s.rest.dropWhile isSpace).isEmpty = true
  · rw [if_pos hempty] at h
    cases h
    cases hfail
  rw [if_neg hempty] at h
  obtain ⟨negative, cs, hsign⟩ : ∃ negative cs, scanSign (s.rest.dropWhile isSpace) = (negative, cs) :=
    ⟨_, _, rfl⟩
  rw [hsign] at h
  simp only at h
  by_cases hds : (cs.takeWhile isDigit).isEmpty = true
  · rw [if_pos hds] at h
    cases h
    cases hfail
  rw [if_neg hds] at h
  cases hconv : conv negative (value (cs.takeWhile isDigit)) with
  | none =>
    rw [hconv] at h
    cases h
    cases hfail
  | some x =>
    rw [hconv] at h
    cases h
    obtain ⟨str, r, ht, hr⟩ := get_some hget
    have hrest : cs.dropWhile isDigit = c :: r := congrArg IStream.rest ht
    have hstr : s.str = str := congrArg IStream.str ht
    obtain ⟨sign, htext, hspace, hscan⟩ := scanSign_text hsign
    obtain ⟨d, ds, hd⟩ := List.exists_cons_of_ne_nil fun hnil =>
      hds (List.isEmpty_iff.2 hnil)
    have hdigits : ∀ x ∈ d :: ds, isDigit x = true := by
      rw [← hd]
      exact fun x hx => List.all_eq_true.1 (List.all_takeWhile) x hx
    have hall : s.rest = s.rest.takeWhile isSpace ++ (sign ++ (d :: ds)) ++ c :: r := by
      conv => lhs; rw [← List.takeWhile_append_dropWhile (p := isSpace) (l := s.rest), htext,
        ← List.takeWhile_append_dropWhile (p := isDigit) (l := cs), hd, hrest]
      simp only [List.append_assoc]
    refine ⟨str, s.rest.takeWhile isSpace ++ (sign ++ (d :: ds)), r, ?_, hr, fun str' r' => ?_⟩
    · rw [← hall, ← hstr]
      exact hs
    · have hskip : (s.rest.takeWhile isSpace ++ (sign ++ d :: ds) ++ c :: r').dropWhile isSpace =
          sign ++ (d :: ds ++ c :: r') := by
        rw [List.append_assoc, List.dropWhile_append_of_pos fun x hx =>
          List.all_eq_true.1 List.all_takeWhile x hx, List.append_assoc]
        cases sign with
        | nil =>
          have hd0 := not_isSpace_of_isDigit (hdigits d List.mem_cons_self)
          simp [hd0]
        | cons x xs =>
          have hx := hspace x rfl
          simp [hx]
      obtain ⟨h1, h2⟩ := takeWhile_digits (c :: r') hdigits (by simpa using hc)
      have hsign' := hscan d (ds ++ c :: r') (hdigits d List.mem_cons_self)
      rw [← List.cons_append] at hsign'
      rw [hd] at hconv
      simp only [extract, good, Bool.not_false, Bool.and_self, if_true, hskip, hsign', h1, h2, hconv]
      simp

end

end IStream

end Lib
