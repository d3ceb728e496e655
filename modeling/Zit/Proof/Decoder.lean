import Zit.Proof.Bencode

/-!
# The decoder on every input

What the decoder accepts is decided by the bytes it read: `Took` says of an element which bytes these
are, and that they give the same element in front of any other bytes (`decode_took`). So no accepted
text begins another one (`decode_append`).

`Guarded` is the decoder without fuel: it stops where calls nest too deep and where a turn of a loop
reads nothing. Neither happens (`decode_guarded`).
-/

set_option autoImplicit false

namespace Zit

open Lib Lib.Decimal Lib.IStream

namespace Bencode

/-! ## Inversion -/

section
variable {fuel depth : Nat} {s s' : IStream} {str r : Bytes}

theorem decodeInt_takes {e : Element} (h : decodeInt s = .ok (e, s')) :
    ∃ str p r, s = goodAt str (p ++ r) ∧ s' = goodAt str r ∧ Takes decodeInt p e := by
  unfold decodeInt at h
  obtain ⟨i, t, ht⟩ : ∃ i t, s.extractInt = (i, t) := ⟨_, _, rfl⟩
  rw [ht] at h
  simp only at h
  split at h
  · cases h
  rename_i hfail
  obtain ⟨c, t', hget⟩ : ∃ c t', t.get = (c, t') := ⟨_, _, rfl⟩
  rw [hget] at h
  simp only at h
  split at h
  · cases h
  rename_i hc
  cases h
  rw [not_not.1 hc] at hget
  obtain ⟨str, p, r, hs, hs', htakes⟩ :=
    extract_takes ht (Bool.eq_false_iff.2 hfail) hget (by decide)
  refine ⟨str, p ++ ['e'.toUInt8], r, by simpa using hs, hs', fun str' r' => ?_⟩
  unfold decodeInt extractInt
  rw [List.append_assoc, List.singleton_append, htakes]
  simp

/-- The text of a string: its length, a colon and its characters. -/
theorem decodeString_takes {text : Bytes} (h : decodeString s = .ok (text, s')) :
    ∃ str len r, s = goodAt str (len ++ ':'.toUInt8 :: text ++ r) ∧ s' = goodAt str r ∧
      Takes decodeString (len ++ ':'.toUInt8 :: text) text := by
  unfold decodeString at h
  obtain ⟨i, t, ht⟩ : ∃ i t, extract convUInt64 s = (i, t) := ⟨_, _, rfl⟩
  rw [show s.extractNat = (i.toNat, t) by rw [extractNat, ht]] at h
  simp only at h
  split at h
  · cases h
  rename_i hfail
  obtain ⟨c, t', hget⟩ : ∃ c t', t.get = (c, t') := ⟨_, _, rfl⟩
  rw [hget] at h
  simp only at h
  split at h
  · cases h
  rename_i hc
  split at h
  · cases h
  rename_i hmax
  obtain ⟨text', u, hread⟩ : ∃ text' u, t'.read i.toNat = (text', u) := ⟨_, _, rfl⟩
  rw [hread] at h
  simp only at h
  split at h
  · cases h
  rename_i heof
  cases h
  rw [not_not.1 hc] at hget
  obtain ⟨str, p, r, hs, ht', htakes⟩ :=
    extract_takes ht (Bool.eq_false_iff.2 hfail) hget (by decide)
  have hgood : s'.fail = false := by
    rw [ht'] at hread
    unfold IStream.read at hread
    rw [if_pos (by rfl)] at hread
    split at hread
    · cases hread
      exact absurd rfl heof
    · cases hread
      rfl
  obtain ⟨str2, r2, ht2, hs', hlen⟩ := read_takes hread (Bool.eq_false_iff.2 heof) hgood
  obtain rfl : str = str2 := congrArg IStream.str (ht'.symm.trans ht2)
  obtain rfl : r = text ++ r2 := congrArg IStream.rest (ht'.symm.trans ht2)
  refine ⟨str, p, r2, by simpa using hs, hs', fun str' r' => ?_⟩
  unfold decodeString extractNat
  rw [List.append_assoc, List.cons_append, htakes]
  simp only [get_good]
  rw [← hlen] at hmax ⊢
  simp [hmax, read_good]

theorem peek_none (h : s.peek.1 = none) : s.peek.2.peek.1 = none := by
  by_cases hg : s.good = true
  · have hs := eq_goodAt hg
    cases hr : s.rest with
    | nil =>
      rw [hs, hr]
      rfl
    | cons c cs =>
      rw [hs, hr] at h
      cases h
  · rw [show s.peek = (none, s.setFail) by rw [peek, if_neg hg]]
    simp [peek, good, setFail]

/-- Where there is nothing to peek at nothing is decoded. -/
theorem decodeInternal_none (h : s.peek.1 = none) (fuel depth : Nat) :
    ∃ what, decodeInternal (fuel + 1) s depth = .error (.invalidArgument what) := by
  have h2 := peek_none h
  have h3 := peek_none h2
  simp only [decodeInternal]
  split
  · exact ⟨_, rfl⟩
  · rw [h, h2, h3, peek_none h3]
    exact ⟨_, rfl⟩

/-- The branches, on the next character. -/
theorem decodeInternal_cons (fuel : Nat) (str : Bytes) (c : UInt8) (r : Bytes) (depth : Nat) :
    decodeInternal (fuel + 1) (goodAt str (c :: r)) depth =
      if depth > recursionLimit then .error (.invalidArgument "Recursion limit reached")
      else if c = 'i'.toUInt8 then decodeInt (goodAt str r)
      else if isDigit c = true then
        (decodeString (goodAt str (c :: r))).map fun (s, iss) => (.str s, iss)
      else if c = 'l'.toUInt8 then decodeList fuel (goodAt str (c :: r)) (depth + 1)
      else if c = 'd'.toUInt8 then decodeDict fuel (goodAt str (c :: r)) (depth + 1)
      else .error (invalidString (goodAt str (c :: r))) := by
  simp [decodeInternal]

end

/-! ## The shape of the functions -/

section
variable {β γ : Type}

/-- A turn of a loop, and what follows it: the end marker or the next turn. -/
def turnThen (turn : Except Exn (β × IStream)) (again : β → IStream → Except Exn (β × IStream)) :
    Except Exn (β × IStream) := do
  let (v, iss) ← turn
  if iss.eof then .error (.invalidArgument s!"Unexpected eof: {rawText iss.str}")
  else
    let (c, iss) := iss.peek
    if c = some 'e'.toUInt8 then return (v, iss) else again v iss

/-- The body of `decodeList`, and of `decodeDict`, around its loop. -/
def block (mk : List γ → Element) (loop : IStream → Except Exn (List γ × IStream))
    (iss : IStream) : Except Exn (Element × IStream) :=
  let iss := iss.ignore
  let (c, iss) := iss.peek
  if c ≠ some 'e'.toUInt8 then (loop iss).map fun (v, iss) => (mk v, iss.ignore)
  else .ok (mk [], iss.ignore)

section
variable {str r : Bytes} {c d : UInt8}

theorem turnThen_cons (v : β) (again : β → IStream → Except Exn (β × IStream)) :
    turnThen (.ok (v, goodAt str (c :: r))) again =
      if c = 'e'.toUInt8 then .ok (v, goodAt str (c :: r)) else again v (goodAt str (c :: r)) := by
  simp [turnThen, bind, Except.bind, pure, Except.pure]

theorem turnThen_nil (v : β) (again : β → IStream → Except Exn (β × IStream)) :
    turnThen (.ok (v, goodAt str [])) again = again v ⟨str, [], true, false⟩ := by
  simp [turnThen, bind, Except.bind, peek, good]

theorem block_cons (mk : List γ → Element) (loop : IStream → Except Exn (List γ × IStream)) :
    block mk loop (goodAt str (c :: d :: r)) =
      if d = 'e'.toUInt8 then .ok (mk [], goodAt str r)
      else (loop (goodAt str (d :: r))).map fun (v, iss) => (mk v, iss.ignore) := by
  unfold block
  by_cases hd : d = 'e'.toUInt8
  · simp [hd]
  · simp [hd]

theorem block_nil (mk : List γ → Element) (loop : IStream → Except Exn (List γ × IStream)) :
    block mk loop (goodAt str [c]) =
      (loop ⟨str, [], true, false⟩).map fun (v, iss) => (mk v, iss.ignore) := by
  simp [block, peek, good]

end

def listTurn (internal : IStream → Except Exn (Element × IStream)) (iss : IStream)
    (v : List Element) : Except Exn (List Element × IStream) :=
  (internal iss).map fun (e, iss) => (v ++ [e], iss)

def dictTurn (internal : IStream → Except Exn (Element × IStream)) (iss : IStream)
    (m : List (Bytes × Element)) : Except Exn (List (Bytes × Element) × IStream) := do
  let (key, iss) ← decodeString iss
  let (val, iss) ← internal iss
  return (Element.insertKey key val m, iss)

end

section
variable (fuel depth : Nat) (s : IStream)

theorem decodeList_eq : decodeList (fuel + 1) s depth =
    block .list (fun t => decodeListLoop fuel t depth []) s := by
  simp only [decodeList, block]
  split
  · cases decodeListLoop fuel s.ignore.peek.2 depth [] <;> rfl
  · rfl

theorem decodeDict_eq : decodeDict (fuel + 1) s depth =
    block .dict (fun t => decodeDictLoop fuel t depth []) s := by
  simp only [decodeDict, block]
  split
  · cases decodeDictLoop fuel s.ignore.peek.2 depth [] <;> rfl
  · rfl

theorem decodeListLoop_eq (v : List Element) : decodeListLoop (fuel + 1) s depth v =
    turnThen (listTurn (fun t => decodeInternal fuel t depth) s v)
      fun v t => decodeListLoop fuel t depth v := by
  simp only [decodeListLoop, listTurn, turnThen]
  cases decodeInternal fuel s depth <;> rfl

theorem decodeDictLoop_eq (m : List (Bytes × Element)) : decodeDictLoop (fuel + 1) s depth m =
    turnThen (dictTurn (fun t => decodeInternal fuel t depth) s m)
      fun m t => decodeDictLoop fuel t depth m := by
  simp only [decodeDictLoop, dictTurn, turnThen]
  cases decodeString s with
  | error e => rfl
  | ok kt =>
    simp only [bind, Except.bind]
    cases decodeInternal fuel kt.2 depth <;> rfl

end

/-! ## The bytes of an element -/

/-- From `s` to `s'` the reader returned `a` for some bytes, not none of them; in front of `ahead` it
does so from every stream, with this much fuel. -/
def Took {α : Type} (ahead : Bytes) (fuel : Nat) (f : Nat → IStream → Except Exn (α × IStream))
    (s s' : IStream) (a : α) : Prop :=
  ∃ str p r, p ≠ [] ∧ s = goodAt str (p ++ (ahead ++ r)) ∧ s' = goodAt str (ahead ++ r) ∧
    ∀ n, fuel ≤ n → ∀ str' r',
      f n (goodAt str' (p ++ (ahead ++ r'))) = .ok (a, goodAt str' (ahead ++ r'))

section
variable {α β : Type} {fuel depth : Nat} {s s' : IStream}

theorem Took.shorter {ahead : Bytes} {f : Nat → IStream → Except Exn (α × IStream)} {a : α}
    (h : Took ahead fuel f s s' a) : s'.rest.length < s.rest.length := by
  obtain ⟨str, p, r, hp, rfl, rfl, -⟩ := h
  have := List.length_pos_iff.2 hp
  simp only [List.length_append]
  omega

theorem Took.map {f : Nat → IStream → Except Exn (α × IStream)} {a : α} (g : α → β)
    (h : Took [] fuel f s s' a) :
    Took [] fuel (fun n t => (f n t).map fun (x, u) => (g x, u)) s s' (g a) := by
  obtain ⟨str, p, r, hp, hs, hs', hf⟩ := h
  refine ⟨str, p, r, hp, hs, hs', fun n hn str' r' => ?_⟩
  dsimp only
  rw [hf n hn]
  rfl

/-- A loop that goes on takes what its turn took and what the rest of it took. -/
theorem turnThen_took {turn : Nat → IStream → β → Except Exn (β × IStream)}
    (loop : Nat → IStream → β → Except Exn (β × IStream)) {v v' : β}
    (hloop : ∀ n s v, loop (n + 1) s v = turnThen (turn n s v) fun v t => loop n t v)
    (hturn : ∀ s v v' s', turn fuel s v = .ok (v', s') →
      Took [] fuel (fun n t => turn n t v) s s' v')
    (hagain : ∀ s v v' s', loop fuel s v = .ok (v', s') →
      Took ['e'.toUInt8] fuel (fun n t => loop n t v) s s' v')
    (h : loop (fuel + 1) s v = .ok (v', s')) :
    Took ['e'.toUInt8] (fuel + 1) (fun n t => loop n t v) s s' v' := by
  rw [hloop] at h
  obtain ⟨⟨w, t⟩, ht, -⟩ := bind_eq_ok.1 h
  rw [ht] at h
  obtain ⟨str, p, r, hp, hs, rfl, htake⟩ := hturn _ _ _ _ ht
  simp only [List.nil_append] at h hs htake
  cases r with
  | nil =>
    -- after the last byte the next turn finds the end of the stream
    rw [turnThen_nil] at h
    obtain ⟨str2, p2, r2, -, ht2, -⟩ := hagain _ _ _ _ h
    cases congrArg IStream.eof ht2
  | cons c r =>
    rw [turnThen_cons] at h
    by_cases hc : c = 'e'.toUInt8
    · rw [if_pos hc] at h
      cases h
      subst hc
      refine ⟨str, p, r, hp, hs, rfl, fun n hn str' r' => ?_⟩
      obtain ⟨n, rfl⟩ : ∃ m, n = m + 1 := ⟨n - 1, by omega⟩
      beta_reduce
      rw [hloop, htake n (by omega), List.singleton_append, turnThen_cons, if_pos rfl]
    · rw [if_neg hc] at h
      obtain ⟨str2, p2, r2, hp2, ht2, hs2, htake2⟩ := hagain _ _ _ _ h
      obtain rfl : str = str2 := congrArg IStream.str ht2
      have hrest : c :: r = p2 ++ (['e'.toUInt8] ++ r2) := congrArg IStream.rest ht2
      obtain ⟨d, p3, rfl⟩ := List.exists_cons_of_ne_nil hp2
      obtain rfl : c = d := (List.cons.inj hrest).1
      refine ⟨str, p ++ c :: p3, r2, by simp, by rw [hs, hrest, List.append_assoc], hs2,
        fun n hn str' r' => ?_⟩
      obtain ⟨n, rfl⟩ : ∃ m, n = m + 1 := ⟨n - 1, by omega⟩
      beta_reduce
      rw [List.append_assoc, hloop, htake n (by omega), List.cons_append, turnThen_cons, if_neg hc]
      exact htake2 n (by omega) str' r'

/-- A list or dictionary takes its first character, what its loop took and the end marker. -/
theorem block_took {γ : Type} {mk : List γ → Element} {c : UInt8} {str r : Bytes} {e : Element}
    (loop : Nat → IStream → Except Exn (List γ × IStream))
    (hloop : ∀ s v s', loop fuel s = .ok (v, s') → Took ['e'.toUInt8] fuel loop s s' v)
    (h : block mk (loop fuel) (goodAt str (c :: r)) = .ok (e, s')) :
    Took [] fuel (fun n => block mk (loop n)) (goodAt str (c :: r)) s' e := by
  cases r with
  | nil =>
    rw [block_nil] at h
    obtain ⟨⟨v, t⟩, hv, -⟩ := map_eq_ok.1 h
    obtain ⟨str2, p, r2, -, hs, -⟩ := hloop _ _ _ hv
    cases congrArg IStream.eof hs
  | cons d r =>
    rw [block_cons] at h
    by_cases hd : d = 'e'.toUInt8
    · rw [if_pos hd] at h
      cases h
      refine ⟨str, [c, d], r, by simp, rfl, rfl, fun n _ str' r' => ?_⟩
      simp only [List.nil_append, List.cons_append, block_cons, if_pos hd]
    · rw [if_neg hd] at h
      obtain ⟨⟨v, t⟩, hv, heq⟩ := map_eq_ok.1 h
      cases heq
      obtain ⟨str2, p, r2, hp, hs, rfl, htake⟩ := hloop _ _ _ hv
      obtain rfl : str = str2 := congrArg IStream.str hs
      have hrest : d :: r = p ++ (['e'.toUInt8] ++ r2) := congrArg IStream.rest hs
      obtain ⟨x, p, rfl⟩ := List.exists_cons_of_ne_nil hp
      obtain rfl : d = x := (List.cons.inj hrest).1
      refine ⟨str, c :: (d :: p ++ ['e'.toUInt8]), r2, by simp, by simp [hrest], rfl,
        fun n hn str' r' => ?_⟩
      have h := htake n hn str' r'
      simp only [List.cons_append, List.append_assoc, List.nil_append] at h ⊢
      rw [block_cons, if_neg hd, h]
      rfl

theorem listTurn_took (f : Nat → IStream → Except Exn (Element × IStream)) {v v' : List Element}
    (hf : ∀ s e s', f fuel s = .ok (e, s') → Took [] fuel f s s' e)
    (h : listTurn (f fuel) s v = .ok (v', s')) :
    Took [] fuel (fun n t => listTurn (f n) t v) s s' v' := by
  obtain ⟨⟨e, t⟩, he, heq⟩ := map_eq_ok.1 h
  cases heq
  exact (hf _ _ _ he).map fun x => v ++ [x]

theorem dictTurn_took (f : Nat → IStream → Except Exn (Element × IStream))
    {m m' : List (Bytes × Element)}
    (hf : ∀ s e s', f fuel s = .ok (e, s') → Took [] fuel f s s' e)
    (h : dictTurn (f fuel) s m = .ok (m', s')) :
    Took [] fuel (fun n t => dictTurn (f n) t m) s s' m' := by
  obtain ⟨⟨k, t⟩, hk, h⟩ := bind_eq_ok.1 h
  obtain ⟨⟨e, u⟩, he, h⟩ := bind_eq_ok.1 h
  cases h
  obtain ⟨str, len, r, rfl, rfl, hkey⟩ := decodeString_takes hk
  obtain ⟨str2, p, r2, -, ht, rfl, hval⟩ := hf _ _ _ he
  obtain rfl : str = str2 := congrArg IStream.str ht
  obtain rfl : r = p ++ ([] ++ r2) := congrArg IStream.rest ht
  refine ⟨str, len ++ ':'.toUInt8 :: k ++ p, r2, by simp, by simp, rfl, fun n hn str' r' => ?_⟩
  simp only [dictTurn]
  rw [List.append_assoc, hkey]
  have hval' := hval n hn str' r'
  simp only [bind, Except.bind, hval']
  rfl

/-- What a branch on the first character takes, the function that branches takes. -/
theorem Took.branch {f g : Nat → IStream → Except Exn (α × IStream)} {a : α} {str r : Bytes}
    {c : UInt8} (hg : ∀ n str r, f (n + 1) (goodAt str (c :: r)) = g n (goodAt str (c :: r)))
    (h : Took [] fuel g (goodAt str (c :: r)) s' a) :
    Took [] (fuel + 1) f (goodAt str (c :: r)) s' a := by
  obtain ⟨str2, p, r2, hp, hs, hs', htake⟩ := h
  obtain ⟨d, p, rfl⟩ := List.exists_cons_of_ne_nil hp
  have hrest : c :: r = d :: p ++ ([] ++ r2) := congrArg IStream.rest hs
  obtain rfl : c = d := (List.cons.inj hrest).1
  refine ⟨str2, c :: p, r2, hp, hs, hs', fun n hn str' r' => ?_⟩
  obtain ⟨n, rfl⟩ : ∃ m, n = m + 1 := ⟨n - 1, by omega⟩
  rw [List.cons_append, hg]
  exact htake n (by omega) str' r'

/-- Each branch takes its bytes, when its nested calls do. -/
theorem decodeInternal_took {e : Element}
    (hlist : ∀ str c r e s', decodeList fuel (goodAt str (c :: r)) (depth + 1) = .ok (e, s') →
      Took [] fuel (fun n t => decodeList n t (depth + 1)) (goodAt str (c :: r)) s' e)
    (hdict : ∀ str c r e s', decodeDict fuel (goodAt str (c :: r)) (depth + 1) = .ok (e, s') →
      Took [] fuel (fun n t => decodeDict n t (depth + 1)) (goodAt str (c :: r)) s' e)
    (h : decodeInternal (fuel + 1) s depth = .ok (e, s')) :
    Took [] (fuel + 1) (fun n t => decodeInternal n t depth) s s' e := by
  cases hpeek : s.peek.1 with
  | none =>
    obtain ⟨what, hw⟩ := decodeInternal_none hpeek fuel depth
    rw [hw] at h
    cases h
  | some c =>
    obtain ⟨str, r, rfl, -⟩ := peek_some hpeek
    rw [decodeInternal_cons] at h
    split at h
    · cases h
    rename_i hdepth
    split at h
    · rename_i hc
      refine Took.branch (g := fun _ t => decodeInt t.ignore)
        (fun n str r => by rw [decodeInternal_cons, if_neg hdepth, if_pos hc]; rfl) ?_
      obtain ⟨str2, p, r2, hs, rfl, htake⟩ := decodeInt_takes h
      obtain rfl : str = str2 := congrArg IStream.str hs
      obtain rfl : r = p ++ r2 := congrArg IStream.rest hs
      exact ⟨str, c :: p, r2, by simp, rfl, rfl, fun n _ str' r' => htake str' r'⟩
    rename_i hint
    split at h
    · rename_i hc
      refine Took.branch (g := fun _ t => (decodeString t).map fun (s, iss) => (.str s, iss))
        (fun n str r => by rw [decodeInternal_cons, if_neg hdepth, if_neg hint, if_pos hc]) ?_
      obtain ⟨⟨text, t⟩, ht, heq⟩ := map_eq_ok.1 h
      cases heq
      obtain ⟨str2, len, r2, hs, hs', htake⟩ := decodeString_takes ht
      exact Took.map Element.str
        ⟨str2, len ++ ':'.toUInt8 :: text, r2, by simp, hs, hs', fun _ _ str' r' => htake str' r'⟩
    rename_i hdigit
    split at h
    · rename_i hc
      exact Took.branch (fun n str r => by
        rw [decodeInternal_cons, if_neg hdepth, if_neg hint, if_neg hdigit, if_pos hc])
        (hlist _ _ _ _ _ h)
    rename_i hl
    split at h
    · rename_i hc
      exact Took.branch (fun n str r => by
        rw [decodeInternal_cons, if_neg hdepth, if_neg hint, if_neg hdigit, if_neg hl, if_pos hc])
        (hdict _ _ _ _ _ h)
    · cases h

/-- Every function of the decoder, with whatever fuel it succeeded. -/
theorem decode_took (fuel : Nat) :
    (∀ s depth e s', decodeInternal fuel s depth = .ok (e, s') →
      Took [] fuel (fun n t => decodeInternal n t depth) s s' e) ∧
    (∀ str c r depth e s', decodeList fuel (goodAt str (c :: r)) depth = .ok (e, s') →
      Took [] fuel (fun n t => decodeList n t depth) (goodAt str (c :: r)) s' e) ∧
    (∀ str c r depth e s', decodeDict fuel (goodAt str (c :: r)) depth = .ok (e, s') →
      Took [] fuel (fun n t => decodeDict n t depth) (goodAt str (c :: r)) s' e) ∧
    (∀ s depth v v' s', decodeListLoop fuel s depth v = .ok (v', s') →
      Took ['e'.toUInt8] fuel (fun n t => decodeListLoop n t depth v) s s' v') ∧
    (∀ s depth m m' s', decodeDictLoop fuel s depth m = .ok (m', s') →
      Took ['e'.toUInt8] fuel (fun n t => decodeDictLoop n t depth m) s s' m') := by
  induction fuel with
  | zero =>
    simp [decodeInternal, decodeList, decodeDict, decodeListLoop, decodeDictLoop]
  | succ fuel ih =>
    obtain ⟨ihI, ihL, ihD, ihLL, ihDL⟩ := ih
    refine ⟨fun s depth e s' h => ?_, fun str c r depth e s' h => ?_, fun str c r depth e s' h => ?_,
      fun s depth v v' s' h => ?_, fun s depth m m' s' h => ?_⟩
    · exact decodeInternal_took (fun str c r => ihL str c r (depth + 1))
        (fun str c r => ihD str c r (depth + 1)) h
    · rw [decodeList_eq] at h
      have htook := block_took (fun n t => decodeListLoop n t depth [])
        (fun s v s' => ihLL s depth [] v s') h
      exact htook.branch fun n str r => decodeList_eq n depth (goodAt str (c :: r))
    · rw [decodeDict_eq] at h
      have htook := block_took (fun n t => decodeDictLoop n t depth [])
        (fun s m s' => ihDL s depth [] m s') h
      exact htook.branch fun n str r => decodeDict_eq n depth (goodAt str (c :: r))
    · exact turnThen_took (fun n t v => decodeListLoop n t depth v)
        (fun n s v => decodeListLoop_eq n depth s v)
        (fun s v v' s' => listTurn_took (fun n t => decodeInternal n t depth) fun s e s' =>
          ihI s depth e s')
        (fun s v v' s' => ihLL s depth v v' s') h
    · exact turnThen_took (fun n t m => decodeDictLoop n t depth m)
        (fun n s m => decodeDictLoop_eq n depth s m)
        (fun s m m' s' => dictTurn_took (fun n t => decodeInternal n t depth) fun s e s' =>
          ihI s depth e s')
        (fun s m m' s' => ihDL s depth m m' s') h

theorem invalidString_eq (iss : IStream) : ∃ what, invalidString iss = .invalidArgument what :=
  ⟨_, rfl⟩

/-- Nothing may follow what the decoder accepts. -/
theorem decode_append {s t : Bytes} {e : Element} (h : decode s = .ok e) (ht : t ≠ []) :
    ∃ what, decode (s ++ t) = .error (.invalidArgument what) := by
  unfold decode at h
  obtain ⟨⟨e', iss⟩, he, hend⟩ := bind_eq_ok.1 h
  obtain ⟨str, p, r, -, hs, rfl, htake⟩ := (decode_took _).1 _ _ _ _ he
  obtain rfl : s = p ++ ([] ++ r) := congrArg IStream.rest hs
  obtain ⟨c, t, rfl⟩ := List.exists_cons_of_ne_nil ht
  cases r with
  | cons d r => simp at hend
  | nil =>
    have hrun := htake (3 * (p ++ ([] ++ []) ++ c :: t).length + 3)
      (by simp only [List.length_append]; omega) (p ++ ([] ++ []) ++ c :: t) (c :: t)
    obtain ⟨what, hwhat⟩ := invalidString_eq (goodAt (p ++ ([] ++ []) ++ c :: t) t)
    refine ⟨what, ?_⟩
    simp only [List.append_nil, List.nil_append] at hrun hwhat ⊢
    simp only [decode, IStream.ofStr, hrun, ← hwhat]
    rfl

theorem decode_append_int : ∃ what,
    decode (Element.encode (.int 1) ++ [101]) = .error (.invalidArgument what) :=
  decode_append ((decode_encode (.int 1)).1 (Element.fits_int.2 (by decide))) (by decide)

end

/-! ## Termination -/

namespace Guarded

section
variable {β : Type}

/-- A turn that read no byte ends the run. -/
def progress (iss : IStream) (turn : Except Exn (β × IStream)) : Except Exn (β × IStream) := do
  let (v, t) ← turn
  if t.rest.length < iss.rest.length then return (v, t) else .error .diverged

/-- The loops, with at most `turns` turns. -/
def loop (turn : IStream → β → Except Exn (β × IStream)) :
    Nat → IStream → β → Except Exn (β × IStream)
  | 0, _, _ => .error .diverged
  | turns + 1, iss, v =>
    turnThen (progress iss (turn iss v)) fun v iss => loop turn turns iss v

end

/-- `decode_internal` with at most `levels` nested calls of it, and in its loops not more turns than
there are bytes left, and one that finds none. -/
def internal : Nat → IStream → Nat → Except Exn (Element × IStream)
  | 0, _, _ => .error .diverged
  | levels + 1, iss, depth =>
    if depth > recursionLimit then .error (.invalidArgument "Recursion limit reached")
    else
      let (c, iss) := iss.peek
      if c = some 'i'.toUInt8 then decodeInt iss.ignore
      else
        let (c, iss) := iss.peek
        if ∃ d ∈ c, isDigit d = true then (decodeString iss).map fun (s, iss) => (.str s, iss)
        else
          let (c, iss) := iss.peek
          if c = some 'l'.toUInt8 then
            block .list (fun iss => loop (listTurn fun t => internal levels t (depth + 1))
              (iss.rest.length + 1) iss []) iss
          else
            let (c, iss) := iss.peek
            if c = some 'd'.toUInt8 then
              block .dict (fun iss => loop (dictTurn fun t => internal levels t (depth + 1))
                (iss.rest.length + 1) iss []) iss
            else .error (invalidString iss)

def decode (str : Bytes) : Except Exn Element := do
  let iss := IStream.ofStr str
  let (elm, iss) ← internal 202 iss 0
  if iss.ignore.eof then return elm else .error (invalidString iss.ignore)

end Guarded

/-- The only exception is the documented one. -/
def Documented {α : Type} (r : Except Exn α) : Prop :=
  ∀ e, r = .error e → ∃ what, e = .invalidArgument what

section
variable {α β γ : Type} {r : Except Exn (β × IStream)} {s : IStream}

theorem Documented.ok (a : α) : Documented (.ok a) := by
  intro e h
  cases h

theorem Documented.invalid (what : String) :
    Documented (.error (.invalidArgument what) : Except Exn α) := by
  rintro e ⟨⟩
  exact ⟨what, rfl⟩

theorem Documented.bind {x : Except Exn α} {f : α → Except Exn γ} (hx : Documented x)
    (hf : ∀ a, x = .ok a → Documented (f a)) : Documented (x >>= f) := by
  cases x with
  | error e => exact fun e' h => hx e' (by cases h; rfl)
  | ok a => exact hf a rfl

theorem Documented.map {x : Except Exn α} (f : α → γ) (hx : Documented x) :
    Documented (x.map f) := by
  cases x with
  | error e => exact fun e' h => hx e' (by cases h; rfl)
  | ok a => exact .ok _

theorem peek_rest (s : IStream) : s.peek.2.rest = s.rest := by
  unfold peek
  split
  · split <;> simp_all
  · rfl

theorem decodeInt_documented (s : IStream) : Documented (decodeInt s) := by
  unfold decodeInt
  dsimp only
  split
  · exact .invalid _
  split
  · exact .invalid _
  · exact .ok _

theorem decodeString_documented (s : IStream) : Documented (decodeString s) := by
  unfold decodeString
  dsimp only
  split
  · exact .invalid _
  split
  · exact .invalid _
  split
  · exact .invalid _
  split
  · exact .invalid _
  · exact .ok _

theorem turnThen_documented {again : β → IStream → Except Exn (β × IStream)} (hr : Documented r)
    (h : ∀ v t, r = .ok (v, t) → Documented (again v t.peek.2)) :
    Documented (turnThen r again) := by
  refine hr.bind fun vt hvt => ?_
  dsimp only
  split
  · exact .invalid _
  split
  · exact .ok _
  · exact h _ _ hvt

theorem turnThen_congr {again again' : β → IStream → Except Exn (β × IStream)}
    (h : ∀ v t, r = .ok (v, t) → again v t.peek.2 = again' v t.peek.2) :
    turnThen r again = turnThen r again' := by
  cases r with
  | error e => rfl
  | ok vt => simp only [turnThen, bind, Except.bind, h vt.1 vt.2 rfl]

theorem block_congr {mk : List γ → Element} {loop loop' : IStream → Except Exn (List γ × IStream)}
    (h : loop s.ignore.peek.2 = loop' s.ignore.peek.2) : block mk loop s = block mk loop' s := by
  simp only [block, h]

theorem block_documented {mk : List γ → Element} {loop : IStream → Except Exn (List γ × IStream)}
    (h : Documented (loop s.ignore.peek.2)) : Documented (block mk loop s) := by
  unfold block
  dsimp only
  split
  · exact h.map _
  · exact .ok _

/-- With enough fuel a loop whose turns read something is the guarded one. -/
theorem loop_eq (turn' : IStream → β → Except Exn (β × IStream))
    (turn loop : Nat → IStream → β → Except Exn (β × IStream))
    (hloop : ∀ n s v, loop (n + 1) s v = turnThen (turn n s v) fun v t => loop n t v)
    (hturn : ∀ n s v, 3 * s.rest.length + 1 ≤ n → turn n s v = turn' s v ∧
      Documented (turn n s v) ∧
      ∀ v' t, turn n s v = .ok (v', t) → t.rest.length < s.rest.length)
    (turns n : Nat) (s : IStream) (v : β) (ht : s.rest.length < turns)
    (hn : 3 * s.rest.length + 2 ≤ n) :
    loop n s v = Guarded.loop turn' turns s v ∧ Documented (loop n s v) := by
  induction turns generalizing n s v with
  | zero => omega
  | succ turns ih =>
    obtain ⟨n, rfl⟩ : ∃ m, n = m + 1 := ⟨n - 1, by omega⟩
    obtain ⟨heq, hdoc, hshort⟩ := hturn n s v (by omega)
    have hprogress : Guarded.progress s (turn n s v) = turn n s v := by
      cases hr : turn n s v with
      | error e => rfl
      | ok vt =>
        simp only [Guarded.progress, bind, Except.bind, if_pos (hshort vt.1 vt.2 hr)]
        rfl
    have hnext : ∀ w t, turn n s v = .ok (w, t) →
        loop n t.peek.2 w = Guarded.loop turn' turns t.peek.2 w ∧
          Documented (loop n t.peek.2 w) := by
      intro w t hw
      have hlt := hshort w t hw
      have hrest := congrArg List.length (peek_rest t)
      exact ih n t.peek.2 w (by omega) (by omega)
    rw [hloop, Guarded.loop, ← heq, hprogress]
    exact ⟨turnThen_congr fun w t hw => (hnext w t hw).1,
      turnThen_documented hdoc fun w t hw => (hnext w t hw).2⟩

end

theorem Guarded.internal_none {s : IStream} (h : s.peek.1 = none) (fuel levels depth : Nat) :
    decodeInternal (fuel + 1) s depth = internal (levels + 1) s depth := by
  have h2 := peek_none h
  have h3 := peek_none h2
  simp only [decodeInternal, internal, h, h2, h3, peek_none h3]
  rfl

theorem Guarded.internal_cons (levels : Nat) (str : Bytes) (c : UInt8) (r : Bytes) (depth : Nat) :
    internal (levels + 1) (goodAt str (c :: r)) depth =
      if depth > recursionLimit then .error (.invalidArgument "Recursion limit reached")
      else if c = 'i'.toUInt8 then decodeInt (goodAt str r)
      else if isDigit c = true then
        (decodeString (goodAt str (c :: r))).map fun (s, iss) => (.str s, iss)
      else if c = 'l'.toUInt8 then
        block .list (fun iss => loop (listTurn fun t => internal levels t (depth + 1))
          (iss.rest.length + 1) iss []) (goodAt str (c :: r))
      else if c = 'd'.toUInt8 then
        block .dict (fun iss => loop (dictTurn fun t => internal levels t (depth + 1))
          (iss.rest.length + 1) iss []) (goodAt str (c :: r))
      else .error (invalidString (goodAt str (c :: r))) := by
  simp [internal]

/-- At one depth the guarded decoder does what the decoder does, which is documented. -/
def Agrees (levels depth : Nat) : Prop :=
  ∀ n t, 3 * t.rest.length + 1 ≤ n →
    decodeInternal n t depth = Guarded.internal levels t depth ∧
      Documented (decodeInternal n t depth)

section
variable {levels depth fuel : Nat} {str r : Bytes} {c : UInt8}

theorem decodeList_agrees (h : Agrees levels depth) (hf : 3 * r.length + 3 ≤ fuel) :
    decodeList fuel (goodAt str (c :: r)) depth =
      block .list (fun iss => Guarded.loop (listTurn fun t => Guarded.internal levels t depth)
        (iss.rest.length + 1) iss []) (goodAt str (c :: r)) ∧
    Documented (decodeList fuel (goodAt str (c :: r)) depth) := by
  obtain ⟨fuel, rfl⟩ : ∃ m, fuel = m + 1 := ⟨fuel - 1, by omega⟩
  have hrest : (goodAt str (c :: r)).ignore.peek.2.rest = r := peek_rest _
  rw [decodeList_eq]
  have hloop := loop_eq (listTurn fun t => Guarded.internal levels t depth)
    (fun n => listTurn fun t => decodeInternal n t depth)
    (fun n t v => decodeListLoop n t depth v)
    (fun n s v => decodeListLoop_eq n depth s v) (fun n s v hn => ?_)
    (r.length + 1) fuel (goodAt str (c :: r)).ignore.peek.2 [] (by rw [hrest]; omega)
    (by rw [hrest]; omega)
  · exact ⟨block_congr (by rw [hrest]; exact hloop.1), block_documented hloop.2⟩
  · obtain ⟨heq, hdoc⟩ := h n s hn
    refine ⟨by simp only [listTurn, heq], hdoc.map _, fun v' t ht => ?_⟩
    exact (listTurn_took (fun n t => decodeInternal n t depth)
      (fun s e s' => (decode_took n).1 s depth e s') ht).shorter

theorem decodeDict_agrees (h : Agrees levels depth) (hf : 3 * r.length + 3 ≤ fuel) :
    decodeDict fuel (goodAt str (c :: r)) depth =
      block .dict (fun iss => Guarded.loop (dictTurn fun t => Guarded.internal levels t depth)
        (iss.rest.length + 1) iss []) (goodAt str (c :: r)) ∧
    Documented (decodeDict fuel (goodAt str (c :: r)) depth) := by
  obtain ⟨fuel, rfl⟩ : ∃ m, fuel = m + 1 := ⟨fuel - 1, by omega⟩
  have hrest : (goodAt str (c :: r)).ignore.peek.2.rest = r := peek_rest _
  rw [decodeDict_eq]
  have hloop := loop_eq (dictTurn fun t => Guarded.internal levels t depth)
    (fun n => dictTurn fun t => decodeInternal n t depth)
    (fun n t m => decodeDictLoop n t depth m)
    (fun n s m => decodeDictLoop_eq n depth s m) (fun n s m hn => ?_)
    (r.length + 1) fuel (goodAt str (c :: r)).ignore.peek.2 [] (by rw [hrest]; omega)
    (by rw [hrest]; omega)
  · exact ⟨block_congr (by rw [hrest]; exact hloop.1), block_documented hloop.2⟩
  · refine ⟨?_, ?_, fun m' t ht => ?_⟩
    · cases hkey : decodeString s with
      | error e => simp only [dictTurn, hkey, bind, Except.bind]
      | ok kt =>
        obtain ⟨str2, len, r2, rfl, ht, -⟩ := decodeString_takes hkey
        have heq := (h n kt.2 (by simp [ht] at hn ⊢; omega)).1
        simp only [dictTurn, hkey, bind, Except.bind, heq]
    · refine (decodeString_documented s).bind fun kt hkey => ?_
      obtain ⟨str2, len, r2, rfl, ht, -⟩ := decodeString_takes hkey
      exact (h n kt.2 (by simp [ht] at hn ⊢; omega)).2.bind fun _ _ => .ok _
    · exact (dictTurn_took (fun n t => decodeInternal n t depth)
        (fun s e s' => (decode_took n).1 s depth e s') ht).shorter

end

/-- Within its levels the guarded decoder is the decoder. -/
theorem internal_agrees (levels depth : Nat) (hl : 202 ≤ depth + levels) (hd : depth ≤ 201) :
    Agrees levels depth := by
  induction levels generalizing depth with
  | zero => omega
  | succ levels ih =>
    intro fuel s hf
    obtain ⟨fuel, rfl⟩ : ∃ m, fuel = m + 1 := ⟨fuel - 1, by omega⟩
    cases hpeek : s.peek.1 with
    | none =>
      obtain ⟨what, hw⟩ := decodeInternal_none hpeek fuel depth
      exact ⟨Guarded.internal_none hpeek fuel levels depth, hw ▸ .invalid _⟩
    | some c =>
      obtain ⟨str, r, rfl, -⟩ := peek_some hpeek
      rw [List.length_cons] at hf
      rw [decodeInternal_cons, Guarded.internal_cons]
      split
      · exact ⟨rfl, .invalid _⟩
      rename_i hdepth
      simp only [recursionLimit] at hdepth
      have hin := ih (depth + 1) (by omega) (by omega)
      split
      · exact ⟨rfl, decodeInt_documented _⟩
      split
      · exact ⟨rfl, (decodeString_documented _).map _⟩
      split
      · exact decodeList_agrees hin (by omega)
      split
      · exact decodeDict_agrees hin (by omega)
      · exact ⟨rfl, .invalid _⟩

/-- On every text the guarded decoder, which no guard stops, and the decoder agree, and they return
or throw the documented exception. -/
theorem decode_guarded (str : Bytes) :
    (∀ fuel, 3 * str.length + 1 ≤ fuel →
      decodeInternal fuel (IStream.ofStr str) 0 = Guarded.internal 202 (IStream.ofStr str) 0) ∧
    decode str = Guarded.decode str ∧
    ((∃ e, decode str = .ok e) ∨ ∃ what, decode str = .error (.invalidArgument what)) := by
  have h := internal_agrees 202 0 (by omega) (by omega)
  obtain ⟨heq, hdoc⟩ := h (3 * str.length + 3) (IStream.ofStr str) (by simp [IStream.ofStr])
  refine ⟨fun fuel hf => (h fuel (IStream.ofStr str) hf).1, ?_, ?_⟩
  · simp only [decode, Guarded.decode, heq]
  · have hdecode : Documented (decode str) := by
      refine hdoc.bind fun es _ => ?_
      dsimp only
      split
      · exact .ok _
      · exact .invalid _
    cases hr : decode str with
    | ok e => exact .inl ⟨e, rfl⟩
    | error e =>
      obtain ⟨what, rfl⟩ := hdecode e hr
      exact .inr ⟨what, rfl⟩

end Bencode

end Zit
