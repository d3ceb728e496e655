import Zit.Bencode
import Zit.Lib.Fallible

/-!
# Decoding what was encoded

On a good stream that starts with the encoding of `v`, `decodeInternal` reads exactly that
encoding and returns `v` when `v` fits the limits below the current depth, and throws
`invalid_argument` when it does not (`decodeInternal_encode`). The induction is on `v`; the two
loops carry the elements, and the sorted entries, read so far.
-/

set_option autoImplicit false

namespace Zit

open Lib Lib.Decimal Lib.IStream

namespace Element

/-! ## Nesting -/

/-- `x` sits at nesting level `n` of an element, which is at level 0 itself. -/
inductive At : Element → Nat → Element → Prop
  | root (e : Element) : At e 0 e
  | item {v : List Element} {e x : Element} {n : Nat} :
      e ∈ v → At e n x → At (.list v) (n + 1) x
  | value {m : List (Bytes × Element)} {kv : Bytes × Element} {x : Element} {n : Nat} :
      kv ∈ m → At kv.2 n x → At (.dict m) (n + 1) x

/-- The strings and keys an element holds itself. -/
def texts : Element → List Bytes
  | .str s => [s]
  | .dict m => m.map (·.1)
  | _ => []

/-- An element at level `d` and all it holds is within the decoder's limits. -/
def Fits (d : Nat) (e : Element) : Prop :=
  ∀ n x, At e n x → d + n ≤ Bencode.recursionLimit ∧
    ∀ s ∈ x.texts, s.length ≤ Bencode.maxStringLength

theorem fits_depth {d : Nat} {e : Element} (h : Fits d e) : d ≤ Bencode.recursionLimit :=
  (h 0 e (.root e)).1

theorem fits_int {d : Nat} {i : Int64} : Fits d (.int i) ↔ d ≤ Bencode.recursionLimit := by
  refine ⟨fits_depth, ?_⟩
  rintro h n x ⟨⟩
  exact ⟨h, by simp [texts]⟩

theorem fits_str {d : Nat} {s : Bytes} :
    Fits d (.str s) ↔ d ≤ Bencode.recursionLimit ∧ s.length ≤ Bencode.maxStringLength := by
  refine ⟨fun h => ⟨fits_depth h, (h 0 _ (.root _)).2 s (by simp [texts])⟩, ?_⟩
  rintro ⟨hd, hs⟩ n x ⟨⟩
  exact ⟨hd, by simpa [texts] using hs⟩

theorem fits_list {d : Nat} {v : List Element} :
    Fits d (.list v) ↔ d ≤ Bencode.recursionLimit ∧ ∀ e ∈ v, Fits (d + 1) e := by
  refine ⟨fun h => ⟨fits_depth h, fun e he n x hx => ?_⟩, ?_⟩
  · obtain ⟨h1, h2⟩ := h (n + 1) x (.item he hx)
    exact ⟨by omega, h2⟩
  · rintro ⟨hd, hv⟩ n x hx
    cases hx with
    | root => exact ⟨hd, by simp [texts]⟩
    | item he hx =>
      obtain ⟨h1, h2⟩ := hv _ he _ _ hx
      exact ⟨by omega, h2⟩

theorem fits_dict {d : Nat} {m : List (Bytes × Element)} :
    Fits d (.dict m) ↔ d ≤ Bencode.recursionLimit ∧
      ∀ kv ∈ m, kv.1.length ≤ Bencode.maxStringLength ∧ Fits (d + 1) kv.2 := by
  refine ⟨fun h => ⟨fits_depth h, fun kv hkv => ⟨?_, fun n x hx => ?_⟩⟩, ?_⟩
  · exact (h 0 _ (.root _)).2 kv.1 (List.mem_map_of_mem hkv)
  · obtain ⟨h1, h2⟩ := h (n + 1) x (.value hkv hx)
    exact ⟨by omega, h2⟩
  · rintro ⟨hd, hm⟩ n x hx
    cases hx with
    | root =>
      refine ⟨hd, fun s hs => ?_⟩
      obtain ⟨kv, hkv, rfl⟩ := List.mem_map.1 hs
      exact (hm kv hkv).1
    | value hkv hx =>
      obtain ⟨h1, h2⟩ := (hm _ hkv).2 _ _ hx
      exact ⟨by omega, h2⟩

/-! ## The head of an encoding -/

theorem encodeString_head (s : Bytes) :
    ∃ c cs, encodeString s = c :: cs ∧ isDigit c = true := by
  obtain ⟨c, cs, h⟩ := List.exists_cons_of_ne_nil (digits_ne_nil s.length)
  refine ⟨c, cs ++ ':'.toUInt8 :: s, by simp [encodeString, h], ?_⟩
  exact isDigit_digits s.length c (by simp [h])

theorem ne_of_isDigit {c : UInt8} (h : isDigit c = true) :
    c ≠ 'i'.toUInt8 ∧ c ≠ 'l'.toUInt8 ∧ c ≠ 'd'.toUInt8 ∧ c ≠ 'e'.toUInt8 := by
  refine ⟨?_, ?_, ?_, ?_⟩ <;> (rintro rfl; exact absurd h (by decide))

/-- No element begins with the end marker. -/
theorem encode_head (e : Element) : ∃ c cs, encode e = c :: cs ∧ c ≠ 'e'.toUInt8 := by
  cases e with
  | int i => exact ⟨_, _, by rw [encode, List.cons_append], by decide⟩
  | str s =>
    obtain ⟨c, cs, h, hc⟩ := encodeString_head s
    exact ⟨c, cs, by rw [encode, h], (ne_of_isDigit hc).2.2.2⟩
  | list v => exact ⟨_, _, by rw [encode, List.cons_append], by decide⟩
  | dict m => exact ⟨_, _, by rw [encode, List.cons_append], by decide⟩

/-! ## Maps -/

/-- A key above all keys of a map goes to its end. -/
theorem insertKey_last {k : Bytes} {e : Element} {m : List (Bytes × Element)}
    (h : ∀ kv ∈ m, kv.1 < k) : insertKey k e m = m ++ [(k, e)] := by
  induction m with
  | nil => rfl
  | cons kv m ih =>
    obtain ⟨k', e'⟩ := kv
    have hk : k' < k := h (k', e') (by simp)
    rw [insertKey, if_neg (List.lt_asymm hk), if_pos hk, ih fun kv hkv => h kv (by simp [hkv])]
    rfl

theorem mem_insertKey {k : Bytes} {e : Element} {m : List (Bytes × Element)}
    {kv : Bytes × Element} (h : kv ∈ insertKey k e m) : kv = (k, e) ∨ kv ∈ m := by
  induction m with
  | nil => exact .inl (by simpa [insertKey] using h)
  | cons kv' m ih =>
    obtain ⟨k', e'⟩ := kv'
    simp only [insertKey] at h
    split at h
    · exact List.mem_cons.1 h
    · split at h
      · rcases List.mem_cons.1 h with h | h
        · exact .inr (by simp [h])
        · exact (ih h).imp_right (List.mem_cons_of_mem _)
      · rename_i h1 h2
        rw [show k' = k from List.le_antisymm h1 h2] at h
        exact (List.mem_cons.1 h).imp_right (List.mem_cons_of_mem _)

/-- A map stays sorted. -/
theorem insertKey_sorted {k : Bytes} {e : Element} {m : List (Bytes × Element)}
    (h : (m.map (·.1)).Pairwise (· < ·)) : ((insertKey k e m).map (·.1)).Pairwise (· < ·) := by
  induction m with
  | nil => simp [insertKey]
  | cons kv m ih =>
    obtain ⟨k', e'⟩ := kv
    simp only [List.map_cons, List.pairwise_cons] at h
    simp only [insertKey]
    split
    · rename_i hlt
      simp only [List.map_cons, List.pairwise_cons, List.mem_cons]
      refine ⟨?_, h⟩
      intro x h
      rcases h with rfl | hx
      · exact hlt
      · exact List.lt_trans hlt (h.1 x hx)
    · split
      · rename_i hlt
        rw [List.map_cons, List.pairwise_cons]
        refine ⟨fun x hx => ?_, ih h.2⟩
        obtain ⟨kv, hkv, rfl⟩ := List.mem_map.1 hx
        rcases mem_insertKey hkv with rfl | hkv
        · exact hlt
        · exact h.1 _ (List.mem_map_of_mem hkv)
      · simpa only [List.map_cons, List.pairwise_cons] using h

end Element

namespace Bencode

open Element

/-! ## Outcomes -/

/-- The result is `x` under the condition `p`, and `invalid_argument` otherwise. -/
def Outcome {α : Type} (p : Prop) (x : α) (r : Except Exn α) : Prop :=
  (p → r = .ok x) ∧ (¬p → ∃ what, r = .error (.invalidArgument what))

theorem Outcome.congr {α : Type} {p q : Prop} {x : α} {r : Except Exn α} (h : Outcome p x r)
    (hpq : p ↔ q) : Outcome q x r := by
  rwa [← propext hpq]

/-- In sequence, both conditions are needed. -/
theorem Outcome.bind {α β : Type} {p q : Prop} {x : α} {y : β} {r : Except Exn α}
    {f : α → Except Exn β} (h : Outcome p x r) (hf : Outcome q y (f x)) :
    Outcome (p ∧ q) y (r >>= f) := by
  by_cases hp : p
  · rw [h.1 hp]
    exact hf.congr (by simp [hp])
  · obtain ⟨what, hw⟩ := h.2 hp
    rw [hw]
    exact ⟨fun hpq => absurd hpq.1 hp, fun _ => ⟨what, rfl⟩⟩

theorem Outcome.map {α β : Type} {p : Prop} {x : α} {r : Except Exn α} (f : α → β)
    (h : Outcome p x r) : Outcome p (f x) (r.map f) := by
  refine ⟨fun hp => by rw [h.1 hp]; rfl, fun hp => ?_⟩
  obtain ⟨what, hw⟩ := h.2 hp
  exact ⟨what, by rw [hw]; rfl⟩

/-! ## Integers and strings -/

section
variable (str : Bytes)

theorem decodeInt_encode (i : Int64) (rest : Bytes) :
    decodeInt (goodAt str (intDigits i.toInt ++ 'e'.toUInt8 :: rest)) =
      .ok (.int i, goodAt str rest) := by
  have hlo := i.le_toInt
  have hhi := i.toInt_lt
  unfold decodeInt
  rw [extractInt_good str ⟨hlo, hhi⟩ _ _ (by decide)]
  simp [Int64.ofInt_toInt]

theorem decodeString_encode (s rest : Bytes) :
    Outcome (s.length ≤ maxStringLength) (s, goodAt str rest)
      (decodeString (goodAt str (encodeString s ++ rest))) := by
  have hcolon : isDigit ':'.toUInt8 = false := by decide
  have htext : encodeString s ++ rest = digits s.length ++ ':'.toUInt8 :: (s ++ rest) := by
    simp [encodeString]
  rw [htext]
  by_cases hlen : s.length < 2 ^ 64
  · unfold decodeString
    rw [extractNat_good str hlen _ _ hcolon]
    refine ⟨fun h => ?_, fun h => ?_⟩
    · have hle : ¬s.length > maxStringLength := by omega
      simp [hle, read_good]
    · have hgt : s.length > maxStringLength := by omega
      simp [hgt]
  · have hfail := extractNat_overflow str (Nat.le_of_not_lt hlen) ':'.toUInt8 (s ++ rest) hcolon
    refine ⟨fun h => ?_, fun _ => ⟨"Could not convert string length to integer", ?_⟩⟩
    · unfold maxStringLength at h
      omega
    · unfold decodeString
      simp only [hfail, if_true]

/-! ## Elements -/

theorem length_encode_pos (e : Element) : 0 < (encode e).length := by
  obtain ⟨c, cs, h, -⟩ := encode_head e
  rw [h]
  exact Nat.succ_pos _

/-- What the decoder does on the encoding of `e`, with enough fuel. -/
def Decodes (e : Element) : Prop :=
  ∀ (rest : Bytes) (depth fuel : Nat), 3 * (encode e).length + 3 ≤ fuel →
    Outcome (Fits depth e) (e, goodAt str rest)
      (decodeInternal fuel (goodAt str (encode e ++ rest)) depth)

variable {str}

/-- The loop of `decodeList`, on the elements that are left. -/
theorem decodeListLoop_encode {v : List Element} (hv : ∀ e ∈ v, Decodes str e) (hne : v ≠ [])
    (rest : Bytes) (depth : Nat) (acc : List Element) (fuel : Nat)
    (hf : 3 * (encodeList v).length + 4 ≤ fuel) :
    Outcome (∀ e ∈ v, Fits depth e) (acc ++ v, goodAt str ('e'.toUInt8 :: rest))
      (decodeListLoop fuel (goodAt str (encodeList v ++ 'e'.toUInt8 :: rest)) depth acc) := by
  induction v generalizing acc fuel with
  | nil => exact absurd rfl hne
  | cons e v ih =>
    have hpos := length_encode_pos e
    rw [encodeList, List.length_append] at hf
    obtain ⟨fuel, rfl⟩ : ∃ n, fuel = n + 1 := ⟨fuel - 1, by omega⟩
    rw [decodeListLoop, encodeList, List.append_assoc]
    refine Outcome.congr ((hv e (by simp) _ depth fuel (by omega)).bind
      (q := ∀ e ∈ v, Fits depth e) ?_) (by simp)
    by_cases hv0 : v = []
    · subst hv0
      refine ⟨fun _ => ?_, fun h => absurd (by simp) h⟩
      simp [encodeList]
      rfl
    · -- the next element begins with a character that is no end marker
      obtain ⟨e', v', rfl⟩ := List.exists_cons_of_ne_nil hv0
      obtain ⟨c, cs, hc, hce⟩ := encode_head e'
      have ih' := ih (fun x hx => hv x (by simp [hx])) hv0 (acc ++ [e]) fuel (by omega)
      have hhead : encodeList (e' :: v') ++ 'e'.toUInt8 :: rest =
          c :: (cs ++ encodeList v' ++ 'e'.toUInt8 :: rest) := by
        simp [encodeList, hc]
      rw [List.append_assoc, List.singleton_append] at ih'
      rw [hhead] at ih' ⊢
      simpa [hce] using ih'

/-- The loop of `decodeDict`: the keys left are above those of the map so far. -/
theorem decodeDictLoop_encode {m : List (Bytes × Element)}
    (hm : ∀ kv ∈ m, Decodes str kv.2) (hne : m ≠ []) (hk : (m.map (·.1)).Pairwise (· < ·))
    (rest : Bytes) (depth : Nat) (acc : List (Bytes × Element))
    (hacc : ∀ kv ∈ acc, ∀ kv' ∈ m, kv.1 < kv'.1) (fuel : Nat)
    (hf : 3 * (encodeDict m).length + 4 ≤ fuel) :
    Outcome (∀ kv ∈ m, kv.1.length ≤ maxStringLength ∧ Fits depth kv.2)
      (acc ++ m, goodAt str ('e'.toUInt8 :: rest))
      (decodeDictLoop fuel (goodAt str (encodeDict m ++ 'e'.toUInt8 :: rest)) depth acc) := by
  induction m generalizing acc fuel with
  | nil => exact absurd rfl hne
  | cons kv m ih =>
    obtain ⟨k, e⟩ := kv
    have hpos := length_encode_pos e
    have he : Decodes str e := hm (k, e) (by simp)
    rw [encodeDict, List.length_append, List.length_append] at hf
    rw [List.map_cons, List.pairwise_cons] at hk
    obtain ⟨fuel, rfl⟩ : ∃ n, fuel = n + 1 := ⟨fuel - 1, by omega⟩
    have hins : insertKey k e acc = acc ++ [(k, e)] :=
      insertKey_last fun kv hkv => hacc kv hkv (k, e) (by simp)
    rw [decodeDictLoop, encodeDict, List.append_assoc, List.append_assoc]
    refine Outcome.congr ((decodeString_encode str k _).bind
      ((he _ depth fuel (by omega)).bind
        (q := ∀ kv ∈ m, kv.1.length ≤ maxStringLength ∧ Fits depth kv.2) ?_))
      (by simp [and_assoc])
    simp only [hins]
    by_cases hm0 : m = []
    · subst hm0
      refine ⟨fun _ => ?_, fun h => absurd (by simp) h⟩
      simp [encodeDict]
      rfl
    · obtain ⟨⟨k', e'⟩, m', rfl⟩ := List.exists_cons_of_ne_nil hm0
      obtain ⟨c, cs, hc, hcd⟩ := encodeString_head k'
      have hce := (ne_of_isDigit hcd).2.2.2
      have hacc' : ∀ kv ∈ acc ++ [(k, e)], ∀ kv' ∈ (k', e') :: m', kv.1 < kv'.1 := by
        intro kv hkv kv' hkv'
        rcases List.mem_append.1 hkv with hkv | hkv
        · exact hacc kv hkv kv' (List.mem_cons_of_mem _ hkv')
        · rw [List.mem_singleton.1 hkv]
          exact hk.1 _ (List.mem_map_of_mem hkv')
      have ih' := ih (fun x hx => hm x (by simp [hx])) hm0 hk.2 (acc ++ [(k, e)]) hacc' fuel
        (by omega)
      have hhead : encodeDict ((k', e') :: m') ++ 'e'.toUInt8 :: rest =
          c :: (cs ++ encode e' ++ encodeDict m' ++ 'e'.toUInt8 :: rest) := by
        simp [encodeDict, hc]
      rw [List.append_assoc, List.singleton_append] at ih'
      rw [hhead] at ih' ⊢
      simpa [hce] using ih'

theorem decodeList_encode {v : List Element} (hv : ∀ e ∈ v, Decodes str e) (rest : Bytes)
    (depth fuel : Nat) (hf : 3 * (encodeList v).length + 5 ≤ fuel) :
    Outcome (∀ e ∈ v, Fits depth e) (.list v, goodAt str rest)
      (decodeList fuel (goodAt str ('l'.toUInt8 :: (encodeList v ++ 'e'.toUInt8 :: rest))) depth) := by
  obtain ⟨fuel, rfl⟩ : ∃ n, fuel = n + 1 := ⟨fuel - 1, by omega⟩
  rw [decodeList]
  by_cases hv0 : v = []
  · subst hv0
    refine ⟨fun _ => ?_, fun h => absurd (by simp) h⟩
    simp [encodeList]
    rfl
  · have hloop := decodeListLoop_encode hv hv0 rest depth [] fuel (by omega)
    obtain ⟨e', v', rfl⟩ := List.exists_cons_of_ne_nil hv0
    obtain ⟨c, cs, hc, hce⟩ := encode_head e'
    have hhead : encodeList (e' :: v') ++ 'e'.toUInt8 :: rest =
        c :: (cs ++ encodeList v' ++ 'e'.toUInt8 :: rest) := by
      simp [encodeList, hc]
    rw [hhead] at hloop ⊢
    have hmap := hloop.map fun x => (Element.list x.1, x.2.ignore)
    simp only [ignore_good, peek_good, ne_eq, Option.some.injEq, hce, not_false_eq_true, if_true]
    simpa [Except.map, bind, Except.bind, pure, Except.pure] using hmap

theorem decodeDict_encode {m : List (Bytes × Element)} (hm : ∀ kv ∈ m, Decodes str kv.2)
    (hk : (m.map (·.1)).Pairwise (· < ·)) (rest : Bytes) (depth fuel : Nat)
    (hf : 3 * (encodeDict m).length + 5 ≤ fuel) :
    Outcome (∀ kv ∈ m, kv.1.length ≤ maxStringLength ∧ Fits depth kv.2)
      (.dict m, goodAt str rest)
      (decodeDict fuel (goodAt str ('d'.toUInt8 :: (encodeDict m ++ 'e'.toUInt8 :: rest))) depth) := by
  obtain ⟨fuel, rfl⟩ : ∃ n, fuel = n + 1 := ⟨fuel - 1, by omega⟩
  rw [decodeDict]
  by_cases hm0 : m = []
  · subst hm0
    refine ⟨fun _ => ?_, fun h => absurd (by simp) h⟩
    simp [encodeDict]
    rfl
  · have hloop := decodeDictLoop_encode hm hm0 hk rest depth [] (by simp) fuel (by omega)
    obtain ⟨⟨k', e'⟩, m', rfl⟩ := List.exists_cons_of_ne_nil hm0
    obtain ⟨c, cs, hc, hcd⟩ := encodeString_head k'
    have hce := (ne_of_isDigit hcd).2.2.2
    have hhead : encodeDict ((k', e') :: m') ++ 'e'.toUInt8 :: rest =
        c :: (cs ++ encode e' ++ encodeDict m' ++ 'e'.toUInt8 :: rest) := by
      simp [encodeDict, hc]
    rw [hhead] at hloop ⊢
    have hmap := hloop.map fun x => (Element.dict x.1, x.2.ignore)
    simp only [ignore_good, peek_good, ne_eq, Option.some.injEq, hce, not_false_eq_true, if_true]
    simpa [Except.map, bind, Except.bind, pure, Except.pure] using hmap

variable (str)

/-- The encoding of an element is decoded to that element, or rejected for the limits. -/
theorem decodeInternal_encode {e : Element} (he : e.Ordered) : Decodes str e := by
  induction he with
  | int i =>
    intro rest depth fuel hf
    obtain ⟨fuel, rfl⟩ : ∃ n, fuel = n + 1 := ⟨fuel - 1, by omega⟩
    rw [decodeInternal, encode]
    refine Outcome.congr ⟨fun h => ?_, fun h => ?_⟩ fits_int.symm
    · rw [if_neg (by omega)]
      simpa using decodeInt_encode str i rest
    · exact ⟨_, by rw [if_pos (by omega)]⟩
  | str s =>
    intro rest depth fuel hf
    obtain ⟨fuel, rfl⟩ : ∃ n, fuel = n + 1 := ⟨fuel - 1, by omega⟩
    obtain ⟨c, cs, hc, hcd⟩ := encodeString_head s
    have hne := ne_of_isDigit hcd
    have h := (decodeString_encode str s rest).map fun x => (Element.str x.1, x.2)
    rw [decodeInternal, encode]
    rw [hc] at h ⊢
    by_cases hd : depth ≤ recursionLimit
    · rw [if_neg (by omega)]
      refine Outcome.congr ?_ (show s.length ≤ maxStringLength ↔ _ by simp [fits_str, hd])
      simpa [hne, hcd] using h
    · rw [if_pos (by omega)]
      exact ⟨fun h => absurd (fits_depth h) hd, fun _ => ⟨_, rfl⟩⟩
  | @list v _ ih =>
    intro rest depth fuel hf
    rw [encode, List.length_append, List.length_cons] at hf
    obtain ⟨fuel, rfl⟩ : ∃ n, fuel = n + 1 := ⟨fuel - 1, by omega⟩
    have h := decodeList_encode ih rest (depth + 1) fuel (by omega)
    have hl : 'l'.toUInt8 ≠ 'i'.toUInt8 ∧ isDigit 'l'.toUInt8 = false := by decide
    rw [decodeInternal, encode]
    by_cases hd : depth ≤ recursionLimit
    · rw [if_neg (by omega)]
      refine Outcome.congr ?_ (show _ ↔ _ by rw [fits_list, and_iff_right hd])
      simpa [hl] using h
    · rw [if_pos (by omega)]
      exact ⟨fun h => absurd (fits_depth h) hd, fun _ => ⟨_, rfl⟩⟩
  | @dict m hk _ ih =>
    intro rest depth fuel hf
    rw [encode, List.length_append, List.length_cons] at hf
    obtain ⟨fuel, rfl⟩ : ∃ n, fuel = n + 1 := ⟨fuel - 1, by omega⟩
    have h := decodeDict_encode ih hk rest (depth + 1) fuel (by omega)
    have hl : 'd'.toUInt8 ≠ 'i'.toUInt8 ∧ isDigit 'd'.toUInt8 = false ∧
        'd'.toUInt8 ≠ 'l'.toUInt8 := by decide
    rw [decodeInternal, encode]
    by_cases hd : depth ≤ recursionLimit
    · rw [if_neg (by omega)]
      refine Outcome.congr ?_ (show _ ↔ _ by rw [fits_dict, and_iff_right hd])
      simpa [hl] using h
    · rw [if_pos (by omega)]
      exact ⟨fun h => absurd (fits_depth h) hd, fun _ => ⟨_, rfl⟩⟩

end

/-- The whole input is the encoding of an element. -/
theorem decode_encode {e : Element} (he : e.Ordered) : Outcome (Fits 0 e) e (decode (encode e)) := by
  have h := decodeInternal_encode (encode e) he [] 0 (3 * (encode e).length + 3) (Nat.le_refl _)
  rw [List.append_nil] at h
  unfold decode
  refine Outcome.congr (h.bind (q := True) ⟨fun _ => rfl, fun h => absurd trivial h⟩) (by simp)

/-- Decoding undoes encoding exactly within the nesting and length limits. -/
theorem decode_encode_value (v : BeValue) :
    ((∀ n x, v.element.At n x → n ≤ 200 ∧ ∀ s ∈ x.texts, s.length ≤ 100000000) →
      decode (encode v.element) = .ok v.element) ∧
    (¬(∀ n x, v.element.At n x → n ≤ 200 ∧ ∀ s ∈ x.texts, s.length ≤ 100000000) →
      ∃ what, decode (encode v.element) = .error (.invalidArgument what)) := by
  refine (decode_encode v.ordered).congr ?_
  simp [Fits, recursionLimit, maxStringLength]

/-! ## What the decoder builds -/

/-- A property of elements that the decoder keeps when it puts one together. -/
structure Kept (P : Element → Prop) : Prop where
  int : ∀ i, P (.int i)
  str : ∀ s, s.length ≤ maxStringLength → P (.str s)
  list : ∀ v, (∀ e ∈ v, P e) → P (.list v)
  dict : ∀ m, (m.map (·.1)).Pairwise (· < ·) → (∀ kv ∈ m, P kv.2) → P (.dict m)

section
variable {P : Element → Prop}

theorem decodeInt_int {iss iss' : IStream} {e : Element} (h : decodeInt iss = .ok (e, iss')) :
    ∃ i, e = .int i := by
  simp only [decodeInt] at h
  split at h
  · cases h
  split at h
  · cases h
  · cases h
    exact ⟨_, rfl⟩

/-- A string that is returned is within the limit. -/
theorem decodeString_length {iss iss' : IStream} {s : Bytes}
    (h : decodeString iss = .ok (s, iss')) : s.length ≤ maxStringLength := by
  simp only [decodeString] at h
  split at h
  · cases h
  split at h
  · cases h
  split at h
  · cases h
  rename_i hlen
  split at h
  · cases h
  · rename_i heof
    cases h
    unfold IStream.read at heof ⊢
    split
    · split
      · rename_i hgood hshort
        rw [if_pos hgood, if_pos hshort] at heof
        exact absurd rfl heof
      · exact (List.length_take_le _ _).trans (Nat.not_lt.1 hlen)
    · exact Nat.zero_le _

/-- The decoder's functions keep it with this fuel; the loops keep what they have so far. -/
structure KeptWith (P : Element → Prop) (fuel : Nat) : Prop where
  internal : ∀ iss depth e iss', decodeInternal fuel iss depth = .ok (e, iss') → P e
  list : ∀ iss depth e iss', decodeList fuel iss depth = .ok (e, iss') → P e
  listLoop : ∀ iss depth v v' iss', (∀ e ∈ v, P e) →
    decodeListLoop fuel iss depth v = .ok (v', iss') → ∀ e ∈ v', P e
  dict : ∀ iss depth e iss', decodeDict fuel iss depth = .ok (e, iss') → P e
  dictLoop : ∀ iss depth m m' iss', (m.map (·.1)).Pairwise (· < ·) → (∀ kv ∈ m, P kv.2) →
    decodeDictLoop fuel iss depth m = .ok (m', iss') →
      (m'.map (·.1)).Pairwise (· < ·) ∧ ∀ kv ∈ m', P kv.2

namespace KeptWith

variable {fuel : Nat} {iss iss' : IStream} {depth : Nat} {e : Element}

theorem internal_succ (hP : Kept P) (ih : KeptWith P fuel)
    (h : decodeInternal (fuel + 1) iss depth = .ok (e, iss')) : P e := by
  simp only [decodeInternal] at h
  split at h
  · cases h
  split at h
  · obtain ⟨i, rfl⟩ := decodeInt_int h
    exact hP.int i
  split at h
  · obtain ⟨⟨s, iss2⟩, hs, heq⟩ := map_eq_ok.1 h
    cases heq
    exact hP.str s (decodeString_length hs)
  split at h
  · exact ih.list _ _ _ _ h
  split at h
  · exact ih.dict _ _ _ _ h
  · cases h

theorem list_succ (hP : Kept P) (ih : KeptWith P fuel)
    (h : decodeList (fuel + 1) iss depth = .ok (e, iss')) : P e := by
  simp only [decodeList] at h
  split at h
  · obtain ⟨⟨v, iss2⟩, hv, heq⟩ := bind_eq_ok.1 h
    cases heq
    exact hP.list v (ih.listLoop _ _ _ _ _ (by simp) hv)
  · cases h
    exact hP.list [] (by simp)

theorem listLoop_succ (ih : KeptWith P fuel) {v v' : List Element} (hv : ∀ e ∈ v, P e)
    (h : decodeListLoop (fuel + 1) iss depth v = .ok (v', iss')) : ∀ e ∈ v', P e := by
  simp only [decodeListLoop] at h
  obtain ⟨⟨e, iss2⟩, he, h⟩ := bind_eq_ok.1 h
  have hve : ∀ x ∈ v ++ [e], P x := by
    intro x hx
    rcases List.mem_append.1 hx with hx | hx
    · exact hv x hx
    · rw [List.mem_singleton.1 hx]
      exact ih.internal _ _ _ _ he
  dsimp only at h
  split at h
  · cases h
  split at h
  · cases h
    exact hve
  · exact ih.listLoop _ _ _ _ _ hve h

theorem dict_succ (hP : Kept P) (ih : KeptWith P fuel)
    (h : decodeDict (fuel + 1) iss depth = .ok (e, iss')) : P e := by
  simp only [decodeDict] at h
  split at h
  · obtain ⟨⟨m, iss2⟩, hm, heq⟩ := bind_eq_ok.1 h
    cases heq
    obtain ⟨hk, hv⟩ := ih.dictLoop _ _ _ _ _ (by simp) (by simp) hm
    exact hP.dict m hk hv
  · cases h
    exact hP.dict [] (by simp) (by simp)

theorem dictLoop_succ (ih : KeptWith P fuel) {m m' : List (Bytes × Element)}
    (hk : (m.map (·.1)).Pairwise (· < ·)) (hv : ∀ kv ∈ m, P kv.2)
    (h : decodeDictLoop (fuel + 1) iss depth m = .ok (m', iss')) :
    (m'.map (·.1)).Pairwise (· < ·) ∧ ∀ kv ∈ m', P kv.2 := by
  simp only [decodeDictLoop] at h
  obtain ⟨⟨k, iss1⟩, -, h⟩ := bind_eq_ok.1 h
  obtain ⟨⟨e, iss2⟩, he, h⟩ := bind_eq_ok.1 h
  have hk' := insertKey_sorted (k := k) (e := e) hk
  have hv' : ∀ kv ∈ insertKey k e m, P kv.2 := by
    intro kv hkv
    rcases mem_insertKey hkv with rfl | hkv
    · exact ih.internal _ _ _ _ he
    · exact hv kv hkv
  dsimp only at h
  split at h
  · cases h
  split at h
  · cases h
    exact ⟨hk', hv'⟩
  · exact ih.dictLoop _ _ _ _ _ hk' hv' h

theorem all (hP : Kept P) (fuel : Nat) : KeptWith P fuel := by
  induction fuel with
  | zero =>
    refine ⟨?_, ?_, ?_, ?_, ?_⟩ <;>
      (intros; simp_all [decodeInternal, decodeList, decodeListLoop, decodeDict, decodeDictLoop])
  | succ fuel ih =>
    exact ⟨fun _ _ _ _ => ih.internal_succ hP, fun _ _ _ _ => ih.list_succ hP,
      fun _ _ _ _ _ => ih.listLoop_succ, fun _ _ _ _ => ih.dict_succ hP,
      fun _ _ _ _ _ => ih.dictLoop_succ⟩

end KeptWith

theorem decode_kept (hP : Kept P) {s : Bytes} {e : Element} (h : decode s = .ok e) : P e := by
  unfold decode at h
  obtain ⟨⟨e', iss⟩, he, h⟩ := bind_eq_ok.1 h
  dsimp only at h
  split at h
  · cases h
    exact (KeptWith.all hP _).internal _ _ _ _ he
  · cases h

end

/-- The dictionaries the decoder builds are maps. -/
theorem decode_ordered {s : Bytes} {e : Element} (h : decode s = .ok e) : e.Ordered :=
  decode_kept ⟨.int, fun s _ => .str s, fun _ => .list, fun _ => .dict⟩ h

/-- No string of an element, at any depth, is longer than the limit. -/
inductive Limited : Element → Prop
  | int (i : Int64) : Limited (.int i)
  | str {s : Bytes} (h : s.length ≤ maxStringLength) : Limited (.str s)
  | list {v : List Element} (h : ∀ e ∈ v, Limited e) : Limited (.list v)
  | dict {m : List (Bytes × Element)} (h : ∀ kv ∈ m, Limited kv.2) : Limited (.dict m)

theorem decode_limited {s : Bytes} {e : Element} (h : decode s = .ok e) : Limited e :=
  decode_kept ⟨.int, fun _ => .str, fun _ => .list, fun _ _ => .dict⟩ h

end Bencode

end Zit
