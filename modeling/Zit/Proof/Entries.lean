import Zit.Proof.Decoder

/-!
# The entries of a decoded dictionary

The text of a dictionary the decoder accepts is `d`, its entries one after the other, and `e`: of each
entry the bytes that were read as its key and the bytes that were read as its value, which the
decoder accepts by themselves (`decode_dict`). No other entries make up the same text
(`dictText_inj`), so each key has one value text in it, that of its last entry (`ValueAt.unique`).
-/

set_option autoImplicit false

namespace Zit

open Lib Lib.Decimal Lib.IStream Element

namespace Bencode

/-- One entry of a dictionary in a text: the length of the key, the key and the value. -/
@[ext]
structure Entry where
  len : Bytes
  key : Bytes
  val : Bytes

namespace Entry

def keyText (x : Entry) : Bytes := x.len ++ ':'.toUInt8 :: x.key

def text (x : Entry) : Bytes := x.keyText ++ x.val

/-- The decoder reads the key from its text, and an element from the text of the value. -/
def Reads (x : Entry) : Prop :=
  Takes decodeString x.keyText x.key ∧ ∃ e, decode x.val = .ok e

end Entry

/-- A dictionary of these entries. -/
def dictText (entries : List Entry) : Bytes :=
  'd'.toUInt8 :: (entries.map Entry.text).flatten ++ ['e'.toUInt8]

/-- The last entry with this key. -/
def lastAt (entries : List Entry) (key : Bytes) : Option Entry :=
  (entries.filter fun x => x.key = key).getLast?

/-- In the text of a dictionary the decoder reads, the last entry with this key has this value text. -/
def ValueAt (s key val : Bytes) : Prop :=
  ∃ entries, s = dictText entries ∧ (∀ x ∈ entries, x.Reads) ∧
    (lastAt entries key).map Entry.val = some val

/-- An entry whose key is spelled as `encode` does. -/
theorem Entry.Reads.of_digits {x : Entry} {e : Element} (hlen : x.len = digits x.key.length)
    (hmax : x.key.length ≤ maxStringLength) (h : decode x.val = .ok e) : x.Reads := by
  refine ⟨fun str r => ?_, e, h⟩
  rw [keyText, hlen]
  exact (decodeString_encode str x.key r).1 hmax

/-! ## Values by themselves -/

section
variable {β γ : Type}

theorem turnThen_within {turn turn' : Except Exn (β × IStream)}
    {again again' : β → IStream → Except Exn (β × IStream)} (h : Within turn turn')
    (hagain : ∀ v t, Within (again v t) (again' v t)) :
    Within (turnThen turn again) (turnThen turn' again') :=
  h.bind fun vt => (Within.refl _).ite ((Within.refl _).ite (hagain vt.1 vt.2.peek.2))

theorem block_within {mk : List γ → Element} {loop loop' : IStream → Except Exn (List γ × IStream)}
    {s : IStream} (h : ∀ t, Within (loop t) (loop' t)) :
    Within (block mk loop s) (block mk loop' s) :=
  ((h s.ignore.peek.2).map _).ite (.refl _)

theorem block_mk {mk : List γ → Element} {loop : IStream → Except Exn (List γ × IStream)}
    {s s' : IStream} {e : Element} (h : block mk loop s = .ok (e, s')) : ∃ v, e = mk v := by
  unfold block at h
  dsimp only at h
  split at h
  · obtain ⟨⟨v, t⟩, -, heq⟩ := map_eq_ok.1 h
    exact ⟨v, (Prod.mk.inj heq).1.symm⟩
  · exact ⟨[], (Prod.mk.inj (Except.ok.inj h)).1.symm⟩

end

section
variable (fuel : Nat)

/-- A value that is read at some depth is read at a smaller one. -/
theorem decode_shallower :
    (∀ s depth, Within (decodeInternal fuel s (depth + 1)) (decodeInternal fuel s depth)) ∧
    (∀ s depth, Within (decodeList fuel s (depth + 1)) (decodeList fuel s depth)) ∧
    (∀ s depth, Within (decodeDict fuel s (depth + 1)) (decodeDict fuel s depth)) ∧
    (∀ s depth v, Within (decodeListLoop fuel s (depth + 1) v) (decodeListLoop fuel s depth v)) ∧
    (∀ s depth m, Within (decodeDictLoop fuel s (depth + 1) m) (decodeDictLoop fuel s depth m)) := by
  induction fuel with
  | zero => simp [Within, decodeInternal, decodeList, decodeDict, decodeListLoop, decodeDictLoop]
  | succ fuel ih =>
    obtain ⟨ihI, ihL, ihD, ihLL, ihDL⟩ := ih
    refine ⟨fun s depth => ?_, fun s depth => ?_, fun s depth => ?_, fun s depth v => ?_,
      fun s depth m => ?_⟩
    · simp only [decodeInternal]
      by_cases hd : depth + 1 > recursionLimit
      · rw [if_pos hd]
        exact fun a h => by cases h
      · rw [if_neg hd, if_neg (show ¬depth > recursionLimit by omega)]
        exact (Within.refl _).ite ((Within.refl _).ite
          ((ihL _ (depth + 1)).ite ((ihD _ (depth + 1)).ite (.refl _))))
    · rw [decodeList_eq, decodeList_eq]
      exact block_within fun t => ihLL t depth []
    · rw [decodeDict_eq, decodeDict_eq]
      exact block_within fun t => ihDL t depth []
    · rw [decodeListLoop_eq, decodeListLoop_eq]
      exact turnThen_within ((ihI s depth).map _) fun v t => ihLL t depth v
    · rw [decodeDictLoop_eq, decodeDictLoop_eq]
      refine turnThen_within ?_ fun m t => ihDL t depth m
      exact (Within.refl _).bind fun kt => (ihI kt.2 depth).bind fun et => .refl _

theorem decodeInternal_within (s : IStream) (depth : Nat) :
    Within (decodeInternal fuel s depth) (decodeInternal fuel s 0) := by
  induction depth with
  | zero => exact .refl _
  | succ depth ih => exact fun a h => ih a ((decode_shallower fuel).1 s depth a h)

end

/-- What is taken as an element, at whatever depth, is one by itself. -/
theorem decode_of_takes {p : Bytes} {e : Element} {fuel depth : Nat}
    (h : ∀ n, fuel ≤ n → ∀ str r,
      decodeInternal n (goodAt str (p ++ r)) depth = .ok (e, goodAt str r)) :
    decode p = .ok e := by
  have hrun := h (max fuel (3 * p.length + 3)) (Nat.le_max_left _ _) p []
  rw [List.append_nil] at hrun
  have htop := decodeInternal_within _ _ depth _ hrun
  have hfuel := (decode_guarded p).1
  have heq : decodeInternal (3 * p.length + 3) (goodAt p p) 0 = .ok (e, goodAt p []) := by
    rw [← htop]
    exact (hfuel _ (by omega)).trans (hfuel _ (by omega)).symm
  simp only [decode, show IStream.ofStr p = goodAt p p from rfl, heq]
  rfl

/-! ## The split of a dictionary -/

theorem lookup_insertKey_self (k : Bytes) (e : Element) (m : List (Bytes × Element)) :
    (insertKey k e m).lookup k = some e := by
  induction m with
  | nil => exact List.lookup_cons_self
  | cons kv m ih =>
    obtain ⟨k', e'⟩ := kv
    simp only [insertKey]
    split
    · exact List.lookup_cons_self
    rename_i h1
    split
    · rename_i h2
      have hne : (k == k') = false := beq_false_of_ne fun h => List.lt_irrefl k (h ▸ h2)
      rw [List.lookup_cons, hne, ih]
    · rename_i h2
      rw [show k' = k from List.le_antisymm h1 h2]
      exact List.lookup_cons_self

theorem lookup_insertKey_ne {k key : Bytes} (h : key ≠ k) (e : Element)
    (m : List (Bytes × Element)) : (insertKey k e m).lookup key = m.lookup key := by
  have hne : (key == k) = false := beq_false_of_ne h
  induction m with
  | nil => rw [insertKey, List.lookup_cons, hne]
  | cons kv m ih =>
    obtain ⟨k', e'⟩ := kv
    simp only [insertKey]
    split
    · rw [List.lookup_cons, hne]
    rename_i h1
    split
    · rw [List.lookup_cons, List.lookup_cons, ih]
    · rename_i h2
      rw [show k' = k from List.le_antisymm h1 h2, List.lookup_cons, List.lookup_cons, hne]

/-- The entries after an entry decide which one is the last. -/
theorem lastAt_cons (x : Entry) (entries : List Entry) (key : Bytes) :
    lastAt (x :: entries) key =
      (lastAt entries key).or (if x.key = key then some x else none) := by
  unfold lastAt
  by_cases hx : x.key = key
  · rw [List.filter_cons_of_pos (by simpa using hx), if_pos hx, List.getLast?_cons]
    cases (entries.filter fun x => x.key = key).getLast? <;> rfl
  · rw [List.filter_cons_of_neg (by simpa using hx), if_neg hx, Option.or_none]

/-- What the loop makes of a map: these entries were read and inserted. -/
def Inserted (entries : List Entry) (m m' : List (Bytes × Element)) : Prop :=
  (∀ x ∈ entries, x.Reads) ∧ ∀ key, match lastAt entries key with
    | some x => ∃ e, decode x.val = .ok e ∧ m'.lookup key = some e
    | none => m'.lookup key = m.lookup key

theorem Inserted.cons {x : Entry} {entries : List Entry} {m m' : List (Bytes × Element)}
    {e : Element} (hkey : Takes decodeString x.keyText x.key) (he : decode x.val = .ok e)
    (h : Inserted entries (insertKey x.key e m) m') : Inserted (x :: entries) m m' := by
  refine ⟨List.forall_mem_cons.2 ⟨⟨hkey, e, he⟩, h.1⟩, fun key => ?_⟩
  have hlast := h.2 key
  rw [lastAt_cons]
  cases hl : lastAt entries key with
  | some y =>
    rw [hl] at hlast
    exact hlast
  | none =>
    rw [hl] at hlast
    by_cases hx : x.key = key
    · rw [if_pos hx]
      exact ⟨e, he, by rw [hlast, ← hx, lookup_insertKey_self]⟩
    · rw [if_neg hx]
      exact hlast.trans (lookup_insertKey_ne (Ne.symm hx) e m)

/-- The loop of `decodeDict` reads entries up to the end marker. -/
theorem decodeDictLoop_entries {fuel depth : Nat} {s s' : IStream} {m m' : List (Bytes × Element)}
    (h : decodeDictLoop fuel s depth m = .ok (m', s')) :
    ∃ str entries r, s = goodAt str ((entries.map Entry.text).flatten ++ 'e'.toUInt8 :: r) ∧
      s' = goodAt str ('e'.toUInt8 :: r) ∧ Inserted entries m m' := by
  induction fuel generalizing s m with
  | zero => simp [decodeDictLoop] at h
  | succ fuel ih =>
    rw [decodeDictLoop_eq] at h
    obtain ⟨⟨w, t⟩, ht, -⟩ := bind_eq_ok.1 h
    rw [ht] at h
    obtain ⟨⟨k, u⟩, hk, ht⟩ := bind_eq_ok.1 ht
    obtain ⟨⟨e, v⟩, he, ht⟩ := bind_eq_ok.1 ht
    cases ht
    obtain ⟨str, len, r, rfl, rfl, hkey⟩ := decodeString_takes hk
    obtain ⟨str2, p, r2, -, hs, rfl, hval⟩ := (decode_took fuel).1 _ _ _ _ he
    obtain rfl : str = str2 := congrArg IStream.str hs
    obtain rfl : r = p ++ ([] ++ r2) := congrArg IStream.rest hs
    have hdec := decode_of_takes hval
    cases r2 with
    | nil =>
      rw [List.append_nil, turnThen_nil] at h
      obtain ⟨str3, entries, r3, hs3, -⟩ := ih h
      cases congrArg IStream.eof hs3
    | cons c r2 =>
      rw [List.nil_append, turnThen_cons] at h
      by_cases hc : c = 'e'.toUInt8
      · rw [if_pos hc] at h
        cases h
        refine ⟨str, [⟨len, k, p⟩], r2, ?_, by rw [hc], .cons hkey hdec ⟨by simp, fun _ => rfl⟩⟩
        simp [Entry.text, Entry.keyText, hc]
      · rw [if_neg hc] at h
        obtain ⟨str3, entries, r3, hs3, rfl, hins⟩ := ih h
        obtain rfl : str = str3 := congrArg IStream.str hs3
        have hrest := congrArg IStream.rest hs3
        refine ⟨str, ⟨len, k, p⟩ :: entries, r3, ?_, rfl, .cons hkey hdec hins⟩
        simp only [List.nil_append] at hrest ⊢
        rw [hrest]
        simp [Entry.text, Entry.keyText]

/-- Only dictionaries are decoded as dictionaries. -/
theorem decodeInternal_dict {fuel depth : Nat} {str r : Bytes} {c : UInt8} {s' : IStream}
    {m : List (Bytes × Element)}
    (h : decodeInternal (fuel + 1) (goodAt str (c :: r)) depth = .ok (.dict m, s')) :
    c = 'd'.toUInt8 ∧ decodeDict fuel (goodAt str (c :: r)) (depth + 1) = .ok (.dict m, s') := by
  rw [decodeInternal_cons] at h
  split at h
  · cases h
  split at h
  · obtain ⟨i, hi⟩ := decodeInt_int h
    cases hi
  split at h
  · obtain ⟨_, -, heq⟩ := map_eq_ok.1 h
    cases heq
  split at h
  · cases fuel with
    | zero => simp [decodeList] at h
    | succ fuel =>
      rw [decodeList_eq] at h
      obtain ⟨v, hv⟩ := block_mk h
      cases hv
  split at h
  · exact ⟨‹_›, h⟩
  · cases h

theorem decodeDict_entries {fuel depth : Nat} {str r : Bytes} {c : UInt8} {s' : IStream}
    {m : List (Bytes × Element)}
    (h : decodeDict fuel (goodAt str (c :: r)) depth = .ok (.dict m, s')) :
    ∃ entries r', r = (entries.map Entry.text).flatten ++ 'e'.toUInt8 :: r' ∧
      s' = goodAt str r' ∧ Inserted entries [] m := by
  cases fuel with
  | zero => simp [decodeDict] at h
  | succ fuel =>
    rw [decodeDict_eq] at h
    cases r with
    | nil =>
      rw [block_nil] at h
      obtain ⟨⟨m', t⟩, hm, -⟩ := map_eq_ok.1 h
      obtain ⟨str2, entries, r', hs, -⟩ := decodeDictLoop_entries hm
      cases congrArg IStream.eof hs
    | cons d r =>
      rw [block_cons] at h
      by_cases hd : d = 'e'.toUInt8
      · rw [if_pos hd] at h
        cases h
        exact ⟨[], r, by rw [hd]; rfl, rfl, by simp, fun _ => rfl⟩
      · rw [if_neg hd] at h
        obtain ⟨⟨m', t⟩, hm, heq⟩ := map_eq_ok.1 h
        cases heq
        obtain ⟨str2, entries, r', hs, rfl, hins⟩ := decodeDictLoop_entries hm
        obtain rfl : str = str2 := congrArg IStream.str hs
        exact ⟨entries, r', congrArg IStream.rest hs, rfl, hins⟩

/-- A text that is decoded as a dictionary is the text of entries that are read and inserted. -/
theorem decode_dict {s : Bytes} {root : List (Bytes × Element)} (h : decode s = .ok (.dict root)) :
    ∃ entries, s = dictText entries ∧ Inserted entries [] root := by
  unfold decode at h
  obtain ⟨⟨e, t⟩, he, h⟩ := bind_eq_ok.1 h
  dsimp only at h
  split at h
  swap
  · cases h
  rename_i heof
  cases h
  cases s with
  | nil =>
    obtain ⟨what, hwhat⟩ := decodeInternal_none (s := IStream.ofStr []) rfl 2 0
    cases hwhat.symm.trans he
  | cons c r =>
    obtain ⟨rfl, hdict⟩ := decodeInternal_dict he
    obtain ⟨entries, r', rfl, rfl, hins⟩ := decodeDict_entries hdict
    cases r' with
    | nil => exact ⟨entries, rfl, hins⟩
    | cons d r' => simp at heof

/-! ## Only one split -/

/-- Of two accepted texts at one place neither goes on behind the other. -/
theorem decode_prefix {p p' r r' : Bytes} {e e' : Element} (h : decode p = .ok e)
    (h' : decode p' = .ok e') (heq : p ++ r = p' ++ r') : p = p' ∧ r = r' := by
  rcases List.append_eq_append_iff.1 heq with ⟨t, rfl, rfl⟩ | ⟨t, rfl, rfl⟩
  · by_cases ht : t = []
    · simp [ht]
    · obtain ⟨what, hwhat⟩ := decode_append h ht
      rw [hwhat] at h'
      cases h'
  · by_cases ht : t = []
    · simp [ht]
    · obtain ⟨what, hwhat⟩ := decode_append h' ht
      rw [hwhat] at h
      cases h

theorem Entry.Reads.inj {x y : Entry} (hx : x.Reads) (hy : y.Reads) {r r' : Bytes}
    (h : x.text ++ r = y.text ++ r') : x = y ∧ r = r' := by
  obtain ⟨hkx, ex, hvx⟩ := hx
  obtain ⟨hky, ey, hvy⟩ := hy
  rw [Entry.text, Entry.text, List.append_assoc, List.append_assoc] at h
  have hread := hkx [] (x.val ++ r)
  rw [h, hky] at hread
  obtain ⟨hkey, hrest⟩ := Prod.mk.inj (Except.ok.inj hread)
  have hrest : y.val ++ r' = x.val ++ r := congrArg IStream.rest hrest
  rw [← hrest, List.append_cancel_right_eq, Entry.keyText, Entry.keyText, hkey,
    List.append_cancel_right_eq] at h
  obtain ⟨hval, hr⟩ := decode_prefix hvy hvx hrest
  exact ⟨Entry.ext h hkey.symm hval.symm, hr.symm⟩

/-- No key begins with the end marker. -/
theorem Entry.Reads.head {x : Entry} (hx : x.Reads) (r r' : Bytes) :
    x.text ++ r ≠ 'e'.toUInt8 :: r' := by
  intro h
  have hread := hx.1 [] (x.val ++ r)
  rw [← List.append_assoc, ← Entry.text, h] at hread
  have hfail : decodeString (goodAt [] ('e'.toUInt8 :: r')) =
      .error (.invalidArgument "Could not convert string length to integer") := rfl
  rw [hfail] at hread
  cases hread

theorem entries_inj {xs ys : List Entry} (hx : ∀ x ∈ xs, x.Reads) (hy : ∀ y ∈ ys, y.Reads)
    {r r' : Bytes} (h : (xs.map Entry.text).flatten ++ 'e'.toUInt8 :: r =
      (ys.map Entry.text).flatten ++ 'e'.toUInt8 :: r') : xs = ys := by
  induction xs generalizing ys with
  | nil =>
    cases ys with
    | nil => rfl
    | cons y ys =>
      rw [List.map_cons, List.flatten_cons, List.append_assoc] at h
      exact absurd h.symm ((hy y List.mem_cons_self).head _ _)
  | cons x xs ih =>
    rw [List.map_cons, List.flatten_cons, List.append_assoc] at h
    cases ys with
    | nil => exact absurd h ((hx x List.mem_cons_self).head _ _)
    | cons y ys =>
      rw [List.map_cons, List.flatten_cons, List.append_assoc] at h
      obtain ⟨rfl, hrest⟩ := (hx x List.mem_cons_self).inj (hy y List.mem_cons_self) h
      rw [ih (fun z hz => hx z (List.mem_cons_of_mem _ hz))
        (fun z hz => hy z (List.mem_cons_of_mem _ hz)) hrest]

theorem ValueAt.unique {s key val val' : Bytes} (h : ValueAt s key val) (h' : ValueAt s key val') :
    val = val' := by
  obtain ⟨xs, rfl, hx, hval⟩ := h
  obtain ⟨ys, hs, hy, hval'⟩ := h'
  rw [dictText, dictText, List.cons_append, List.cons_append] at hs
  obtain rfl := entries_inj hx hy (List.cons.inj hs).2
  exact Option.some.inj (hval.symm.trans hval')

/-- What the decoder keeps for a key is the element of its value text. -/
theorem decode_lookup {s key : Bytes} {root : List (Bytes × Element)} {e : Element}
    (h : decode s = .ok (.dict root)) (he : root.lookup key = some e) :
    ∃ val, (∀ x, ValueAt s key x ↔ x = val) ∧ decode val = .ok e := by
  obtain ⟨entries, hs, hreads, hins⟩ := decode_dict h
  have hkey := hins key
  cases hlast : lastAt entries key with
  | none =>
    rw [hlast, he] at hkey
    cases hkey
  | some y =>
    rw [hlast] at hkey
    obtain ⟨e', hy, he'⟩ := hkey
    obtain rfl : e = e' := Option.some.inj (he.symm.trans he')
    have hval : ValueAt s key y.val := ⟨entries, hs, hreads, by rw [hlast]; rfl⟩
    refine ⟨y.val, fun x => ⟨fun hx => hx.unique hval, ?_⟩, hy⟩
    rintro rfl
    exact hval

end Bencode

end Zit
