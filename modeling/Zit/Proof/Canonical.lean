import Zit.Proof.Entries
import Zit.Torrent

/-!
# Canonical bencode

`Canonical s`: the bytes `s` are one value in the spelling `encode` writes, given as a grammar over
bytes. The canonical texts are the encodings of the elements (`canonical_encode`,
`Canonical.exists_element`), so re-encoding a decoded text gives the text back exactly when it is
canonical (`reencode_iff`), and the info hash of a `.torrent` file is the hash of the bytes of its
`info` value exactly when these bytes are canonical (`reencode_info`).
-/

set_option autoImplicit false

namespace Zit

open Lib Lib.Decimal Element

namespace Bencode

inductive Canonical : Bytes → Prop
  | int {t : Bytes} {i : Int} (h : IntText t i) (hlo : -2 ^ 63 ≤ i) (hhi : i < 2 ^ 63) :
      Canonical ('i'.toUInt8 :: t ++ ['e'.toUInt8])
  | str {t s : Bytes} (h : NatText t) (hv : value t = s.length) :
      Canonical (t ++ ':'.toUInt8 :: s)
  | list {items : List Bytes} (h : ∀ x ∈ items, Canonical x) :
      Canonical ('l'.toUInt8 :: items.flatten ++ ['e'.toUInt8])
  | dict {entries : List Entry} (hk : (entries.map Entry.key).Pairwise (· < ·))
      (hl : ∀ x ∈ entries, NatText x.len ∧ value x.len = x.key.length)
      (h : ∀ x ∈ entries, Canonical x.val) : Canonical (dictText entries)

/-! ## Canonical texts are encodings -/

theorem encodeList_eq (v : List Element) : encodeList v = (v.map encode).flatten := by
  induction v with
  | nil => rfl
  | cons e v ih => rw [encodeList, ih, List.map_cons, List.flatten_cons]

/-- The entry an encoded dictionary has for a key and its value. -/
def entryOf (kv : Bytes × Element) : Entry := ⟨digits kv.1.length, kv.1, encode kv.2⟩

theorem encode_dict_eq (m : List (Bytes × Element)) :
    encode (.dict m) = dictText (m.map entryOf) := by
  have h : encodeDict m = ((m.map entryOf).map Entry.text).flatten := by
    induction m with
    | nil => rfl
    | cons kv m ih =>
      rw [encodeDict, ih]
      simp [entryOf, Entry.text, Entry.keyText, encodeString]
  rw [encode, dictText, h]

theorem map_entryOf_key (m : List (Bytes × Element)) :
    (m.map entryOf).map Entry.key = m.map (·.1) := by
  rw [List.map_map]
  rfl

theorem canonical_encode {e : Element} (he : e.Ordered) : Canonical (encode e) := by
  induction he with
  | int i =>
    rw [encode]
    exact .int (intText_intDigits _) i.le_toInt i.toInt_lt
  | str s => exact .str (natText_digits _) (value_digits _)
  | @list v _ ih =>
    rw [encode, encodeList_eq]
    apply Canonical.list
    intro x hx
    obtain ⟨e, he, rfl⟩ := List.mem_map.1 hx
    exact ih e he
  | @dict m hk _ ih =>
    rw [encode_dict_eq]
    apply Canonical.dict
    · rwa [map_entryOf_key]
    · intro x hx
      obtain ⟨kv, -, rfl⟩ := List.mem_map.1 hx
      exact ⟨natText_digits _, value_digits _⟩
    · intro x hx
      obtain ⟨kv, hkv, rfl⟩ := List.mem_map.1 hx
      exact ih kv hkv

/-- Texts that are encodings, one by one, are the encodings of a list. -/
theorem exists_elements {α : Type} {xs : List α} {P : Element → Prop} {f : α → Bytes}
    (h : ∀ x ∈ xs, ∃ e, P e ∧ encode e = f x) :
    ∃ v : List Element, v.map encode = xs.map f ∧ ∀ e ∈ v, P e := by
  induction xs with
  | nil => exact ⟨[], rfl, by simp⟩
  | cons x xs ih =>
    obtain ⟨e, he, hf⟩ := h x List.mem_cons_self
    obtain ⟨v, hv, hp⟩ := ih fun y hy => h y (List.mem_cons_of_mem _ hy)
    refine ⟨e :: v, by simp [hf, hv], fun e' he' => ?_⟩
    rcases List.mem_cons.1 he' with rfl | he'
    · exact he
    · exact hp e' he'

/-- The entries are rebuilt one by one: the length of each key is spelled in the shortest way. -/
theorem zip_entryOf {entries : List Entry} {v : List Element}
    (hv : v.map encode = entries.map Entry.val)
    (hl : ∀ x ∈ entries, NatText x.len ∧ value x.len = x.key.length) :
    ((entries.map Entry.key).zip v).map entryOf = entries := by
  induction entries generalizing v with
  | nil => rfl
  | cons x xs ih =>
    cases v with
    | nil => cases hv
    | cons e v =>
      obtain ⟨ht, hlen⟩ := hl x List.mem_cons_self
      simp only [List.map_cons, List.cons.injEq] at hv
      have hx : entryOf (x.key, e) = x := by
        simp only [entryOf]
        rw [← hlen, digits_value ht, hv.1]
      rw [List.map_cons, List.zip_cons_cons, List.map_cons, hx,
        ih hv.2 fun y hy => hl y (List.mem_cons_of_mem _ hy)]

theorem Canonical.exists_element {s : Bytes} (h : Canonical s) :
    ∃ e : Element, e.Ordered ∧ encode e = s := by
  induction h with
  | @int t i h hlo hhi =>
    refine ⟨.int (Int64.ofInt i), .int _, ?_⟩
    rw [encode, Int64.toInt_ofInt_of_le hlo hhi, intDigits_of_intText h]
  | @str t s h hv =>
    refine ⟨.str s, .str s, ?_⟩
    rw [encode, encodeString, ← hv, digits_value h]
  | @list items _ ih =>
    obtain ⟨v, hv, hp⟩ := exists_elements (f := id) ih
    refine ⟨.list v, .list hp, ?_⟩
    rw [encode, encodeList_eq, hv, List.map_id]
  | @dict entries hk hl _ ih =>
    obtain ⟨v, hv, hp⟩ := exists_elements (f := Entry.val) ih
    have hlen : v.length = entries.length := by simpa using congrArg List.length hv
    have hkeys : ((entries.map Entry.key).zip v).map (·.1) = entries.map Entry.key :=
      List.map_fst_zip (by simp [hlen])
    refine ⟨.dict ((entries.map Entry.key).zip v), .dict (by rwa [hkeys]) fun kv hkv =>
      hp _ (List.of_mem_zip hkv).2, ?_⟩
    rw [encode_dict_eq, zip_entryOf hv hl]

/-- Re-encoding gives the text back exactly when it is canonical. -/
theorem reencode_iff {s : Bytes} {e : Element} (h : decode s = .ok e) :
    encode e = s ↔ Canonical s := by
  constructor
  · intro hs
    rw [← hs]
    exact canonical_encode (decode_ordered h)
  · intro hc
    obtain ⟨v, hv, rfl⟩ := hc.exists_element
    have hout := decode_encode hv
    by_cases hfits : Fits 0 v
    · rw [hout.1 hfits] at h
      rw [Except.ok.inj h]
    · obtain ⟨what, hw⟩ := hout.2 hfits
      rw [hw] at h
      cases h

end Bencode

/-! ## The info hash -/

namespace Torrent

/-- What the constructor read from the file: the dictionaries it took the fields from. -/
structure Read (sha1 : Bytes → Sha1) (dataDir : Path) (content : Bytes) (t : Torrent)
    (root info : List (Bytes × Element)) : Prop where
  decoded : Bencode.decode content = .ok (.dict root)
  infoAt : root.lookup (ascii "info".toList) = some (.dict info)
  infoHash : t.infoHash = sha1 (Element.dict info).encode
  name : ∃ s, info.lookup (ascii "name".toList) = some (Element.str s) ∧ t.name = Path.join dataDir s
  tmpfile : t.tmpfile = t.name ++ tmpfileExtension
  pieces : ∃ s, info.lookup (ascii "pieces".toList) = some (Element.str s) ∧
    t.pieces.length = s.length / 20
  pieceLength : ∃ i, info.lookup (ascii "piece length".toList) = some (Element.int i) ∧
    castU32 i.toInt = .ok t.pieceLength
  mode : mode info = .ok (t.mLength, t.files)

theorem toDict_ok {e : Element} {m : List (Bytes × Element)} (h : e.toDict = .ok m) :
    e = .dict m := by
  cases e with
  | dict m' => rw [Except.ok.inj h]
  | _ => cases h

theorem toStr_ok {e : Element} {s : Bytes} (h : e.toStr = .ok s) : e = .str s := by
  cases e with
  | str s' => rw [Except.ok.inj h]
  | _ => cases h

theorem toInt_ok {e : Element} {n : Int} (h : e.toInt = .ok n) : ∃ i, e = .int i ∧ i.toInt = n := by
  cases e with
  | int i => exact ⟨i, rfl, Except.ok.inj h⟩
  | _ => cases h

theorem dictAt_ok {dict : List (Bytes × Element)} {key : String} {e : Element}
    (h : dictAt dict key = .ok e) : dict.lookup (ascii key.toList) = some e := by
  unfold dictAt at h
  cases hl : dict.lookup (ascii key.toList) with
  | none =>
    rw [hl] at h
    cases h
  | some e' =>
    rw [hl] at h
    rw [Except.ok.inj h]

theorem sha1sFrom_length {pieces : Bytes} {n i : Nat} {sha1s : List Sha1}
    (h : sha1sFrom pieces n i = .ok sha1s) : sha1s.length = n := by
  induction n generalizing i sha1s with
  | zero =>
    cases h
    rfl
  | succ n ih =>
    obtain ⟨sha1, -, h⟩ := bind_eq_ok.1 h
    obtain ⟨rest, hrest, h⟩ := bind_eq_ok.1 h
    obtain rfl := pure_eq_ok.1 h
    rw [List.length_cons, ih hrest]

theorem mem_of_lookup {dict : List (Bytes × Element)} {key : Bytes} {e : Element}
    (h : dict.lookup key = some e) : (key, e) ∈ dict := by
  obtain ⟨l₁, l₂, rfl, -⟩ := List.lookup_eq_some_iff.1 h
  simp

theorem ofContent_ok {sha1 : Bytes → Sha1} {config : Config} {dataDir : Path} {content : Bytes}
    {t : Torrent} (h : ofContent sha1 config dataDir content = .ok t) :
    ∃ root info, Read sha1 dataDir content t root info := by
  unfold ofContent at h
  obtain ⟨_, -, h⟩ := bind_eq_ok.1 h
  obtain ⟨_, -, h⟩ := bind_eq_ok.1 h
  obtain ⟨e, hdec, h⟩ := bind_eq_ok.1 h
  obtain ⟨root, hroot, h⟩ := bind_eq_ok.1 h
  split at h
  · cases h
  obtain ⟨_, -, h⟩ := bind_eq_ok.1 h
  obtain ⟨_, -, h⟩ := bind_eq_ok.1 h
  obtain ⟨ie, hinfo, h⟩ := bind_eq_ok.1 h
  obtain ⟨info, hdict, h⟩ := bind_eq_ok.1 h
  obtain ⟨ne, hne, h⟩ := bind_eq_ok.1 h
  obtain ⟨name, hname, h⟩ := bind_eq_ok.1 h
  obtain ⟨pe, hpe, h⟩ := bind_eq_ok.1 h
  obtain ⟨pieces, hpieces, h⟩ := bind_eq_ok.1 h
  split at h
  · cases h
  obtain ⟨sha1s, hsha1s, h⟩ := bind_eq_ok.1 h
  obtain ⟨le, hle, h⟩ := bind_eq_ok.1 h
  obtain ⟨_, hint, h⟩ := bind_eq_ok.1 h
  obtain ⟨pieceLength, hcast, h⟩ := bind_eq_ok.1 h
  obtain ⟨⟨mLength, files⟩, hmode, h⟩ := bind_eq_ok.1 h
  iterate 7 obtain ⟨_, -, h⟩ := bind_eq_ok.1 h
  obtain rfl := pure_eq_ok.1 h
  obtain rfl := toDict_ok hroot
  obtain rfl := toDict_ok hdict
  obtain ⟨s, hstr, hs⟩ := map_eq_ok.1 hname
  obtain rfl := toStr_ok hstr
  obtain rfl := toStr_ok hpieces
  obtain ⟨i, rfl, rfl⟩ := toInt_ok hint
  exact ⟨root, info, ⟨hdec, dictAt_ok hinfo, rfl, ⟨s, dictAt_ok hne, hs.symm⟩, rfl,
    ⟨pieces, dictAt_ok hpe, sha1sFrom_length hsha1s⟩, ⟨i, dictAt_ok hle, hcast⟩, hmode⟩⟩

/-- The decoder's limit on strings bounds the number of pieces. -/
theorem ofContent_pieces {sha1 : Bytes → Sha1} {config : Config} {dataDir : Path} {content : Bytes}
    {t : Torrent} (h : ofContent sha1 config dataDir content = .ok t) :
    t.pieces.length ≤ 5000000 := by
  obtain ⟨root, info, hr⟩ := ofContent_ok h
  obtain ⟨s, hs, hlen⟩ := hr.pieces
  have hmax : Bencode.maxStringLength = 100000000 := rfl
  cases Bencode.decode_limited hr.decoded with
  | dict hroot =>
    cases hroot _ (mem_of_lookup hr.infoAt) with
    | dict hinfo =>
      cases hinfo _ (mem_of_lookup hs) with
      | str hstr => omega

/-- Decoding and encoding keeps every accepted text exactly when it is canonical. Of a `.torrent`
file, the one text of the `info` value is decoded and encoded for the info hash, which, unless two
texts have one hash, is the hash of that text exactly when it is canonical. -/
theorem reencode_info (s : Bytes) :
    (∀ e, Bencode.decode s = .ok e → (encode e = s ↔ Bencode.Canonical s)) ∧
    ∀ sha1 config dataDir t, ofContent sha1 config dataDir s = .ok t →
      ∃ text, (∀ x, Bencode.ValueAt s (ascii "info".toList) x ↔ x = text) ∧
        ∃ e, Bencode.decode text = .ok e ∧ t.infoHash = sha1 (encode e) ∧
          (encode e = text ↔ Bencode.Canonical text) ∧
          ((sha1 (encode e) = sha1 text → encode e = text) →
            (t.infoHash = sha1 text ↔ Bencode.Canonical text)) := by
  refine ⟨fun e h => Bencode.reencode_iff h, ?_⟩
  intro sha1 config dataDir t h
  obtain ⟨root, info, hr⟩ := ofContent_ok h
  obtain ⟨text, htext, hdec⟩ := Bencode.decode_lookup hr.decoded hr.infoAt
  have hiff := Bencode.reencode_iff hdec
  refine ⟨text, htext, .dict info, hdec, hr.infoHash, hiff, fun hsame => ?_⟩
  rw [← hiff, hr.infoHash]
  exact ⟨hsame, fun heq => by rw [heq]⟩

/-- The info dictionary of a torrent of one file `n` with the one byte `x`. -/
def oneByteInfo : Bytes :=
  ascii "d6:lengthi1e4:name1:n12:piece lengthi1e6:pieces20:".toList ++
    [17, 246, 173, 142, 197, 42, 41, 132, 171, 170, 253, 124, 59, 81, 101, 3, 120, 92, 32, 114] ++
    ascii "e".toList

/-- The `.torrent` file of that torrent. -/
def oneByteFile : Bytes :=
  ascii "d8:announce1:a4:info".toList ++ oneByteInfo ++ ascii "e".toList

/-- SHA-1 of the two texts this torrent is about: its byte `x` and its info dictionary. -/
def oneByteSha1 (b : Bytes) : Sha1 :=
  if b = [120] then
    ⟨[17, 246, 173, 142, 197, 42, 41, 132, 171, 170, 253, 124, 59, 81, 101, 3, 120, 92, 32, 114], rfl⟩
  else
    ⟨[101, 96, 121, 129, 97, 179, 32, 43, 223, 1, 60, 242, 254, 230, 142, 63, 233, 7, 143, 110], rfl⟩

/-- Settings of a client that verifies its files when it starts. -/
def oneByteConfig : Config := ⟨6881, 6881, 10, true⟩

/-- The info dictionary of a file `n` of nine bytes `x`, each a piece. -/
def nineByteInfo : Bytes :=
  ascii "d6:lengthi9e4:name1:n12:piece lengthi1e6:pieces180:".toList ++
    (List.replicate 9 [17, 246, 173, 142, 197, 42, 41, 132, 171, 170, 253, 124, 59, 81, 101, 3,
      120, 92, 32, 114]).flatten ++ ascii "e".toList

def nineByteFile : Bytes :=
  ascii "d8:announce1:a4:info".toList ++ nineByteInfo ++ ascii "e".toList

/-- The entries of `oneByteFile` and one more, a number with a leading zero. -/
def paddedEntries : List Bencode.Entry :=
  [⟨ascii "8".toList, ascii "announce".toList, ascii "1:a".toList⟩,
    ⟨ascii "3".toList, ascii "foo".toList, ascii "i05e".toList⟩,
    ⟨ascii "4".toList, ascii "info".toList, oneByteInfo⟩]

def paddedFile : Bytes := Bencode.dictText paddedEntries

theorem paddedFile_info : Bencode.ValueAt paddedFile (ascii "info".toList) oneByteInfo := by
  have hspelled : ∀ x ∈ paddedEntries, x.len = digits x.key.length ∧
      x.key.length ≤ Bencode.maxStringLength ∧ (Bencode.decode x.val).isOk = true := by
    decide +kernel
  refine ⟨paddedEntries, rfl, fun x hx => ?_, by decide +kernel⟩
  obtain ⟨hlen, hmax, hok⟩ := hspelled x hx
  cases hdec : Bencode.decode x.val with
  | ok e => exact .of_digits hlen hmax hdec
  | error e =>
    rw [hdec] at hok
    cases hok

/-- The hash is right although the file is not canonical. -/
theorem reencode_info_oneByte :
    ∃ t, ofContent oneByteSha1 oneByteConfig [] paddedFile = .ok t ∧
      ¬Bencode.Canonical paddedFile ∧ t.infoHash = oneByteSha1 oneByteInfo := by
  have hread : ((ofContent oneByteSha1 oneByteConfig [] paddedFile).map (·.pieceLength)) =
      .ok 1 := by decide +kernel
  have hfile : ∀ e, Bencode.decode paddedFile = .ok e → encode e ≠ paddedFile := by
    intro e he hs
    have henc : (Bencode.decode paddedFile).map encode ≠ .ok paddedFile := by decide +kernel
    exact henc (by rw [he, ← hs]; rfl)
  have hinfo : (Bencode.decode oneByteInfo).map encode = .ok oneByteInfo := by decide +kernel
  obtain ⟨t, ht, -⟩ := map_eq_ok.1 hread
  obtain ⟨root, info, hr⟩ := ofContent_ok ht
  obtain ⟨text, htext, e, hdec, -, hiff, hhash⟩ :=
    (reencode_info paddedFile).2 oneByteSha1 oneByteConfig [] t ht
  obtain rfl := (htext _).1 paddedFile_info
  obtain ⟨e', he', hs⟩ := map_eq_ok.1 hinfo
  obtain rfl : e = e' := Except.ok.inj (hdec.symm.trans he')
  exact ⟨t, ht, fun hc => hfile _ hr.decoded (((reencode_info paddedFile).1 _ hr.decoded).2 hc),
    (hhash fun _ => hs).2 (hiff.1 hs)⟩

/-- A leading zero is accepted and lost. -/
theorem reencode_leading_zero : ¬∀ s e, Bencode.decode s = .ok e → encode e = s := by
  intro h
  have hdec : (Bencode.decode (ascii "i05e".toList)).map Element.encode =
      .ok (ascii "i5e".toList) := by decide +kernel
  obtain ⟨e, he, henc⟩ := map_eq_ok.1 hdec
  rw [h _ e he] at henc
  exact absurd henc (by decide)

end Torrent

end Zit
