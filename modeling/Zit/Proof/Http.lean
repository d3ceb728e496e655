import Zit.Proof.Chunked

/-!
# Chunked responses

`request` reads the head of a response however it is cut (`request_head`): the buffer is filled up to
the blank line behind the headers, and what is received with it stands in front of the body. So of a
chunked response `request` returns the contents of the chunks exactly when the loop over them does.
-/

set_option autoImplicit false

namespace Zit.Net

open Lib Lib.Decimal Lib.IStream Lib.Strtol

/-! ## The head of a response -/

/-- A header line that is not about another place or another encoding. -/
structure Field where
  text : Bytes
  ne_nil : text ≠ []
  line : 10 ∉ text
  no_location : ¬(ascii "location: ".toList).isPrefixOf (toLower text)
  encoding : (ascii "transfer-encoding: ".toList).isPrefixOf (toLower text) →
    rtrim (text.drop 19) = ascii "chunked".toList

def Field.isEncoding (f : Field) : Bool :=
  (ascii "transfer-encoding: ".toList).isPrefixOf (toLower f.text)

def fieldsBytes (fs : List Field) : Bytes := fs.flatMap fun f => f.text ++ crlf

/-- A head by which the body is chunked. -/
structure Head where
  version : Bytes
  is_http : (ascii "HTTP/".toList).isPrefixOf version
  version_word : ∀ c ∈ version, isSpace c = false
  status : Nat
  valid : status ∈ validStatuses
  reason : Bytes
  reason_head : ∀ c ∈ reason.head?, isDigit c = false
  reason_line : 10 ∉ reason
  fields : List Field
  chunked : fields.any Field.isEncoding = true

namespace Head

variable (h : Head)

/-- Without the line feed. -/
def statusText : Bytes := h.version ++ 32 :: (digits h.status ++ (h.reason ++ [13]))

def statusLine : Bytes := h.statusText ++ [10]

def headers : Bytes := fieldsBytes h.fields

def bytes : Bytes := h.statusLine ++ (h.headers ++ crlf)

theorem not_mem_statusText : 10 ∉ h.statusText := by
  have hversion : 10 ∉ h.version := fun hmem => absurd (h.version_word 10 hmem) (by decide)
  have hstatus : 10 ∉ digits h.status := fun hmem =>
    absurd (isDigit_digits h.status 10 hmem) (by decide)
  simp [statusText, hversion, hstatus, h.reason_line]

end Head

section
variable {s s' : IStream} {str t data : Bytes} {reads r : List Bytes} {ending : SockError}
  {eof fail : Bool} {url : Url} {fuel : Nat}

theorem word_status (h : Head) (str t : Bytes) :
    (goodAt str (h.statusLine ++ t)).word =
      (h.version, goodAt str (32 :: (digits h.status ++ (h.reason ++ [13]) ++ 10 :: t))) := by
  have hne : h.version ≠ [] := fun hnil => by
    have hhttp := h.is_http
    rw [hnil] at hhttp
    cases hhttp
  have happ : h.statusLine ++ t =
      h.version ++ 32 :: (digits h.status ++ (h.reason ++ [13]) ++ 10 :: t) := by
    simp [Head.statusLine, Head.statusText]
  rw [happ, word_good str hne h.version_word rfl]

theorem extractUnsigned_status (h : Head) (str t : Bytes) :
    extractUnsigned (goodAt str (32 :: (digits h.status ++ (h.reason ++ [13]) ++ 10 :: t))) =
      (h.status, goodAt str (h.reason ++ [13] ++ 10 :: t)) := by
  have hsmall : h.status < 2 ^ 32 := by
    have hvalid := h.valid
    simp only [validStatuses, List.mem_cons, List.not_mem_nil, or_false] at hvalid
    omega
  have hcons : ∃ c cs, h.reason ++ [13] = c :: cs ∧ isDigit c = false := by
    have hhead := h.reason_head
    generalize h.reason = reason at hhead ⊢
    cases reason with
    | nil => exact ⟨13, [], rfl, rfl⟩
    | cons c cs => exact ⟨c, cs ++ [13], rfl, hhead c rfl⟩
  obtain ⟨c, cs, hc, hdigit⟩ := hcons
  have hgood := extractUnsigned_good str hsmall c (cs ++ 10 :: t) hdigit
  unfold extractUnsigned at hgood ⊢
  rw [extract_space str _ rfl, List.append_assoc, hc]
  exact hgood

/-- `request` behind the status line. -/
def readRest (url : Url) : HttpM HttpResponse := do
  tryCatch (readUntil blankMarkers) fun e => if e = .system .eof then pure () else throw e
  let s ← get
  match ← readHeaders (s.stream.rest.length + 1) [] [] with
  | .inl loc => return .redirect loc
  | .inr (encoding, headers) =>
    if encoding = ascii "chunked".toList then
      let s ← get
      let body ← readChunks url (s.stream.rest.length + s.reads.flatten.length + 1) []
      return .content headers body
    else return .content headers (← readToEnd url)

theorem request_rest (h : Head) {s : Conn}
    (hs : readUntil lineMarkers s = .ok () ⟨r, ending, goodAt str (h.statusLine ++ t)⟩) :
    request url s = readRest url ⟨r, ending, goodAt str t⟩ := by
  have hword : onStream IStream.word ⟨r, ending, goodAt str (h.statusLine ++ t)⟩ =
      .ok h.version ⟨r, ending,
        goodAt str (32 :: (digits h.status ++ (h.reason ++ [13]) ++ 10 :: t))⟩ := by
    simp only [onStream, word_status]
  have hstatus : onStream IStream.extractUnsigned ⟨r, ending,
      goodAt str (32 :: (digits h.status ++ (h.reason ++ [13]) ++ 10 :: t))⟩ =
        .ok h.status ⟨r, ending, goodAt str (h.reason ++ [13] ++ 10 :: t)⟩ := by
    simp only [onStream, extractUnsigned_status]
  have hreason : 10 ∉ h.reason ++ [13] := by simp [h.reason_line]
  have hline : onStream IStream.getline ⟨r, ending, goodAt str (h.reason ++ [13] ++ 10 :: t)⟩ =
      .ok (h.reason ++ [13]) ⟨r, ending, goodAt str t⟩ := by
    simp only [onStream, getline_good str hreason]
  rw [request, run_bind hs, run_bind hword, run_bind hstatus, run_bind hline,
    run_bind (get_run _), if_neg (not_or.2 ⟨Bool.false_ne_true, not_not.2 h.is_http⟩),
    if_neg (not_not.2 h.valid)]
  rfl

/-! ## The ends of the lines -/

theorem hasLine_iff {data : Bytes} :
    (matchMarkers lineMarkers data).isSome = true ↔ 10 ∈ data := by
  rw [matchMarkers_isSome]
  constructor
  · intro h
    obtain ⟨marker, hmem, hin⟩ := h
    refine hin.subset ?_
    simp only [lineMarkers, List.mem_cons, List.not_mem_nil, or_false] at hmem
    rcases hmem with rfl | rfl <;> decide
  · intro hmem
    exact ⟨[10], by decide, (List.singleton_infix_iff 10 data).2 hmem⟩

theorem mem_take_iff {x y : Bytes} (hx : 10 ∉ x) {k : Nat} :
    10 ∈ (x ++ 10 :: y).take k ↔ x.length + 1 ≤ k := by
  rw [List.take_append, List.mem_append]
  constructor
  · intro h
    rcases h with hmem | hmem
    · exact absurd (List.mem_of_mem_take hmem) hx
    · by_contra hlt
      rw [show k - x.length = 0 by omega] at hmem
      cases hmem
  · intro hle
    obtain ⟨j, hj⟩ : ∃ j, k - x.length = j + 1 := ⟨k - x.length - 1, by omega⟩
    rw [hj]
    exact .inr List.mem_cons_self

/-- A blank line follows. -/
def StartsBlank (data : Bytes) : Prop := [10] <+: data ∨ [13, 10] <+: data

theorem hasBlank_split {data : Bytes} (h : hasBlank data = true) :
    ∃ u v, data = u ++ 10 :: v ∧ StartsBlank v := by
  obtain ⟨marker, hmem, x, y, hin⟩ := matchMarkers_isSome.1 h
  have hmarkers : blankMarkers = [[13, 10, 13, 10], [10, 10]] := rfl
  simp only [hmarkers, List.mem_cons, List.not_mem_nil, or_false] at hmem
  rcases hmem with rfl | rfl
  · exact ⟨x ++ [13], 13 :: 10 :: y, by simp [← hin], .inr ⟨y, rfl⟩⟩
  · exact ⟨x, 10 :: y, by simp [← hin], .inl ⟨y, rfl⟩⟩

/-- A line feed stands at the end of the first line or behind it. -/
theorem split_line {l u w rest : Bytes} (hl : 10 ∉ l) (h : u ++ 10 :: w = l ++ 10 :: rest) :
    w = rest ∨ ∃ u', rest = u' ++ 10 :: w := by
  rcases List.append_eq_append_iff.1 h with ⟨a, ha, hw⟩ | ⟨a, -, hrest⟩
  · cases a with
    | nil => exact .inl (List.cons.inj hw).2
    | cons c a =>
      obtain ⟨rfl, -⟩ := List.cons.inj hw
      exact absurd (by simp [ha]) hl
  · cases a with
    | nil => exact .inl (List.cons.inj hrest).2.symm
    | cons c a => exact .inr ⟨a, (List.cons.inj hrest).2⟩

theorem not_startsBlank_field (f : Field) (x : Bytes) : ¬StartsBlank (f.text ++ 13 :: x) := by
  have hne := f.ne_nil
  have hline := f.line
  generalize f.text = text at hne hline
  obtain ⟨c, cs, rfl⟩ := List.exists_cons_of_ne_nil hne
  intro h
  rcases h with ⟨y, hy⟩ | ⟨y, hy⟩
  · obtain ⟨rfl, -⟩ := List.cons.inj hy
    simp at hline
  · obtain ⟨-, hy⟩ := List.cons.inj hy
    cases cs with
    | nil => cases (List.cons.inj hy).1
    | cons d cs =>
      obtain ⟨rfl, -⟩ := List.cons.inj hy
      simp at hline

theorem not_startsBlank_crlf {x : Bytes} (h : x <+: crlf) (hlt : x.length < 2) :
    ¬StartsBlank x := by
  intro h
  rcases h with hx | hx
  · have := hx.trans h
    exact absurd this (by decide)
  · exact absurd hx.length_le (by simpa using hlt)

theorem fieldsBytes_cons (f : Field) (fs : List Field) (x : Bytes) :
    fieldsBytes (f :: fs) ++ x = f.text ++ 13 :: 10 :: (fieldsBytes fs ++ x) := by
  simp [fieldsBytes, crlf]

/-- A front of the header lines does not begin with a blank line. -/
theorem not_startsBlank_fields (fs : List Field) {x : Bytes} (h : x <+: fieldsBytes fs ++ crlf)
    (hlt : x.length < (fieldsBytes fs ++ crlf).length) : ¬StartsBlank x := by
  cases fs with
  | nil => exact not_startsBlank_crlf h hlt
  | cons f fs =>
    rw [fieldsBytes_cons] at h
    exact fun hx => not_startsBlank_field f _ (hx.imp (·.trans h) (·.trans h))

/-- There is no blank line in a front of the header lines. -/
theorem hasBlank_fields (fs : List Field) {x : Bytes} (h : x <+: fieldsBytes fs ++ crlf)
    (hlt : x.length < (fieldsBytes fs ++ crlf).length) : hasBlank x = false := by
  rw [Bool.eq_false_iff]
  intro hblank
  obtain ⟨u, v, rfl, hv⟩ := hasBlank_split hblank
  clear hblank
  induction fs generalizing u with
  | nil =>
    have hlen : u.length + (v.length + 1) < 2 := by simpa [fieldsBytes, crlf] using hlt
    obtain rfl := List.length_eq_zero_iff.1 (show u.length = 0 by omega)
    obtain rfl := List.length_eq_zero_iff.1 (show v.length = 0 by omega)
    exact absurd h (by decide)
  | cons f fs ih =>
    have hline : 10 ∉ f.text ++ [13] := by simp [f.line]
    obtain ⟨z, hz⟩ := h
    have happ : u ++ 10 :: (v ++ z) = f.text ++ [13] ++ 10 :: (fieldsBytes fs ++ crlf) := by
      rw [fieldsBytes_cons] at hz
      simpa using hz
    have hlen := congrArg List.length hz
    rw [List.length_append] at hlen
    rcases split_line hline happ with hw | ⟨u', hrest⟩
    · refine not_startsBlank_fields fs ⟨z, hw⟩ ?_ hv
      rw [← hw, List.length_append]
      omega
    · refine ih u' ⟨z, by simp [hrest]⟩ ?_
      rw [hrest]
      simp only [List.length_append, List.length_cons] at hlen hlt ⊢
      omega

/-- The blank line behind the header lines is the first one. -/
theorem hasBlank_take {fs : List Field} (hne : fs ≠ []) (x : Bytes) (k : Nat) :
    hasBlank ((fieldsBytes fs ++ crlf ++ x).take k) = true ↔
      (fieldsBytes fs ++ crlf).length ≤ k := by
  constructor
  · intro hblank
    by_contra hlt
    rw [List.take_append_of_le_length (by omega),
      hasBlank_fields fs (List.take_prefix k _) (by rw [List.length_take]; omega)] at hblank
    cases hblank
  · intro hle
    have hend : ∃ y, fieldsBytes fs ++ crlf = y ++ [13, 10, 13, 10] := by
      rcases List.eq_nil_or_concat fs with h | ⟨fs', f, h⟩
      · exact absurd h hne
      · exact ⟨fieldsBytes fs' ++ f.text, by simp [fieldsBytes, h, crlf]⟩
    obtain ⟨y, hy⟩ := hend
    rw [List.take_append, List.take_of_length_le hle, hy]
    refine hasBlank_append _ _ (matchMarkers_isSome.2 ⟨[13, 10, 13, 10], by decide, y, [], ?_⟩)
    rw [List.append_nil]

/-! ## The loop over the headers -/

theorem prefix_snoc {p x : Bytes} (hp : 13 ∉ p) : p <+: x ++ [13] ↔ p <+: x := by
  rw [List.prefix_concat_iff]
  refine ⟨fun h => h.resolve_left fun he => hp (by simp [he]), .inr⟩

theorem toLower_snoc (x : Bytes) : toLower (x ++ [13]) = toLower x ++ [13] := by
  rw [toLower, List.map_append]
  rfl

theorem isPrefixOf_snoc {p x : Bytes} (hp : 13 ∉ p) :
    p.isPrefixOf (toLower (x ++ [13])) = p.isPrefixOf (toLower x) := by
  rw [Bool.eq_iff_iff, List.isPrefixOf_iff_prefix, List.isPrefixOf_iff_prefix, toLower_snoc,
    prefix_snoc hp]

theorem rtrim_snoc (x : Bytes) : rtrim (x ++ [13]) = rtrim x := by
  rw [rtrim, rtrim, List.reverse_append]
  rfl

/-- The encoding behind a line. -/
def Field.encodes (f : Field) (encoding : Bytes) : Bytes :=
  if f.isEncoding then ascii "chunked".toList else encoding

theorem readHeaders_field (f : Field) (x encoding headers : Bytes) :
    readHeaders (fuel + 1) encoding headers ⟨reads, ending, goodAt str (f.text ++ 13 :: 10 :: x)⟩ =
      readHeaders fuel (f.encodes encoding) (headers ++ (f.text ++ crlf))
        ⟨reads, ending, goodAt str x⟩ := by
  have hline : 10 ∉ f.text ++ [13] := by simp [f.line]
  have hget : onStream IStream.getline ⟨reads, ending, goodAt str (f.text ++ 13 :: 10 :: x)⟩ =
      .ok (f.text ++ [13]) ⟨reads, ending, goodAt str x⟩ := by
    have happ : f.text ++ 13 :: 10 :: x = f.text ++ [13] ++ 10 :: x := by simp
    simp only [onStream, happ, getline_good str hline]
  have hheaders : headers ++ (f.text ++ [13]) ++ [10] = headers ++ (f.text ++ crlf) := by
    simp [crlf]
  have hother : ¬((goodAt str x).fail = true ∨ f.text ++ [13] = ascii "\r".toList ∨
      f.text ++ [13] = []) := by
    intro h
    rcases h with h | h | h
    · cases h
    · exact f.ne_nil (List.append_cancel_right (show f.text ++ [13] = [] ++ [13] from h))
    · simp at h
  rw [readHeaders, run_bind hget, run_bind (get_run _), if_neg hother, isPrefixOf_snoc (by decide),
    if_neg f.no_location, isPrefixOf_snoc (by decide), hheaders]
  by_cases he : (ascii "transfer-encoding: ".toList).isPrefixOf (toLower f.text) = true
  · have hlen : 19 ≤ f.text.length := by
      have hle := (List.isPrefixOf_iff_prefix.1 he).length_le
      rwa [toLower, List.length_map] at hle
    have hdrop : rtrim ((f.text ++ [13]).drop 19) = ascii "chunked".toList := by
      rw [List.drop_append_of_le_length hlen, rtrim_snoc, f.encoding he]
    rw [if_pos he, hdrop, if_neg (not_not.2 rfl), Field.encodes, Field.isEncoding, if_pos he]
  · rw [if_neg he, Field.encodes, Field.isEncoding, if_neg he]

/-- The encoding behind the lines. -/
def encoded (fs : List Field) (encoding : Bytes) : Bytes :=
  fs.foldl (fun encoding f => f.encodes encoding) encoding

theorem encoded_chunked {fs : List Field} (h : fs.any Field.isEncoding = true) (encoding : Bytes) :
    encoded fs encoding = ascii "chunked".toList := by
  have hkept : ∀ fs : List Field,
      encoded fs (ascii "chunked".toList) = ascii "chunked".toList := fun fs => by
    induction fs with
    | nil => rfl
    | cons f fs ih =>
      rw [encoded, List.foldl_cons, Field.encodes, ite_self]
      exact ih
  induction fs generalizing encoding with
  | nil => cases h
  | cons f fs ih =>
    rw [encoded, List.foldl_cons]
    rw [List.any_cons, Bool.or_eq_true] at h
    rcases h with h | h
    · rw [Field.encodes, if_pos h]
      exact hkept fs
    · exact ih h _

/-- All header lines are read, and the blank line behind them. -/
theorem readHeaders_eq (fs : List Field) (x encoding headers : Bytes)
    (hfuel : (fieldsBytes fs).length < fuel) :
    readHeaders fuel encoding headers ⟨reads, ending, goodAt str (fieldsBytes fs ++ (crlf ++ x))⟩ =
      .ok (.inr (encoded fs encoding, headers ++ fieldsBytes fs)) ⟨reads, ending, goodAt str x⟩ := by
  obtain ⟨fuel, rfl⟩ : ∃ n, fuel = n + 1 := ⟨fuel - 1, by omega⟩
  induction fs generalizing encoding headers fuel with
  | nil =>
    have hget : onStream IStream.getline ⟨reads, ending, goodAt str (13 :: 10 :: x)⟩ =
        .ok [13] ⟨reads, ending, goodAt str x⟩ := by
      have happ : 13 :: 10 :: x = [13] ++ 10 :: x := rfl
      simp only [onStream, happ, getline_good str (show 10 ∉ [13] by decide)]
    have happ : fieldsBytes [] ++ (crlf ++ x) = 13 :: 10 :: x := rfl
    rw [happ, readHeaders, run_bind hget, run_bind (get_run _), if_pos (.inr (.inl rfl))]
    simp [fieldsBytes, encoded]
    rfl
  | cons f fs ih =>
    have hlen := congrArg List.length (fieldsBytes_cons f fs [])
    simp only [List.append_nil, List.length_append, List.length_cons] at hlen
    obtain ⟨fuel, rfl⟩ : ∃ n, fuel = n + 1 := ⟨fuel - 1, by omega⟩
    rw [fieldsBytes_cons, readHeaders_field, ih _ _ fuel (by omega)]
    simp [fieldsBytes, encoded]

/-- Nothing is left of what was received. -/
def Ended (ending : SockError) (str : Bytes) (s : Conn) : Prop :=
  ∃ eof fail, s = ⟨[], ending, ⟨str, [], eof, fail⟩⟩

/-- A line that does not end is the last one. -/
theorem readHeaders_last {line : Bytes} (hline : 10 ∉ line)
    (hloc : ¬(ascii "location: ".toList).isPrefixOf (toLower line)) (encoding headers : Bytes)
    (hfuel : line.length < fuel) :
    wp (readHeaders fuel encoding headers) ⟨[], ending, goodAt str line⟩
      (fun _ => Ended ending str) fun e _ => e.Thrown := by
  have hget : onStream IStream.getline ⟨[], ending, goodAt str line⟩ =
      .ok line ⟨[], ending, ⟨str, [], true, line.isEmpty⟩⟩ := by
    simp only [onStream, getline_last str hline]
  obtain ⟨fuel, rfl⟩ : ∃ n, fuel = n + 1 := ⟨fuel - 1, by omega⟩
  rw [wp, readHeaders, run_bind hget, run_bind (get_run _)]
  by_cases hstop : line.isEmpty = true ∨ line = ascii "\r".toList ∨ line = []
  · rw [if_pos hstop]
    exact ⟨true, line.isEmpty, rfl⟩
  · have hpos := List.length_pos_iff.2 fun hnil => hstop (.inr (.inr hnil))
    obtain ⟨fuel, rfl⟩ : ∃ n, fuel = n + 1 := ⟨fuel - 1, by omega⟩
    have hend : ∀ encoding headers, wp (readHeaders (fuel + 1) encoding headers)
        ⟨[], ending, ⟨str, [], true, line.isEmpty⟩⟩ (fun _ => Ended ending str)
          fun e _ => e.Thrown := fun _ _ => ⟨true, true, rfl⟩
    rw [if_neg hstop, if_neg hloc]
    by_cases he : (ascii "transfer-encoding: ".toList).isPrefixOf (toLower line) = true
    · rw [if_pos he]
      by_cases hchunked : rtrim (line.drop 19) = ascii "chunked".toList
      · rw [if_neg (not_not.2 hchunked)]
        exact hend (rtrim (line.drop 19)) (headers ++ line ++ [10])
      · rw [if_pos hchunked]
        exact rfl
    · rw [if_neg he]
      exact hend encoding (headers ++ line ++ [10])

/-- A front of the header lines is read to its end. -/
theorem readHeaders_cut (fs : List Field) {x : Bytes} (h : x <+: fieldsBytes fs ++ crlf)
    (hlt : x.length < (fieldsBytes fs ++ crlf).length) (encoding headers : Bytes)
    (hfuel : x.length < fuel) :
    wp (readHeaders fuel encoding headers) ⟨[], ending, goodAt str x⟩
      (fun _ => Ended ending str) fun e _ => e.Thrown := by
  induction fs generalizing x encoding headers fuel with
  | nil =>
    have hlen : x.length < 2 := hlt
    have hcr : x <+: [13] := List.prefix_of_prefix_length_le h ⟨[10], rfl⟩ (Nat.lt_succ_iff.1 hlen)
    refine readHeaders_last (fun hmem => absurd (hcr.subset hmem) (by decide)) ?_ encoding headers hfuel
    intro hloc
    have hle := (List.isPrefixOf_iff_prefix.1 hloc).length_le
    rw [toLower, List.length_map] at hle
    exact absurd (hle.trans_lt hlen) (by decide)
  | cons f fs ih =>
    have happ : fieldsBytes (f :: fs) ++ crlf = f.text ++ [13] ++ ([10] ++ (fieldsBytes fs ++ crlf)) := by
      rw [fieldsBytes_cons]
      simp
    rw [happ] at h hlt
    by_cases hle : x.length ≤ (f.text ++ [13]).length
    · have hx : x <+: f.text ++ [13] :=
        List.prefix_of_prefix_length_le h (List.prefix_append _ _) hle
      refine readHeaders_last (fun hmem => ?_) (fun hloc => ?_) encoding headers hfuel
      · have hmem' := hx.subset hmem
        simp [f.line] at hmem'
      · have hpre := (List.isPrefixOf_iff_prefix.1 hloc).trans (hx.map _)
        refine f.no_location ?_
        rw [← isPrefixOf_snoc (by decide)]
        exact List.isPrefixOf_iff_prefix.2 hpre
    · have hline : f.text ++ [13] ++ [10] <+: x := by
        refine List.prefix_of_prefix_length_le ?_ h ?_
        · rw [← List.append_assoc (f.text ++ [13])]
          exact List.prefix_append _ _
        · simp only [List.length_append, List.length_singleton] at hle ⊢
          omega
      obtain ⟨y, rfl⟩ := hline
      rw [List.append_assoc, List.prefix_append_right_inj, List.prefix_append_right_inj] at h
      simp only [List.length_append, List.length_singleton] at hlt hfuel
      obtain ⟨fuel, rfl⟩ : ∃ n, fuel = n + 1 := ⟨fuel - 1, by omega⟩
      have hrun := ih h (by rw [List.length_append]; omega) (f.encodes encoding)
        (headers ++ (f.text ++ crlf)) (show y.length < fuel by omega)
      rw [wp] at hrun ⊢
      rw [show f.text ++ [13] ++ [10] ++ y = f.text ++ 13 :: 10 :: y by simp, readHeaders_field]
      exact hrun

/-! ## Behind the status line -/

theorem readRest_head (h : Head) {x : Bytes} (happ : t ++ r.flatten = h.headers ++ crlf ++ x) :
    readRest url ⟨r, ending, goodAt str t⟩ =
      (readChunks url ((behind (h.headers ++ crlf).length t r).1.length +
          (behind (h.headers ++ crlf).length t r).2.flatten.length + 1) [] >>=
        fun body => pure (.content h.headers body))
      ⟨(behind (h.headers ++ crlf).length t r).2, ending,
        goodAt str (behind (h.headers ++ crlf).length t r).1⟩ := by
  have hne : h.fields ≠ [] := fun hnil => by
    have hchunked := h.chunked
    rw [hnil] at hchunked
    cases hchunked
  have huntil : readUntil blankMarkers ⟨r, ending, goodAt str t⟩ =
      .ok () (received (h.headers ++ crlf).length str t false false r ending) := by
    refine readUntil_eq (by simp [happ]) fun k _ => ?_
    rw [happ]
    exact hasBlank_take hne x k
  obtain ⟨z, hz, -⟩ := arrive_front happ
  rw [received, hz] at huntil
  have hbehind : behind (h.headers ++ crlf).length t r =
      (z, (arrive (h.headers ++ crlf).length t r).2) := by
    rw [behind, hz, List.drop_left]
  have hheaders : readHeaders ((h.headers ++ crlf ++ z).length + 1) [] []
      ⟨(arrive (h.headers ++ crlf).length t r).2, ending, goodAt str (h.headers ++ crlf ++ z)⟩ =
        .ok (.inr (ascii "chunked".toList, h.headers))
          ⟨(arrive (h.headers ++ crlf).length t r).2, ending, goodAt str z⟩ := by
    have hlt : (fieldsBytes h.fields).length < (h.headers ++ crlf ++ z).length + 1 := by
      rw [List.length_append, List.length_append, Head.headers]
      omega
    have heq := @readHeaders_eq str (arrive (h.headers ++ crlf).length t r).2 ending _ h.fields z
      [] [] hlt
    rw [encoded_chunked h.chunked, List.nil_append, ← List.append_assoc] at heq
    exact heq
  rw [hbehind, readRest, run_bind (run_tryCatch huntil), run_bind (get_run _)]
  dsimp only
  rw [run_bind hheaders]
  rfl

/-- Headers that end early are read to their end, and there is no body behind them. -/
theorem readRest_cut (fs : List Field) (hpre : t ++ r.flatten <+: fieldsBytes fs ++ crlf)
    (hlt : (t ++ r.flatten).length < (fieldsBytes fs ++ crlf).length) :
    Sound (readRest url) ⟨r, ending, goodAt str t⟩ := by
  have huntil : readUntil blankMarkers ⟨r, ending, goodAt str t⟩ =
      .error (.system ending) ⟨[], ending, goodAt str (t ++ r.flatten)⟩ :=
    readUntil_none fun k _ => hasBlank_fields fs ((List.take_prefix k _).trans hpre)
      (by rw [List.length_take]; omega)
  by_cases heof : ending = .eof
  swap
  · have hthrown : readRest url ⟨r, ending, goodAt str t⟩ =
        .error (.system ending) ⟨[], ending, goodAt str (t ++ r.flatten)⟩ := by
      simp only [readRest, bind, EStateM.bind, run_tryCatch_error huntil, HttpExn.system.injEq]
      rw [if_neg heof]
      rfl
    have hfails : Fails (readRest url) ⟨r, ending, goodAt str t⟩ True := ⟨_, _, hthrown, Iff.rfl⟩
    exact hfails.sound.2 trivial
  subst heof
  have hcatch : (tryCatch (readUntil blankMarkers) fun e =>
      if e = .system .eof then pure () else throw e) ⟨r, .eof, goodAt str t⟩ =
        .ok () ⟨[], .eof, goodAt str (t ++ r.flatten)⟩ := by
    rw [run_tryCatch_error huntil, if_pos rfl]
    rfl
  have hheaders : wp (readHeaders ((t ++ r.flatten).length + 1) [] [])
      ⟨[], .eof, goodAt str (t ++ r.flatten)⟩ (fun _ => Ended .eof str) fun e _ => e.Thrown :=
    readHeaders_cut fs hpre hlt [] [] (Nat.lt_succ_self _)
  rw [readRest, sound_congr (run_bind hcatch), sound_congr (run_bind (get_run _)), Sound, wp_bind]
  refine wp_mono hheaders (fun found s' hend => ?_) fun _ _ he => he
  obtain ⟨eof, fail, rfl⟩ := hend
  rcases found with loc | ⟨encoding, headers⟩
  · trivial
  dsimp only
  by_cases hchunked : encoding = ascii "chunked".toList
  · rw [if_pos hchunked]
    have hnone : standing [] [] = none := rfl
    have hrun : Sound (readChunks url 1 []) ⟨[], .eof, ⟨str, [], eof, fail⟩⟩ :=
      (readChunks_fails (readSize_none hnone)).sound.2 trivial
    rw [wp_bind, wp_get, wp_bind]
    exact wp_mono hrun (fun _ _ _ => trivial) fun _ _ he => he
  · rw [if_neg hchunked]
    trivial

/-! ## The response as a whole -/

theorem hasLine_take (h : Head) (x : Bytes) (k : Nat) :
    (matchMarkers lineMarkers ((h.statusLine ++ x).take k)).isSome = true ↔
      h.statusLine.length ≤ k := by
  rw [hasLine_iff, Head.statusLine, List.append_assoc, List.singleton_append,
    mem_take_iff h.not_mem_statusText, List.length_append, List.length_singleton]

/-- The status line is read as soon as it is received. -/
theorem request_status (url : Url) (ending : SockError) (h : Head) {x : Bytes}
    (happ : reads.flatten = h.statusLine ++ x) :
    ∃ t, arrive h.statusLine.length [] reads =
        (h.statusLine ++ t, (arrive h.statusLine.length [] reads).2) ∧
      t ++ (arrive h.statusLine.length [] reads).2.flatten = x ∧
      request url (.ofReads reads ending) =
        readRest url ⟨(arrive h.statusLine.length [] reads).2, ending, goodAt [] t⟩ := by
  obtain ⟨t, ht, hx⟩ := arrive_front
    (show [] ++ reads.flatten = h.statusLine ++ x from happ)
  refine ⟨t, by rw [← ht], hx, request_rest h ?_⟩
  rw [← ht]
  refine readUntil_eq (by simp [happ]) fun k _ => ?_
  rw [List.nil_append, happ]
  exact hasLine_take h x k

theorem behind_front {u : Bytes} {n : Nat} (h : arrive u.length data reads = (u ++ t, r)) :
    behind n t r = behind (u.length + n) data reads := by
  have hle : u.length ≤ (u ++ t).length := by simp
  have harrive : arrive (u.length + n) (arrive u.length data reads).1
      (arrive u.length data reads).2 = arrive (u.length + n) data reads :=
    arrive_arrive (Nat.le_add_right _ _)
  have hbehind : behind n ((u ++ t).drop u.length) r = behind (u.length + n) (u ++ t) r :=
    behind_drop hle
  rw [h] at harrive
  rw [List.drop_left] at hbehind
  rw [hbehind, behind, behind, harrive]

theorem Head.length_bytes (h : Head) :
    h.bytes.length = h.statusLine.length + (h.headers ++ crlf).length := by
  rw [Head.bytes, List.length_append]

/-- A head that is received as a whole is read, and the loop over the chunks begins behind it. -/
theorem request_head (h : Head) {x : Bytes} (happ : reads.flatten = h.bytes ++ x) :
    request url (.ofReads reads ending) =
      (readChunks url ((behind h.bytes.length [] reads).1.length +
          (behind h.bytes.length [] reads).2.flatten.length + 1) [] >>=
        fun body => pure (.content h.headers body))
      ⟨(behind h.bytes.length [] reads).2, ending,
        goodAt [] (behind h.bytes.length [] reads).1⟩ := by
  rw [Head.bytes, List.append_assoc] at happ
  obtain ⟨t, harrive, hx, hrun⟩ := request_status url ending h happ
  rw [hrun, readRest_head h hx, behind_front harrive, ← h.length_bytes]

/-- A head that is not received as a whole. -/
theorem request_cut (h : Head) (hpre : reads.flatten <+: h.bytes)
    (hlt : reads.flatten.length < h.bytes.length) :
    Sound (request url) (.ofReads reads ending) := by
  by_cases hline : h.statusLine.length ≤ reads.flatten.length
  · obtain ⟨x, hx⟩ := List.prefix_of_prefix_length_le (List.prefix_append h.statusLine _) hpre hline
    rw [Head.bytes, ← hx, List.prefix_append_right_inj] at hpre
    rw [h.length_bytes, ← hx, List.length_append] at hlt
    obtain ⟨t, -, rfl, hrun⟩ := request_status url ending h hx.symm
    exact (sound_congr hrun).2 (readRest_cut h.fields hpre (by simpa [Head.headers] using hlt))
  · have htext : reads.flatten <+: h.statusText := by
      refine List.prefix_of_prefix_length_le hpre ?_ ?_
      · rw [Head.bytes, Head.statusLine, List.append_assoc]
        exact List.prefix_append _ _
      · rw [Head.statusLine, List.length_append, List.length_singleton] at hline
        omega
    have huntil : readUntil lineMarkers (.ofReads reads ending) =
        .error (.system ending) ⟨[], ending, goodAt [] ([] ++ reads.flatten)⟩ := by
      refine readUntil_none fun k _ => Bool.eq_false_iff.2 fun hmem => ?_
      exact h.not_mem_statusText (htext.subset (List.mem_of_mem_take (hasLine_iff.1 hmem)))
    have hfails : Fails (readUntil lineMarkers) (.ofReads reads ending) True :=
      ⟨_, _, huntil, Iff.rfl⟩
    rw [request]
    exact hfails.bind.sound.2 trivial

end

/-- A response with a chunked body. -/
structure ChunkedResponse where
  head : Head
  chunks : List Chunk
  last : LastChunk

namespace ChunkedResponse

def bytes (r : ChunkedResponse) : Bytes := r.head.bytes ++ bodyBytes r.chunks r.last

def body (r : ChunkedResponse) : Bytes := r.chunks.flatMap (·.content)

/-- The buffer when the loop over the chunks begins, and the reads that are left then. -/
def start (r : ChunkedResponse) (reads : List Bytes) : Bytes × List Bytes :=
  behind r.head.bytes.length [] reads

end ChunkedResponse

section
variable {s s' : Conn} {m : HttpM Bytes} {headers body : Bytes}

theorem content_iff : (∃ s', (m >>= fun body => pure (HttpResponse.content headers body)) s =
    .ok (.content headers body) s') ↔ ∃ s', m s = .ok body s' := by
  simp only [bind, EStateM.bind]
  cases m s with
  | ok a s1 =>
    constructor
    · intro hin
      obtain ⟨s', h⟩ := hin
      cases h
      exact ⟨_, rfl⟩
    · intro hin
      obtain ⟨s', h⟩ := hin
      cases h
      exact ⟨_, rfl⟩
  | error e s1 => simp

theorem sound_content :
    Sound (m >>= fun body => pure (HttpResponse.content headers body)) s ↔ Sound m s := by
  rw [Sound, wp_bind]
  rfl

end

theorem start_append {r : ChunkedResponse} {reads : List Bytes} {x : Bytes}
    (happ : reads.flatten = r.head.bytes ++ x) :
    (r.start reads).1 ++ (r.start reads).2.flatten = x := by
  have hle : r.head.bytes.length ≤ ([] ++ reads.flatten).length := by simp [happ]
  have hrest := behind_append hle
  rwa [List.nil_append, happ, List.drop_left] at hrest

/-- Of a response that is received as a whole the contents of the chunks are returned exactly when
no read cuts the line of a chunk that is not the last one, as the loop comes to it. Of a response that
ends early nothing but what was received is copied exactly when no size is more than what is left. -/
theorem request_chunked (url : Url) (ending : SockError) (r : ChunkedResponse)
    (reads : List Bytes) :
    (reads.flatten = r.bytes →
      ((∃ s', request url (.ofReads reads ending) = .ok (.content r.head.headers r.body) s') ↔
        Intact r.chunks (r.start reads).1 (r.start reads).2)) ∧
    (reads.flatten <+: r.bytes →
      (Sound (request url) (.ofReads reads ending) ↔
        (Ignored url ending → Covered r.chunks (r.start reads).1 (r.start reads).2))) := by
  constructor
  · intro hall
    have hbody := start_append hall
    have hfuel : ((r.start reads).1 ++ (r.start reads).2.flatten).length <
        (r.start reads).1.length + (r.start reads).2.flatten.length + 1 := by
      rw [List.length_append]
      omega
    rw [request_head r.head hall, content_iff]
    exact readChunks_iff r.chunks hbody hfuel
  · intro hpre
    by_cases hlt : reads.flatten.length < r.head.bytes.length
    · have hhead : reads.flatten <+: r.head.bytes :=
        List.prefix_of_prefix_length_le hpre (List.prefix_append _ _) hlt.le
      have hstart : r.start reads = ([], []) := behind_short hlt
      rw [hstart]
      exact iff_of_true (request_cut r.head hhead hlt) fun _ => covered_nil r.chunks
    · obtain ⟨x, hx⟩ := List.prefix_of_prefix_length_le (List.prefix_append r.head.bytes _) hpre
        (Nat.le_of_not_lt hlt)
      have hrest := start_append hx.symm
      rw [ChunkedResponse.bytes, ← hx, List.prefix_append_right_inj, ← hrest] at hpre
      rw [sound_congr (request_head r.head hx.symm), sound_content]
      exact readChunks_covered r.chunks hpre (by rw [List.length_append]; omega)

def helloUrl : Url :=
  { scheme := ascii "http".toList, host := ascii "h".toList, path := ascii "/".toList, port := none }

def helloHead : Head where
  version := ascii "HTTP/1.1".toList
  is_http := rfl
  version_word := fun c hc => by
    have hall : (ascii "HTTP/1.1".toList).all (fun c => !isSpace c) = true := rfl
    simpa using List.all_eq_true.1 hall c hc
  status := 200
  valid := by decide
  reason := ascii " OK".toList
  reason_head := fun c hc => by
    cases hc
    rfl
  reason_line := by decide
  fields := [{
    text := ascii "Transfer-Encoding: chunked".toList
    ne_nil := by decide
    line := by decide
    no_location := by decide
    encoding := fun _ => rfl }]
  chunked := rfl

/-- A line without an extension. -/
def SizeLine.plain (digits : Bytes) (ne_nil : digits ≠ [])
    (hex : ∀ c ∈ digits, isDigitOf 16 c = true) : SizeLine where
  digits
  ext := []
  ne_nil
  hex
  ext_head := by simp
  ext_line := by simp

/-- The chunks `hello` and `0123456789abcdef`. -/
def helloResponse : ChunkedResponse where
  head := helloHead
  chunks := [
    { toSizeLine := .plain (ascii "5".toList) (by decide) (List.all_eq_true.1 rfl)
      content := ascii "hello".toList
      size_content := rfl
      content_ne := by decide },
    { toSizeLine := .plain (ascii "10".toList) (by decide) (List.all_eq_true.1 rfl)
      content := ascii "0123456789abcdef".toList
      size_content := rfl
      content_ne := by decide }]
  last := { toSizeLine := .plain [48] (by decide) (List.all_eq_true.1 rfl), zero := rfl, trailers := [] }

/-- The second read begins within the line of the second chunk. -/
def helloCut : List Bytes :=
  [helloHead.bytes ++ ascii "5\r\nhello\r\n1".toList,
    ascii "0\r\n0123456789abcdef\r\n0\r\n\r\n".toList]

/-- The buffer holds both lines when the loop comes to them. -/
def helloReads : List Bytes :=
  [helloHead.bytes, ascii "5\r\nhello\r\n10\r\n01234567".toList,
    ascii "89abcdef\r\n0\r\n\r\n".toList]

/-- The connection ends within the first chunk. -/
def helloShort : List Bytes := [helloHead.bytes ++ ascii "5\r\nhel".toList]

/-- The second line is cut, and what is read of it is not appended; the first content is not received. -/
theorem request_chunked_hello :
    (helloCut.flatten = helloResponse.bytes ∧
      ¬∃ headers s', request helloUrl (.ofReads helloCut .eof) =
        .ok (.content headers helloResponse.body) s') ∧
    helloShort.flatten <+: helloResponse.bytes ∧
      ¬Sound (request helloUrl) (.ofReads helloShort .eof) := by
  have hcut : Fails (request helloUrl) (.ofReads helloCut .eof) True :=
    ⟨.std (.invalidArgument "stol"), _, rfl, iff_of_true rfl trivial⟩
  have hshort : Fails (request helloUrl) (.ofReads helloShort .eof) False :=
    ⟨.std (.undefined "copy_n range"), _, rfl, iff_of_false Bool.false_ne_true id⟩
  refine ⟨⟨rfl, ?_⟩, List.prefix_iff_eq_take.2 rfl, mt hshort.sound.1 id⟩
  intro hin
  obtain ⟨headers, s', h⟩ := hin
  exact hcut.not_ok h

theorem request_chunked_hello_reads :
    (∃ s', request helloUrl (.ofReads helloReads .eof) =
      .ok (.content helloHead.headers helloResponse.body) s') ∧
    Sound (request helloUrl) (.ofReads helloReads .eof) :=
  have h := request_chunked helloUrl .eof helloResponse helloReads
  ⟨(h.1 rfl).2 ⟨by decide, by decide, by decide, by decide, trivial⟩,
    (h.2 (List.prefix_iff_eq_take.2 rfl)).2 fun _ _ => ⟨by decide, fun _ => ⟨by decide, trivial⟩⟩⟩

end Zit.Net
