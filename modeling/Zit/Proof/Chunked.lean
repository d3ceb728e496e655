import Zit.Http

/-!
# Chunked bodies

A loop over the chunks reads the right contents exactly when at each of them the buffer holds the
whole line of the size (`readChunks_iff`): a line that a read cuts is taken for shorter than it is,
and the stream is at its end from there on. On a body that ends early the loop copies bytes that were
not received exactly when a size, as it was read, is more than what is left (`readChunks_covered`).
-/

set_option autoImplicit false

namespace Zit.Net

open Lib Lib.Strtol Lib.IStream

/-! ## Size lines -/

def crlf : Bytes := [13, 10]

/-- A line with a size in base 16 and an extension behind it. -/
structure SizeLine where
  digits : Bytes
  ext : Bytes
  ne_nil : digits ≠ []
  hex : ∀ c ∈ digits, isDigitOf 16 c = true
  ext_head : ∀ c ∈ ext.head?, c = 59 ∨ c = 32 ∨ c = 9
  ext_line : 10 ∉ ext

namespace SizeLine

/-- Without the line feed. -/
def text (l : SizeLine) : Bytes := l.digits ++ (l.ext ++ [13])

def line (l : SizeLine) : Bytes := l.text ++ [10]

/-- The size in the first `k` characters. -/
def size (l : SizeLine) (k : Nat) : Nat := magnitude 16 (l.digits.take k)

/-- The same as it is read. -/
def read (l : SizeLine) (k : Nat) : Except Exn Nat :=
  if l.size k < 2 ^ 63 then .ok (l.size k) else .error (.outOfRange "stol")

variable (l : SizeLine)

theorem length_line : l.line.length = l.text.length + 1 := by simp [line]

theorem size_line : l.size l.line.length = magnitude 16 l.digits := by
  rw [size, List.take_of_length_le]
  simp only [line, text, List.length_append]
  omega

theorem size_le (k : Nat) : l.size k ≤ magnitude 16 l.digits := by
  have h := magnitude_le (show 1 ≤ 16 by decide) (l.digits.take k) (l.digits.drop k)
  rwa [List.take_append_drop] at h

theorem not_mem_text : 10 ∉ l.text := by
  have hdigits : 10 ∉ l.digits := fun h => absurd (l.hex 10 h) (by decide)
  simp [text, hdigits, l.ext_line]

end SizeLine

theorem rtrim_append {ds : Bytes} (hne : ds ≠ []) (hds : ∀ c ∈ ds, isSpace c = false) (s : Bytes) :
    rtrim (ds ++ s) = ds ++ rtrim s := by
  have hdrop : ds.reverse.dropWhile isSpace = ds.reverse := by
    obtain ⟨d, ds', hd⟩ := List.exists_cons_of_ne_nil (mt List.reverse_eq_nil_iff.1 hne)
    have hmem : d ∈ ds := List.mem_reverse.1 (hd ▸ List.mem_cons_self)
    rw [hd, List.dropWhile_cons_of_neg (by simp [hds d hmem])]
  rw [rtrim, rtrim, List.reverse_append, List.dropWhile_append, hdrop]
  split
  · rename_i h
    rw [List.isEmpty_iff] at h
    simp [h]
  · simp

theorem front_of_rtrim (s : Bytes) : rtrim s <+: s := by
  have h := List.reverse_prefix.2 (List.dropWhile_suffix isSpace (l := s.reverse))
  rwa [List.reverse_reverse] at h

/-- What is read of a front of the line: the size in it. -/
theorem stol_front (l : SizeLine) {k : Nat} (hk : 1 ≤ k) :
    (stol 16 (rtrim (l.text.take k))).bind castU64 = l.read k := by
  have hne : l.digits.take k ≠ [] := by
    intro h
    rcases List.take_eq_nil_iff.1 h with h | h
    · omega
    · exact l.ne_nil h
  have hhex : ∀ c ∈ l.digits.take k, isDigitOf 16 c = true := fun c hc =>
    l.hex c (List.mem_of_mem_take hc)
  have hspace : ∀ c ∈ l.digits.take k, isSpace c = false := fun c hc => isSpace_of_digit (hhex c hc)
  have hhead : ∀ c ∈ (rtrim ((l.ext ++ [13]).take (k - l.digits.length))).head?,
      c = 59 ∨ c = 32 ∨ c = 9 ∨ c = 13 := by
    intro c hc
    have hpre := (front_of_rtrim _).trans (List.take_prefix (k - l.digits.length) (l.ext ++ [13]))
    obtain ⟨t, ht⟩ := List.head?_eq_some_iff.1 hc
    obtain ⟨r, hr⟩ := hpre
    rw [ht, List.cons_append] at hr
    have hext := l.ext_head
    generalize l.ext = ext at hr hext
    cases ext with
    | nil =>
      obtain ⟨rfl, -⟩ := List.cons.inj hr
      simp
    | cons x xs =>
      obtain ⟨rfl, -⟩ := List.cons.inj hr
      rcases hext c rfl with h | h | h <;> simp [h]
  have hstrtol : strtol 16 (rtrim (l.text.take k)) = some (l.size k : Int) := by
    rw [SizeLine.text, List.take_append, rtrim_append hne hspace]
    refine strtol_digits hne hhex (fun c hc => ?_) ⟨fun h => ?_, fun h => ?_⟩
    · rcases hhead c hc with rfl | rfl | rfl | rfl <;> rfl
    · exact absurd (hhead 120 h) (by decide)
    · exact absurd (hhead 88 h) (by decide)
  have hholds : IntTy.i64.Holds (l.size k : Int) ↔ l.size k < 2 ^ 63 := by
    simp only [IntTy.Holds, IntTy.min, IntTy.max, IntTy.i64, if_true]
    omega
  simp only [stol, hstrtol, hholds, SizeLine.read]
  by_cases hsmall : l.size k < 2 ^ 63
  · rw [if_pos hsmall, if_pos hsmall]
    exact castU64_of (by omega)
  · rw [if_neg hsmall, if_neg hsmall]
    rfl

/-- An exception that the program or a library throws. -/
def HttpExn.Thrown : HttpExn → Prop
  | .std e => e.isStd = true
  | _ => True

instance : DecidablePred HttpExn.Thrown := fun e => by
  cases e <;> unfold HttpExn.Thrown <;> infer_instance

section
variable {α β : Type} {m m' : HttpM α} {s s' : Conn} {e : HttpExn} {a : α} {P Q : Prop}

/-- `m` returns or throws an exception, so that nothing but what was received is copied. -/
def Sound (m : HttpM α) (s : Conn) : Prop := wp m s (fun _ _ => True) fun e _ => e.Thrown

/-- `m` does not return, and what it throws is an exception exactly when `P`. -/
def Fails (m : HttpM α) (s : Conn) (P : Prop) : Prop :=
  ∃ e s', m s = .error e s' ∧ (e.Thrown ↔ P)

theorem sound_ok (h : m s = .ok a s') : Sound m s := by
  rw [Sound, wp, h]
  trivial

theorem sound_congr (h : m s = m' s') : Sound m s ↔ Sound m' s' := by
  rw [Sound, Sound, wp, wp, h]

namespace Fails

theorem sound (h : Fails m s P) : Sound m s ↔ P := by
  obtain ⟨e, s', hs, he⟩ := h
  rw [Sound, wp, hs]
  exact he

theorem not_ok (h : Fails m s P) (hs : m s = .ok a s') : False := by
  obtain ⟨e, s'', he, -⟩ := h
  rw [hs] at he
  cases he

theorem iff (h : Fails m s P) (hpq : P ↔ Q) : Fails m s Q := by
  obtain ⟨e, s', hs, he⟩ := h
  exact ⟨e, s', hs, he.trans hpq⟩

theorem bind {f : α → HttpM β} (h : Fails m s P) : Fails (m >>= f) s P := by
  obtain ⟨e, s', hs, he⟩ := h
  exact ⟨e, s', by simp only [Bind.bind, EStateM.bind, hs], he⟩

theorem congr (h : m s = m' s') (hf : Fails m' s' P) : Fails m s P := by
  rwa [Fails, h]

end Fails

end

/-! ## The buffer when a line is taken from it -/

theorem matchMarkers_isSome {markers : List Bytes} {data : Bytes} :
    (matchMarkers markers data).isSome ↔ ∃ marker ∈ markers, marker <:+: data := by
  rw [matchMarkers, List.isSome_findSome?, List.any_eq_true]
  simp only [Option.isSome_map, search_isSome]

def hasBlank (data : Bytes) : Bool := (matchMarkers blankMarkers data).isSome

theorem hasBlank_append (xs ys : Bytes) (h : hasBlank xs = true) : hasBlank (xs ++ ys) = true := by
  obtain ⟨marker, hmem, hin⟩ := matchMarkers_isSome.1 h
  exact matchMarkers_isSome.2 ⟨marker, hmem, hin.trans (List.prefix_append xs ys).isInfix⟩

/-- The buffer and the reads that are left when a size is read: an empty buffer is filled up to a
blank line before. There is nothing to read when none arrives. -/
def standing (data : Bytes) (reads : List Bytes) : Option (Bytes × List Bytes) :=
  if data = [] then (enough hasBlank reads.flatten).map fun k => arrive k [] reads
  else some (data, reads)

section
variable {data b str : Bytes} {reads r : List Bytes} {eof fail : Bool} {ending : SockError}
  {url : Url} {n : Nat}

/-- The state when at least `n` bytes were asked for. -/
def received (n : Nat) (str data : Bytes) (eof fail : Bool) (reads : List Bytes)
    (ending : SockError) : Conn :=
  ⟨(arrive n data reads).2, ending, ⟨str, (arrive n data reads).1, eof, fail⟩⟩

theorem readUntil_eq {markers : List Bytes} (hn : n ≤ (data ++ reads.flatten).length)
    (h : ∀ k ≤ (data ++ reads.flatten).length,
      (matchMarkers markers ((data ++ reads.flatten).take k)).isSome = true ↔ n ≤ k) :
    readUntil markers ⟨reads, ending, ⟨str, data, eof, fail⟩⟩ =
      .ok () (received n str data eof fail reads ending) := by
  have hfill : fillUntil (fun data => (matchMarkers markers data).isSome) reads data =
      (true, (arrive n data reads).2, (arrive n data reads).1) := fillUntil_eq hn h
  simp only [readUntil, bind, EStateM.bind, get_run, hfill, set_run]
  rfl

theorem readUntil_none {markers : List Bytes}
    (h : ∀ k ≤ (data ++ reads.flatten).length,
      (matchMarkers markers ((data ++ reads.flatten).take k)).isSome = false) :
    readUntil markers ⟨reads, ending, ⟨str, data, eof, fail⟩⟩ =
      .error (.system ending) ⟨[], ending, ⟨str, data ++ reads.flatten, eof, fail⟩⟩ := by
  have hfill : fillUntil (fun data => (matchMarkers markers data).isSome) reads data =
      (false, [], data ++ reads.flatten) := fillUntil_none h
  simp only [readUntil, bind, EStateM.bind, get_run, hfill, set_run]
  rfl

theorem standing_append (h : standing data reads = some (b, r)) :
    b ++ r.flatten = data ++ reads.flatten := by
  unfold standing at h
  split at h
  · obtain ⟨k, -, hk⟩ := Option.map_eq_some_iff.1 h
    rename_i hnil
    have happ := arrive_append k [] reads
    rw [hk] at happ
    rwa [hnil]
  · cases h
    rfl

/-- A line feed is in a buffer that was filled. -/
theorem standing_mem (h : standing data reads = some (b, r)) (hnil : data = []) : 10 ∈ b := by
  rw [standing, if_pos hnil] at h
  obtain ⟨k, hk, hb⟩ := Option.map_eq_some_iff.1 h
  obtain ⟨hlen, hiff⟩ := enough_iff hasBlank_append hk
  have hge := arrive_length (show k ≤ ([] ++ reads.flatten).length from hlen)
  have happ := arrive_append k [] reads
  rw [hb] at hge happ
  have hblank : hasBlank b = true := by
    have := (hiff b.length (by rw [← List.nil_append reads.flatten, ← happ]; simp)).2 hge
    rwa [← List.nil_append reads.flatten, ← happ, List.take_left] at this
  obtain ⟨marker, hmem, hin⟩ := matchMarkers_isSome.1 hblank
  refine hin.subset ?_
  simp only [blankMarkers, List.mem_cons, List.not_mem_nil, or_false] at hmem
  rcases hmem with rfl | rfl <;> decide

theorem standing_ne_nil (h : standing data reads = some (b, r)) : b ≠ [] := by
  by_cases hnil : data = []
  · exact List.ne_nil_of_mem (standing_mem h hnil)
  · rw [standing, if_neg hnil] at h
    cases h
    exact hnil

/-- The rest of `readSize`. -/
def takeSize : HttpM Nat := do
  let chunkStrLen ← onStream IStream.getline
  liftHttp ((stol 16 (rtrim chunkStrLen)).bind castU64)

theorem readSize_some (h : standing data reads = some (b, r)) :
    readSize ⟨reads, ending, ⟨str, data, eof, fail⟩⟩ = takeSize ⟨r, ending, ⟨str, b, eof, fail⟩⟩ := by
  unfold readSize
  rw [run_bind (get_run _)]
  unfold standing at h
  by_cases hnil : data = []
  · rw [if_pos hnil] at h
    obtain ⟨k, hk, hb⟩ := Option.map_eq_some_iff.1 h
    obtain ⟨hlen, hiff⟩ := enough_iff hasBlank_append hk
    have hrun : readUntil blankMarkers ⟨reads, ending, ⟨str, [], eof, fail⟩⟩ =
        .ok () (received k str [] eof fail reads ending) := readUntil_eq hlen hiff
    rw [received, hb] at hrun
    subst hnil
    rw [if_pos rfl, run_bind hrun]
    rfl
  · rw [if_neg hnil] at h
    cases h
    rw [if_neg hnil]
    rfl

theorem readSize_none (h : standing data reads = none) :
    Fails readSize ⟨reads, ending, ⟨str, data, eof, fail⟩⟩ True := by
  unfold standing at h
  by_cases hnil : data = []
  · rw [if_pos hnil] at h
    subst hnil
    have hnone := enough_none (Option.map_eq_none_iff.1 h)
    have hrun : readUntil blankMarkers ⟨reads, ending, ⟨str, [], eof, fail⟩⟩ =
        .error (.system ending) ⟨[], ending, ⟨str, [] ++ reads.flatten, eof, fail⟩⟩ :=
      readUntil_none hnone
    unfold readSize
    refine .congr (run_bind (get_run _)) ?_
    rw [if_pos rfl]
    exact .bind ⟨_, _, hrun, Iff.rfl⟩
  · rw [if_neg hnil] at h
    cases h

/-- A line that the buffer holds. -/
theorem readSize_line {l : SizeLine} {t : Bytes} (h : standing data reads = some (l.line ++ t, r)) :
    readSize ⟨reads, ending, goodAt str data⟩ =
      liftHttp (l.read l.line.length) ⟨r, ending, goodAt str t⟩ := by
  have hget : onStream IStream.getline ⟨r, ending, goodAt str (l.line ++ t)⟩ =
      .ok l.text ⟨r, ending, goodAt str t⟩ := by
    rw [SizeLine.line, List.append_assoc, List.singleton_append]
    simp only [onStream, getline_good str l.not_mem_text]
  have hread := stol_front l (k := l.line.length) (by rw [l.length_line]; omega)
  rw [List.take_of_length_le (by rw [l.length_line]; omega)] at hread
  rw [readSize_some h, takeSize, run_bind hget, hread]

/-- A line that the buffer holds a front of. The stream is at its end then. -/
theorem readSize_cut {l : SizeLine} (h : standing data reads = some (b, r)) (hb : b <+: l.text) :
    readSize ⟨reads, ending, goodAt str data⟩ =
      liftHttp (l.read b.length) ⟨r, ending, ⟨str, [], true, false⟩⟩ := by
  have hne := standing_ne_nil h
  have hline : 10 ∉ b := fun hmem => l.not_mem_text (hb.subset hmem)
  have hget : onStream IStream.getline ⟨r, ending, goodAt str b⟩ =
      .ok b ⟨r, ending, ⟨str, [], true, false⟩⟩ := by
    simp only [onStream, getline_last str hline, List.isEmpty_eq_false_iff.2 hne]
  have hread := stol_front l (k := b.length) (List.length_pos_iff.2 hne)
  rw [← List.prefix_iff_eq_take.1 hb] at hread
  rw [readSize_some h, takeSize, run_bind hget, hread]

/-- Nothing is taken from a stream that is at its end. -/
theorem readSize_eof : Fails readSize ⟨reads, ending, ⟨str, data, true, fail⟩⟩ True := by
  cases h : standing data reads with
  | none => exact readSize_none h
  | some p =>
    refine .congr (readSize_some (b := p.1) (r := p.2) h) ?_
    exact ⟨.std (.invalidArgument "stol"), _, rfl, iff_of_true rfl trivial⟩

/-! ## The content of a chunk -/

/-- The error of the socket goes unnoticed when a content is received. -/
def Ignored (url : Url) (ending : SockError) : Prop :=
  url.scheme = ascii "https".toList ∨ ending = .eof

instance : Decidable (Ignored url ending) := by unfold Ignored; infer_instance

theorem checkError_ignored (h : Ignored url ending) (s : Conn) :
    checkError url (some ending) s = .ok () s := by
  cases ending with
  | eof => rfl
  | other what =>
    have hscheme : ¬url.scheme ≠ ascii "https".toList := by simpa [Ignored] using h
    simp only [checkError, if_neg hscheme]
    rfl

theorem checkError_thrown (h : ¬Ignored url ending) (s : Conn) :
    checkError url (some ending) s = .error (.system ending) s := by
  cases ending with
  | eof => exact absurd (.inr rfl) h
  | other what =>
    have hscheme : url.scheme ≠ ascii "https".toList := fun he => h (.inl he)
    simp only [checkError, if_pos hscheme]
    rfl

theorem readAtLeast_eq (h : data.length < n) :
    readAtLeast (n - data.length) ⟨reads, ending, ⟨str, data, eof, fail⟩⟩ =
      .ok (if n ≤ (data ++ reads.flatten).length then none else some ending)
        (received n str data eof fail reads ending) := by
  have hfill : fillAtLeast (n - data.length) reads data =
      (decide (n ≤ (data ++ reads.flatten).length), (arrive n data reads).2,
        (arrive n data reads).1) := by
    rw [fillAtLeast_eq, Nat.add_sub_cancel' (by omega), List.length_append,
      decide_eq_decide.2 (show n - data.length ≤ reads.flatten.length ↔
        n ≤ data.length + reads.flatten.length by omega)]
  simp only [readAtLeast, bind, EStateM.bind, get_run, hfill, set_run, decide_eq_true_eq]
  rfl

/-- `readContent` once the content was received. -/
def takeContent (n : Nat) : HttpM Bytes := do
  let s ← get
  if s.stream.rest.length < n then throw (.std (.undefined "copy_n range"))
  set (s.fill s.reads (s.stream.rest.drop (n + 2)))
  return s.stream.rest.take n

theorem readContent_eq : readContent url n ⟨reads, ending, ⟨str, data, eof, fail⟩⟩ =
    if n + 2 ≤ (data ++ reads.flatten).length ∨ Ignored url ending then
      takeContent n (received (n + 2) str data eof fail reads ending)
    else .error (.system ending) (received (n + 2) str data eof fail reads ending) := by
  unfold readContent
  rw [run_bind (get_run _)]
  by_cases hlt : data.length < n + 2
  · rw [if_pos hlt, run_bind (readAtLeast_eq hlt)]
    by_cases hle : n + 2 ≤ (data ++ reads.flatten).length
    · rw [if_pos hle, if_pos (.inl hle)]
      rfl
    · rw [if_neg hle]
      by_cases hign : Ignored url ending
      · rw [if_pos (.inr hign), run_bind (checkError_ignored hign _)]
        rfl
      · rw [if_neg (by tauto)]
        simp only [bind, EStateM.bind, checkError_thrown hign]
  · have hle : n + 2 ≤ (data ++ reads.flatten).length := by
      rw [List.length_append]
      omega
    rw [if_neg hlt, if_pos (.inl hle), received, arrive_of_le (by omega)]
    rfl

theorem takeContent_ok (h : n ≤ b.length) :
    takeContent n ⟨r, ending, ⟨str, b, eof, fail⟩⟩ =
      .ok (b.take n) ⟨r, ending, ⟨str, b.drop (n + 2), eof, fail⟩⟩ := by
  unfold takeContent
  rw [run_bind (get_run _), if_neg (by simpa using h)]
  rfl

theorem takeContent_over (h : b.length < n) :
    Fails (takeContent n) ⟨r, ending, ⟨str, b, eof, fail⟩⟩ False := by
  unfold takeContent
  refine .congr (run_bind (get_run _)) ?_
  rw [if_pos h]
  exact ⟨.std (.undefined "copy_n range"), _, rfl, iff_of_false Bool.false_ne_true id⟩

/-- The buffer and the reads behind the next `k` bytes. -/
def behind (k : Nat) (data : Bytes) (reads : List Bytes) : Bytes × List Bytes :=
  ((arrive k data reads).1.drop k, (arrive k data reads).2)

theorem behind_append (h : n ≤ (data ++ reads.flatten).length) :
    (behind n data reads).1 ++ (behind n data reads).2.flatten = (data ++ reads.flatten).drop n := by
  rw [behind, ← List.drop_append_of_le_length (arrive_length h), arrive_append]

theorem behind_short (h : (data ++ reads.flatten).length < n) : behind n data reads = ([], []) := by
  rw [behind, arrive_short h, List.drop_of_length_le h.le]

/-- A content that is received with the end of line behind it. -/
theorem readContent_whole (h : n + 2 ≤ (data ++ reads.flatten).length) :
    readContent url n ⟨reads, ending, ⟨str, data, eof, fail⟩⟩ =
      .ok ((data ++ reads.flatten).take n) ⟨(behind (n + 2) data reads).2, ending,
        ⟨str, (behind (n + 2) data reads).1, eof, fail⟩⟩ := by
  have hlen := arrive_length h
  rw [readContent_eq, if_pos (.inl h), received, takeContent_ok (by omega),
    ← arrive_append (n + 2) data reads, List.take_append_of_le_length (by omega)]
  rfl

/-- A content of which the end of line is not received: there are no more bytes. -/
theorem readContent_last (hign : Ignored url ending) (hn : n ≤ (data ++ reads.flatten).length)
    (h : (data ++ reads.flatten).length < n + 2) :
    ∃ content, readContent url n ⟨reads, ending, ⟨str, data, eof, fail⟩⟩ =
      .ok content ⟨[], ending, ⟨str, [], eof, fail⟩⟩ := by
  have hdrop : (data ++ reads.flatten).drop (n + 2) = [] := List.drop_of_length_le h.le
  rw [readContent_eq, if_pos (.inr hign), received, arrive_short h, takeContent_ok hn, hdrop]
  exact ⟨_, rfl⟩

theorem readContent_over (hign : Ignored url ending) (h : (data ++ reads.flatten).length < n) :
    Fails (readContent url n) ⟨reads, ending, ⟨str, data, eof, fail⟩⟩ False := by
  refine .congr (readContent_eq.trans (if_pos (.inr hign))) ?_
  rw [received, arrive_short (h.trans (by omega))]
  exact takeContent_over h

theorem readContent_thrown (hign : ¬Ignored url ending)
    (h : (data ++ reads.flatten).length < n + 2) :
    Fails (readContent url n) ⟨reads, ending, ⟨str, data, eof, fail⟩⟩ True :=
  ⟨.system ending, _, readContent_eq.trans (if_neg fun h' => h'.elim (by omega) hign), Iff.rfl⟩

/-! ## One turn of the loop -/

section
variable {s s' : Conn} {fuel k : Nat} {resp : Bytes} {l : SizeLine} {P : Prop}

theorem readChunks_fails (h : Fails readSize s P) : Fails (readChunks url (fuel + 1) resp) s P := by
  rw [readChunks]
  exact h.bind

/-- A size out of the range of `stol`. -/
theorem readChunks_big (h : readSize s = liftHttp (l.read k) s') (hbig : ¬l.size k < 2 ^ 63) :
    Fails (readChunks url (fuel + 1) resp) s True := by
  rw [SizeLine.read, if_neg hbig] at h
  exact readChunks_fails ⟨_, _, h, iff_of_true rfl trivial⟩

theorem readChunks_zero (h : readSize s = liftHttp (l.read k) s') (hzero : l.size k = 0) :
    ∃ s', readChunks url (fuel + 1) resp s = .ok resp s' := by
  rw [SizeLine.read, hzero] at h
  refine ⟨s', ?_⟩
  rw [readChunks, run_bind (h.trans rfl)]
  rfl

/-- A content that is received as a whole. -/
theorem readChunks_whole
    (hsize : readSize s = liftHttp (l.read k) ⟨r, ending, ⟨str, b, eof, fail⟩⟩)
    (hsmall : l.size k < 2 ^ 63) (hne : l.size k ≠ 0)
    (h : l.size k + 2 ≤ (b ++ r.flatten).length) :
    readChunks url (fuel + 1) resp s =
      readChunks url fuel (resp ++ (b ++ r.flatten).take (l.size k))
        ⟨(behind (l.size k + 2) b r).2, ending,
          ⟨str, (behind (l.size k + 2) b r).1, eof, fail⟩⟩ := by
  rw [SizeLine.read, if_pos hsmall] at hsize
  rw [readChunks, run_bind (hsize.trans rfl), if_neg hne, run_bind (readContent_whole h)]

/-- A content that is not: the loop ends with an error. -/
theorem readChunks_short
    (hsize : readSize s = liftHttp (l.read k) ⟨r, ending, ⟨str, b, eof, fail⟩⟩)
    (hsmall : l.size k < 2 ^ 63) (hne : l.size k ≠ 0)
    (h : (b ++ r.flatten).length < l.size k + 2) :
    Fails (readChunks url (fuel + 2) resp) s
      (Ignored url ending → l.size k ≤ (b ++ r.flatten).length) := by
  rw [SizeLine.read, if_pos hsmall] at hsize
  rw [readChunks]
  refine .congr (run_bind (hsize.trans rfl)) ?_
  rw [if_neg hne]
  by_cases hign : Ignored url ending
  · by_cases hle : l.size k ≤ (b ++ r.flatten).length
    · have hlast : ∃ content, readContent url (l.size k) ⟨r, ending, ⟨str, b, eof, fail⟩⟩ =
          .ok content ⟨[], ending, ⟨str, [], eof, fail⟩⟩ := readContent_last hign hle h
      obtain ⟨content, hc⟩ := hlast
      have hnone : standing [] [] = none := rfl
      refine .congr (run_bind hc) ((readChunks_fails (readSize_none hnone)).iff ?_)
      exact iff_of_true trivial fun _ => hle
    · exact (readContent_over hign (Nat.lt_of_not_le hle)).bind.iff
        (iff_of_false id fun h => hle (h hign))
  · exact (readContent_thrown hign h).bind.iff (iff_of_true trivial fun h => absurd h hign)

/-- A line that is cut and a size that is not 0: the stream is at its end behind the content. -/
theorem readChunks_cut (h : standing data reads = some (b, r)) (hb : b <+: l.text)
    (hne : l.size b.length ≠ 0) :
    Fails (readChunks url (fuel + 2) resp) ⟨reads, ending, goodAt str data⟩
      (Ignored url ending → l.size b.length < 2 ^ 63 → l.size b.length ≤ r.flatten.length) := by
  by_cases hsmall : l.size b.length < 2 ^ 63
  swap
  · exact (readChunks_big (readSize_cut h hb) hsmall).iff
      (iff_of_true trivial fun _ hlt => absurd hlt hsmall)
  by_cases hwhole : l.size b.length + 2 ≤ ([] ++ r.flatten).length
  · refine .congr (readChunks_whole (readSize_cut h hb) hsmall hne hwhole)
      ((readChunks_fails readSize_eof).iff (iff_of_true trivial fun _ _ => ?_))
    rw [List.nil_append] at hwhole
    omega
  · exact (readChunks_short (readSize_cut h hb) hsmall hne (Nat.lt_of_not_le hwhole)).iff
      ⟨fun h hign _ => h hign, fun h hign => h hign hsmall⟩

end

/-! ## Chunks -/

/-- A chunk that is not the last one. -/
structure Chunk extends SizeLine where
  content : Bytes
  size_content : magnitude 16 digits = content.length
  content_ne : content ≠ []

namespace Chunk

def bytes (c : Chunk) : Bytes := c.line ++ (c.content ++ crlf)

theorem length_bytes (c : Chunk) : c.bytes.length = c.line.length + (c.content.length + 2) := by
  simp [bytes, crlf]

theorem size_eq (c : Chunk) : c.size c.line.length = c.content.length :=
  c.size_line.trans c.size_content

theorem length_content_ne (c : Chunk) : c.content.length ≠ 0 :=
  mt List.length_eq_zero_iff.1 c.content_ne

end Chunk

/-- The last chunk, with the trailers behind it. -/
structure LastChunk extends SizeLine where
  zero : magnitude 16 digits = 0
  trailers : List Bytes

def LastChunk.bytes (l : LastChunk) : Bytes :=
  l.line ++ (l.trailers.flatMap (· ++ crlf) ++ crlf)

def bodyBytes (cs : List Chunk) (last : LastChunk) : Bytes := cs.flatMap Chunk.bytes ++ last.bytes

/-- At every chunk that is not the last one the buffer holds the whole line. -/
def Intact : List Chunk → Bytes → List Bytes → Prop
  | [], _, _ => True
  | c :: cs, data, reads =>
    match standing data reads with
    | none => True
    | some (b, r) => c.line.length ≤ b.length ∧ c.content.length < 2 ^ 63 ∧
      Intact cs (behind c.bytes.length b r).1 (behind c.bytes.length b r).2

/-- No size, as it is read, is more than the bytes that are still received. -/
def Covered : List Chunk → Bytes → List Bytes → Prop
  | [], _, _ => True
  | c :: cs, data, reads =>
    match standing data reads with
    | none => True
    | some (b, r) =>
      if b.length < c.line.length then
        c.size b.length < 2 ^ 63 → b.length + c.size b.length ≤ (b ++ r.flatten).length
      else c.content.length < 2 ^ 63 →
        c.line.length + c.content.length ≤ (b ++ r.flatten).length ∧
          Covered cs (behind c.bytes.length b r).1 (behind c.bytes.length b r).2

theorem hasBlank_last (last : LastChunk) : hasBlank last.bytes = true := by
  have hend : ∃ x, last.bytes = x ++ [13, 10, 13, 10] := by
    rcases List.eq_nil_or_concat last.trailers with h | ⟨ts, t, h⟩
    · exact ⟨last.digits ++ last.ext, by
        simp [LastChunk.bytes, SizeLine.line, SizeLine.text, h, crlf]⟩
    · exact ⟨last.line ++ (ts.flatMap (· ++ crlf) ++ t), by simp [LastChunk.bytes, h, crlf]⟩
  obtain ⟨x, hx⟩ := hend
  rw [hx]
  exact matchMarkers_isSome.2 ⟨[13, 10, 13, 10], by decide, ⟨x, [], by simp⟩⟩

theorem hasBlank_body (cs : List Chunk) (last : LastChunk) :
    hasBlank (bodyBytes cs last) = true := by
  obtain ⟨marker, hmem, hin⟩ := matchMarkers_isSome.1 (hasBlank_last last)
  exact matchMarkers_isSome.2 ⟨marker, hmem, hin.trans (List.suffix_append _ _).isInfix⟩

/-! ## Runs of the loop -/

theorem behind_drop {k : Nat} (hk : k ≤ data.length) :
    behind n (data.drop k) reads = behind (k + n) data reads := by
  simp only [behind, arrive_drop hk, List.drop_drop]

theorem covered_nil (cs : List Chunk) : Covered cs [] [] := by
  cases cs with
  | nil => trivial
  | cons c cs =>
    have hnone : standing [] [] = none := rfl
    simp only [Covered, hnone]

/-- A buffer in front of which a line stands holds the line or a front of it. -/
theorem front_cases (l : SizeLine) {x y : Bytes} (h : b ++ y <+: l.line ++ x) :
    b.length < l.line.length ∧ b <+: l.text ∨ ∃ t, b = l.line ++ t := by
  have hb : b <+: l.line ++ x := (List.prefix_append b y).trans h
  by_cases hlt : b.length < l.line.length
  · refine .inl ⟨hlt, List.prefix_of_prefix_length_le hb ?_ ?_⟩
    · exact (List.prefix_append l.text [10]).trans (List.prefix_append l.line x)
    · rw [l.length_line] at hlt
      omega
  · obtain ⟨t, ht⟩ := List.prefix_of_prefix_length_le (List.prefix_append l.line x) hb
      (Nat.le_of_not_lt hlt)
    exact .inr ⟨t, ht.symm⟩

section
variable {t resp : Bytes} {fuel : Nat} {c : Chunk} {last : LastChunk}

/-- The loop ends at the last chunk, however its line is cut. -/
theorem readChunks_last (h : standing data reads = some (b, r))
    (hb : b ++ r.flatten <+: last.bytes) :
    ∃ s', readChunks url (fuel + 1) resp ⟨reads, ending, goodAt str data⟩ = .ok resp s' := by
  have hzero : ∀ k, last.size k = 0 := fun k => Nat.le_zero.1 (last.zero ▸ last.size_le k)
  rcases front_cases last.toSizeLine hb with ⟨-, hcut⟩ | ⟨t, rfl⟩
  · exact readChunks_zero (readSize_cut h hcut) (hzero _)
  · exact readChunks_zero (readSize_line h) (hzero _)

/-- Behind a chunk of which the buffer holds the line. -/
theorem behind_line (c : Chunk) (t : Bytes) (r : List Bytes) :
    behind c.bytes.length (c.line ++ t) r = behind (c.content.length + 2) t r := by
  have hline : c.line.length ≤ (c.line ++ t).length := by simp
  rw [c.length_bytes, ← behind_drop hline, List.drop_left]

/-- What is left of a stream when a chunk was taken. -/
theorem behind_whole (hwhole : c.content.length + 2 ≤ (t ++ r.flatten).length) :
    (behind c.bytes.length (c.line ++ t) r).1 ++ (behind c.bytes.length (c.line ++ t) r).2.flatten =
      (t ++ r.flatten).drop (c.content.length + 2) := by
  rw [behind_line, behind_append hwhole]

theorem drop_content (c : Chunk) (x : Bytes) :
    (c.content ++ (crlf ++ x)).drop (c.content.length + 2) = x := by
  rw [← List.drop_drop, List.drop_left]
  rfl

/-- A chunk of which a part is not received. -/
theorem readChunks_part (h : standing data reads = some (c.line ++ t, r))
    (hsmall : c.content.length < 2 ^ 63)
    (hlt : (t ++ r.flatten).length < c.content.length + 2) :
    Fails (readChunks url (fuel + 2) resp) ⟨reads, ending, goodAt str data⟩
      (Ignored url ending → c.content.length ≤ (t ++ r.flatten).length) := by
  have hne := c.length_content_ne
  rw [← c.size_eq] at hsmall hlt hne ⊢
  exact readChunks_short (readSize_line h) hsmall hne hlt

/-- A turn of the loop that takes a chunk. -/
theorem readChunks_next (h : standing data reads = some (c.line ++ t, r))
    (hsmall : c.content.length < 2 ^ 63)
    (hwhole : c.content.length + 2 ≤ (t ++ r.flatten).length) :
    readChunks url (fuel + 1) resp ⟨reads, ending, goodAt str data⟩ =
      readChunks url fuel (resp ++ (t ++ r.flatten).take c.content.length)
        ⟨(behind c.bytes.length (c.line ++ t) r).2, ending,
          goodAt str (behind c.bytes.length (c.line ++ t) r).1⟩ := by
  have hne := c.length_content_ne
  rw [behind_line]
  rw [← c.size_eq] at hsmall hwhole hne ⊢
  exact readChunks_whole (readSize_line h) hsmall hne hwhole

theorem readChunks_huge (h : standing data reads = some (c.line ++ t, r))
    (hbig : ¬c.content.length < 2 ^ 63) :
    Fails (readChunks url (fuel + 1) resp) ⟨reads, ending, goodAt str data⟩ True := by
  rw [← c.size_eq] at hbig
  exact readChunks_big (readSize_line h) hbig

/-- There is a blank line as long as the last chunk is not read. -/
theorem standing_body {cs : List Chunk} (hbody : data ++ reads.flatten = bodyBytes cs last) :
    ∃ b r, standing data reads = some (b, r) := by
  cases h : standing data reads with
  | some p => exact ⟨p.1, p.2, rfl⟩
  | none =>
    unfold standing at h
    split at h
    · rename_i hnil
      have hnone := enough_none (Option.map_eq_none_iff.1 h) _ le_rfl
      rw [hnil, List.nil_append] at hbody
      rw [List.take_length, hbody, hasBlank_body] at hnone
      cases hnone
    · cases h

theorem bodyBytes_cons (c : Chunk) (cs : List Chunk) (last : LastChunk) :
    bodyBytes (c :: cs) last = c.line ++ (c.content ++ (crlf ++ bodyBytes cs last)) := by
  simp [bodyBytes, Chunk.bytes]

/-- A body that is received as a whole is read as the contents of its chunks exactly when every line
is in the buffer. -/
theorem readChunks_iff (cs : List Chunk) (hbody : data ++ reads.flatten = bodyBytes cs last)
    (hfuel : (data ++ reads.flatten).length < fuel) :
    (∃ s', readChunks url fuel resp ⟨reads, ending, goodAt str data⟩ =
      .ok (resp ++ cs.flatMap (·.content)) s') ↔ Intact cs data reads := by
  induction cs generalizing data reads resp fuel with
  | nil =>
    obtain ⟨b, r, hst⟩ := standing_body hbody
    obtain ⟨fuel, rfl⟩ : ∃ n, fuel = n + 1 := ⟨fuel - 1, by omega⟩
    have hpre : b ++ r.flatten <+: last.bytes := by
      rw [(standing_append hst).trans hbody]
      rfl
    rw [List.flatMap_nil, List.append_nil]
    exact iff_of_true (readChunks_last hst hpre) trivial
  | cons c cs ih =>
    obtain ⟨b, r, hst⟩ := standing_body hbody
    have happ := (standing_append hst).trans hbody
    have hlen := congrArg List.length (standing_append hst)
    rw [bodyBytes_cons] at happ
    have hb := List.length_pos_iff.2 (standing_ne_nil hst)
    obtain ⟨fuel, rfl⟩ : ∃ n, fuel = n + 2 := ⟨fuel - 2, by
      rw [← hlen, List.length_append] at hfuel
      omega⟩
    simp only [Intact, hst]
    have hpre : b ++ r.flatten <+: c.line ++ (c.content ++ (crlf ++ bodyBytes cs last)) := by
      rw [happ]
    rcases front_cases c.toSizeLine hpre with ⟨hlt, hcut⟩ | ⟨t, rfl⟩
    · refine iff_of_false ?_ fun h => absurd h.1 (by omega)
      intro hin
      obtain ⟨s', hs⟩ := hin
      by_cases hzero : c.size b.length = 0
      · -- the loop ends before the content
        have hend : ∃ s', readChunks url (fuel + 2) resp ⟨reads, ending, goodAt str data⟩ =
            .ok resp s' := readChunks_zero (readSize_cut hst hcut) hzero
        obtain ⟨s'', hs'⟩ := hend
        rw [hs, List.flatMap_cons] at hs'
        obtain ⟨hresp, -⟩ := EStateM.Result.ok.inj hs'
        have hnil : c.content = [] ∧ cs.flatMap (·.content) = [] := by simpa using hresp
        exact c.content_ne hnil.1
      · exact (readChunks_cut hst hcut hzero).not_ok hs
    · by_cases hsmall : c.content.length < 2 ^ 63
      swap
      · refine iff_of_false ?_ fun h => hsmall h.2.1
        intro hin
        obtain ⟨s', hs⟩ := hin
        exact (readChunks_huge hst hsmall).not_ok hs
      have ht : t ++ r.flatten = c.content ++ (crlf ++ bodyBytes cs last) := by
        rw [List.append_assoc] at happ
        exact List.append_cancel_left happ
      have hwhole : c.content.length + 2 ≤ (t ++ r.flatten).length := by
        rw [ht]
        simp [crlf]
      have hrest := behind_whole hwhole
      rw [ht, drop_content] at hrest
      rw [readChunks_next hst hsmall hwhole, ht, List.take_left, List.flatMap_cons,
        ← List.append_assoc]
      refine (ih hrest ?_).trans ⟨fun h => ⟨by simp, hsmall, h⟩, fun h => h.2.2⟩
      rw [happ, List.length_append, List.length_append, List.length_append] at hlen
      rw [hrest]
      simp only [crlf, List.length_cons] at hlen
      omega

theorem covered_none (cs : List Chunk) (h : standing data reads = none) : Covered cs data reads := by
  cases cs with
  | nil => trivial
  | cons c cs => simp only [Covered, h]

theorem readChunks_covered_cut (cs : List Chunk) (h : standing data reads = some (b, r))
    (hlt : b.length < c.line.length) (hcut : b <+: c.text) :
    Sound (readChunks url (fuel + 2) resp) ⟨reads, ending, goodAt str data⟩ ↔
      (Ignored url ending → Covered (c :: cs) data reads) := by
  simp only [Covered, h]
  rw [if_pos hlt, List.length_append, Nat.add_le_add_iff_left]
  by_cases hzero : c.size b.length = 0
  · have hend : ∃ s', readChunks url (fuel + 2) resp ⟨reads, ending, goodAt str data⟩ =
        .ok resp s' := readChunks_zero (readSize_cut h hcut) hzero
    obtain ⟨s', hs⟩ := hend
    exact iff_of_true (sound_ok hs) fun _ _ => by omega
  · exact (readChunks_cut h hcut hzero).sound

/-- Of a body of which a front is received nothing but what was received is copied exactly when no
size that is read is too large. -/
theorem readChunks_covered (cs : List Chunk) (hbody : data ++ reads.flatten <+: bodyBytes cs last)
    (hfuel : (data ++ reads.flatten).length < fuel) :
    Sound (readChunks url fuel resp) ⟨reads, ending, goodAt str data⟩ ↔
      (Ignored url ending → Covered cs data reads) := by
  induction cs generalizing data reads resp fuel with
  | nil =>
    obtain ⟨fuel, rfl⟩ : ∃ n, fuel = n + 1 := ⟨fuel - 1, by omega⟩
    cases hst : standing data reads with
    | none => exact iff_of_true ((readChunks_fails (readSize_none hst)).sound.2 trivial) fun _ => trivial
    | some p =>
      rw [← standing_append (b := p.1) (r := p.2) hst] at hbody
      have hend : ∃ s', readChunks url (fuel + 1) resp ⟨reads, ending, goodAt str data⟩ =
          .ok resp s' := readChunks_last hst hbody
      obtain ⟨s', hs⟩ := hend
      exact iff_of_true (sound_ok hs) fun _ => trivial
  | cons c cs ih =>
    cases hst : standing data reads with
    | none =>
      obtain ⟨fuel, rfl⟩ : ∃ n, fuel = n + 1 := ⟨fuel - 1, by omega⟩
      exact iff_of_true ((readChunks_fails (readSize_none hst)).sound.2 trivial)
        fun _ => covered_none (c :: cs) hst
    | some p =>
      obtain ⟨b, r⟩ := p
      rw [← standing_append hst] at hbody hfuel
      have hb := List.length_pos_iff.2 (standing_ne_nil hst)
      obtain ⟨fuel, rfl⟩ : ∃ n, fuel = n + 2 := ⟨fuel - 2, by
        rw [List.length_append] at hfuel
        omega⟩
      rw [bodyBytes_cons] at hbody
      rcases front_cases c.toSizeLine hbody with ⟨hlt, hcut⟩ | ⟨t, rfl⟩
      · exact readChunks_covered_cut cs hst hlt hcut
      have hline : ¬(c.line ++ t).length < c.line.length := by simp
      simp only [Covered, hst]
      rw [if_neg hline]
      by_cases hsmall : c.content.length < 2 ^ 63
      swap
      · exact iff_of_true ((readChunks_huge hst hsmall).sound.2 trivial)
          fun _ h => absurd h hsmall
      have hlen : (c.line ++ t ++ r.flatten).length = c.line.length + (t ++ r.flatten).length := by
        rw [List.append_assoc, List.length_append]
      rw [hlen, Nat.add_le_add_iff_left]
      by_cases hwhole : c.content.length + 2 ≤ (t ++ r.flatten).length
      · have hrest := behind_whole hwhole
        have hdrop : (t ++ r.flatten).drop (c.content.length + 2) <+: bodyBytes cs last := by
          rw [List.append_assoc, List.prefix_append_right_inj] at hbody
          have hpre := hbody.drop (c.content.length + 2)
          rwa [drop_content] at hpre
        have hlt : ((t ++ r.flatten).drop (c.content.length + 2)).length < fuel + 1 := by
          rw [List.length_drop]
          omega
        rw [← hrest] at hdrop hlt
        refine (sound_congr (readChunks_next hst hsmall hwhole)).trans ((ih hdrop hlt).trans ?_)
        exact ⟨fun h hi _ => ⟨by omega, h hi⟩, fun h hi => (h hi hsmall).2⟩
      · have hlt := Nat.lt_of_not_le hwhole
        rw [behind_line, behind_short hlt]
        exact (readChunks_part hst hsmall hlt).sound.trans
          ⟨fun h hi _ => ⟨h hi, covered_nil cs⟩, fun h hi => (h hi hsmall).1⟩

end

end

end Zit.Net
