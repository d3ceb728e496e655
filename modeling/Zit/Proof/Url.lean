import Zit.Proof.Swarm
import Zit.Url

/-!
# Text form of an URL

The host group is lazy and the port group optional, so the text in front of the path can be split in
several ways; the match that counts takes the longest port (`Splits`, `fullMatch_ur`). `str()` writes
a text that is split in the same place (`ofString_str`).
-/

set_option autoImplicit false

namespace Zit.Net.Url

open Lib Lib.Regex Lib.Decimal Lib.Strtol

/-! ## Readings of a text -/

def schemes : List Bytes := [ascii "udp".toList, ascii "https".toList, ascii "http".toList]

/-- A colon in front of digits, nothing when there are none. -/
def portText (ds : Bytes) : Bytes := if ds = [] then [] else 58 :: ds

def portGroups (ds : Bytes) : Groups UInt8 := if ds = [] then [] else [(3, ds)]

def pathGroups (path : Bytes) : Groups UInt8 := if path = [] then [] else [(4, path)]

def Digits (ds : Bytes) : Prop := ∀ c ∈ ds, isDigit c = true

def PathText (path : Bytes) : Prop := path = [] ∨ path.head? = some 47 ∧ 10 ∉ path ∧ 13 ∉ path

variable {a host ds path rest s w u : Bytes} {m : Groups UInt8}

theorem matches_urScheme :
    Matches urScheme w m ↔ ∃ s ∈ schemes, w = s ++ ascii "://".toList ∧ m = [(1, s)] := by
  simp only [urScheme, matches_seq, matches_group, matches_alt, matches_lit, matches_opt, matches_one]
  constructor
  · intro h
    obtain ⟨s, _, _, _, ⟨_, hs, rfl⟩, ⟨rfl, rfl⟩, rfl, rfl⟩ := h
    rcases hs with ⟨rfl, rfl⟩ | ⟨_, _, _, _, ⟨rfl, rfl⟩, ⟨⟨c, hc, rfl⟩, rfl⟩ | ⟨rfl, rfl⟩, rfl, rfl⟩
    · exact ⟨_, by simp [schemes], rfl, rfl⟩
    · obtain rfl : c = 115 := by simpa using hc
      exact ⟨ascii "https".toList, by simp [schemes], rfl, rfl⟩
    · exact ⟨ascii "http".toList, by simp [schemes], rfl, rfl⟩
  · intro h
    obtain ⟨s, hs, rfl, rfl⟩ := h
    refine ⟨s, _, _, _, ⟨[], ?_, rfl⟩, ⟨rfl, rfl⟩, rfl, rfl⟩
    simp only [schemes, List.mem_cons, List.not_mem_nil, or_false] at hs
    rcases hs with rfl | rfl | rfl
    · exact .inl ⟨rfl, rfl⟩
    · exact .inr ⟨_, _, _, _, ⟨rfl, rfl⟩, .inl ⟨⟨115, rfl, rfl⟩, rfl⟩, rfl, rfl⟩
    · exact .inr ⟨_, _, _, _, ⟨rfl, rfl⟩, .inr ⟨rfl, rfl⟩, rfl, rfl⟩

theorem matches_urPort : Matches urPort w m ↔ ∃ ds, Digits ds ∧ w = portText ds ∧ m = portGroups ds := by
  simp only [urPort, matches_opt, matches_seq, matches_lit, matches_group, matches_plus_one]
  constructor
  · intro h
    rcases h with ⟨_, ds, _, _, ⟨rfl, rfl⟩, ⟨_, ⟨⟨hne, hds⟩, rfl⟩, rfl⟩, rfl, rfl⟩ | ⟨rfl, rfl⟩
    · exact ⟨ds, hds, by rw [portText, if_neg hne]; rfl, by rw [portGroups, if_neg hne]; rfl⟩
    · exact ⟨[], by simp [Digits], rfl, rfl⟩
  · intro hin
    obtain ⟨ds, hds, rfl, rfl⟩ := hin
    by_cases hne : ds = []
    · subst hne
      exact .inr ⟨rfl, rfl⟩
    · rw [portText, if_neg hne, portGroups, if_neg hne]
      exact .inl ⟨_, ds, _, _, ⟨rfl, rfl⟩, ⟨_, ⟨⟨hne, hds⟩, rfl⟩, rfl⟩, rfl, rfl⟩

theorem matches_urPath : Matches urPath w m ↔ PathText w ∧ m = pathGroups w := by
  simp only [urPath, matches_opt, matches_seq, matches_lit, matches_group, matches_star_one]
  constructor
  · intro h
    rcases h with ⟨_, ⟨_, x, _, _, ⟨rfl, rfl⟩, ⟨hx, rfl⟩, rfl, rfl⟩, rfl⟩ | ⟨rfl, rfl⟩
    · have hx10 : 10 ∉ x := fun h => absurd (hx 10 h) (by decide)
      have hx13 : 13 ∉ x := fun h => absurd (hx 13 h) (by decide)
      refine ⟨.inr ⟨rfl, fun h => ?_, fun h => ?_⟩, rfl⟩
      · exact (List.mem_cons.1 h).elim (by decide) hx10
      · exact (List.mem_cons.1 h).elim (by decide) hx13
    · exact ⟨.inl rfl, rfl⟩
  · rintro ⟨rfl | ⟨hhead, h10, h13⟩, rfl⟩
    · exact .inr ⟨rfl, rfl⟩
    · obtain ⟨x, rfl⟩ := List.head?_eq_some_iff.1 hhead
      refine .inl ⟨_, ⟨_, x, _, _, ⟨rfl, rfl⟩, ⟨fun c hc => ?_, rfl⟩, rfl, rfl⟩, rfl⟩
      have hc10 : c ≠ 10 := fun he => h10 (List.mem_cons_of_mem _ (he ▸ hc))
      have hc13 : c ≠ 13 := fun he => h13 (List.mem_cons_of_mem _ (he ▸ hc))
      simp [hc10, hc13]

/-! ## The place where a text is split -/

theorem cut_path (ha : 47 ∉ a) (hpath : PathText path) :
    (a ++ path).takeWhile (· != 47) = a ∧ (a ++ path).dropWhile (· != 47) = path := by
  have hall : ∀ c ∈ a, (c != 47) = true := fun c hc => by
    rw [bne_iff_ne]
    exact fun he => ha (he ▸ hc)
  have hcut : path.takeWhile (· != 47) = [] ∧ path.dropWhile (· != 47) = path := by
    rcases hpath with rfl | ⟨hhead, -⟩
    · exact ⟨rfl, rfl⟩
    · obtain ⟨x, rfl⟩ := List.head?_eq_some_iff.1 hhead
      exact ⟨rfl, rfl⟩
  rw [List.takeWhile_append_of_pos hall, List.dropWhile_append_of_pos hall, hcut.1, hcut.2,
    List.append_nil]
  exact ⟨rfl, rfl⟩

theorem not_mem_portText {c : UInt8} (hc : isDigit c = false) (hcolon : c ≠ 58) (hds : Digits ds) :
    c ∉ portText ds := by
  have hdigits : c ∉ ds := fun h => by
    rw [hds c h] at hc
    cases hc
  by_cases hne : ds = []
  · simp [portText, hne]
  · simp [portText, hne, hcolon, hdigits]

theorem slash_portText (hds : Digits ds) : 47 ∉ portText ds :=
  not_mem_portText (by decide) (by decide) hds

theorem line_portText (hds : Digits ds) : 10 ∉ portText ds :=
  not_mem_portText (by decide) (by decide) hds

/-- What the two last groups can be behind a text without a slash. -/
theorem matches_tail (ha : 47 ∉ a) (hpath : PathText path)
    (h : Matches (.seq urPort urPath) (a ++ path) m) :
    ∃ ds, Digits ds ∧ a = portText ds ∧ m = portGroups ds ++ pathGroups path := by
  obtain ⟨v, x, m₁, m₂, hport, hx, heq, rfl⟩ := matches_seq.1 h
  obtain ⟨ds, hds, rfl, rfl⟩ := matches_urPort.1 hport
  obtain ⟨htext, rfl⟩ := matches_urPath.1 hx
  have hcut := cut_path ha hpath
  have hcut' := cut_path (slash_portText hds) htext
  rw [heq, hcut'.1, hcut'.2] at hcut
  exact ⟨ds, hds, hcut.1.symm, by rw [hcut.2]⟩

theorem portText_inj {ds ds' : Bytes} (h : portText ds = portText ds') : ds = ds' := by
  unfold portText at h
  split at h <;> split at h <;> simp_all

theorem fullMatch_tail (hds : Digits ds) (hpath : PathText path) :
    fullMatch (.seq urPort urPath) (portText ds ++ path) = some (portGroups ds ++ pathGroups path) := by
  refine fullMatch_of_unique (.seq (matches_urPort.2 ⟨ds, hds, rfl, rfl⟩)
    (matches_urPath.2 ⟨hpath, rfl⟩)) fun m' h => ?_
  obtain ⟨ds', -, hds', rfl⟩ := matches_tail (slash_portText hds) hpath h
  rw [portText_inj hds']

/-- The reading that counts: there is a port where one can be read. -/
structure Splits (a host ds : Bytes) : Prop where
  eq : a = host ++ portText ds
  digits : Digits ds
  most : ds = [] → ∀ host' ds', a = host' ++ portText ds' → Digits ds' → ds' = []

theorem exists_splits (a : Bytes) : ∃ host ds, Splits a host ds := by
  by_cases h : ∃ host ds, ds ≠ [] ∧ a = host ++ portText ds ∧ Digits ds
  · obtain ⟨host, ds, hne, ha, hds⟩ := h
    exact ⟨host, ds, ha, hds, fun he => absurd he hne⟩
  · refine ⟨a, [], by simp [portText], by simp [Digits], fun _ host' ds' ha hds => ?_⟩
    by_contra hne
    exact h ⟨host', ds', hne, ha, hds⟩

/-- A text that still has something of the host is no port. -/
theorem Splits.not_port (h : Splits a host ds) {j : Nat} (hj : j < host.length) {ds' : Bytes}
    (hds' : Digits ds') : host.drop j ++ portText ds ≠ portText ds' := by
  intro heq
  have hne : host.drop j ≠ [] := by simpa using hj
  have hne' : ds' ≠ [] := by
    rintro rfl
    exact hne (List.append_eq_nil_iff.1 heq).1
  by_cases hds : ds = []
  · refine hne' (h.most hds (host.take j) ds' ?_ hds')
    rw [← heq, ← List.append_assoc, List.take_append_drop]
    exact h.eq
  · obtain ⟨c, cs, hcs⟩ := List.exists_cons_of_ne_nil hne
    rw [hcs, portText, if_neg hds, portText, if_neg hne', List.cons_append] at heq
    obtain ⟨-, heq⟩ := List.cons.inj heq
    exact absurd (hds' 58 (heq ▸ by simp)) (by decide)

theorem fullMatch_host (h : Splits a host ds) (h47 : 47 ∉ a) (h10 : 10 ∉ a) (hpath : PathText path) :
    fullMatch (.seq (.group 2 urHost) (.seq urPort urPath)) (a ++ path) =
      some ((2, host) :: (portGroups ds ++ pathGroups path)) := by
  have hall : ∀ c ∈ a, (c != 47 && c != 10) = true := fun c hc => by
    have hc47 : c ≠ 47 := fun he => h47 (he ▸ hc)
    have hc10 : c ≠ 10 := fun he => h10 (he ▸ hc)
    simp [hc47, hc10]
  have heq : a ++ path = host ++ (portText ds ++ path) := by rw [h.eq, List.append_assoc]
  refine fullMatch_lazy.2 ⟨host.length, ?_, portGroups ds ++ pathGroups path, ?_, ?_, ?_⟩
  · rw [List.takeWhile_append_of_pos hall, List.length_append, h.eq, List.length_append]
    omega
  · rw [heq, List.drop_left, fullMatch_tail h.digits hpath]
  · rw [heq, List.take_left]
  · intro j hj
    refine fullMatch_eq_none.2 fun m' hm => ?_
    rw [heq, List.drop_append_of_le_length (by omega), ← List.append_assoc] at hm
    have hslash : 47 ∉ host.drop j ++ portText ds := by
      intro hmem
      refine h47 (h.eq ▸ ?_)
      rcases List.mem_append.1 hmem with hmem | hmem
      · exact List.mem_append_left _ (List.mem_of_mem_drop hmem)
      · exact List.mem_append_right _ hmem
    obtain ⟨ds', hds', hport, -⟩ := matches_tail hslash hpath hm
    exact h.not_port hj hds' hport

theorem scheme_unique {s s' x : Bytes} (hs : s ∈ schemes) (hs' : s' ∈ schemes)
    (h : s ++ ascii "://".toList ++ w = s' ++ ascii "://".toList ++ x) : s = s' ∧ w = x := by
  have hcolon : ∀ s ∈ schemes, ∀ w, (s ++ ascii "://".toList ++ w).takeWhile (· != 58) = s := by
    intro s hs w
    simp only [schemes, List.mem_cons, List.not_mem_nil, or_false] at hs
    rcases hs with rfl | rfl | rfl <;> rfl
  have heq : s = s' := by rw [← hcolon s hs w, h, hcolon s' hs' x]
  subst heq
  exact ⟨rfl, List.append_cancel_left h⟩

/-- An URL in text form and its parts. -/
structure Text (url s a path : Bytes) : Prop where
  eq : url = s ++ ascii "://".toList ++ (a ++ path)
  scheme : s ∈ schemes
  slash : 47 ∉ a
  line : 10 ∉ a
  path : PathText path

variable {url : Bytes}

theorem fullMatch_ur (h : Text url s a path) (hsplit : Splits a host ds) :
    fullMatch ur url = some ((1, s) :: (2, host) :: (portGroups ds ++ pathGroups path)) := by
  have hfront : Matches urScheme (s ++ ascii "://".toList) [(1, s)] :=
    matches_urScheme.2 ⟨s, h.scheme, rfl, rfl⟩
  have hone : ∀ u x n, s ++ ascii "://".toList ++ (a ++ path) = u ++ x → Matches urScheme u n →
      u = s ++ ascii "://".toList ∧ n = [(1, s)] := by
    intro u x n hux hn
    obtain ⟨s', hs', rfl, rfl⟩ := matches_urScheme.1 hn
    obtain ⟨rfl, -⟩ := scheme_unique h.scheme hs' hux
    exact ⟨rfl, rfl⟩
  rw [h.eq, ur, fullMatch_front hfront hone, fullMatch_host hsplit h.slash h.line h.path]
  rfl

theorem text_of_match (h : Matches ur url m) : ∃ s a path, Text url s a path := by
  obtain ⟨v, w, m₁, m₂, hv, hw, rfl, rfl⟩ := matches_seq.1 h
  obtain ⟨s, hs, rfl, rfl⟩ := matches_urScheme.1 hv
  obtain ⟨host, w, m₁, m₂, hgroup, htail, rfl, rfl⟩ := matches_seq.1 hw
  obtain ⟨_, hstar, rfl⟩ := matches_group.1 hgroup
  obtain ⟨hhost, rfl⟩ := matches_star_one.1 hstar
  obtain ⟨port, path, m₁, m₂, hport, hurPath, rfl, rfl⟩ := matches_seq.1 htail
  obtain ⟨ds, hds, rfl, rfl⟩ := matches_urPort.1 hport
  obtain ⟨hpath, rfl⟩ := matches_urPath.1 hurPath
  have hhost47 : 47 ∉ host := fun hmem => absurd (hhost 47 hmem) (by decide)
  have hhost10 : 10 ∉ host := fun hmem => absurd (hhost 10 hmem) (by decide)
  refine ⟨s, host ++ portText ds, path, by simp only [List.append_assoc], hs, ?_, ?_, hpath⟩
  · simpa [hhost47] using slash_portText hds
  · simpa [hhost10] using line_portText hds

/-! ## What the constructor builds -/

theorem str_groups (s host ds path : Bytes) {m : Groups UInt8}
    (hm : m = (1, s) :: (2, host) :: (portGroups ds ++ pathGroups path)) :
    Regex.str m 1 = s ∧ Regex.str m 2 = host ∧ Regex.str m 3 = ds ∧ Regex.str m 4 = path := by
  subst hm
  by_cases hds : ds = [] <;> by_cases hpath : path = [] <;>
    simp [Regex.str, portGroups, pathGroups, hds, hpath]

theorem ofString_of_text (h : Text url s a path) (hsplit : Splits a host ds) :
    ofString url = (readPort ds).map fun port =>
      { scheme := s, host, path := if path = [] then ascii "/".toList else path, port } := by
  obtain ⟨h1, h2, h3, h4⟩ := str_groups s host ds path rfl
  simp only [ofString, fullMatch_ur h hsplit, h1, h2, h3, h4]
  cases readPort ds <;> rfl

theorem text_of_ofString {u : Url} (h : ofString url = .ok u) : ∃ s a path, Text url s a path := by
  unfold ofString at h
  split at h
  · cases h
  · rename_i m hm
    exact text_of_match (matches_of_fullMatch hm)

theorem stoi_digits (hne : ds ≠ []) (hds : Digits ds) :
    stoi ds = if value ds < 2 ^ 31 then .ok (value ds : Int) else .error (.outOfRange "stoi") := by
  have hiff : IntTy.i32.Holds (value ds : Int) ↔ value ds < 2 ^ 31 := by
    simp only [IntTy.Holds, IntTy.min, IntTy.max, IntTy.i32, if_true]
    omega
  simp only [stoi, strtol_decimal hne hds, hiff]

theorem numericCast_port {n : Nat} : numericCast .u16 .i32 n =
    if n < 2 ^ 16 then .ok (n : Int) else .error (.outOfRange "out of range") := by
  simp only [numericCast, IntTy.u16, IntTy.i32, IntTy.max, IntTy.wrap, Bool.false_eq_true, if_false]
  by_cases hn : n < 2 ^ 16
  · rw [if_pos hn, if_neg (by omega)]
    congr 1
    omega
  · rw [if_neg hn, if_pos (by omega)]

theorem readPort_digits (port : UInt16) : readPort (digits port.toNat) = .ok (some port) := by
  have hlt := port.toNat_lt
  have hstoi := stoi_digits (digits_ne_nil port.toNat) (isDigit_digits port.toNat)
  rw [value_digits, if_pos (by omega)] at hstoi
  rw [readPort, if_pos (digits_ne_nil _), hstoi]
  simp only [bind, Except.bind, numericCast_port, if_pos hlt]
  simp
  rfl

theorem readPort_none (h : readPort ds = .ok none) : ds = [] := by
  by_contra hne
  rw [readPort, if_pos hne] at h
  obtain ⟨v, -, h⟩ := bind_eq_ok.1 h
  obtain ⟨w, -, h⟩ := bind_eq_ok.1 h
  cases h

/-! ## The other model of the constructor -/

theorem splitPort_of_splits (h : Splits a host ds) :
    Zit.Url.splitPort a = (readPort ds).map fun port => (host, port) := by
  obtain ⟨rfl, hds, hmost⟩ := h
  by_cases hne : ds = []
  · subst hne
    rw [portText, if_pos rfl, List.append_nil] at hmost ⊢
    refine Zit.Url.splitPort_host fun host' ds hne hds heq => hne (hmost rfl host' ds ?_ hds)
    rw [portText, if_neg hne, heq]
  · rw [portText, if_neg hne, Zit.Url.splitPort_colon host hne hds, readPort, if_pos hne,
      stoi_digits hne hds]
    by_cases h31 : value ds < 2 ^ 31
    · rw [if_neg (by omega), if_pos h31]
      simp only [bind, Except.bind, numericCast_port]
      by_cases h16 : value ds < 2 ^ 16
      · rw [if_neg (by omega), if_pos h16]
        rfl
      · rw [if_pos (by omega), if_neg h16]
        rfl
    · rw [if_pos (by omega), if_neg h31]
      rfl

theorem parse_of_text (h : Text url s a path) (hsplit : Splits a host ds) :
    Zit.Url.parse url = (readPort ds).map fun port =>
      { scheme := s, host, path := if path = [] then ascii "/".toList else path, port } := by
  have hscheme : [ascii "udp".toList, ascii "https".toList, ascii "http".toList].find?
      (fun scheme => (scheme ++ ascii "://".toList).isPrefixOf url) = some s := by
    have hs := h.scheme
    rw [h.eq]
    simp only [schemes, List.mem_cons, List.not_mem_nil, or_false] at hs
    rcases hs with rfl | rfl | rfl <;> rfl
  have hdrop : url.drop (s.length + 3) = a ++ path := by
    rw [h.eq, List.drop_left' (by simp [ascii])]
  have hvalid : ¬(10 ∈ a ∨ 10 ∈ path ∨ 13 ∈ path) := by
    rcases h.path with hnil | ⟨-, h10, h13⟩
    · simp [hnil, h.line]
    · simp [h.line, h10, h13]
  have hcut := cut_path h.slash h.path
  unfold Zit.Url.parse
  rw [hscheme]
  dsimp only
  rw [hdrop]
  unfold Zit.Url.parseRest
  dsimp only
  rw [hcut.1, hcut.2, if_neg hvalid, splitPort_of_splits hsplit]
  cases readPort ds <;> rfl

theorem text_of_parse {u : Zit.Url} (h : Zit.Url.parse url = .ok u) :
    ∃ s a path, Text url s a path := by
  unfold Zit.Url.parse at h
  split at h
  case h_2 => cases h
  case h_1 s hs =>
    have hprefix : s ++ ascii "://".toList <+: url := by
      simpa using List.find?_some hs
    obtain ⟨rest, rfl⟩ := hprefix
    rw [List.drop_left' (by simp [ascii])] at h
    unfold Zit.Url.parseRest at h
    dsimp only at h
    split at h
    case isTrue => cases h
    case isFalse hvalid =>
      simp only [not_or] at hvalid
      refine ⟨s, rest.takeWhile (· != 47), rest.dropWhile (· != 47), ?_, List.mem_of_find?_eq_some hs,
        fun hmem => by simpa using List.mem_takeWhile_imp hmem, hvalid.1, ?_⟩
      · rw [List.takeWhile_append_dropWhile]
      · by_cases hnil : rest.dropWhile (· != 47) = []
        · exact .inl hnil
        · refine .inr ⟨?_, hvalid.2⟩
          obtain ⟨c, cs, hc⟩ := List.exists_cons_of_ne_nil hnil
          have hne := List.head?_dropWhile_not (· != (47 : UInt8)) rest
          rw [hc] at hne ⊢
          simpa using hne

/-- Trackers and peers read their URLs as the constructor does. -/
theorem ofString_iff_parse {u : Url} :
    ofString url = .ok u ↔ Zit.Url.parse url = .ok u.toUrl ∧ u.params = [] := by
  have hboth : ∀ {s a path : Bytes}, Text url s a path →
      (ofString url = .ok u ↔ Zit.Url.parse url = .ok u.toUrl ∧ u.params = []) := by
    intro s a path h
    obtain ⟨host, ds, hsplit⟩ := exists_splits a
    obtain ⟨u, params⟩ := u
    rw [ofString_of_text h hsplit, parse_of_text h hsplit]
    cases readPort ds with
    | error e => simp [Except.map]
    | ok port => simp [Except.map, eq_comm]
  constructor
  · intro h
    obtain ⟨s, a, path, htext⟩ := text_of_ofString h
    exact (hboth htext).1 h
  · intro h
    obtain ⟨s, a, path, htext⟩ := text_of_parse h.1
    exact (hboth htext).2 h

/-! ## The round trip -/

theorem str_of_params {u : Url} (h : u.params = []) :
    u.str = u.scheme ++ ascii "://".toList ++ (u.authority ++ u.path) := by
  rw [Url.str, h, List.append_nil, Zit.Url.str, List.append_assoc _ u.authority]

theorem ofString_of_str {u : Url} (h : ofString url = .ok u) : ofString u.str = .ok u := by
  obtain ⟨s, a, path, htext⟩ := text_of_ofString h
  obtain ⟨host, ds, hsplit⟩ := exists_splits a
  rw [ofString_of_text htext hsplit] at h
  obtain ⟨port, hport, rfl⟩ := map_eq_ok.1 h
  -- the digits that are written, which may be fewer than those that were read
  obtain ⟨ds', hread, hsplit', hauthority⟩ : ∃ ds', readPort ds' = .ok port ∧
      Splits (host ++ portText ds') host ds' ∧
      Zit.Url.authority ⟨s, host, if path = [] then ascii "/".toList else path, port⟩ =
        host ++ portText ds' := by
    cases port with
    | none =>
      obtain rfl := readPort_none hport
      exact ⟨[], hport, hsplit.eq ▸ hsplit, (List.append_nil _).symm⟩
    | some port =>
      have hne := digits_ne_nil port.toNat
      refine ⟨digits port.toNat, readPort_digits port,
        ⟨rfl, isDigit_digits _, fun he => absurd he hne⟩, ?_⟩
      rw [portText, if_neg hne]
      rfl
  have htext' : Text (Url.str
      { scheme := s, host, path := if path = [] then ascii "/".toList else path, port }) s
      (host ++ portText ds') (if path = [] then ascii "/".toList else path) := by
    have hslash := htext.slash
    have hline := htext.line
    rw [hsplit.eq, List.mem_append, not_or] at hslash hline
    refine ⟨by rw [str_of_params rfl, hauthority], htext.scheme, ?_, ?_, ?_⟩
    · simpa [hslash.1] using slash_portText hsplit'.digits
    · simpa [hline.1] using line_portText hsplit'.digits
    · rcases htext.path with rfl | hpath
      · exact .inr (by decide)
      · rw [if_neg (by rintro rfl; simp at hpath)]
        exact .inr hpath
  rw [ofString_of_text htext' hsplit', hread]
  by_cases hpath : path = []
  · subst hpath
    rfl
  · simp only [Except.map, if_neg hpath]

/-- An URL that was read is read again from its text, which no other URL that was read has. -/
theorem ofString_str {u : Url} (h : ofString url = .ok u) :
    ofString u.str = .ok u ∧ ∀ url' v, ofString url' = .ok v → u.str = v.str → u = v := by
  refine ⟨ofString_of_str h, fun url' v hv heq => ?_⟩
  have hu := ofString_of_str h
  rw [heq, ofString_of_str hv] at hu
  exact (Except.ok.inj hu).symm

/-- A host with a colon, and a port that is written with a zero in front. -/
def colonUrl : Url :=
  { scheme := ascii "http".toList, host := ascii "a:1".toList, path := [47], port := some 80 }

theorem ofString_str_colon : ofString colonUrl.str = .ok colonUrl ∧
    ∀ url' v, ofString url' = .ok v → colonUrl.str = v.str → colonUrl = v :=
  ofString_str (show ofString (ascii "http://a:1:080".toList) = .ok colonUrl by rfl)

end Zit.Net.Url
