import Zit.Lib.Fallible
import Zit.Lib.Run
import Zit.Proof.RetryPeers
import Zit.Swarm

/-!
# One peer for each endpoint

`add_peer` compares URL strings, and only with the peers in `m_peers`. Two peers get the same host
and port exactly when an event brings an endpoint that is not clear: twice in one reply, or with
another URL string than the peer that has it (`distinct_run_iff`).
-/

set_option autoImplicit false

namespace Zit

open Lib Lib.Decimal

/-! ## URL strings -/

namespace Url

/-- What the constructors build: the string says what the host and the port are. -/
structure Proper (u : Url) : Prop where
  scheme : 58 ∉ u.scheme
  authority : 47 ∉ u.authority
  path : u.path = [] ∨ u.path.head? = some 47
  split : splitPort u.authority = .ok (u.host, u.port)

/-- The digits behind the last colon. -/
theorem trailing_digits (host : Bytes) {ds : Bytes} (hds : ∀ c ∈ ds, isDigit c = true) :
    ((host ++ 58 :: ds).reverse.takeWhile isDigit).reverse = ds := by
  rw [List.reverse_append, List.reverse_cons, List.append_assoc, List.takeWhile_append_of_pos
    (by simpa using hds)]
  simp [isDigit]

theorem splitPort_colon (host : Bytes) {ds : Bytes} (hne : ds ≠ [])
    (hds : ∀ c ∈ ds, isDigit c = true) : splitPort (host ++ 58 :: ds) =
      if value ds ≥ 2 ^ 31 then .error (.outOfRange "stoi")
      else if value ds ≥ 2 ^ 16 then .error (.outOfRange "out of range")
      else .ok (host, some (UInt16.ofNat (value ds))) := by
  have hrest : (host ++ 58 :: ds).take ((host ++ 58 :: ds).length - ds.length) = host ++ [58] := by
    rw [List.append_cons, List.length_append, Nat.add_sub_cancel, List.take_left]
  simp only [splitPort, trailing_digits host hds, hrest]
  rw [if_pos ⟨hne, by simp⟩, List.dropLast_concat]

theorem splitPort_port (host : Bytes) (port : UInt16) :
    splitPort (host ++ 58 :: digits port.toNat) = .ok (host, some port) := by
  have hport := port.toNat_lt
  rw [splitPort_colon host (digits_ne_nil _) (isDigit_digits _), value_digits, if_neg (by omega),
    if_neg (by omega), UInt16.ofNat_toNat]

/-- Without digits behind the last colon. -/
theorem splitPort_host {host : Bytes} (h : ∀ host' ds, ds ≠ [] → (∀ c ∈ ds, isDigit c = true) →
    host ≠ host' ++ 58 :: ds) : splitPort host = .ok (host, none) := by
  obtain ⟨ds, hds⟩ : ∃ ds, ds = (host.reverse.takeWhile isDigit).reverse := ⟨_, rfl⟩
  have hsuffix : ds <:+ host := by
    have := List.reverse_suffix.2 (List.takeWhile_prefix isDigit (l := host.reverse))
    rwa [List.reverse_reverse, ← hds] at this
  obtain ⟨front, hfront⟩ := hsuffix
  have htake : host.take (host.length - ds.length) = front := by
    rw [← hfront, List.length_append, Nat.add_sub_cancel, List.take_left]
  have hall : ∀ c ∈ ds, isDigit c = true := by
    intro c hc
    rw [hds, List.mem_reverse] at hc
    exact List.mem_takeWhile_imp hc
  simp only [splitPort, ← hds, htake]
  refine if_neg fun ⟨hne, hlast⟩ => ?_
  obtain ⟨host', hhost'⟩ := List.getLast?_eq_some_iff.1 hlast
  refine h host' ds hne hall ?_
  rw [← hfront, hhost', List.append_assoc, List.singleton_append]

theorem splitPort_plain {host : Bytes} (h : 58 ∉ host) : splitPort host = .ok (host, none) := by
  simp only [splitPort]
  refine if_neg fun hport => h ?_
  exact List.mem_of_mem_take (List.mem_of_getLast? hport.2)

theorem splitPort_none {authority host : Bytes} (h : splitPort authority = .ok (host, none)) :
    authority = host := by
  simp only [splitPort] at h
  split at h
  · split at h
    · cases h
    · split at h <;> cases h
  · cases h
    rfl

theorem splitPort_subset {authority host : Bytes} {port : Option UInt16}
    (h : splitPort authority = .ok (host, port)) : host ⊆ authority := by
  simp only [splitPort] at h
  split at h
  · split at h
    · cases h
    · split at h
      · cases h
      · cases h
        exact fun _ hc => List.mem_of_mem_take (List.mem_of_mem_dropLast hc)
  · cases h
    exact List.Subset.refl _

theorem not_mem_digits {c : UInt8} (n : Nat) (h : isDigit c = false) : c ∉ digits n := fun hc => by
  rw [isDigit_digits n c hc] at h
  cases h

/-- A host without a slash and a port. -/
theorem proper_port {u : Url} {port : UInt16} (hscheme : 58 ∉ u.scheme) (hhost : 47 ∉ u.host)
    (hpath : u.path = [] ∨ u.path.head? = some 47) (hport : u.port = some port) : u.Proper := by
  have hauthority : u.authority = u.host ++ 58 :: digits port.toNat := by rw [authority, hport]
  refine ⟨hscheme, ?_, hpath, ?_⟩
  · rw [hauthority]
    simp [hhost, not_mem_digits _ (show isDigit 47 = false by decide)]
  · rw [hauthority, hport]
    exact splitPort_port _ _

theorem proper_plain {u : Url} (hscheme : 58 ∉ u.scheme) (hhost : 47 ∉ u.host)
    (hpath : u.path = [] ∨ u.path.head? = some 47) (hport : u.port = none)
    (hsplit : splitPort u.host = .ok (u.host, none)) : u.Proper := by
  have hauthority : u.authority = u.host := by rw [authority, hport]
  exact ⟨hscheme, hauthority ▸ hhost, hpath, by rw [hauthority, hport, hsplit]⟩

/-- Another host without a slash and a colon. -/
theorem Proper.rename {u : Url} (h : u.Proper) {host : Bytes} (hcolon : 58 ∉ host)
    (hslash : 47 ∉ host) : ({ u with host } : Url).Proper := by
  obtain ⟨scheme, _, path, port⟩ := u
  cases port with
  | some port => exact proper_port h.scheme hslash h.path rfl
  | none => exact proper_plain h.scheme hslash h.path rfl (splitPort_plain hcolon)

/-- The authority in the string. -/
theorem Proper.authority_of_str {u : Url} (h : u.Proper) :
    ((u.str.dropWhile (· != 58)).drop 3).takeWhile (· != 47) = u.authority := by
  have hscheme : ∀ c ∈ u.scheme, (c != 58) = true := fun c hc => by
    rw [bne_iff_ne]
    exact fun he => h.scheme (he ▸ hc)
  have hauthority : ∀ c ∈ u.authority, (c != 47) = true := fun c hc => by
    rw [bne_iff_ne]
    exact fun he => h.authority (he ▸ hc)
  have hstr : u.str = u.scheme ++ 58 :: 47 :: 47 :: (u.authority ++ u.path) := by
    rw [str, show ascii "://".toList = [58, 47, 47] from rfl]
    simp
  rw [hstr, List.dropWhile_append_of_pos hscheme, List.dropWhile_cons_of_neg (by simp)]
  rw [show (58 :: 47 :: 47 :: (u.authority ++ u.path)).drop 3 = u.authority ++ u.path from rfl,
    List.takeWhile_append_of_pos hauthority]
  rcases h.path with hp | hp
  · rw [hp, List.takeWhile_nil, List.append_nil]
  · obtain ⟨rest, hrest⟩ := List.head?_eq_some_iff.1 hp
    rw [hrest, List.takeWhile_cons_of_neg (by simp), List.append_nil]

/-- The string says which endpoint it is. -/
theorem Proper.endpoint_of_str {u v : Url} (hu : u.Proper) (hv : v.Proper) (h : u.str = v.str) :
    u.endpoint = v.endpoint := by
  have hauthority : u.authority = v.authority := by
    rw [← hu.authority_of_str, ← hv.authority_of_str, h]
  have hsplit := hu.split
  rw [hauthority, hv.split] at hsplit
  exact (Except.ok.inj hsplit).symm

theorem parse_proper {url : Bytes} {u : Url} (h : parse url = .ok u) : u.Proper := by
  simp only [parse] at h
  split at h
  case h_2 => cases h
  case h_1 scheme hscheme =>
    have hcolon : 58 ∉ scheme := by
      have hmem := List.mem_of_find?_eq_some hscheme
      revert hmem
      exact (by decide : ∀ s ∈ [ascii "udp".toList, ascii "https".toList, ascii "http".toList],
        58 ∉ s) scheme
    generalize url.drop (scheme.length + 3) = rest at h
    simp only [parseRest] at h
    split at h
    case isTrue => cases h
    obtain ⟨⟨host, port⟩, hsplit, h⟩ := bind_eq_ok.1 h
    cases h
    have hslash : 47 ∉ rest.takeWhile (· != 47) := fun hmem => by
      simpa using List.mem_takeWhile_imp hmem
    have hhost : 47 ∉ host := fun hmem => hslash (splitPort_subset hsplit hmem)
    have hpath : (if rest.dropWhile (· != 47) = [] then [47] else rest.dropWhile (· != 47)) = [] ∨
        (if rest.dropWhile (· != 47) = [] then [47] else rest.dropWhile (· != 47)).head? =
          some 47 := by
      right
      split
      · rfl
      · rename_i hne
        obtain ⟨c, cs, hc⟩ := List.exists_cons_of_ne_nil hne
        have := List.head?_dropWhile_not (· != (47 : UInt8)) rest
        rw [hc] at this ⊢
        simpa using this
    cases port with
    | some port => exact proper_port hcolon hhost hpath rfl
    | none =>
      obtain rfl := splitPort_none hsplit
      exact proper_plain hcolon hhost hpath rfl hsplit

theorem parseBinary_proper {url : Bytes} {u : Url} (h : parseBinary url = .ok u) : u.Proper := by
  unfold parseBinary at h
  split at h
  · cases h
    have hslash : ∀ n, 47 ∉ digits n := fun n => not_mem_digits n (by decide)
    have hhttp : 58 ∉ ascii "http".toList := by decide
    exact proper_port hhttp (by simp [hslash]) (.inl rfl) rfl
  · cases h

theorem resolve_proper {net : Network} {u v : Url} (hu : u.Proper) (h : u.resolve net = .ok v) :
    v.Proper := by
  unfold resolve at h
  split at h
  · cases h
    exact hu.rename (by decide) (by decide)
  · cases hname : net.lookup u.host with
    | error e =>
      rw [hname] at h
      cases h
    | ok name =>
      rw [hname] at h
      cases h
      cases name with
      | none => exact hu
      | some name => exact hu.rename (net.plain _ _ hname).1 (net.plain _ _ hname).2

theorem make_proper {net : Network} {url : Bytes} {binary : Bool} {u : Url}
    (h : make net url binary = .ok u) : u.Proper := by
  obtain ⟨v, hv, h⟩ := bind_eq_ok.1 h
  have hproper : v.Proper := by
    cases binary with
    | true => exact parseBinary_proper hv
    | false => exact parse_proper hv
  cases hres : net.resolveUrls with
  | true =>
    rw [hres] at h
    exact resolve_proper hproper h
  | false =>
    rw [hres] at h
    cases h
    exact hproper

end Url

section
variable {net : Network}

/-- All URLs that are read are proper when each one is. -/
theorem mapM_proper {α : Type} {f : α → Except Exn Url} {xs : List α} {us : List Url}
    (h : xs.mapM f = .ok us) (hf : ∀ x u, f x = .ok u → u.Proper) : ∀ u ∈ us, u.Proper := by
  have hall := mapM_eq_ok h
  clear h
  induction hall with
  | nil => simp
  | cons hx _ ih => exact List.forall_mem_cons.2 ⟨hf _ _ hx, ih⟩

theorem filter_proper {us : List Url} {f : Url → Bool} (h : ∀ u ∈ us, u.Proper) :
    ∀ u ∈ us.filter f, u.Proper := fun u hu => h u (List.mem_of_mem_filter hu)

theorem readPeersStringList_proper {peers : Element} {us : List Url}
    (h : readPeersStringList net peers = .ok us) : ∀ u ∈ us, u.Proper := by
  unfold readPeersStringList at h
  obtain ⟨v, -, h⟩ := bind_eq_ok.1 h
  obtain ⟨urls, hurls, h⟩ := bind_eq_ok.1 h
  obtain rfl := pure_eq_ok.1 h
  refine filter_proper (mapM_proper hurls fun elm u hu => ?_)
  unfold peerEntryUrl at hu
  obtain ⟨peer, -, hu⟩ := bind_eq_ok.1 hu
  obtain ⟨e, -, hu⟩ := bind_eq_ok.1 hu
  obtain ⟨ip, -, hu⟩ := bind_eq_ok.1 hu
  obtain ⟨e, -, hu⟩ := bind_eq_ok.1 hu
  obtain ⟨port, -, hu⟩ := bind_eq_ok.1 hu
  exact Url.make_proper hu

theorem readPeersBinaryForm_proper {peers : Element} {us : List Url}
    (h : readPeersBinaryForm net peers = .ok us) : ∀ u ∈ us, u.Proper := by
  unfold readPeersBinaryForm at h
  obtain ⟨binary, -, h⟩ := bind_eq_ok.1 h
  split at h
  · cases h
  · obtain ⟨urls, hurls, h⟩ := bind_eq_ok.1 h
    obtain rfl := pure_eq_ok.1 h
    exact filter_proper (mapM_proper hurls fun _ _ hu => Url.make_proper hu)

theorem peerUrl_proper {response : Bytes} {i : Nat} {u : Url}
    (h : Trackers.peerUrl response i = .ok u) : u.Proper := by
  unfold Trackers.peerUrl at h
  obtain ⟨ip, -, h⟩ := bind_eq_ok.1 h
  obtain ⟨port, -, h⟩ := bind_eq_ok.1 h
  exact Url.parse_proper h

theorem readPeersUdp_proper {response : Bytes} {us : List Url}
    (h : readPeersUdp net response = .ok us) : ∀ u ∈ us, u.Proper := by
  unfold readPeersUdp at h
  obtain ⟨-, -, h⟩ := bind_eq_ok.1 h
  obtain ⟨urls, hurls, h⟩ := bind_eq_ok.1 h
  obtain rfl := pure_eq_ok.1 h
  refine filter_proper (mapM_proper hurls fun i u hu => ?_)
  obtain ⟨purl, hpurl, hu⟩ := bind_eq_ok.1 hu
  split at hu
  · exact Url.resolve_proper (peerUrl_proper hpurl) hu
  · obtain rfl := pure_eq_ok.1 hu
    exact peerUrl_proper hpurl

theorem urls_proper {reply : TrackerReply} {us : List Url} (h : reply.urls net = .ok us) :
    ∀ u ∈ us, u.Proper := by
  obtain ⟨urls, hurls, rfl⟩ := map_eq_ok.1 h
  refine filter_proper ?_
  unfold TrackerReply.read at hurls
  split at hurls
  · exact readPeersStringList_proper hurls
  · exact readPeersBinaryForm_proper hurls
  · exact readPeersUdp_proper hurls
  · cases hurls
    simp
  · cases hurls

end

/-! ## The peers that stay -/

namespace PeerList

section
variable {β : Type} {f : PeerRef → β} {s : PeerList}

/-- The candidate does not replace it. -/
def stays (trackerPeers : List PeerRef) (p : PeerRef) : Bool :=
  trackerPeers.all fun c => !c.sameUrl p

/-- With at most one peer for each endpoint, the one that is erased is the only one with the URL. -/
theorem eraseIdx_same {ps : List PeerRef} {c p : PeerRef} {i : Nat} (hn : (ps.map f).Nodup)
    (hsame : ∀ q ∈ ps, c.sameUrl q = true → f q = f c) (hi : ps[i]? = some p)
    (hp : c.sameUrl p = true) : ps.eraseIdx i = ps.filter (stays [c]) := by
  have hstays : ∀ q, stays [c] q = !c.sameUrl q := fun q => by simp [stays]
  induction ps generalizing i with
  | nil => cases hi
  | cons q ps ih =>
    rw [List.map_cons, List.nodup_cons] at hn
    rw [List.forall_mem_cons] at hsame
    cases i with
    | zero =>
      obtain rfl : q = p := by simpa using hi
      rw [List.filter_cons_of_neg (by simp [hstays, hp]), List.eraseIdx_cons_zero, eq_comm,
        List.filter_eq_self]
      intro r hr
      rw [hstays, Bool.not_eq_true']
      by_contra hsr
      refine hn.1 (List.mem_map.2 ⟨r, hr, ?_⟩)
      rw [hsame.2 r hr (by simpa using hsr), hsame.1 hp]
    | succ i =>
      rw [List.getElem?_cons_succ] at hi
      have hq : c.sameUrl q = false := by
        by_contra hsq
        refine hn.1 (List.mem_map.2 ⟨p, List.mem_of_getElem? hi, ?_⟩)
        rw [hsame.1 (by simpa using hsq), hsame.2 p (List.mem_of_getElem? hi) hp]
      rw [List.eraseIdx_cons_succ, List.filter_cons_of_pos (by simp [hstays, hq]),
        ih hn.2 hsame.2 hi]

/-- Nothing has the URL, or the one that has it is erased. -/
theorem filter_stays {ps ps' : List PeerRef} {c : PeerRef} (hn : (ps.map f).Nodup)
    (hsame : ∀ q ∈ ps, c.sameUrl q = true → f q = f c)
    (h : ps' = ps ∧ (∀ p ∈ ps, c.sameUrl p = false) ∨
      ∃ (i : Nat) (p : PeerRef), ps[i]? = some p ∧ c.sameUrl p = true ∧ ps' = ps.eraseIdx i) :
    ps' = ps.filter (stays [c]) := by
  rcases h with ⟨rfl, hnone⟩ | ⟨i, p, hp, hsp, rfl⟩
  · rw [eq_comm, List.filter_eq_self]
    exact fun p hp => by simp [stays, hnone p hp]
  · exact eraseIdx_same hn hsame hp hsp

theorem addPeers_stays (trackerPeers newPeers : List PeerRef) (erased : List Nat)
    (hn : (s.peers.map f).Nodup)
    (hsame : ∀ c ∈ trackerPeers, ∀ p ∈ s.peers, c.sameUrl p = true → f p = f c) :
    wp (addPeers trackerPeers newPeers erased) s (fun r s' => r.1 = newPeers ++ trackerPeers ∧
        (∀ c ∈ trackerPeers, c.opens = true) ∧ s'.peers = s.peers.filter (stays trackerPeers))
      fun _ s' => s'.peers.Sublist s.peers ∧ ∃ c ∈ trackerPeers, c.opens = false := by
  induction trackerPeers generalizing newPeers erased s with
  | nil =>
    refine ⟨(List.append_nil _).symm, fun _ hc => absurd hc List.not_mem_nil, ?_⟩
    exact (List.filter_eq_self.2 fun _ _ => rfl).symm
  | cons c trackerPeers ih =>
    rw [List.forall_mem_cons] at hsame
    simp only [addPeers, wp_bind]
    refine wp_mono (addPeer_spec c newPeers) (fun r s1 h => ?_) fun _ _ h =>
      ⟨h.2, c, List.mem_cons_self, h.1⟩
    obtain ⟨hopens, hr, h⟩ := h
    have hpeers : s1.peers = s.peers.filter (stays [c]) := by
      refine filter_stays hn hsame.1 ?_
      rcases h with ⟨-, hnone, rfl⟩ | ⟨i, p, -, hp, hsp, rfl⟩
      · exact .inl ⟨rfl, hnone⟩
      · exact .inr ⟨i, p, hp, hsp, rfl⟩
    have hsub : s1.peers.Sublist s.peers := hpeers ▸ List.filter_sublist
    refine wp_mono (ih _ _ ((hsub.map f).nodup hn) fun c hc p hp => hsame.2 c hc p (hsub.subset hp))
      (fun r' s2 h2 => ?_) fun _ s2 h2 => ?_
    · obtain ⟨hr', hopens', hpeers'⟩ := h2
      refine ⟨by simp [hr', hr], List.forall_mem_cons.2 ⟨hopens, hopens'⟩, ?_⟩
      rw [hpeers', hpeers, List.filter_filter]
      refine List.filter_congr fun p _ => ?_
      simp [stays, Bool.and_comm]
    · obtain ⟨hsub', c', hc', hopens'⟩ := h2
      exact ⟨hsub'.trans hsub, c', List.mem_cons_of_mem _ hc', hopens'⟩

theorem mem_back {partition : Partition} {ps : List PeerRef} {p : PeerRef} :
    p ∈ (partition.run PeerRef.stale ps).2 ↔ p ∈ ps ∧ p.stale = false := by
  constructor
  · intro hp
    exact ⟨mem_run.1 (List.mem_append_right _ hp), partition.back PeerRef.stale ps p hp⟩
  · intro h
    obtain ⟨hp, hstale⟩ := h
    refine (List.mem_append.1 (mem_run.2 hp)).resolve_left fun hf => ?_
    rw [partition.front PeerRef.stale ps p hf] at hstale
    cases hstale

/-- What `retry_peers` makes of the peers. -/
theorem retryPeers_stays {partition : Partition} {trackerPeers : List PeerRef}
    (hn : (s.peers.map f).Nodup)
    (hsame : ∀ c ∈ trackerPeers, ∀ p ∈ s.peers, c.sameUrl p = true → f p = f c) :
    wp (retryPeers partition false trackerPeers) s (fun _ s' =>
        (∀ c ∈ trackerPeers, c.opens = true) ∧
        s'.peers = (partition.run PeerRef.stale s.peers).2.filter (stays trackerPeers) ++
          trackerPeers)
      fun e s' => (∃ what, e = .undefined what) ∨ (∃ c ∈ trackerPeers, c.opens = false) ∧
        ∃ arranged, arranged.Perm s.peers ∧ s'.peers.Sublist arranged := by
  have hperm := partition.perm PeerRef.stale s.peers
  generalize hr : partition.run PeerRef.stale s.peers = r at hperm
  obtain ⟨front, back⟩ := r
  have hn' : ((front ++ back).map f).Nodup := (hperm.map f).nodup_iff.2 hn
  have hsame' : ∀ c ∈ trackerPeers, ∀ p ∈ front ++ back, c.sameUrl p = true → f p = f c :=
    fun c hc p hp => hsame c hc p (hperm.mem_iff.1 hp)
  simp only [retryPeers, Bool.false_eq_true, if_false, wp_bind, wp_get, hr, wp_set]
  by_cases hne : front.length ≠ 0
  · simp only [if_pos hne, wp_bind]
    refine wp_mono (stop_all back _) (fun _ s1 h1 => ?_) fun _ _ h => h.elim
    have hs1 : s1.peers = front ++ back := by rw [h1]
    have hspec := wp_and (addPeers_stays trackerPeers [] [] (hs1 ▸ hn') (hs1 ▸ hsame'))
      (addPeers_front trackerPeers [] [] hs1)
    refine wp_mono hspec (fun r s2 h2 => ?_) fun _ s2 h2 => ?_
    · obtain ⟨⟨hnew, hopens, hpeers⟩, hfront⟩ := h2
      refine wp_ite (fun _ => .inl ⟨_, rfl⟩) fun hany => ?_
      simp only [List.any_eq_true, decide_eq_true_eq, not_exists, not_and, Nat.not_le] at hany
      obtain ⟨⟨back', hback⟩, -⟩ := hfront hany
      refine ⟨hopens, ?_⟩
      -- nothing of `front` has been erased
      have hkept : front.filter (stays trackerPeers) = front := by
        rw [List.filter_eq_self]
        intro p hp
        have hmem : p ∈ s2.peers := hback ▸ List.mem_append_left _ hp
        rw [hpeers, List.mem_filter] at hmem
        exact hmem.2
      dsimp only
      rw [hnew, hpeers, hs1, List.filter_append, hkept, List.drop_left, List.nil_append]
    · exact .inr ⟨h2.1.2, _, hperm, hs1 ▸ h2.1.1⟩
  · obtain rfl : front = [] := by simpa using hne
    simp only [if_neg hne, wp_bind, List.nil_append] at hn' hsame' hperm ⊢
    refine wp_mono (addPeers_stays trackerPeers [] [] hn' hsame') (fun r s2 h2 => ?_)
      fun _ s2 h2 => .inr ⟨h2.2, _, hperm, h2.1⟩
    obtain ⟨hnew, hopens, hpeers⟩ := h2
    refine ⟨hopens, ?_⟩
    dsimp only
    rw [hnew, hpeers, List.nil_append]

end

end PeerList

/-! ## Endpoints -/

namespace Swarm

def urlOf (urls : List Url) (p : PeerRef) : Option Url := urls[p.ref]?

/-- The host and the port of a peer. -/
def endpointOf (urls : List Url) (p : PeerRef) : Option (Bytes × Option UInt16) :=
  (urlOf urls p).map Url.endpoint

/-- No two peers have the same host and port. -/
def Distinct (s : Swarm) : Prop :=
  s.list.peers.Pairwise fun p q => endpointOf s.urls p ≠ endpointOf s.urls q

/-- The URLs the event brings are clear of each other and of the peers that stay: no two have one
endpoint, and a peer with the endpoint of one of them has the same URL string, so that it is
replaced. A reply counts when there are peers to be asked for and their connections can be
created. -/
def Event.Clear (s : Swarm) : Event → Prop
  | .start net reply => s.list.peers = [] → ∀ urls, reply.urls net = .ok urls →
    (urls.map Url.endpoint).Nodup
  | .retryPeers net _ stopped inactive reply => stopped = false → ∀ urls,
    reply.urls net = .ok urls → (∀ u ∈ urls, net.opens u = true) →
      (urls.map Url.endpoint).Nodup ∧ ∀ u ∈ urls, ∀ p ∈ s.list.peers,
        (inactive p.ref && !p.listening) = false → endpointOf s.urls p = some u.endpoint →
          p.url = some u.str
  | .accepted ip port => ∀ u, acceptedUrl ip port = .ok u → ∀ p ∈ s.list.peers,
    endpointOf s.urls p = some u.endpoint → p.url = some u.str
  | .disconnected _ | .retryPieces _ => True

/-- A peer with an URL. -/
def Has (urls : List Url) (p : PeerRef) : Prop :=
  ∃ u, urlOf urls p = some u ∧ p.url = some u.str ∧ u.Proper

def Known (s : Swarm) : Prop := ∀ p ∈ s.list.peers, Has s.urls p

section
variable {s s' : Swarm} {urls base : List Url} {p q c : PeerRef}

theorem distinct_iff : Distinct s ↔ (s.list.peers.map (endpointOf s.urls)).Nodup :=
  List.pairwise_map.symm

/-- The same URL string means the same endpoint. -/
theorem Has.endpoint_of_same (hp : Has urls p) (hc : Has urls c) (h : c.sameUrl p = true) :
    endpointOf urls p = endpointOf urls c := by
  obtain ⟨u, hu, hustr, hproper⟩ := hp
  obtain ⟨v, hv, hvstr, hproper'⟩ := hc
  have hstr : v.str = u.str := by simpa [PeerRef.sameUrl, hustr, hvstr] using h
  rw [endpointOf, endpointOf, hu, hv, Option.map_some, Option.map_some,
    hproper.endpoint_of_str hproper' hstr.symm]

theorem Has.append (h : Has base p) : Has (base ++ urls) p ∧
    endpointOf (base ++ urls) p = endpointOf base p := by
  obtain ⟨u, hu, hrest⟩ := h
  have hurl : urlOf (base ++ urls) p = some u := by
    rw [urlOf, List.getElem?_append_left (List.getElem?_eq_some_iff.1 hu).1]
    exact hu
  exact ⟨⟨u, hurl, hrest⟩, by rw [endpointOf, endpointOf, hurl, hu]⟩

/-! ## New peers -/

section
variable {listening : Bool} {opens : Url → Bool}

theorem mem_makePeers (h : c ∈ makePeers listening opens base.length urls) :
    ∃ u ∈ urls, urlOf (base ++ urls) c = some u ∧ c.url = some u.str ∧ c.opens = opens u := by
  obtain ⟨⟨u, ref⟩, hmem, rfl⟩ := List.mem_map.1 h
  obtain ⟨hle, hget⟩ := List.mk_mem_zipIdx_iff_le_and_getElem?_sub.1 hmem
  refine ⟨u, List.mem_of_getElem? hget, ?_, rfl, rfl⟩
  rw [urlOf, List.getElem?_append_right hle]
  exact hget

theorem makePeers_endpoint : (makePeers listening opens base.length urls).map
    (endpointOf (base ++ urls)) = (urls.map Url.endpoint).map some := by
  rw [makePeers, List.map_map, List.map_map]
  calc (urls.zipIdx base.length).map _
      = (urls.zipIdx base.length).map ((some ∘ Url.endpoint) ∘ Prod.fst) := by
        refine List.map_congr_left fun x hx => ?_
        obtain ⟨u, ref⟩ := x
        obtain ⟨hle, hget⟩ := List.mk_mem_zipIdx_iff_le_and_getElem?_sub.1 hx
        simp only [Function.comp, endpointOf, urlOf, List.getElem?_append_right hle, hget,
          Option.map_some]
    _ = urls.map (some ∘ Url.endpoint) := by
        rw [← List.map_map, List.zipIdx_map_fst]

/-- The URL of a new peer. -/
theorem mem_urls_makePeers {u : Url} (h : u ∈ urls) :
    ∃ c ∈ makePeers listening opens base.length urls, c.url = some u.str ∧
      c.opens = opens u ∧ endpointOf (base ++ urls) c = some u.endpoint := by
  obtain ⟨i, hi⟩ := List.mem_iff_getElem?.1 h
  refine ⟨_, List.mem_map.2 ⟨(u, base.length + i), ?_, rfl⟩, rfl, rfl, ?_⟩
  · rw [List.mk_mem_zipIdx_iff_le_and_getElem?_sub]
    exact ⟨Nat.le_add_right _ _, by rw [Nat.add_sub_cancel_left, hi]⟩
  · rw [endpointOf, urlOf, List.getElem?_append_right (Nat.le_add_right _ _),
      Nat.add_sub_cancel_left, hi, Option.map_some]

/-- New peers next to those they do not replace. -/
theorem added_distinct {ps : List PeerRef} (hps : ∀ p ∈ ps, Has base p)
    (hn : (ps.map (endpointOf base)).Nodup) (hurls : ∀ u ∈ urls, u.Proper) :
    ((ps.filter (PeerList.stays (makePeers listening opens base.length urls)) ++
      makePeers listening opens base.length urls).map (endpointOf (base ++ urls))).Nodup ↔
    (urls.map Url.endpoint).Nodup ∧ ∀ u ∈ urls, ∀ p ∈ ps,
      endpointOf base p = some u.endpoint → p.url = some u.str := by
  have hold : ((ps.filter (PeerList.stays (makePeers listening opens base.length urls))).map
      (endpointOf (base ++ urls))).Nodup := by
    rw [List.map_congr_left fun p hp => (hps p (List.mem_of_mem_filter hp)).append.2]
    exact (List.filter_sublist.map _).nodup hn
  rw [List.map_append, List.nodup_append, makePeers_endpoint,
    List.nodup_map_iff (Option.some_injective _)]
  constructor
  · intro h
    obtain ⟨-, hnew, hapart⟩ := h
    refine ⟨hnew, fun u hu p hp hpu => ?_⟩
    by_contra hurl
    -- the candidate with the endpoint has another URL string, so `p` stays
    have hstays : PeerList.stays (makePeers listening opens base.length urls) p = true := by
      rw [PeerList.stays, List.all_eq_true]
      intro c hc
      rw [Bool.not_eq_true']
      by_contra hsame
      obtain ⟨v, hv, hvurl, hvstr, -⟩ := mem_makePeers hc
      have hend := (hps p hp).append.1.endpoint_of_same ⟨v, hvurl, hvstr, hurls v hv⟩
        (by simpa using hsame)
      rw [(hps p hp).append.2, hpu, endpointOf, hvurl, Option.map_some, Option.some_inj] at hend
      obtain rfl := List.inj_on_of_nodup_map hnew hu hv hend
      refine hurl ?_
      rw [Bool.not_eq_false, PeerRef.sameUrl, Bool.and_eq_true, beq_iff_eq] at hsame
      rw [← hsame.2, hvstr]
    refine hapart _ (List.mem_map_of_mem (List.mem_filter.2 ⟨hp, hstays⟩)) (some u.endpoint)
      (List.mem_map_of_mem (List.mem_map_of_mem hu)) ?_
    rw [(hps p hp).append.2, hpu]
  · intro h
    obtain ⟨hnew, hsame⟩ := h
    refine ⟨hold, hnew, fun a ha b hb hab => ?_⟩
    obtain ⟨p, hp, rfl⟩ := List.mem_map.1 ha
    obtain ⟨_, hu, rfl⟩ := List.mem_map.1 hb
    obtain ⟨u, hmem, rfl⟩ := List.mem_map.1 hu
    obtain ⟨hp, hstays⟩ := List.mem_filter.1 hp
    rw [(hps p hp).append.2] at hab
    obtain ⟨c, hc, hcurl, -⟩ := @mem_urls_makePeers _ _ listening opens _ hmem
    have hno := List.all_eq_true.1 hstays c hc
    rw [PeerRef.sameUrl, hcurl, hsame u hmem p hp hab] at hno
    simp at hno

/-- The state with new peers. -/
theorem after_added {e : Event} {l : PeerList} {ps : List PeerRef} (hps : ∀ p ∈ ps, Has s.urls p)
    (hn : (ps.map (endpointOf s.urls)).Nodup) (hurls : ∀ u ∈ urls, u.Proper)
    (hl : l.peers = ps.filter (PeerList.stays (makePeers listening opens s.urls.length urls)) ++
      makePeers listening opens s.urls.length urls)
    (hclear : e.Clear s ↔ (urls.map Url.endpoint).Nodup ∧ ∀ u ∈ urls, ∀ p ∈ ps,
      endpointOf s.urls p = some u.endpoint → p.url = some u.str) :
    Known { list := l, urls := s.urls ++ urls } ∧
      (Distinct { list := l, urls := s.urls ++ urls } ↔ e.Clear s) := by
  refine ⟨fun p hp => ?_, ?_⟩
  · rcases List.mem_append.1 (hl ▸ hp) with hp | hp
    · exact (hps p (List.mem_of_mem_filter hp)).append.1
    · obtain ⟨u, hu, hurl, hstr, -⟩ := mem_makePeers hp
      exact ⟨u, hurl, hstr, hurls u hu⟩
  · rw [distinct_iff, hl, added_distinct hps hn hurls, hclear]

end

/-! ## One event -/

/-- After the event: the peers have URLs, and they are distinct when the event was clear. -/
def After (s : Swarm) (e : Event) (s' : Swarm) : Prop := Known s' ∧ (Distinct s' ↔ e.Clear s)

/-- Peers that are only arranged and dropped. -/
theorem after_of_sublist {s0 : Swarm} {e : Event} {l : PeerList} {arranged : List PeerRef}
    (hk : Known s) (hd : Distinct s) (hclear : e.Clear s0) (hperm : arranged.Perm s.list.peers)
    (hsub : l.peers.Sublist arranged) : After s0 e { s with list := l } := by
  rw [distinct_iff] at hd
  refine ⟨fun p hp => hk p (hperm.mem_iff.1 (hsub.subset hp)), iff_of_true ?_ hclear⟩
  rw [distinct_iff]
  exact (hsub.map _).nodup ((hperm.map _).nodup_iff.2 hd)

theorem forM_handshake (cs : List PeerRef) (l : PeerList) :
    wp (forM cs PeerList.handshake) l (fun _ l' => l'.peers = l.peers)
      fun _ l' => l'.peers = l.peers := by
  refine wp_forM cs (I := fun (l' : PeerList) => l'.peers = l.peers) rfl fun c _ l' hl => ?_
  unfold PeerList.handshake
  exact wp_ite (fun _ => hl) fun _ => hl

theorem start_after (net : Network) (reply : TrackerReply) (hk : Known s) (hd : Distinct s) :
    wp (start net reply) s (fun _ => After s (.start net reply))
      fun _ => After s (.start net reply) := by
  simp only [start, wp_bind, wp_get]
  refine wp_ite (fun hne => ⟨hk, iff_of_true hd fun h => absurd h hne⟩) fun hempty => ?_
  have hnil : s.list.peers = [] := by simpa using hempty
  simp only [trackerRequest, create, onList, wp_bind, wp_lift, wp_get, wp_set, wp_pure, wp_zoom,
    wp_modify]
  refine ⟨fun urls hurls => ?_, fun e he => ⟨hk, iff_of_true hd fun _ urls h => ?_⟩⟩
  · have hafter : ∀ l : PeerList, l.peers = makePeers false net.opens s.urls.length urls →
        After s (.start net reply) { list := l, urls := s.urls ++ urls } := by
      intro l hl
      refine @after_added _ _ false net.opens _ _ [] (by simp) (by simp) (urls_proper hurls) hl
        ⟨fun h => ⟨h hnil urls hurls, by simp⟩, fun h _ urls' hurls' => ?_⟩
      rw [hurls] at hurls'
      exact Except.ok.inj hurls' ▸ h.1
    exact wp_mono (forM_handshake _ _) (fun _ l hl => hafter l hl) fun _ l hl => hafter l hl
  · rw [he] at h
    cases h

theorem disconnected_after (ref : Nat) (hk : Known s) (hd : Distinct s) :
    wp (disconnected ref) s (fun _ => After s (.disconnected ref)) fun _ _ => False := by
  simp only [disconnected, onList, wp_zoom, wp_bind, wp_get, wp_set]
  refine wp_mono (PeerList.stop_all _ _) (fun _ l hl => ?_) fun _ _ h => h
  refine after_of_sublist hk hd trivial (List.Perm.refl _) ?_
  rw [hl]
  exact List.eraseP_sublist

theorem retryPieces_after (shuffle : Shuffle) (hk : Known s) (hd : Distinct s) :
    wp (handle (.retryPieces shuffle)) s (fun _ => After s (.retryPieces shuffle))
      fun _ _ => False := by
  simp only [handle, onList, wp_zoom, wp_modify]
  exact after_of_sublist hk hd trivial (shuffle.perm _) (List.Sublist.refl _)

theorem accept_after (ip : Bytes) (port : UInt16) (hk : Known s) (hd : Distinct s) :
    wp (accept ip port) s (fun _ => After s (.accepted ip port))
      fun _ => After s (.accepted ip port) := by
  simp only [accept, create, onList, wp_bind, wp_lift, wp_get, wp_set, wp_pure]
  refine ⟨fun u hu => ?_, fun e he => ⟨hk, iff_of_true hd fun u h => ?_⟩⟩
  · have hproper : ∀ v ∈ [u], v.Proper := by simpa using Url.parse_proper hu
    have hmake : makePeers true (fun _ => true) s.urls.length [u] =
      [⟨s.urls.length, some u.str, false, true, true⟩] := rfl
    rw [distinct_iff] at hd
    simp only [hmake, List.forM_cons, List.forM_nil, wp_bind, wp_zoom, PeerList.addPeer,
      PeerList.handshake, if_true, wp_modify, wp_pure]
    refine wp_mono (PeerList.replace_spec _) (fun k l hl => ?_) fun _ _ h => h.elim
    have hnew : Has (s.urls ++ [u]) ⟨s.urls.length, some u.str, false, true, true⟩ :=
      ⟨u, List.getElem?_concat_length, rfl, Url.parse_proper hu⟩
    have hpeers : l.peers = s.list.peers.filter (PeerList.stays
        (makePeers true (fun _ => true) s.urls.length [u])) := by
      have hd' : (s.list.peers.map (endpointOf (s.urls ++ [u]))).Nodup := by
        rwa [List.map_congr_left fun p hp => (hk p hp).append.2]
      refine PeerList.filter_stays hd'
        (fun q hq h => (hk q hq).append.1.endpoint_of_same hnew h) ?_
      rcases hl with ⟨-, rfl, hnone⟩ | ⟨i, p, -, hp, hsame, rfl⟩
      · exact .inl ⟨rfl, hnone⟩
      · exact .inr ⟨i, p, hp, hsame, rfl⟩
    refine @after_added _ _ true (fun _ => true) _ _ s.list.peers hk hd hproper
      (by rw [← hpeers, hmake])
      ⟨fun h => ⟨List.nodup_singleton _, fun v hv => ?_⟩, fun h v hv => ?_⟩
    · exact List.mem_singleton.1 hv ▸ h u hu
    · rw [hu] at hv
      exact Except.ok.inj hv ▸ h.2 u (List.mem_singleton_self u)
  · rw [he] at h
    cases h

/-- The peers with what is known of their activity now. -/
def aged (s : Swarm) (inactive : Nat → Bool) : List PeerRef :=
  s.list.peers.map fun p => { p with inactive := inactive p.ref }

theorem mem_aged {inactive : Nat → Bool} {p : PeerRef} (h : p ∈ aged s inactive) :
    ∃ q ∈ s.list.peers, { q with inactive := inactive q.ref } = p := List.mem_map.1 h

theorem known_aged (hk : Known s) (inactive : Nat → Bool) :
    Known { s with list := { s.list with peers := aged s inactive } } := by
  intro p hp
  obtain ⟨q, hq, rfl⟩ := mem_aged hp
  exact hk q hq

theorem distinct_aged (hd : Distinct s) (inactive : Nat → Bool) :
    Distinct { s with list := { s.list with peers := aged s inactive } } := by
  rw [distinct_iff] at hd ⊢
  show ((s.list.peers.map fun p => { p with inactive := inactive p.ref }).map _).Nodup
  rwa [List.map_map]

section
variable {net : Network} {partition : Partition} {stopped : Bool} {inactive : Nat → Bool}
  {reply : TrackerReply} {l : PeerList}

/-- Without peers from a tracker none is added. -/
theorem clear_of_failed {e : Exn} (hreply : reply.urls net = .error e) :
    (Event.retryPeers net partition stopped inactive reply).Clear s := by
  intro _ us h
  rw [hreply] at h
  cases h

/-- Neither is one when the connection to a peer of the tracker cannot be opened. -/
theorem clear_of_closed (hreply : reply.urls net = .ok urls) {u : Url} (hu : u ∈ urls)
    (hclosed : net.opens u = false) :
    (Event.retryPeers net partition stopped inactive reply).Clear s := by
  intro _ us h hall
  obtain rfl : urls = us := by simpa [hreply] using h
  rw [hall u hu] at hclosed
  cases hclosed

/-- Otherwise the peers that are kept are those that are not stale now. -/
theorem clear_retried (hstop : stopped = false) (hreply : reply.urls net = .ok urls)
    (hopens : ∀ u ∈ urls, net.opens u = true) :
    (Event.retryPeers net partition stopped inactive reply).Clear s ↔
      (urls.map Url.endpoint).Nodup ∧
        ∀ u ∈ urls, ∀ p ∈ (partition.run PeerRef.stale (aged s inactive)).2,
          endpointOf s.urls p = some u.endpoint → p.url = some u.str := by
  constructor
  · intro h
    obtain ⟨hnodup, hall⟩ := h hstop urls hreply hopens
    refine ⟨hnodup, fun u hu p hp hpu => ?_⟩
    obtain ⟨hp, hstale⟩ := PeerList.mem_back.1 hp
    obtain ⟨q, hq, rfl⟩ := mem_aged hp
    exact hall u hu q hq hstale hpu
  · intro h _ us hus _
    obtain rfl : urls = us := by simpa [hreply] using hus
    refine ⟨h.1, fun u hu q hq hstale hqu => ?_⟩
    exact h.2 u hu { q with inactive := inactive q.ref }
      (PeerList.mem_back.2 ⟨List.mem_map_of_mem hq, hstale⟩) hqu

/-- The stale peers are dropped, and those of the tracker come behind the others. -/
theorem after_retried (hk : Known s) (hd : Distinct s) (hstop : stopped = false)
    (hreply : reply.urls net = .ok urls) (hopens : ∀ u ∈ urls, net.opens u = true)
    (hl : l.peers = (partition.run PeerRef.stale (aged s inactive)).2.filter
        (PeerList.stays (makePeers false net.opens s.urls.length urls)) ++
      makePeers false net.opens s.urls.length urls) :
    After s (.retryPeers net partition stopped inactive reply)
      { list := l, urls := s.urls ++ urls } := by
  have hperm := partition.perm PeerRef.stale (aged s inactive)
  have hback : ((partition.run PeerRef.stale (aged s inactive)).2.map (endpointOf s.urls)).Nodup :=
    ((List.sublist_append_right _ _).map _).nodup
      ((hperm.map _).nodup_iff.2 (distinct_iff.1 (distinct_aged hd inactive)))
  exact after_added (fun p hp => known_aged hk inactive p (PeerList.mem_back.1 hp).1) hback
    (urls_proper hreply) hl (clear_retried hstop hreply hopens)

end

theorem retryPeers_after (net : Network) (partition : Partition) (stopped : Bool)
    (inactive : Nat → Bool) (reply : TrackerReply) (hk : Known s) (hd : Distinct s) :
    wp (retryPeers net partition stopped inactive reply) s
      (fun _ => After s (.retryPeers net partition stopped inactive reply)) fun x s' =>
        (∃ what, x = .undefined what) ∨
          After s (.retryPeers net partition stopped inactive reply) s' := by
  have hk1 := known_aged hk inactive
  have hd1 := distinct_aged hd inactive
  let s1 : Swarm := { s with list := { s.list with peers := aged s inactive } }
  simp only [retryPeers, onList, wp_bind, wp_zoom, wp_modify]
  refine wp_ite (fun hstop => ⟨hk1, iff_of_true hd1 fun h => ?_⟩) fun hstop => ?_
  · rw [hstop] at h
    cases h
  cases hreply : reply.urls net with
  | error e =>
    have hperm := partition.perm PeerRef.stale (aged s inactive)
    have hafter : ∀ l : PeerList, l.peers = (partition.run PeerRef.stale (aged s inactive)).1 ++
        (partition.run PeerRef.stale (aged s inactive)).2 →
        After s (.retryPeers net partition stopped inactive reply) { s1 with list := l } :=
      fun l hl => after_of_sublist hk1 hd1 (clear_of_failed hreply) hperm
        (hl ▸ List.Sublist.refl _)
    simp only [wp_zoom, wp_bind, wp_get, wp_set]
    by_cases hne : (partition.run PeerRef.stale (aged s inactive)).1.length ≠ 0
    · unfold aged at hne
      simp only [if_pos hne, wp_bind]
      refine wp_mono (PeerList.stop_all _ _) (fun _ l hl => .inr (hafter l ?_)) fun _ _ h => h.elim
      rw [hl]
      rfl
    · unfold aged at hne
      simp only [if_neg hne, wp_throw]
      exact .inr (hafter _ rfl)
  | ok urls =>
    have hproper := urls_proper hreply
    simp only [create, wp_bind, wp_get, wp_set, wp_pure, wp_zoom]
    have hk2 : ∀ p ∈ aged s inactive, Has (s.urls ++ urls) p := fun p hp => (hk1 p hp).append.1
    have hd2 : ((aged s inactive).map (endpointOf (s.urls ++ urls))).Nodup := by
      rw [List.map_congr_left fun p hp => (hk1 p hp).append.2]
      exact distinct_iff.1 hd1
    have hsame : ∀ c ∈ makePeers false net.opens s.urls.length urls, ∀ p ∈ aged s inactive,
        c.sameUrl p = true → endpointOf (s.urls ++ urls) p = endpointOf (s.urls ++ urls) c := by
      intro c hc p hp h
      obtain ⟨u, hu, hurl, hstr, -⟩ := mem_makePeers hc
      exact (hk2 p hp).endpoint_of_same ⟨u, hurl, hstr, hproper u hu⟩ h
    refine wp_mono (@PeerList.retryPeers_stays _ _ s1.list partition _ hd2 hsame)
      (fun _ l hl => ?_) fun e l hl => ?_
    · obtain ⟨hopens, hpeers⟩ := hl
      refine after_retried hk hd (by simpa using hstop) hreply (fun u hu => ?_) hpeers
      obtain ⟨c, hc, -, hcopens, -⟩ := @mem_urls_makePeers urls s.urls false net.opens u hu
      exact hcopens ▸ hopens c hc
    · rcases hl with hundef | ⟨⟨c, hc, hopens⟩, arranged, hperm, hsub⟩
      · exact .inl hundef
      · obtain ⟨u, hu, -, -, hcopens⟩ := mem_makePeers hc
        exact .inr (@after_of_sublist ⟨s1.list, s.urls ++ urls⟩ s _ l arranged hk2
          (distinct_iff.2 hd2) (clear_of_closed hreply hu (hcopens ▸ hopens)) hperm hsub)

theorem handle_after (e : Event) (hk : Known s) (hd : Distinct s) :
    wp (handle e) s (fun _ => After s e) fun x s' =>
      (∃ what, x = .undefined what) ∨ After s e s' := by
  cases e with
  | start net reply =>
    exact wp_mono (start_after net reply hk hd) (fun _ _ h => h) fun _ _ h => .inr h
  | retryPeers net partition stopped inactive reply =>
    exact retryPeers_after net partition stopped inactive reply hk hd
  | accepted ip port =>
    exact wp_mono (accept_after ip port hk hd) (fun _ _ h => h) fun _ _ h => .inr h
  | disconnected ref =>
    exact wp_mono (disconnected_after ref hk hd) (fun _ _ h => h) fun _ _ h => h.elim
  | retryPieces shuffle =>
    exact wp_mono (retryPieces_after shuffle hk hd) (fun _ _ h => h) fun _ _ h => h.elim

/-- Peers that are distinct stay so in an event exactly when it is clear. -/
theorem step_after {e : Event} (hk : Known s) (hd : Distinct s) (h : step s e = some s') :
    After s e s' := by
  have hafter := handle_after e hk hd
  unfold step at h
  cases hm : handle e s with
  | ok u t =>
    rw [hm] at h
    obtain rfl := Option.some.inj h
    exact wp_ok (Q := fun _ => After s e) hafter hm
  | error x t =>
    rw [hm] at h
    rcases wp_error hafter hm with ⟨what, rfl⟩ | hx
    · cases h
    · have ht : t = s' := by
        cases x
        case undefined => cases h
        all_goals exact Option.some.inj h
      exact ht ▸ hx

end

/-- In all states on the way the peers are distinct exactly when every event is clear in the state
it meets. -/
theorem distinct_run_iff (es : List Event) :
    (∀ pre s, pre <+: es → Run (fun s e s' => step s e = some s') {} pre s → Distinct s) ↔
      ∀ pre e s s', pre ++ [e] <+: es → Run (fun s e s' => step s e = some s') {} pre s →
        step s e = some s' → e.Clear s :=
  Run.inv_iff (fun _ _ _ hk hd h => step_after hk hd h) (fun _ hp => absurd hp List.not_mem_nil)
    .nil

instance (s : Swarm) : Decidable (Distinct s) := inferInstanceAs (Decidable (List.Pairwise _ _))

/-- No reverse lookups. -/
def plainNetwork : Network where
  resolveUrls := false
  lookup _ := .ok none
  plain _ _ h := nomatch h
  isV6 _ := false
  isLocalHost _ := false
  listeningPort := 6881
  opens _ := true

/-- The compact reply to the first request lists one endpoint twice. -/
theorem distinct_fails : ¬∀ es s, Run (fun s e s' => step s e = some s') {} es s → Distinct s := by
  intro hall
  have hcheck : (step {} (.start plainNetwork
      (.http (.str [1, 2, 3, 4, 0, 80, 1, 2, 3, 4, 0, 80])))).any (fun s => !decide (Distinct s)) =
      true := by decide +kernel
  obtain ⟨s, hs, hsame⟩ := Option.any_eq_true _ _ |>.1 hcheck
  have hd := hall _ s (.single hs)
  simp [hd] at hsame

/-- An accepted connection from the endpoint of a compact peer has another URL string. -/
example : (Url.parseBinary [1, 2, 3, 4, 0, 80]).map Url.endpoint =
      (acceptedUrl (ascii "1.2.3.4".toList) 80).map Url.endpoint ∧
    (Url.parseBinary [1, 2, 3, 4, 0, 80]).map Url.str ≠
      (acceptedUrl (ascii "1.2.3.4".toList) 80).map Url.str := by
  decide +kernel

end Swarm

end Zit
