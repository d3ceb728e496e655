import Zit.Lib.Chunks
import Zit.Proof.Numeric
import Zit.Proof.Swarm
import Zit.Proof.Tracker

/-!
# Compact peer lists

A list of peers in six bytes each means the same in the reply of a HTTP tracker and in that of an
UDP tracker, although the one goes through the constructor for a binary URL and the other through
signed integers and the text of a URL (`compact_same`).
-/

set_option autoImplicit false

namespace Zit.Compact

open Lib Lib.Decimal Trackers

/-- `a.b.c.d` -/
def quad (a b c d : UInt8) : Bytes :=
  digits a.toNat ++ 46 :: digits b.toNat ++ 46 :: digits c.toNat ++ 46 :: digits d.toNat

/-- What six bytes mean. -/
def peer : Bytes → Option (Bytes × Option UInt16)
  | [a, b, c, d, e, f] => some (quad a b c d, some (UInt16.ofNat (256 * e.toNat + f.toNat)))
  | _ => none

/-- The peers of a block, in order, but not the client itself. -/
def peers (listeningPort : UInt16) (block : Bytes) : List (Bytes × Option UInt16) :=
  ((chunks 6 block).filterMap peer).filter (· ≠ (quad 127 0 0 1, some listeningPort))

/-- `from_big_endian<int32_t>` and the shifts of a negative number give the same address. -/
def peerUrl (response : Bytes) (i : UInt64) : Except Exn Url := do
  let ip ← Numeric.fromBigEndian .i32 response (20 + i * 6)
  let port ← Numeric.fromBigEndian .u16 response (20 + i * 6 + 4)
  let byte (k : Nat) := digits (Numeric.WireTy.i32.byteAt ip k).toNat
  let ipStr := byte 24 ++ 46 :: byte 16 ++ 46 :: byte 8 ++ 46 :: byte 0
  Url.parse (ascii "http://".toList ++ ipStr ++ 58 :: digits port.toNat)

theorem not_mem_quad {x : UInt8} (a b c d : UInt8) (hx : isDigit x = false) (hdot : x ≠ 46) :
    x ∉ quad a b c d := by
  have hn : ∀ n, x ∉ digits n := fun n => Url.not_mem_digits n hx
  simp [quad, hn, hdot]

/-- The text of a host and a port is parsed back. -/
theorem parse_http {host : Bytes} (port : UInt16) (hslash : 47 ∉ host) (hline : 10 ∉ host) :
    Url.parse (ascii "http://".toList ++ host ++ 58 :: digits port.toNat) =
      .ok ⟨ascii "http".toList, host, [47], some port⟩ := by
  have hscheme : [ascii "udp".toList, ascii "https".toList, ascii "http".toList].find?
      (fun scheme => (scheme ++ ascii "://".toList).isPrefixOf
        (ascii "http://".toList ++ host ++ 58 :: digits port.toNat)) =
      some (ascii "http".toList) := rfl
  have hdigits : ∀ x, isDigit x = false → x ∉ digits port.toNat := fun x hx =>
    Url.not_mem_digits _ hx
  have hauthority : ∀ x ∈ host ++ 58 :: digits port.toNat, (x != 47) = true := by
    intro x hx
    rw [bne_iff_ne]
    rintro rfl
    rcases List.mem_append.1 hx with hx | hx
    · exact hslash hx
    · rcases List.mem_cons.1 hx with hx | hx
      · exact absurd hx (by decide)
      · exact hdigits 47 (by decide) hx
  have hvalid : 10 ∉ host ++ 58 :: digits port.toNat := by
    simp [hline, hdigits 10 (by decide)]
  have htake := List.takeWhile_eq_self_iff.2 hauthority
  have hdrop := List.dropWhile_eq_nil_iff.2 hauthority
  unfold Url.parse
  rw [hscheme]
  dsimp only
  rw [show (ascii "http://".toList ++ host ++ 58 :: digits port.toNat).drop
      ((ascii "http".toList).length + 3) = host ++ 58 :: digits port.toNat by
    rw [List.append_assoc]; rfl]
  unfold Url.parseRest
  dsimp only
  rw [htake, hdrop, if_neg (by simp [hvalid]), Url.splitPort_port]
  rfl

section
variable {a b c d e f : UInt8}

/-- The number of four bytes is taken apart again by its shifts. -/
theorem shifts_ofBytes {ip : UInt32} (h : ip.toNat = BigEndian.ofBytes [a, b, c, d]) :
    ((ip >>> 24) &&& 0xFF).toNat = a.toNat ∧ ((ip >>> 16) &&& 0xFF).toNat = b.toNat ∧
    ((ip >>> 8) &&& 0xFF).toNat = c.toNat ∧ ((ip >>> 0) &&& 0xFF).toNat = d.toNat := by
  have ha := a.toNat_lt
  have hb := b.toNat_lt
  have hc := c.toNat_lt
  have hd := d.toNat_lt
  have hff : ∀ n : Nat, n &&& 255 = n % 256 := fun n => Nat.and_two_pow_sub_one_eq_mod n 8
  simp only [BigEndian.ofBytes, List.foldl_cons, List.foldl_nil] at h
  simp [hff, Nat.shiftRight_eq_div_pow]
  omega

theorem ofBigEndian_two {buf : Bytes} {o : Nat} (h : (buf.drop o).take 2 = [e, f]) :
    ofBigEndian 2 buf o = .ok (e.toNat * 256 + f.toNat) := by
  have hlen : o + 2 ≤ buf.length := by
    have := congrArg List.length h
    simp at this
    omega
  rw [ofBigEndian, if_neg (by omega), h]
  simp

theorem slice_four {buf : Bytes} {o : Nat} (h : (buf.drop o).take 6 = [a, b, c, d, e, f]) :
    (buf.drop o).take 4 = [a, b, c, d] ∧ (buf.drop (o + 4)).take 2 = [e, f] ∧
      o + 6 ≤ buf.length := by
  refine ⟨?_, ?_, ?_⟩
  · rw [show (buf.drop o).take 4 = ((buf.drop o).take 6).take 4 by rw [List.take_take]; rfl, h]
    rfl
  · rw [← List.drop_drop, show ((buf.drop o).drop 4).take 2 = ((buf.drop o).take 6).drop 4 by
      rw [List.drop_take], h]
    rfl
  · have := congrArg List.length h
    simp at this
    omega

/-- The URL of a group in a response. -/
theorem peerUrl_group {response : Bytes} {i : Nat} (hlen : response.length < 2 ^ 64)
    (h : (response.drop (20 + i * 6)).take 6 = [a, b, c, d, e, f]) :
    Trackers.peerUrl response i = .ok ⟨ascii "http".toList, quad a b c d, [47],
      some (UInt16.ofNat (256 * e.toNat + f.toNat))⟩ := by
  obtain ⟨h4, h2, hfit⟩ := slice_four h
  have he := e.toNat_lt
  have hf := f.toNat_lt
  have hoffset : (UInt64.ofNat (20 + i * 6)).toNat = 20 + i * 6 := by
    rw [UInt64.toNat_ofNat', Nat.mod_eq_of_lt (by omega)]
  have hbytes : BigEndian.ofBytes [a, b, c, d] < 2 ^ 32 :=
    Nat.lt_of_lt_of_le (BigEndian.ofBytes_lt _) (by simp)
  obtain ⟨ip, hread, hip⟩ : ∃ ip, fromBigEndian response (20 + i * 6) = .ok ip ∧
      ip.toNat = BigEndian.ofBytes [a, b, c, d] := by
    rw [← hoffset, Numeric.fromBigEndian_u32 _ hlen, Numeric.fromBigEndian_eq hlen (by
      rw [hoffset]
      show 20 + i * 6 + 4 ≤ response.length
      omega), hoffset, show (Numeric.WireTy.u32).size = 4 from rfl, h4]
    refine ⟨_, rfl, ?_⟩
    show (BitVec.ofNat 32 _).toNat = _
    rw [BitVec.toNat_ofNat, Nat.mod_eq_of_lt hbytes]
  obtain ⟨h24, h16, h8, h0⟩ := shifts_ofBytes hip
  have hport : UInt16.ofNat (e.toNat * 256 + f.toNat) = UInt16.ofNat (256 * e.toNat + f.toNat) := by
    rw [Nat.mul_comm]
  have hnat : e.toNat * 256 + f.toNat = (UInt16.ofNat (256 * e.toNat + f.toNat)).toNat := by
    rw [UInt16.toNat_ofNat', Nat.mod_eq_of_lt (by omega)]
    omega
  simp only [Trackers.peerUrl, hread, ofBigEndian_two h2, bind, Except.bind, h24, h16, h8, h0]
  rw [hnat]
  exact parse_http _ (not_mem_quad a b c d (by decide) (by decide))
    (not_mem_quad a b c d (by decide) (by decide))

end

/-! ## Both lists -/

/-- The URL is that of the group. -/
def Means (g : Bytes) (u : Url) : Prop :=
  peer g = some u.endpoint ∧ ∃ a b c d, u.host = quad a b c d

theorem exists_six {g : Bytes} (h : g.length = 6) : ∃ a b c d e f, g = [a, b, c, d, e, f] := by
  rcases g with _ | ⟨a, _ | ⟨b, _ | ⟨c, _ | ⟨d, _ | ⟨e, _ | ⟨f, _ | ⟨x, g⟩⟩⟩⟩⟩⟩⟩ <;> simp at h
  exact ⟨a, b, c, d, e, f, rfl⟩

theorem parseBinary_means {g : Bytes} (h : g.length = 6) :
    ∃ u, Url.parseBinary g = .ok u ∧ Means g u := by
  obtain ⟨a, b, c, d, e, f, rfl⟩ := exists_six h
  exact ⟨_, rfl, by rw [Nat.mul_comm]; rfl, a, b, c, d, rfl⟩

/-- Without the client itself the endpoints are those of the groups. -/
theorem endpoints_of_means {gs : List Bytes} {us : List Url} (h : List.Forall₂ Means gs us)
    {keep : Url → Bool} {port : UInt16}
    (hkeep : ∀ u, (∃ a b c d, u.host = quad a b c d) →
      (keep u = true ↔ u.endpoint ≠ (quad 127 0 0 1, some port))) :
    (us.filter keep).map Url.endpoint =
      (gs.filterMap peer).filter (· ≠ (quad 127 0 0 1, some port)) := by
  induction h with
  | nil => rfl
  | @cons g u gs us hu _ ih =>
    rw [List.filterMap_cons_some hu.1]
    by_cases hk : keep u = true
    · rw [List.filter_cons_of_pos hk, List.filter_cons_of_pos (by simpa using (hkeep u hu.2).1 hk),
        List.map_cons, ih]
    · rw [List.filter_cons_of_neg hk, List.filter_cons_of_neg (by
        simpa using fun hne => hk ((hkeep u hu.2).2 hne)), ih]

/-- The client itself. -/
theorem own_iff (host : Bytes) (port : Option UInt16) (own : UInt16) :
    (host = ascii "127.0.0.1".toList ∧ port = some own) ↔
      (host, port) = (quad 127 0 0 1, some own) := by
  rw [show quad 127 0 0 1 = ascii "127.0.0.1".toList by decide, Prod.mk.injEq]

theorem readPeersBinaryForm_peers {net : Network} {block : Bytes} (hne : block ≠ [])
    (hsix : 6 ∣ block.length) (hresolve : net.resolveUrls = false)
    (hv6 : ∀ a b c d, net.isV6 (quad a b c d) = false) :
    ∃ urls, readPeersBinaryForm net (.str block) = .ok urls ∧
      urls.map Url.endpoint = peers net.listeningPort block := by
  have hmake : ∀ g ∈ chunks 6 block, ∃ u, Url.make net g true = .ok u ∧ Means g u := by
    intro g hg
    obtain ⟨u, hu, hmeans⟩ := parseBinary_means (length_of_mem_chunks (by decide) hsix hg)
    exact ⟨u, by simp only [Url.make, if_true, hu, hresolve]; rfl, hmeans⟩
  obtain ⟨us, hus, hmeans⟩ := mapM_exists hmake
  rw [chunks, List.mapM_map] at hus
  refine ⟨us.filter fun purl => !net.isV6 purl.host && !purl.isLocal net, ?_, ?_⟩
  · unfold readPeersBinaryForm
    simp only [Element.toStr, bind, Except.bind]
    rw [if_neg hne]
    simp only [Function.comp_def] at hus
    rw [show block.length + 5 = block.length + 6 - 1 from rfl, hus]
    rfl
  · refine endpoints_of_means hmeans fun u hu => ?_
    obtain ⟨a, b, c, d, hhost⟩ := hu
    rw [hhost, hv6, Bool.not_false, Bool.true_and, Bool.not_eq_true', ← Bool.not_eq_true]
    refine not_congr (Iff.trans ?_ (own_iff _ _ _))
    rw [Url.isLocal, Bool.and_eq_true, beq_iff_eq, beq_iff_eq]

theorem readPeers_peers {c : Call} {response : Bytes}
    (torrent : Nat) (t : TorrentView) (hlen : response.length < 2 ^ 64)
    (hresolve : ∀ u, c.resolve u = u) {is : List Nat}
    (his : ∀ i ∈ is, ((response.drop (20 + i * 6)).take 6).length = 6) :
    ∃ ps, readPeers c torrent t response is = .ok ps ∧ ps.map (·.url.endpoint) =
      ((is.map fun i => (response.drop (20 + i * 6)).take 6).filterMap peer).filter
        (· ≠ (quad 127 0 0 1, some t.listeningPort)) := by
  induction is with
  | nil => exact ⟨[], rfl, rfl⟩
  | cons i is ih =>
    obtain ⟨ps, hps, hpeers⟩ := ih fun i hi => his i (List.mem_cons_of_mem _ hi)
    obtain ⟨a, b, c', d, e, f, hg⟩ := exists_six (his i List.mem_cons_self)
    have hown := own_iff (quad a b c' d) (some (UInt16.ofNat (256 * e.toNat + f.toNat)))
      t.listeningPort
    have hpeer : peer [a, b, c', d, e, f] =
      some (quad a b c' d, some (UInt16.ofNat (256 * e.toNat + f.toNat))) := rfl
    simp only [readPeers, peerUrl_group hlen hg, hps, bind, Except.bind, hresolve, pure,
      Except.pure, List.map_cons, hg]
    rw [List.filterMap_cons_some hpeer]
    refine ⟨_, rfl, ?_⟩
    by_cases h : (quad a b c' d, some (UInt16.ofNat (256 * e.toNat + f.toNat))) =
        (quad 127 0 0 1, some t.listeningPort)
    · rw [if_pos (hown.2 h), List.filter_cons_of_neg (by simpa using h), hpeers]
    · rw [if_neg (fun hl => h (hown.1 hl)), 
        List.filter_cons_of_pos (by simpa only [decide_eq_true_eq] using h), List.map_cons, hpeers]
      rfl

section
variable {buf : Bytes} {n o : Nat}

theorem ofBigEndian_ok (h : o + n ≤ buf.length) : ∃ v, ofBigEndian n buf o = .ok v := by
  rw [ofBigEndian, if_neg (by omega)]
  exact ⟨_, rfl⟩

theorem ofBigEndian_bigEndian (p q : Bytes) (v : Nat) :
    ofBigEndian n (p ++ bigEndian n v ++ q) p.length = .ok (v % 2 ^ (8 * n)) := by
  have hfit : ¬p.length + n > (p ++ bigEndian n v ++ q).length := by
    simp only [List.length_append, bigEndian_length]
    omega
  have hslice : ((p ++ bigEndian n v ++ q).drop p.length).take n = bigEndian n v :=
    take_drop_append rfl (bigEndian_length n v)
  rw [ofBigEndian, if_neg hfit, hslice]
  exact congrArg Except.ok (Numeric.ofBytes_bigEndian n v)

end

/-- The response to an announce request: the action, the transaction id, three numbers and a block
of peers. -/
def response (transactionId : Nat) (numbers block : Bytes) : Bytes :=
  bigEndian 4 1 ++ bigEndian 4 transactionId ++ numbers ++ block

theorem readResponse_peers {c : Call} {torrent transactionId : Nat} {t : TorrentView}
    {numbers block : Bytes} (hnumbers : numbers.length = 12) (hsix : 6 ∣ block.length)
    (hsize : 20 + block.length < 2 ^ 64) (hresolve : ∀ u, c.resolve u = u)
    (hevent : c.event = .unspecified ∨ c.event = .started)
    (hwanted : t.initiatePeerConnections = true ∨ t.done = false) :
    ∃ ps, readResponse c torrent t transactionId (response transactionId numbers block) =
        .ok (true, ps) ∧
      ps.map (·.url.endpoint) = peers t.listeningPort block := by
  have hlen : (response transactionId numbers block).length = 20 + block.length := by
    simp only [response, List.length_append, bigEndian_length, hnumbers]
  have haction : ofBigEndian 4 (response transactionId numbers block) 0 = .ok 1 := by
    have h := ofBigEndian_bigEndian (n := 4) [] (bigEndian 4 transactionId ++ numbers ++ block) 1
    simpa [response] using h
  have hid : ofBigEndian 4 (response transactionId numbers block) 4 =
      .ok (transactionId % 2 ^ 32) := by
    have h := ofBigEndian_bigEndian (n := 4) (bigEndian 4 1) (numbers ++ block) transactionId
    rw [bigEndian_length] at h
    simpa [response] using h
  have hnumber : ∀ o, o + 4 ≤ 20 →
      ∃ v, ofBigEndian 4 (response transactionId numbers block) o = .ok v := fun o ho =>
    ofBigEndian_ok (by omega)
  obtain ⟨v8, h8⟩ := hnumber 8 (by decide)
  obtain ⟨v12, h12⟩ := hnumber 12 (by decide)
  obtain ⟨v16, h16⟩ := hnumber 16 (by decide)
  have hdrop : ∀ i, (response transactionId numbers block).drop (20 + i) = block.drop i := by
    intro i
    rw [response, ← List.drop_drop, List.drop_left' (by simp [hnumbers])]
  have hcount : ((response transactionId numbers block).length - 20) / 6 =
      (block.length + 6 - 1) / 6 := by
    rw [hlen]
    omega
  have hgroups : (List.range (((response transactionId numbers block).length - 20) / 6)).map
      (fun i => ((response transactionId numbers block).drop (20 + i * 6)).take 6) =
      chunks 6 block := by
    simp only [hdrop, hcount, chunks]
  have hsix' : ∀ i ∈ List.range (((response transactionId numbers block).length - 20) / 6),
      (((response transactionId numbers block).drop (20 + i * 6)).take 6).length = 6 := by
    intro i hi
    refine length_of_mem_chunks (by decide) hsix ?_
    rw [← hgroups]
    exact List.mem_map_of_mem hi
  obtain ⟨ps, hps, hpeers⟩ := readPeers_peers torrent t (hlen.trans_lt hsize) hresolve hsix'
  refine ⟨ps, ?_, by rw [hpeers, hgroups]; rfl⟩
  have hskip : ¬(!t.initiatePeerConnections && t.done) = true := by
    rcases hwanted with h | h <;> simp [h]
  unfold readResponse
  simp only [haction, hid, h8, h12, h16, hps, toUdpAction, bind, Except.bind, if_pos hevent,
    if_neg hskip]
  simp
  rfl

/-- A block of compact peers is read as the same endpoints from a HTTP reply and from an UDP
response: its groups, in order, without the client itself. -/
theorem compact_same {net : Network} {c : Call} {torrent transactionId k : Nat} {t : TorrentView}
    {numbers block : Bytes} (hk : 1 ≤ k) (hblock : block.length = 6 * k)
    (hsize : 20 + block.length < 2 ^ 64) (hnumbers : numbers.length = 12)
    (hresolve : net.resolveUrls = false) (hresolve' : ∀ u, c.resolve u = u)
    (hv6 : ∀ a b c d, net.isV6 (quad a b c d) = false)
    (hport : net.listeningPort = t.listeningPort)
    (hevent : c.event = .unspecified ∨ c.event = .started)
    (hwanted : t.initiatePeerConnections = true ∨ t.done = false) :
    ∃ urls ps, readPeersBinaryForm net (.str block) = .ok urls ∧
      readResponse c torrent t transactionId (response transactionId numbers block) =
        .ok (true, ps) ∧
      urls.map Url.endpoint = ps.map (·.url.endpoint) ∧
      urls.map Url.endpoint = peers t.listeningPort block := by
  have hsix : 6 ∣ block.length := ⟨k, hblock⟩
  have hne : block ≠ [] := by
    rintro rfl
    simp at hblock
    omega
  obtain ⟨urls, hurls, hhttp⟩ := readPeersBinaryForm_peers hne hsix hresolve hv6
  obtain ⟨ps, hps, hudp⟩ := readResponse_peers hnumbers hsix hsize hresolve' hevent hwanted
  rw [hport] at hhttp
  exact ⟨urls, ps, hurls, hps, hhttp.trans hudp.symm, hhttp⟩

/-- Two peers, the second one being the client. -/
def twoPeers : Bytes := [1, 2, 3, 4, 0, 80, 127, 0, 0, 1, 78, 33]

def ownNetwork : Network := { Swarm.plainNetwork with listeningPort := 20001 }

theorem compact_same_two :
    ∃ urls ps, readPeersBinaryForm ownNetwork (.str twoPeers) = .ok urls ∧
      readResponse (torrentCall 0 []) 0 (torrentView 0) 7
        (response 7 (List.replicate 12 0) twoPeers) = .ok (true, ps) ∧
      urls.map Url.endpoint = ps.map (·.url.endpoint) ∧
      urls.map Url.endpoint = peers 20001 twoPeers :=
  compact_same (k := 2) (t := torrentView 0) (by decide) rfl (by decide) rfl rfl (fun _ => rfl)
    (fun _ _ _ _ => rfl) rfl (.inr rfl) (.inl rfl)

example : peers 20001 twoPeers = [(quad 1 2 3 4, some 80)] := by decide

end Zit.Compact
