import Zit.Lib.Fallible
import Zit.Lib.Run
import Zit.Tracker

/-!
# Whose announces are sent

The map of the UDP requests gives a URL to the torrent that asked for it first, for ever. `Owned`
ties the packets that have been sent and the peers that have been returned to that torrent; every
call keeps it (`Owned.step`). So an announce packet carries the values of the torrent that
makes it, and the peers are bound to it, exactly when that torrent was the first one to ask for the
URL (`announces_first`).
-/

set_option autoImplicit false

namespace Zit

open Lib

/-- The packet has the info hash, `downloaded` and `left` of the torrent that made the call. -/
structure UdpPacket.Carries (s : UdpPacket) : Prop where
  infoHash : (s.packet.drop 16).take 20 = s.view.infoHash.bytes
  downloaded : (s.packet.drop 56).take 8 = bigEndian 8 s.view.downloaded
  left : (s.packet.drop 64).take 8 = bigEndian 8 s.view.left

namespace Trackers

/-- A call on the torrents with these info hashes, with the tiers in some order. A torrent whose
info hash another one has is not constructed. -/
structure Valid (hash : Nat → Sha1) (c : Call) : Prop where
  views : ∀ i, (c.views i).infoHash = hash i
  unique : ∀ i, hash i = hash c.caller → i = c.caller
  tiers : List.Forall₂ List.Perm c.tiers (c.views c.caller).localAnnounceList

/-- The call returns or throws. -/
def Step (hash : Nat → Sha1) (w : Trackers) (c : Call) (w' : Trackers) : Prop :=
  Valid hash c ∧ w' = final (trackerRequest c) w

/-- The first torrent that asked for the URL. -/
def FirstAsked (asked : List (Url × Nat)) (url : Url) (torrent : Nat) : Prop :=
  asked.lookup url = some torrent

/-- An announce packet is one of the first torrent that asked for its URL. -/
structure SentBy (asked : List (Url × Nat)) (s : UdpPacket) (owner : Nat) : Prop where
  first : FirstAsked asked s.url owner
  carries : s.Carries ↔ owner = s.caller

/-- Peers are bound to the first torrent that asked for the URL, or without one to the caller. -/
def Bound (asked : List (Url × Nat)) (caller : Nat) (via : Option Url)
    (peers : List TrackerPeer) : Prop :=
  ∃ owner, (∀ p ∈ peers, p.torrent = owner) ∧
    match via with
    | none => owner = caller
    | some url => FirstAsked asked url owner

structure Owned (w : Trackers) : Prop where
  requests : ∀ url, w.asked.lookup url = (w.requests.lookup url).map (·.torrent)
  sent : ∀ s ∈ w.sent, s.announce = true → ∃ owner, SentBy w.asked s owner
  answers : ∀ a ∈ w.answers, Bound w.asked a.caller a.via a.peers

/-- More URLs have been asked for. -/
def Grows (asked asked' : List (Url × Nat)) : Prop :=
  ∀ url owner, asked.lookup url = some owner → asked'.lookup url = some owner

section
variable {hash : Nat → Sha1} {c : Call} {w : Trackers} {url : Url} {r : UDPTrackerRequest}

theorem Bound.mono {asked asked' : List (Url × Nat)} {caller : Nat} {via : Option Url}
    {peers : List TrackerPeer} (h : Bound asked caller via peers) (hg : Grows asked asked') :
    Bound asked' caller via peers := by
  obtain ⟨owner, hpeers, hvia⟩ := h
  refine ⟨owner, hpeers, ?_⟩
  cases via with
  | none => exact hvia
  | some url => exact hg _ _ hvia

/-! ## Packets -/

theorem take_drop_append {a b d : Bytes} {n k : Nat} (ha : a.length = n) (hb : b.length = k) :
    ((a ++ b ++ d).drop n).take k = b := by
  rw [List.append_assoc, ← ha, List.drop_left, ← hb, List.take_left]

/-- The fields of an announce request. -/
theorem announceRequest_fields (connectionId transactionId key : Nat) (t : TorrentView)
    (event : TrackerEvent) :
    ((announceRequest connectionId transactionId key t event).drop 16).take 20 = t.infoHash.bytes ∧
    ((announceRequest connectionId transactionId key t event).drop 56).take 8 =
      bigEndian 8 t.downloaded ∧
    ((announceRequest connectionId transactionId key t event).drop 64).take 8 =
      bigEndian 8 t.left := by
  have h1 := t.infoHash.size
  have h2 := t.peerId_length
  refine ⟨?_, ?_, ?_⟩
  · have h : announceRequest connectionId transactionId key t event =
        (bigEndian 8 connectionId ++ bigEndian 4 UdpAction.announce.toInt ++
          bigEndian 4 transactionId) ++ t.infoHash.bytes ++ (t.peerId ++ bigEndian 8 t.downloaded ++
          bigEndian 8 t.left ++ bigEndian 8 0 ++ bigEndian 4 event.toInt ++ bigEndian 4 0 ++
          bigEndian 4 key ++ bigEndian 4 50 ++ bigEndian 2 t.listeningPort.toNat ++
          bigEndian 2 0) := by
      simp only [announceRequest, List.append_assoc]
    rw [h, take_drop_append (by simp) h1]
  · have h : announceRequest connectionId transactionId key t event =
        (bigEndian 8 connectionId ++ bigEndian 4 UdpAction.announce.toInt ++
          bigEndian 4 transactionId ++ t.infoHash.bytes ++ t.peerId) ++ bigEndian 8 t.downloaded ++
          (bigEndian 8 t.left ++ bigEndian 8 0 ++ bigEndian 4 event.toInt ++ bigEndian 4 0 ++
          bigEndian 4 key ++ bigEndian 4 50 ++ bigEndian 2 t.listeningPort.toNat ++
          bigEndian 2 0) := by
      simp only [announceRequest, List.append_assoc]
    rw [h, take_drop_append (by simp [h1, h2]) (by simp)]
  · have h : announceRequest connectionId transactionId key t event =
        (bigEndian 8 connectionId ++ bigEndian 4 UdpAction.announce.toInt ++
          bigEndian 4 transactionId ++ t.infoHash.bytes ++ t.peerId ++ bigEndian 8 t.downloaded) ++
          bigEndian 8 t.left ++ (bigEndian 8 0 ++ bigEndian 4 event.toInt ++ bigEndian 4 0 ++
          bigEndian 4 key ++ bigEndian 4 50 ++ bigEndian 2 t.listeningPort.toNat ++
          bigEndian 2 0) := by
      simp only [announceRequest, List.append_assoc]
    rw [h, take_drop_append (by simp [h1, h2]) (by simp)]

/-! ## One request -/

/-- What a computation that asks for no new URL does. -/
def Quiet (w w' : Trackers) : Prop := Owned w' ∧ w'.asked = w.asked

/-- A packet of the first torrent that asked for the URL. -/
def Legal (c : Call) (w : Trackers) (url : Url) (announce : Bool)
    (packet : Bytes) : Prop :=
  announce = true → ∃ owner, SentBy w.asked ⟨c.caller, c.views c.caller, url, announce, packet⟩
    owner

theorem random_spec (h : Owned w) : wp random w (fun _ w' => Quiet w w')
    fun _ _ => False := ⟨⟨h.requests, h.sent, h.answers⟩, rfl⟩

theorem liftStd_spec {α : Type} (x : Except Exn α) (h : Owned w) :
    wp (liftStd x) w (fun a w' => Quiet w w' ∧ x = .ok a) fun _ w' => Quiet w w' := by
  refine (wp_lift _).2 ⟨fun a ha => ⟨⟨h, rfl⟩, ?_⟩, fun _ _ => ⟨h, rfl⟩⟩
  cases x with
  | ok b =>
    cases ha
    rfl
  | error e => cases ha

theorem udpRequest_spec (h : Owned w) {announce : Bool} {packet : Bytes}
    (hl : Legal c w url announce packet) :
    wp (udpRequest c url announce packet) w (fun _ w' => Quiet w w')
      fun _ w' => Quiet w w' := by
  unfold udpRequest
  refine wp_ite (fun _ => ⟨h, rfl⟩) fun _ => wp_ite (fun _ => ⟨h, rfl⟩) fun _ => ?_
  simp only [wp_bind, wp_get, wp_set]
  have h' : Owned { w with
      replies := w.replies.tail
      sent := if (w.replies.head?.getD ⟨true, .ok []⟩).sent then
          w.sent ++ [⟨c.caller, c.views c.caller, url, announce, packet⟩] else w.sent } := by
    refine ⟨h.requests, fun s hs hannounce => ?_, h.answers⟩
    split at hs
    · rcases List.mem_append.1 hs with hs | hs
      · exact h.sent s hs hannounce
      · rw [List.mem_singleton.1 hs] at hannounce ⊢
        exact hl hannounce
    · exact h.sent s hs hannounce
  exact wp_mono (liftStd_spec _ h') (fun _ _ h => h.1) fun _ _ h => h

theorem Quiet.trans {w1 w2 : Trackers} (h : Quiet w w1) (h' : Quiet w1 w2) :
    Quiet w w2 := ⟨h'.1, h'.2.trans h.2⟩

theorem retryRequest_spec (h : Owned w) {announce : Bool} {packet : Bytes}
    (hl : Legal c w url announce packet) :
    wp (retryRequest c url announce packet) w (fun _ w' => Quiet w w')
      fun _ w' => Quiet w w' := by
  simp only [retryRequest, wp_bind]
  refine wp_mono (udpRequest_spec h hl) (fun response w1 h1 => ?_) fun _ _ h => h
  refine wp_ite (fun _ => h1) fun _ => ?_
  have hl' : Legal c w1 url announce packet := by
    unfold Legal
    rwa [h1.2]
  simp only [wp_bind]
  exact wp_mono (udpRequest_spec h1.1 hl') (fun _ _ h2 => h1.trans h2) fun _ _ h2 => h1.trans h2

theorem store_spec (h : Owned w) (hr : w.asked.lookup url = some r.torrent) :
    wp (store url r) w (fun _ w' => Quiet w w') fun _ _ => False := by
  refine ⟨⟨fun url' => ?_, h.sent, h.answers⟩, rfl⟩
  show w.asked.lookup url' = ((w.requests.insert url r).lookup url').map (·.torrent)
  by_cases hu : url' = url
  · rw [hu, AList.lookup_insert, hr]
    rfl
  · rw [AList.lookup_insert_ne hu, h.requests]

theorem connect_spec (h : Owned w) (hr : w.asked.lookup url = some r.torrent) :
    wp (connect c url r) w (fun x w' => Quiet w w' ∧ x.2.torrent = r.torrent)
      fun _ w' => Quiet w w' := by
  simp only [connect, wp_bind, wp_get]
  generalize hr' : (if w.now - r.lastConnectionId > 60 * 10 ^ 9 then
    { r with connectionId := none } else r) = r'
  have htorrent : r'.torrent = r.torrent := by
    rw [← hr']
    split <;> rfl
  rw [← htorrent] at hr
  refine wp_mono (store_spec h hr) (fun _ w1 h1 => ?_) fun _ _ h => h.elim
  refine wp_ite (fun _ => ⟨h1, htorrent⟩) fun _ => ?_
  simp only [wp_bind]
  refine wp_mono (random_spec h1.1) (fun transactionId w2 h2 => ?_) fun _ _ h => h.elim
  have h12 := h1.trans h2
  refine wp_mono (retryRequest_spec h2.1 (show Legal _ _ _ false _ from fun hf => by cases hf))
    (fun response w3 h3 => ?_) fun _ _ h => h12.trans h
  have h13 := h12.trans h3
  cases response with
  | none => exact ⟨h13, htorrent⟩
  | some response =>
    refine wp_ite (fun _ => ⟨h13, htorrent⟩) fun _ => ?_
    simp only [wp_bind]
    refine wp_mono (liftStd_spec _ h13.1) (fun action w4 h4 => ?_) fun _ _ h => h13.trans h
    have h14 := h13.trans h4.1
    refine wp_mono (liftStd_spec _ h14.1) (fun replyId w5 h5 => ?_) fun _ _ h => h14.trans h
    have h15 := h14.trans h5.1
    refine wp_ite (fun _ => ⟨h15, htorrent⟩) fun _ => wp_ite (fun _ => ⟨h15, htorrent⟩) fun _ => ?_
    simp only [wp_bind]
    refine wp_mono (liftStd_spec _ h15.1) (fun connectionId w6 h6 => ?_) fun _ _ h => h15.trans h
    have h16 := h15.trans h6.1
    have hr6 : w6.asked.lookup url = some r'.torrent := by
      rw [h16.2]
      exact hr
    refine wp_mono (store_spec h16.1 hr6) (fun _ w7 h7 => ?_) fun _ _ h => h.elim
    exact ⟨h16.trans h7, htorrent⟩

theorem readPeers_bound {torrent : Nat} {t : TorrentView} {response : Bytes} {is : List Nat}
    {peers : List TrackerPeer} (h : readPeers c torrent t response is = .ok peers) :
    ∀ p ∈ peers, p.torrent = torrent := by
  induction is generalizing peers with
  | nil =>
    cases h
    exact fun p hp => by cases hp
  | cons i is ih =>
    obtain ⟨purl, -, h⟩ := bind_eq_ok.1 h
    obtain ⟨rest, hrest, h⟩ := bind_eq_ok.1 h
    cases h
    intro p hp
    split at hp
    · exact ih hrest p hp
    · rcases List.mem_cons.1 hp with rfl | hp
      · rfl
      · exact ih hrest p hp

theorem readResponse_bound {torrent : Nat} {t : TorrentView} {transactionId : Nat}
    {response : Bytes} {x : Bool × List TrackerPeer}
    (h : readResponse c torrent t transactionId response = .ok x) :
    ∀ p ∈ x.2, p.torrent = torrent := by
  obtain ⟨action, -, h⟩ := bind_eq_ok.1 h
  obtain ⟨replyId, -, h⟩ := bind_eq_ok.1 h
  have hnone : ∀ p ∈ ([] : List TrackerPeer), p.torrent = torrent := fun p hp => by cases hp
  split at h
  · cases h
    exact hnone
  · split at h
    · cases h
      exact hnone
    · split at h
      · split at h
        · cases h
          exact hnone
        · obtain ⟨_, -, h⟩ := bind_eq_ok.1 h
          obtain ⟨_, -, h⟩ := bind_eq_ok.1 h
          obtain ⟨_, -, h⟩ := bind_eq_ok.1 h
          obtain ⟨peers, hpeers, h⟩ := bind_eq_ok.1 h
          cases h
          exact readPeers_bound hpeers
      · cases h
        exact hnone

theorem announce_spec (hv : Valid hash c) (h : Owned w)
    (hr : w.asked.lookup url = some r.torrent) :
    wp (announce c url r) w (fun x w' => Quiet w w' ∧ ∀ p ∈ x.2, p.torrent = r.torrent)
      fun _ w' => Quiet w w' := by
  have hnone : ∀ p ∈ ([] : List TrackerPeer), p.torrent = r.torrent := fun p hp => by cases hp
  simp only [announce, wp_bind]
  refine wp_mono (connect_spec h hr) (fun x w1 h1 => ?_) fun _ _ h => h
  obtain ⟨connected, r1⟩ := x
  obtain ⟨h1, htorrent⟩ := h1
  refine wp_ite (fun _ => ⟨h1, hnone⟩) fun _ => ?_
  cases hid : r1.connectionId with
  | none => exact h1
  | some connectionId =>
    simp only [wp_bind]
    refine wp_mono (random_spec h1.1) (fun transactionId w2 h2 => ?_) fun _ _ h => h.elim
    refine wp_mono (random_spec h2.1) (fun key w3 h3 => ?_) fun _ _ h => h.elim
    have h13 := (h1.trans h2).trans h3
    -- the values of the torrent the request is bound to, which asked first
    have hl : Legal c w3 url true
        (announceRequest connectionId transactionId key (c.views r1.torrent) c.event) := by
      intro _
      obtain ⟨hinfo, hdown, hleft⟩ :=
        announceRequest_fields connectionId transactionId key (c.views r1.torrent) c.event
      refine ⟨r1.torrent, ?_, fun hcarries => hv.unique _ ?_, fun ho => ⟨?_, ?_, ?_⟩⟩
      · rw [FirstAsked, h13.2, hr, htorrent]
      · have hbytes := hinfo.symm.trans hcarries.infoHash
        rw [← hv.views, ← hv.views c.caller]
        exact Sha1.ext hbytes
      · rw [hinfo, ho]
      · rw [hdown, ho]
      · rw [hleft, ho]
    refine wp_mono (retryRequest_spec h3.1 hl) (fun response w4 h4 => ?_) fun _ _ h => h13.trans h
    have h14 := h13.trans h4
    cases response with
    | none => exact ⟨h14, hnone⟩
    | some response =>
      refine wp_mono (liftStd_spec _ h14.1) (fun x w5 h5 => ?_) fun _ _ h => h14.trans h
      refine ⟨h14.trans h5.1, ?_⟩
      rw [← htorrent]
      exact readResponse_bound h5.2

/-! ## One call -/

/-- What a computation of a call does. -/
def Calls (w w' : Trackers) : Prop :=
  Owned w' ∧ Grows w.asked w'.asked

theorem Calls.trans {w1 w2 : Trackers} (h : Calls w w1) (h' : Calls w1 w2) :
    Calls w w2 := ⟨h'.1, fun url owner hu => h'.2 url owner (h.2 url owner hu)⟩

theorem Quiet.calls {w1 : Trackers} (h : Quiet w w1) : Calls w w1 := by
  refine ⟨h.1, fun url owner hu => ?_⟩
  rwa [h.2]

theorem udpTrackerRequest_spec (hv : Valid hash c) (h : Owned w) :
    wp (udpTrackerRequest c url) w
      (fun x w' => Calls w w' ∧ Bound w'.asked c.caller (some url) x.2)
      fun _ w' => Calls w w' := by
  simp only [udpTrackerRequest, wp_bind, wp_modify, wp_get, store]
  generalize hr : ((w.requests.lookup url).getD { torrent := c.caller }) = r
  have hgrows : Grows w.asked (w.asked ++ [(url, c.caller)]) := by
    intro url' owner hu
    rw [List.lookup_append, hu]
    rfl
  have hfirst : (w.asked ++ [(url, c.caller)]).lookup url = some r.torrent := by
    rw [List.lookup_append, h.requests, ← hr]
    cases w.requests.lookup url with
    | none => simp
    | some r => rfl
  have h1 : Owned { w with
      asked := w.asked ++ [(url, c.caller)], requests := w.requests.insert url r } := by
    refine ⟨fun url' => ?_, fun s hs hannounce => ?_, fun a ha => (h.answers a ha).mono hgrows⟩
    · by_cases hu : url' = url
      · rw [hu, AList.lookup_insert, hfirst]
        rfl
      · have hnone : [(url, c.caller)].lookup url' = none := by simp [hu]
        rw [AList.lookup_insert_ne hu, ← h.requests, List.lookup_append, hnone, Option.or_none]
    · obtain ⟨owner, hs⟩ := h.sent s hs hannounce
      exact ⟨owner, hgrows _ _ hs.first, hs.carries⟩
  have hcalls {w' : Trackers} (hq : Quiet { w with
      asked := w.asked ++ [(url, c.caller)], requests := w.requests.insert url r } w') :
      Calls w w' := Calls.trans ⟨h1, hgrows⟩ hq.calls
  refine wp_mono (announce_spec hv h1 hfirst) (fun x w2 h2 => ?_) fun _ w2 h2 => hcalls h2
  refine ⟨hcalls h2.1, r.torrent, h2.2, ?_⟩
  show w2.asked.lookup url = some r.torrent
  rw [h2.1.2, hfirst]

theorem httpTrackerRequest_spec (h : Owned w) :
    wp (httpTrackerRequest c) w
      (fun x w' => Calls w w' ∧ Bound w'.asked c.caller none x.2)
      fun _ w' => Calls w w' := by
  simp only [httpTrackerRequest, wp_bind, wp_get, wp_set]
  have h1 : Calls w { w with httpReplies := w.httpReplies.tail } :=
    Quiet.calls ⟨⟨h.requests, h.sent, h.answers⟩, rfl⟩
  split
  · refine ⟨h1, c.caller, fun p hp => ?_, rfl⟩
    obtain ⟨u, -, rfl⟩ := List.mem_map.1 hp
    rfl
  · exact h1
  · exact h1
  · exact h1

theorem doTrackerRequest_spec (hv : Valid hash c) (h : Owned w) {announceUrl : Bytes} :
    wp (doTrackerRequest c announceUrl) w
      (fun x w' => Calls w w' ∧ Bound w'.asked c.caller x.2.2 x.2.1)
      fun _ w' => Calls w w' := by
  simp only [doTrackerRequest, wp_bind]
  refine wp_mono (liftStd_spec _ h) (fun url w1 h1 => ?_) fun _ _ h1 => h1.calls
  have h1 := h1.1
  have hcalls {w' : Trackers} (h2 : Calls w1 w') : Calls w w' := h1.calls.trans h2
  refine wp_ite (fun _ => ?_) fun _ => wp_ite (fun _ => ?_) fun _ => h1.calls
  · rw [wp_bind]
    exact wp_mono (httpTrackerRequest_spec h1.1) (fun _ _ h2 => ⟨hcalls h2.1, h2.2⟩)
      fun _ _ h2 => hcalls h2
  · rw [wp_bind]
    exact wp_mono (udpTrackerRequest_spec hv h1.1) (fun _ _ h2 => ⟨hcalls h2.1, h2.2⟩)
      fun _ _ h2 => hcalls h2

theorem attempt_spec (hv : Valid hash c) (h : Owned w) {announceUrl : Bytes} :
    wp (attempt c announceUrl) w
      (fun x w' => Calls w w' ∧ ∀ y, x = .ok y → Bound w'.asked c.caller y.2.2 y.2.1)
      fun _ _ => False := by
  simp only [attempt, wp_tryCatch, wp_map, wp_pure]
  refine wp_mono (doTrackerRequest_spec hv h) (fun x w1 h1 => ⟨h1.1, fun y hy => ?_⟩)
    fun e w1 h1 => ⟨h1, fun y hy => ?_⟩
  · cases hy
    exact h1.2
  · cases hy

theorem tryTier_spec (hv : Valid hash c) (tier : List Bytes) (h : Owned w) {a : Attempt}
    (ha : Bound w.asked c.caller a.via a.peers) :
    wp (tryTier c tier a) w
      (fun a' w' => Calls w w' ∧ Bound w'.asked c.caller a'.via a'.peers)
      fun _ _ => False := by
  induction tier generalizing w a with
  | nil => exact ⟨⟨h, fun _ _ hu => hu⟩, ha⟩
  | cons announceUrl tier ih =>
    refine wp_ite (fun _ => ⟨⟨h, fun _ _ hu => hu⟩, ha⟩) fun _ => ?_
    rw [wp_bind]
    refine wp_mono (attempt_spec hv h) (fun x w1 h1 => ?_) fun _ _ hf => hf
    -- a request that throws leaves what the earlier ones returned
    have hnext {a1 : Attempt} (ha1 : Bound w.asked c.caller a1.via a1.peers) :
        wp (tryTier c tier a1) w1
          (fun a' w' => Calls w w' ∧ Bound w'.asked c.caller a'.via a'.peers)
          fun _ _ => False :=
      wp_mono (ih h1.1.1 (ha1.mono h1.1.2)) (fun _ _ h2 => ⟨h1.1.trans h2.1, h2.2⟩)
        fun _ _ hf => hf
    match x with
    | .ok (success, peers, via) => exact ⟨h1.1, h1.2 _ rfl⟩
    | .error .http => exact hnext ha
    | .error (.std e) => exact hnext ha

theorem tryTiers_spec (hv : Valid hash c) (tiers : List (List Bytes)) (h : Owned w)
    {a : Attempt} (ha : Bound w.asked c.caller a.via a.peers) :
    wp (tryTiers c tiers a) w
      (fun a' w' => Calls w w' ∧ Bound w'.asked c.caller a'.via a'.peers)
      fun _ _ => False := by
  induction tiers generalizing w a with
  | nil => exact ⟨⟨h, fun _ _ hu => hu⟩, ha⟩
  | cons tier tiers ih =>
    simp only [tryTiers, wp_bind]
    refine wp_mono (tryTier_spec hv tier h ha) (fun a1 w1 h1 => ?_) fun _ _ hf => hf
    obtain ⟨h1, ha1⟩ := h1
    refine wp_ite (fun _ => ⟨h1, ha1⟩) fun _ => ?_
    exact wp_mono (ih h1.1 ha1) (fun _ _ h2 => ⟨h1.trans h2.1, h2.2⟩) fun _ _ hf => hf

theorem trackerRequest_spec (hv : Valid hash c) (h : Owned w) :
    wp (trackerRequest c) w (fun _ w' => Owned w') fun _ w' => Owned w' := by
  simp only [trackerRequest, wp_bind, wp_modify]
  have h0 : Owned { w with
      replies := c.replies, httpReplies := c.httpReplies, randoms := c.randoms, now := c.now } :=
    ⟨h.requests, h.sent, h.answers⟩
  have hnone : Bound w.asked c.caller none [] := ⟨c.caller, by simp⟩
  refine wp_mono (tryTiers_spec hv c.tiers h0 hnone) (fun a w1 h1 => ?_) fun _ _ hf => hf.elim
  obtain ⟨⟨h1, -⟩, owner, hpeers, hvia⟩ := h1
  split
  · exact h1
  · rw [wp_bind, wp_modify]
    refine ⟨h1.requests, h1.sent, fun b hb => ?_⟩
    rcases List.mem_append.1 hb with hb | hb
    · exact h1.answers b hb
    · obtain rfl := List.mem_singleton.1 hb
      exact ⟨owner, fun p hp => hpeers p (List.mem_filter.1 hp).1, hvia⟩

end

/-! ## All calls -/

theorem Owned.step {hash : Nat → Sha1} {w w' : Trackers} {c : Call} (h : Owned w)
    (hs : Step hash w c w') : Owned w' := by
  obtain ⟨hv, rfl⟩ := hs
  exact final_of_wp (trackerRequest_spec hv h)

theorem Owned.run {hash : Nat → Sha1} {w : Trackers} {cs : List Call}
    (h : Run (Step hash) {} cs w) : Owned w := by
  refine h.inv (fun _ _ _ hw hs => hw.step hs) ⟨fun _ => rfl, fun s hs => ?_, fun a ha => ?_⟩
  · cases hs
  · cases ha

/-- In every run an announce carries the values of the torrent that makes it exactly when that
torrent was the first to ask for the URL, and so are the peers of a call bound. -/
theorem announces_first {hash : Nat → Sha1} {w : Trackers} {cs : List Call}
    (h : Run (Step hash) {} cs w) :
    (∀ s ∈ w.sent, s.announce = true → (s.Carries ↔ FirstAsked w.asked s.url s.caller)) ∧
    ∀ a ∈ w.answers, ∀ p ∈ a.peers,
      (p.torrent = a.caller ↔ ∀ url, a.via = some url → FirstAsked w.asked url a.caller) := by
  have howned := Owned.run h
  refine ⟨fun s hs hannounce => ?_, fun a ha p hp => ?_⟩
  · obtain ⟨owner, hfirst, hcarries⟩ := howned.sent s hs hannounce
    rw [hcarries, FirstAsked, hfirst, Option.some_inj]
  · obtain ⟨owner, hpeers, hvia⟩ := howned.answers a ha
    rw [hpeers p hp]
    match a.via, hvia with
    | none, hvia => simp [hvia]
    | some url, hvia => simp [FirstAsked, show w.asked.lookup url = some owner from hvia]

/-! ## Two torrents and one tracker -/

def trackerUrl : Bytes := ascii "udp://t:1".toList

def torrentHash (i : Nat) : Sha1 := ⟨List.replicate 20 (UInt8.ofNat (min i 2)), by simp⟩

def torrentView (i : Nat) : TorrentView where
  infoHash := torrentHash i
  peerId := List.replicate 20 0
  peerId_length := by simp
  downloaded := 0
  left := 16
  listeningPort := 20001
  done := false
  initiatePeerConnections := true
  stopped := false
  announce := trackerUrl
  announceList := []

/-- A call of torrent `i`, whose requests are answered with one peer. -/
def torrentCall (i : Nat) (replies : List Reply) : Call where
  caller := i
  views := torrentView
  event := .started
  tiers := [[trackerUrl]]
  resolve url := url
  isLocalHost _ := false
  replies := replies
  httpReplies := []
  randoms := [0, 0, 0]
  now := 0

def connectReply : Reply := ⟨true, .ok (List.replicate 16 0)⟩

def announceReply : Reply := ⟨true, .ok ([0, 0, 0, 1] ++ List.replicate 16 0 ++ [1, 2, 3, 4, 0, 80])⟩

theorem torrentCall_valid {i : Nat} (hi : i < 2) (replies : List Reply) :
    Valid torrentHash (torrentCall i replies) := by
  refine ⟨fun _ => rfl, fun j hj => ?_, .cons (.refl _) .nil⟩
  have hbytes : UInt8.ofNat (min j 2) = UInt8.ofNat (min i 2) := by
    simpa [torrentHash, torrentCall, List.replicate_inj] using hj
  have hmin := congrArg UInt8.toNat hbytes
  simp only [UInt8.toNat_ofNat'] at hmin
  show j = i
  omega

theorem announces_first_one : ∃ cs w, Run (Step torrentHash) {} cs w ∧
    w.sent.map (·.announce) = [false, true] ∧
    (∀ s ∈ w.sent, s.announce = true → (s.Carries ↔ FirstAsked w.asked s.url s.caller)) ∧
    ∀ a ∈ w.answers, ∀ p ∈ a.peers,
      (p.torrent = a.caller ↔ ∀ url, a.via = some url → FirstAsked w.asked url a.caller) := by
  have hrun : Run (Step torrentHash) {} [torrentCall 0 [connectReply, announceReply]] _ :=
    .single ⟨torrentCall_valid (by decide) _, rfl⟩
  exact ⟨_, _, hrun, by decide +kernel, announces_first hrun⟩

/-- The second torrent that uses a tracker announces the first one. -/
theorem announces_second : ¬∀ (hash : Nat → Sha1) (cs : List Call) (w : Trackers),
    Run (Step hash) {} cs w →
      (∀ s ∈ w.sent, s.announce = true → s.Carries) ∧
      ∀ a ∈ w.answers, ∀ p ∈ a.peers, p.torrent = a.caller := by
  intro hall
  have hrun : Run (Step torrentHash) {}
      [torrentCall 0 [connectReply, announceReply], torrentCall 1 [announceReply]] _ :=
    .cons ⟨torrentCall_valid (by decide) _, rfl⟩
      (.single ⟨torrentCall_valid (by decide) _, rfl⟩)
  obtain ⟨hsent, hanswers⟩ := hall _ _ _ hrun
  have hother : ∃ a ∈ (final (trackerRequest (torrentCall 1 [announceReply]))
      (final (trackerRequest (torrentCall 0 [connectReply, announceReply])) {})).answers,
      ∃ p ∈ a.peers, p.torrent ≠ a.caller := by decide +kernel
  obtain ⟨a, ha, p, hp, hne⟩ := hother
  exact hne (hanswers a ha p hp)

end Trackers

end Zit
