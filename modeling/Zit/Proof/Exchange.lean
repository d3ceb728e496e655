import Mathlib.Algebra.BigOperators.Ring.Finset
import Zit.Proof.ReadBack
import Zit.Proof.Upload

/-!
# Clients that run this code

`Talking` is what the leecher knows of a download whose seeders answer in messages: each one stands
where the messages to it say, and its replies are read in their order. A reply is an event of the
download (`Talking.reply`). Between the two ends of a connection there are bytes that have been
written and not read (`Exchanging`); however they are read after the greetings, what happens is a
download (`exchange_refines`), and when everything has been read it is over (`exchange_completes`).
-/

set_option autoImplicit false

namespace Zit

open Lib World

/-- What has been said to a seeder, the blocks it has been asked for, and how many of its messages
have been read. -/
structure Talk where
  said : List Msg
  asked : List Block
  got : Nat

/-- The talk with a seeder and our peer for it. -/
structure Line (t : Torrent) (pre : Bytes) (p : Peer) (todo : List BlockRequest) (awake : Prop)
    (x : Talk) : Prop where
  follows : ∃ s, Follows t .silent x.said x.asked s ∧ (p.amInterested = true ↔ s = .interested)
  sent : p.sent.flatten = pre ++ Msg.encodeAll x.said
  awake : awake ↔ 0 < x.got
  todo : todo = (x.asked.map (blockRequest t)).drop (x.got - 1)

/-- The leecher of a download that began with the blocks `u` missing. -/
structure Talking (sha1 : Bytes → Sha1) (t : Torrent) (content : Bytes) (c : Loc) (m : Nat)
    (pre : Nat → Bytes) (u : Finset Block) (d : Download) (a : Asking) (talk : Nat → Talk) : Prop
    where
  refines : Refines sha1 t content c m d a
  fair : (t.window m).Fair a
  line : ∀ i p, d.world.peers[i]? = some p →
    Line t (pre i) p (d.todo i) (i ∈ a.awake) (talk i)
  free : (t.window m).free a ⊆ u
  nodup : ∀ i < m, (talk i).asked.Nodup
  taken : ∀ i < m, ∀ b ∈ (talk i).asked, b ∈ u ∧ b ∉ (t.window m).free a
  apart : ∀ i < m, ∀ j < m, i ≠ j → (talk i).asked.Disjoint (talk j).asked

section
variable {sha1 : Bytes → Sha1} {t : Torrent} {content : Bytes} {c : Loc} {m i : Nat}
  {pre : Nat → Bytes} {u : Finset Block} {d d' : Download} {a a' : Asking} {talk : Nat → Talk} {b : Block}
  {taken : List Block}

/-! ## The leecher -/

theorem batch_encode (t : Torrent) (taken : List Block) :
    (batch t taken).flatten = Msg.encodeAll (taken.map (askMsg t)) := by
  rw [batch_flatten, Msg.encodeAll, List.flatMap_map, List.flatMap_map]
  refine List.flatMap_congr fun b _ => ?_
  rw [requestMsg_encode]
  rfl

namespace Line
variable {bytes : Bytes} {p p' : Peer} {todo todo' : List BlockRequest} {awake awake' : Prop}
  {x : Talk}

/-- More blocks have been asked for. -/
theorem ask (h : Line t bytes p todo awake x) (hint : p'.amInterested = p.amInterested)
    (hsent : p'.sent = p.sent ++ batch t taken) (hin : ∀ b ∈ taken, b ∈ blocksOf t)
    (hmay : taken ≠ [] → p.amInterested = true) (hawake : awake' ↔ 0 < x.got + 1)
    (htodo : todo' = ((x.asked ++ taken).map (blockRequest t)).drop x.got) :
    Line t bytes p' todo' awake' ⟨x.said ++ taken.map (askMsg t), x.asked ++ taken, x.got + 1⟩ := by
  refine ⟨?_, ?_, hawake, by rw [htodo, Nat.add_sub_cancel]⟩
  · obtain ⟨s, hf, hs⟩ := h.follows
    refine ⟨s, hf.append ?_, by rw [hint, hs]⟩
    by_cases hnil : taken = []
    · rw [hnil]
      exact .nil s
    · rw [hs.1 (hmay hnil)]
      exact .requests hin
  · rw [hsent, List.flatten_append, h.sent, batch_encode, Msg.encodeAll_append, List.append_assoc]

/-- The peer has been told that we are not interested any more. -/
theorem part (h : Line t bytes p todo awake x) (hp : p.amInterested = true) :
    Line t bytes { p with amInterested := false, sent := p.sent ++ [idMsg .notInterested] } todo
      awake ⟨x.said ++ [.notInterested []], x.asked, x.got⟩ := by
  refine ⟨?_, ?_, h.awake, h.todo⟩
  · obtain ⟨s, hf, hs⟩ := h.follows
    rw [hs.1 hp] at hf
    refine ⟨.parted, ?_, iff_of_false Bool.false_ne_true Standing.noConfusion⟩
    rw [← List.append_nil x.asked]
    exact hf.append (.part (.nil _))
  · rw [List.flatten_append, h.sent, Msg.encodeAll_append, List.append_assoc,
      Sent.idMsg_eq (m := .notInterested []) rfl]
    simp [Msg.encodeAll_cons]

end Line

namespace Talking

/-- A reply has been read, and more blocks asked for. -/
theorem hear (h : Talking sha1 t content c m pre u d a talk) (hi : i < m) (hrefines : Refines sha1 t content c m d' a')
    (hfair : (t.window m).Fair a') (hsends : Sends t i d.world d'.world taken)
    (hnodup : taken.Nodup) (hnew : taken.toFinset ⊆ (t.window m).free a)
    (hfree : (t.window m).free a' = (t.window m).free a \ taken.toFinset)
    (hawake : ∀ k, k ∈ a'.awake ↔ k ∈ a.awake ∨ k = i)
    (htodo : d'.todo i = (((talk i).asked ++ taken).map (blockRequest t)).drop (talk i).got)
    (hothers : ∀ k ≠ i, d'.todo k = d.todo k) :
    Talking sha1 t content c m pre u d' a' (Function.update talk i
      ⟨(talk i).said ++ taken.map (askMsg t), (talk i).asked ++ taken, (talk i).got + 1⟩) := by
  have hfresh (b : Block) (hb : b ∈ taken) : b ∈ (t.window m).free a :=
    hnew (List.mem_toFinset.2 hb)
  refine ⟨hrefines, hfair, fun k p' hp' => ?_, ?_, fun k hk => ?_, fun k hk b hb => ?_, ?_⟩
  · obtain ⟨p, hp, hint, hsent⟩ := hsends.peer k p' hp'
    by_cases hki : k = i
    · subst hki
      rw [Function.update_self]
      rw [if_pos rfl] at hsent
      refine (h.line k p hp).ask hint hsent (fun b hb => (Window.mem_free.1 (hfresh b hb)).1)
        (fun hne => ?_) ?_ htodo
      · refine (h.refines.tracks.peer k p hp).interested.resolve_right fun hempty => ?_
        obtain ⟨b, hb⟩ := List.exists_mem_of_ne_nil _ hne
        have := hfresh b hb
        rw [hempty] at this
        exact Finset.notMem_empty b this
      · exact iff_of_true ((hawake k).2 (.inr rfl)) (Nat.succ_pos _)
    · rw [Function.update_of_ne hki, hothers k hki]
      rw [if_neg hki, List.append_nil] at hsent
      have hold := h.line k p hp
      refine ⟨by rw [hint]; exact hold.follows, by rw [hsent]; exact hold.sent, ?_, hold.todo⟩
      rw [hawake, or_iff_left hki]
      exact hold.awake
  · rw [hfree]
    exact Finset.sdiff_subset.trans h.free
  · by_cases hki : k = i
    · subst hki
      rw [Function.update_self]
      exact List.nodup_append'.2 ⟨h.nodup k hk, hnodup,
        fun b hb hb' => (h.taken k hk b hb).2 (hfresh b hb')⟩
    · rw [Function.update_of_ne hki]
      exact h.nodup k hk
  · rw [hfree, Finset.mem_sdiff, not_and, not_not, List.mem_toFinset]
    by_cases hki : k = i
    · subst hki
      rw [Function.update_self] at hb
      rcases List.mem_append.1 hb with hb | hb
      · exact (h.taken k hk b hb).imp_right Not.elim
      · exact ⟨h.free (hfresh b hb), fun _ => hb⟩
    · rw [Function.update_of_ne hki] at hb
      exact (h.taken k hk b hb).imp_right Not.elim
  · have hother (k : Nat) (hk : k < m) (hki : k ≠ i) :
        ((talk i).asked ++ taken).Disjoint (talk k).asked := by
      refine List.disjoint_append_left.2 ⟨h.apart i hi k hk (Ne.symm hki), fun b hb hb' => ?_⟩
      exact (h.taken k hk b hb').2 (hfresh b hb)
    intro j hj k hk hjk
    by_cases hji : j = i
    · subst hji
      rw [Function.update_self, Function.update_of_ne (Ne.symm hjk)]
      exact hother k hk (Ne.symm hjk)
    · rw [Function.update_of_ne hji]
      by_cases hki : k = i
      · subst hki
        rw [Function.update_self]
        exact (hother j hj hji).symm
      · rw [Function.update_of_ne hki]
        exact h.apart j hj k hk hjk

variable (h : Talking sha1 t content c m pre u d a talk) (hd : Downloadable sha1 t content c)
include h hd

/-- The first reply of a seeder is that it unchokes. -/
theorem unchoke (hi : i < m) (hgot : (talk i).got = 0) (now : Int) : ∃ d' a' taken,
    Returns sha1 t d.world (.setChoking i false now) d'.world ∧
      Download.Step sha1 t content d (.unchoke i now) d' ∧ a'.closed = a.closed ∧
      Talking sha1 t content c m pre u d' a' (Function.update talk i
        ⟨(talk i).said ++ taken.map (askMsg t), (talk i).asked ++ taken, (talk i).got + 1⟩) := by
  have hworker : i ∈ (t.window m).workers := Finset.mem_range.2 hi
  have hsound := h.fair.toSound
  have hcount := h.refines.tracks.count
  obtain ⟨p, hp⟩ : ∃ p, d.world.peers[i]? = some p :=
    ⟨_, List.getElem?_eq_getElem (show i < d.world.peers.length by rwa [hcount])⟩
  have hasleep : i ∉ a.awake := by
    rw [(h.line i p hp).awake, hgot]
    exact Nat.lt_irrefl 0
  have hchoking : p.choking = true := by
    by_contra hc
    exact hasleep ((h.refines.tracks.peer i p hp).awake.1 (by simpa using hc))
  obtain ⟨w', taken, hrun, hnodup, htops, hrefines, hsends⟩ :=
    h.refines.unchoke hd hsound hi hasleep now
  refine ⟨d.hear w', (a.wake i).give i taken.toFinset, taken, hrun, .unchoke hp hchoking hrun, rfl, ?_⟩
  refine h.hear hi hrefines (h.fair.step (.wake hworker hasleep htops)) hsends hnodup htops.1
    (Window.free_give hworker) (fun k => ?_) ?_ fun k hk => ?_
  · show k ∈ insert i a.awake ↔ _
    rw [Finset.mem_insert, or_comm]
  · simp only [Download.hear, hsends.hears (hcount.symm ▸ hi), (h.line i p hp).todo, hgot,
      Nat.zero_sub, List.drop_zero, List.map_append]
  · simp only [Download.hear, hsends.silent hk, Seeder.hears_nil, List.append_nil]

/-- Each reply after it is the block of the next request. -/
theorem block (hi : i < m) {k : Nat} (hgot : (talk i).got = k + 1)
    (hb : (talk i).asked[k]? = some b) (now : Int) : ∃ d' a' taken,
    Returns sha1 t d.world (.setBlock i b.1 (Piece.blockOffset b.2)
        (Seeder.answer t content (blockRequest t b)) now) d'.world ∧
      Download.Step sha1 t content d (.answer i (blockRequest t b) now) d' ∧
      a'.closed = a.closed ∧ Talking sha1 t content c m pre u d' a' (Function.update talk i
        ⟨(talk i).said ++ taken.map (askMsg t), (talk i).asked ++ taken, (talk i).got + 1⟩) := by
  have hworker : i ∈ (t.window m).workers := Finset.mem_range.2 hi
  have hsound := h.fair.toSound
  have hcount := h.refines.tracks.count
  obtain ⟨p, hp⟩ : ∃ p, d.world.peers[i]? = some p :=
    ⟨_, List.getElem?_eq_getElem (show i < d.world.peers.length by rwa [hcount])⟩
  obtain ⟨hk, rfl⟩ := List.getElem?_eq_some_iff.1 hb
  have htodo : d.todo i = blockRequest t (talk i).asked[k] ::
      ((talk i).asked.map (blockRequest t)).drop (k + 1) := by
    rw [(h.line i p hp).todo, hgot, Nat.add_sub_cancel, List.drop_eq_getElem_cons (by simpa using hk),
      List.getElem_map]
  have hmem : blockRequest t (talk i).asked[k] ∈ d.todo i := by
    rw [htodo]
    exact List.mem_cons_self
  have hasked : (talk i).asked[k] ∈ a.asked i := by
    obtain ⟨-, b, hb', heq⟩ := h.refines.todo.mem hmem
    obtain ⟨s, hf, -⟩ := (h.line i p hp).follows
    rwa [blockRequest_inj hd.count (hf.mem _ (List.getElem_mem hk)) (hsound.asked i hworker hb') heq]
  generalize (talk i).asked[k] = b at htodo hmem hasked hb ⊢
  obtain ⟨w', taken, hrun, hnodup, htops, hrefines, hsends⟩ :=
    h.refines.answer hd hsound hi hasked now
  refine ⟨_, (a.take i b).give i taken.toFinset, taken, hrun, .answer hmem hrun, rfl, ?_⟩
  have hfree : (t.window m).free (a.take i b) = (t.window m).free a :=
    Window.free_take hworker hasked
  refine h.hear hi hrefines (h.fair.step (.answer hworker hasked htops)) hsends hnodup
    (hfree ▸ htops.1) (by rw [Window.free_give hworker, hfree]) (fun k => ?_) ?_ fun k hk => ?_
  · show k ∈ a.awake ↔ _
    refine (or_iff_left_of_imp fun hki => ?_).symm
    rw [hki, (h.line i p hp).awake, hgot]
    exact Nat.succ_pos _
  · simp only [Download.hear, hsends.hears (hcount.symm ▸ hi), Download.answered,
      Function.update_self, htodo, List.erase_cons_head, hgot, List.map_append]
    rw [List.drop_append_of_le_length (by rwa [List.length_map])]
  · simp only [Download.hear, hsends.silent hk, Seeder.hears_nil, List.append_nil,
      Download.answered, Function.update_of_ne hk]

/-- Reading the next reply of a seeder is an event of the download. -/
theorem reply (hi : i < m) {msg : Msg}
    (hnext : ((talk i).said.flatMap (Zit.reply t content))[(talk i).got]? = some msg)
    (peerId : Bytes) (now : Int) : ∃ e d' a' taken,
      Peer.handle t peerId i now msg d.world = .ok ⟨⟩ d'.world ∧
      Download.Step sha1 t content d e d' ∧ a'.closed = a.closed ∧
      Talking sha1 t content c m pre u d' a' (Function.update talk i
        ⟨(talk i).said ++ taken.map (askMsg t), (talk i).asked ++ taken, (talk i).got + 1⟩) := by
  obtain ⟨p, hp⟩ : ∃ p, d.world.peers[i]? = some p :=
    ⟨_, List.getElem?_eq_getElem (show i < d.world.peers.length by rwa [h.refines.tracks.count])⟩
  obtain ⟨s, hf, -⟩ := (h.line i p hp).follows
  obtain ⟨hsaid, -⟩ | ⟨-, hreplies⟩ := hf.replies content
  · rw [hsaid] at hnext
    cases hnext
  rw [hreplies] at hnext
  obtain hgot | ⟨k, hgot⟩ : (talk i).got = 0 ∨ ∃ k, (talk i).got = k + 1 := by
    cases (talk i).got with
    | zero => exact .inl rfl
    | succ k => exact .inr ⟨k, rfl⟩
  · rw [hgot] at hnext
    obtain rfl := Option.some.inj hnext
    obtain ⟨d', a', taken, hrun, hstep, hclosed, h'⟩ := h.unchoke hd hi hgot now
    exact ⟨_, d', a', taken, handle_one (m := .unchoke []) rfl hrun, hstep, hclosed, h'⟩
  · rw [hgot, List.getElem?_cons_succ, List.getElem?_map] at hnext
    obtain ⟨b, hb, rfl⟩ := Option.map_eq_some_iff.1 hnext
    obtain ⟨d', a', taken, hrun, hstep, hclosed, h'⟩ := h.block hd hi hgot hb now
    exact ⟨_, d', a', taken, handle_one (m := blockMsg t content b) rfl hrun, hstep, hclosed, h'⟩

/-- Reading replies is a run of the download. -/
theorem read (hi : i < m) {old new rest : List Msg}
    (hnext : (talk i).said.flatMap (Zit.reply t content) = old ++ new ++ rest)
    (hold : old.length = (talk i).got) (peerId : Bytes) (now : Int) : ∃ es d' a' more asked,
      forM new (Peer.handle t peerId i now) d.world = .ok ⟨⟩ d'.world ∧
      Run (Download.Step sha1 t content) d es d' ∧ a'.closed = a.closed ∧
      Talking sha1 t content c m pre u d' a' (Function.update talk i
        ⟨(talk i).said ++ more, asked, (old ++ new).length⟩) := by
  induction new generalizing d a talk old rest with
  | nil =>
    refine ⟨[], d, a, [], (talk i).asked, rfl, .nil d, rfl, ?_⟩
    rw [List.append_nil, List.append_nil, hold, Function.update_eq_self]
    exact h
  | cons msg new ih =>
    have hfirst : ((talk i).said.flatMap (Zit.reply t content))[(talk i).got]? = some msg := by
      rw [hnext, ← hold, List.append_assoc, List.getElem?_append_right (Nat.le_refl _), Nat.sub_self]
      rfl
    obtain ⟨e, d1, a1, taken, hrun1, hstep, hclosed1, h1⟩ := h.reply hd hi hfirst peerId now
    have hnext1 : ((talk i).said ++ taken.map (askMsg t)).flatMap (Zit.reply t content) =
        old ++ [msg] ++ new ++ (rest ++ (taken.map (askMsg t)).flatMap (Zit.reply t content)) := by
      rw [List.flatMap_append, hnext]
      simp
    obtain ⟨es, d', a', more, asked, hrun, hsteps, hclosed, h'⟩ :=
      ih h1 (by rw [Function.update_self]; exact hnext1) (by simp [hold])
    refine ⟨e :: es, d', a', taken.map (askMsg t) ++ more, asked, ?_, .cons hstep hsteps,
      hclosed.trans hclosed1, ?_⟩
    · rw [List.forM_cons, run_bind hrun1]
      exact hrun
    · rw [Function.update_idem, Function.update_self, List.append_assoc, List.append_assoc] at h'
      exact h'

/-- Writing a piece is an event of the download. -/
theorem write (hq : d.world.queue ≠ []) (hdisk : d.world.Writable t) : ∃ d' a' talk',
    Returns sha1 t d.world (.writeNextPiece []) d'.world ∧
      Download.Step sha1 t content d .write d' ∧ a'.closed.card = a.closed.card + 1 ∧
      Talking sha1 t content c m pre u d' a' talk' ∧
      ∀ i, (talk' i).got = (talk i).got ∧ ∃ more, (talk' i).said = (talk i).said ++ more := by
  obtain ⟨w', k, hrun, hstep, hrefines, hparted⟩ := h.refines.write hd hq hdisk
  have hline (i : Nat) : ∃ x : Talk, (∀ p', w'.peers[i]? = some p' →
      Line t (pre i) p' (d.todo i) (i ∈ a.awake) x) ∧ x.asked = (talk i).asked ∧
      x.got = (talk i).got ∧ ∃ more, x.said = (talk i).said ++ more := by
    cases hp' : w'.peers[i]? with
    | none => exact ⟨talk i, nofun, rfl, rfl, [], (List.append_nil _).symm⟩
    | some p' =>
      obtain ⟨p, hp, rfl | ⟨hint, rfl⟩⟩ := hparted.peer i p' hp'
      · refine ⟨talk i, fun q hq => ?_, rfl, rfl, [], (List.append_nil _).symm⟩
        rw [← Option.some.inj hq]
        exact h.line i _ hp
      · refine ⟨⟨(talk i).said ++ [.notInterested []], (talk i).asked, (talk i).got⟩,
          fun q hq => ?_, rfl, rfl, [.notInterested []], rfl⟩
        rw [← Option.some.inj hq]
        exact (h.line i p hp).part hint
  choose talk' hline hasked hgot hsaid using hline
  have htodo : (d.hear w').todo = d.todo := by
    funext i
    simp only [Download.hear, hparted.silent, List.append_nil]
  have hclosed : (a.close k).closed.card = a.closed.card + 1 := by
    cases hstep with
    | close _ hne _ => exact Finset.card_insert_of_notMem hne
  refine ⟨d.hear w', a.close k, talk', hrun, .write hq hdisk hrun, hclosed,
    ⟨hrefines, h.fair.step hstep, fun i p' hp' => ?_, h.free, fun i hi => ?_, fun i hi => ?_,
      fun i hi j hj hij => ?_⟩, fun i => ⟨hgot i, hsaid i⟩⟩
  · rw [htodo]
    exact hline i p' hp'
  · rw [hasked]
    exact h.nodup i hi
  · rw [hasked]
    exact h.taken i hi
  · rw [hasked, hasked]
    exact h.apart i hi j hj hij

omit hd in
/-- What has been written to a seeder. -/
theorem stream_eq (hi : i < m) : stream d.world i = pre i ++ Msg.encodeAll (talk i).said := by
  obtain ⟨p, hp⟩ : ∃ p, d.world.peers[i]? = some p :=
    ⟨_, List.getElem?_eq_getElem (show i < d.world.peers.length by rwa [h.refines.tracks.count])⟩
  rw [stream, Download.sentTo, hp]
  exact (h.line i p hp).sent

omit hd in
theorem follows (hi : i < m) : ∃ s, Follows t .silent (talk i).said (talk i).asked s := by
  obtain ⟨p, hp⟩ : ∃ p, d.world.peers[i]? = some p :=
    ⟨_, List.getElem?_eq_getElem (show i < d.world.peers.length by rwa [h.refines.tracks.count])⟩
  obtain ⟨s, hf, -⟩ := (h.line i p hp).follows
  exact ⟨s, hf⟩

end Talking

/-! ## Both ends -/

/-- The two ends of a connection: the seeder has handled `heard` of what has been said to it, and the
leecher `got` of its replies. -/
structure Linked (s : Torrent) (content pre spre bytes : Bytes) (conn : Option PeerConnection)
    (seeder : Net) (up down : Nat) (x : Talk) (heard got : List Msg) (q : Peer) : Prop where
  serving : Serving s content seeder.world
  peers : seeder.world.peers = [q]
  running : seeder.thrown = none
  stands : Stands (heard.foldl Standing.hear .silent) q
  up : ∃ c, seeder.conns = [c] ∧ Receives pre bytes up c x.said heard
  down : ∃ c, conn = some c ∧
    Receives spre q.sent.flatten down c (heard.flatMap (reply s content)) got
  got : got.length = x.got

/-- Seeders with the pieces of `t`, and no protocol string in the content. -/
structure Seeding (sha1 : Bytes → Sha1) (t : Torrent) (content : Bytes) (ts : Nat → Torrent)
    (m : Nat) : Prop where
  uploadable : ∀ i < m, Uploadable sha1 (ts i) content
  same : ∀ i < m, SamePieces t (ts i)
  plain : search btStart content = none

namespace Linked
variable {s : Torrent} {bytes pbytes sbytes : Bytes} {conn : Option PeerConnection} {seeder : Net}
  {up down : Nat} {x : Talk} {heard got : List Msg} {q : Peer}

/-- The seeder reads. -/
theorem readUp (h : Linked s content pbytes sbytes bytes conn seeder up down x heard got q)
    (hd : Uploadable sha1 s content) (hf : ∃ e, Follows s .silent x.said x.asked e) (n : Nat)
    (peerId : Bytes) (now : Int) :
    ∀ seeder', Net.Step sha1 s peerId seeder (.receive 0 ((bytes.drop up).take n) now) seeder' →
      ∃ heard' q', Linked s content pbytes sbytes bytes conn seeder'
        (up + ((bytes.drop up).take n).length) down x heard' got q' := by
  intro seeder' hread
  obtain ⟨e, hf⟩ := hf
  obtain ⟨c, hconns, hup⟩ := h.up
  obtain ⟨new, rest, hall, hreceive⟩ := hup.receive hf.plain n s peerId 0 now
  rw [hall] at hf
  obtain ⟨_, _, s2, -, hf, -⟩ := hf.split
  obtain ⟨_, _, s1, -, hf1, hf2⟩ := hf.split
  obtain ⟨q', hrun, hstands, hsent⟩ :=
    h.serving.heard hd hf2 h.peers (hf1.standing ▸ h.stands) peerId now
  cases hread with
  | receive _ hpeer hconn =>
    rw [hconns] at hconn
    obtain rfl := Option.some.inj hconn
    obtain ⟨c', hnet, hup'⟩ := hreceive hpeer hrun
    rw [hnet]
    refine ⟨heard ++ new, q', ⟨h.serving.piece, h.serving.disk⟩, rfl, rfl, ?_, ⟨c', ?_, hup'⟩, ?_,
      h.got⟩
    · rw [List.foldl_append, ← hf1.standing, ← hf2.standing]
      exact hstands
    · rw [hconns]
      rfl
    · obtain ⟨c2, hc2, hdown⟩ := h.down
      refine ⟨c2, hc2, ?_⟩
      rw [hsent, hdown.bytes_eq, List.append_assoc, ← Msg.encodeAll_append, List.flatMap_append]
      exact hdown.write _

/-- More is said to the seeder. -/
theorem say (h : Linked s content pbytes sbytes bytes conn seeder up down x heard got q)
    {bytes' : Bytes} {x' : Talk} {more : List Msg} (hsaid : x'.said = x.said ++ more)
    (hgot : x'.got = x.got) (hbytes : bytes' = pbytes ++ Msg.encodeAll x'.said) :
    Linked s content pbytes sbytes bytes' conn seeder up down x' heard got q := by
  obtain ⟨c, hconns, hup⟩ := h.up
  refine ⟨h.serving, h.peers, h.running, h.stands, ⟨c, hconns, ?_⟩, h.down, by rw [hgot, h.got]⟩
  rw [hbytes, hsaid]
  exact hup.write more

end Linked

/-- The exchange is as far as this download. -/
structure Exchanging (sha1 : Bytes → Sha1) (t : Torrent) (content : Bytes) (c : Loc) (m : Nat)
    (pre spre : Nat → Bytes) (u : Finset Block) (ts : Nat → Torrent) (x : Exchange) (d : Download)
    (a : Asking) (talk : Nat → Talk) : Prop where
  talking : Talking sha1 t content c m pre u d a talk
  world : x.leecher.world = d.world
  running : x.leecher.thrown = none
  linked : ∀ i < m, ∃ heard got q, Linked (ts i) content (pre i) (spre i)
    (stream x.leecher.world i) x.leecher.conns[i]? (x.seeders i) (x.up i) (x.down i) (talk i) heard
    got q

/-- How much has been read and written. -/
def Exchange.clock (x : Exchange) (m : Nat) (a : Asking) : Nat :=
  ∑ i ∈ Finset.range m, (x.up i + x.down i) + a.closed.card

/-- What an event does: a run of the download, and time passes. -/
def Advances (sha1 : Bytes → Sha1) (t : Torrent) (content : Bytes) (c : Loc) (m : Nat)
    (pre spre : Nat → Bytes) (u : Finset Block) (ts : Nat → Torrent) (x : Exchange) (d : Download)
    (a : Asking) (x' : Exchange) : Prop :=
  ∃ es d' a' talk', Run (Download.Step sha1 t content) d es d' ∧
    Exchanging sha1 t content c m pre spre u ts x' d' a' talk' ∧ x.clock m a < x'.clock m a'

namespace Exchanging
variable {spre : Nat → Bytes} {ts : Nat → Torrent} {x x' : Exchange} {peerId : Bytes}
  {peerIds : Nat → Bytes} {n : Nat} {now : Int}
  (h : Exchanging sha1 t content c m pre spre u ts x d a talk)
  (hs : Seeding sha1 t content ts m)
include h hs

/-- A seeder reads. -/
theorem up {seeder : Net} (hne : x.nextUp i n ≠ [])
    (hread : Net.Step sha1 (ts i) (peerIds i) (x.seeders i) (.receive 0 (x.nextUp i n) now) seeder) :
    Advances sha1 t content c m pre spre u ts x d a (x.readUp i (x.nextUp i n) seeder) := by
  have hi : i < m := by
    by_contra hle
    refine hne ?_
    rw [Exchange.nextUp, stream, Download.sentTo, List.getElem?_eq_none]
    · simp
    · rw [h.world, h.talking.refines.tracks.count]
      exact Nat.le_of_not_lt hle
  refine ⟨[], d, a, talk, .nil d, ⟨h.talking, h.world, h.running, fun k hk => ?_⟩, ?_⟩
  · obtain ⟨heard, got, q, hlink⟩ := h.linked k hk
    by_cases hki : k = i
    · subst hki
      obtain ⟨e, hf⟩ := h.talking.follows hk
      obtain ⟨heard', q', hlink'⟩ := hlink.readUp (hs.uploadable k hk)
        ⟨e, hf.same (hs.same k hk)⟩ n (peerIds k) now seeder hread
      refine ⟨heard', got, q', ?_⟩
      simp only [Exchange.readUp, Function.update_self]
      exact hlink'
    · refine ⟨heard, got, q, ?_⟩
      simp only [Exchange.readUp, Function.update_of_ne hki]
      exact hlink
  · refine Nat.add_lt_add_right (Finset.sum_lt_sum (fun k _ => ?_)
      ⟨i, Finset.mem_range.2 hi, ?_⟩) _
    · simp only [Exchange.readUp, Function.update_apply]
      split_ifs with hki
      · subst hki
        omega
      · exact Nat.le_refl _
    · have := List.length_pos_of_ne_nil hne
      simp only [Exchange.readUp, Function.update_self]
      omega

/-- The leecher reads. -/
theorem down (hd : Downloadable sha1 t content c) {leecher : Net} (hne : x.nextDown i n ≠ [])
    (hread : Net.Step sha1 t peerId x.leecher (.receive i (x.nextDown i n) now) leecher) :
    Advances sha1 t content c m pre spre u ts x d a (x.readDown i (x.nextDown i n) leecher) := by
  cases hread with
  | @receive _ p conn _ hpeer hconn =>
    have hi : i < m := by
      rw [← h.talking.refines.tracks.count, ← h.world]
      exact (List.getElem?_eq_some_iff.1 hpeer).1
    obtain ⟨heard, got, q, hlink⟩ := h.linked i hi
    obtain ⟨cup, hconns, hup⟩ := hlink.up
    obtain ⟨cdown, hcdown, hdown⟩ := hlink.down
    obtain rfl := Option.some.inj (hconn.symm.trans hcdown)
    have hbytes : stream (x.seeders i).world 0 = q.sent.flatten := by
      rw [stream, Download.sentTo, hlink.peers]
      rfl
    obtain ⟨e, hf⟩ := h.talking.follows hi
    obtain ⟨unheard, hsaid⟩ := hup.prefix_all
    have hplain : ∀ m ∈ heard.flatMap (reply (ts i) content), m.Plain := by
      rw [hsaid] at hf
      obtain ⟨_, _, _, -, hf, -⟩ := hf.split
      exact (hf.same (hs.same i hi)).replies_plain (hs.uploadable i hi) hs.plain
    obtain ⟨new, rest, hall, hreceive⟩ := hdown.receive hplain n t peerId i now
    have hnext : (talk i).said.flatMap (reply t content) =
        got ++ new ++ (rest ++ unheard.flatMap (reply t content)) := by
      rw [hsaid, List.flatMap_append, ← (hs.same i hi).reply, hall, List.append_assoc _ rest]
    obtain ⟨es, d', a', more, asked, hrun, hsteps, hclosed, htalking⟩ :=
      h.talking.read hd hi hnext hlink.got peerId now
    rw [← h.world] at hrun
    obtain ⟨conn', hnet, hdown'⟩ := hreceive hpeer hrun
    rw [Exchange.nextDown, hbytes] at hne ⊢
    rw [hnet]
    refine ⟨es, d', a', _, hsteps, ⟨htalking, rfl, rfl, fun k hk => ?_⟩, ?_⟩
    · have hstream := htalking.stream_eq hk
      by_cases hki : k = i
      · subst hki
        rw [Function.update_self] at hstream ⊢
        refine ⟨heard, got ++ new, q, hlink.serving, hlink.peers, hlink.running, hlink.stands,
          ⟨cup, hconns, ?_⟩, ⟨conn', ?_, ?_⟩, rfl⟩
        · simp only [Exchange.readDown, hstream]
          exact hup.write more
        · simp only [Exchange.readDown]
          rw [List.getElem?_set_self (List.getElem?_eq_some_iff.1 hconn).1]
        · simp only [Exchange.readDown, Function.update_self]
          exact hdown'
      · obtain ⟨heard, got, q, hlink⟩ := h.linked k hk
        rw [Function.update_of_ne hki] at hstream ⊢
        refine ⟨heard, got, q, ?_⟩
        simp only [Exchange.readDown, hstream, Function.update_of_ne hki]
        rw [List.getElem?_set_ne (Ne.symm hki)]
        rwa [h.world, h.talking.stream_eq hk] at hlink
    · rw [Exchange.clock, Exchange.clock, hclosed]
      refine Nat.add_lt_add_right (Finset.sum_lt_sum (fun k _ => ?_)
        ⟨i, Finset.mem_range.2 hi, ?_⟩) _
      · simp only [Exchange.readDown, Function.update_apply]
        split_ifs with hki
        · subst hki
          omega
        · exact Nat.le_refl _
      · have := List.length_pos_of_ne_nil hne
        simp only [Exchange.readDown, Function.update_self]
        omega

omit hs in
/-- The leecher writes a piece. -/
theorem write (hd : Downloadable sha1 t content c) {leecher : Net}
    (hq : x.leecher.world.queue ≠ []) (hdisk : x.leecher.world.Writable t)
    (hwrite : Net.Step sha1 t peerId x.leecher (.other (.writeNextPiece [])) leecher) :
    Advances sha1 t content c m pre spre u ts x d a { x with leecher } := by
  rw [h.world] at hq hdisk
  obtain ⟨d', a', talk', hrun, hstep, hclosed, htalking, hsame⟩ := h.talking.write hd hq hdisk
  cases hwrite with
  | other _ hworld =>
    rw [h.world] at hworld
    obtain rfl := wp_ok hworld hrun
    refine ⟨[.write], d', a', talk', .single hstep, ⟨htalking, rfl, h.running, fun k hk => ?_⟩, ?_⟩
    · obtain ⟨heard, got, q, hlink⟩ := h.linked k hk
      obtain ⟨hgot, more, hsaid⟩ := hsame k
      exact ⟨heard, got, q, hlink.say hsaid hgot (htalking.stream_eq hk)⟩
    · simp only [Exchange.clock, hclosed]
      omega

/-- Every event is a run of the download. -/
theorem step (hd : Downloadable sha1 t content c) {e : Exchange.Event}
    (hstep : Exchange.Step sha1 t ts peerIds peerId x e x') :
    Advances sha1 t content c m pre spre u ts x d a x' := by
  cases hstep with
  | up hne hread => exact h.up hs hne hread
  | down hne hread => exact h.down hs hd hne hread
  | write hq hdisk hwrite => exact h.write hd hq hdisk hwrite

/-- Every run of the exchange is one of the download. -/
theorem run (hd : Downloadable sha1 t content c) {es : List Exchange.Event}
    (hr : Run (Exchange.Step sha1 t ts peerIds peerId) x es x') :
    ∃ ds d' a' talk', Run (Download.Step sha1 t content) d ds d' ∧
      Exchanging sha1 t content c m pre spre u ts x' d' a' talk' ∧
      x.clock m a + es.length ≤ x'.clock m a' := by
  induction hr generalizing d a talk with
  | nil => exact ⟨[], d, a, talk, .nil d, h, Nat.le_refl _⟩
  | cons hstep _ ih =>
    obtain ⟨ds1, d1, a1, talk1, hrun1, h1, hlt⟩ := h.step hs hd hstep
    obtain ⟨ds, d', a', talk', hrun, h', hle⟩ := ih h1
    refine ⟨ds1 ++ ds, d', a', talk', hrun1.append hrun, h', ?_⟩
    rw [List.length_cons]
    omega

/-- How far the clock can go. -/
theorem clock_le : x.clock m a ≤ ∑ i ∈ Finset.range m, ((pre i).length + (spre i).length) +
    15 * m + 16414 * u.card + t.pieces.length := by
  have hone (i : Nat) (hi : i < m) : x.up i + x.down i ≤
      ((pre i).length + (spre i).length) + 15 + 16414 * (talk i).asked.length := by
    obtain ⟨heard, got, q, hlink⟩ := h.linked i hi
    obtain ⟨e, hf⟩ := h.talking.follows hi
    obtain ⟨_, -, hup⟩ := hlink.up
    obtain ⟨_, -, hdown⟩ := hlink.down
    obtain ⟨unheard, hsaid⟩ := hup.prefix_all
    have hup_le := hup.le
    have hdown_le := hdown.le
    rw [hup.bytes_eq, List.length_append] at hup_le
    rw [hdown.bytes_eq, List.length_append] at hdown_le
    have hlen := hf.encode_length_le
    rw [hsaid] at hf
    obtain ⟨bs1, bs2, _, hbs, hf1, -⟩ := hf.split
    have hreplies := (hf1.same (hs.same i hi)).replies_length_le (hs.uploadable i hi)
    have hasked := congrArg List.length hbs
    rw [List.length_append] at hasked
    simp only [Standing.spare] at hlen
    omega
  have hcards : ∑ i ∈ Finset.range m, (talk i).asked.length ≤ u.card := by
    have hsub : (Finset.range m).biUnion (fun i => (talk i).asked.toFinset) ⊆ u := by
      refine Finset.biUnion_subset.2 fun i hi b hb => ?_
      exact (h.talking.taken i (Finset.mem_range.1 hi) b (List.mem_toFinset.1 hb)).1
    refine Nat.le_trans (Nat.le_of_eq ?_) (Finset.card_le_card hsub)
    rw [Finset.card_biUnion]
    · refine Finset.sum_congr rfl fun i hi => ?_
      exact (List.toFinset_card_of_nodup (h.talking.nodup i (Finset.mem_range.1 hi))).symm
    · intro i hi j hj hij
      refine Finset.disjoint_left.2 fun b hb hb' => ?_
      exact h.talking.apart i (Finset.mem_range.1 hi) j (Finset.mem_range.1 hj) hij
        (List.mem_toFinset.1 hb) (List.mem_toFinset.1 hb')
  have hsum := Finset.sum_le_sum fun i hi => hone i (Finset.mem_range.1 hi)
  simp only [Finset.sum_add_distrib, ← Finset.mul_sum, Finset.sum_const, Finset.card_range,
    nsmul_eq_mul, Nat.cast_id] at hsum ⊢
  have hclosed := Finset.card_le_card h.talking.fair.closed
  have hgroups : (t.window m).groups.card = t.pieces.length := Finset.card_range _
  rw [Exchange.clock, Finset.sum_add_distrib]
  omega

/-- When nothing can happen any more, every reply has been read. -/
theorem all_read (hstuck : Stuck (Exchange.Step sha1 t ts peerIds peerId) x) (hi : i < m) :
    (talk i).got = ((talk i).said.flatMap (reply t content)).length := by
  obtain ⟨heard, got, q, hlink⟩ := h.linked i hi
  obtain ⟨cup, hconns, hup⟩ := hlink.up
  obtain ⟨cdown, hcdown, hdown⟩ := hlink.down
  obtain ⟨p, hp⟩ : ∃ p, x.leecher.world.peers[i]? = some p := by
    rw [h.world]
    exact ⟨_, List.getElem?_eq_getElem (by rwa [h.talking.refines.tracks.count])⟩
  have hseeder : (x.seeders i).world.peers[0]? = some q := by rw [hlink.peers]; rfl
  have hbytes : stream (x.seeders i).world 0 = q.sent.flatten := by
    rw [stream, Download.sentTo, hlink.peers]
    rfl
  have hup_read : (stream x.leecher.world i).drop (x.up i) = [] := by
    by_contra hne
    have hnext : x.nextUp i (stream x.leecher.world i).length ≠ [] := by
      rw [Exchange.nextUp, List.take_of_length_le (by rw [List.length_drop]; omega)]
      exact hne
    exact hstuck _ _ (.up hnext (.receive hlink.running hseeder (by rw [hconns]; rfl) _ 0))
  have hdown_read : q.sent.flatten.drop (x.down i) = [] := by
    by_contra hne
    have hnext : x.nextDown i q.sent.flatten.length ≠ [] := by
      rw [Exchange.nextDown, hbytes, List.take_of_length_le (by rw [List.length_drop]; omega)]
      exact hne
    exact hstuck _ _ (.down hnext (.receive h.running hp hcdown _ 0))
  rw [← hlink.got, hdown.finished hdown_read, hup.finished hup_read, (hs.same i hi).reply]

/-- When nothing can happen any more and the disk takes every piece, everything is done. -/
theorem stuck (hd : Downloadable sha1 t content c) (hm : 0 < m)
    (hstuck : Stuck (Exchange.Step sha1 t ts peerIds peerId) x)
    (hdisk : x.leecher.world.Writable t) :
    a.done = blocksOf t ∧ a.closed = Finset.range t.pieces.length := by
  have hsound := h.talking.fair.toSound
  have hrefines := h.talking.refines
  have hpeer (i : Nat) (hi : i < m) : ∃ p, d.world.peers[i]? = some p :=
    ⟨_, List.getElem?_eq_getElem (by rwa [hrefines.tracks.count])⟩
  have hasked (i : Nat) (hi : i < m) : a.asked i = ∅ := by
    obtain ⟨p, hp⟩ := hpeer i hi
    obtain ⟨s, hf, -⟩ := (h.talking.line i p hp).follows
    have hgot := h.all_read hs hstuck hi
    refine hrefines.todo.nil hi ?_
    rw [(h.talking.line i p hp).todo, hgot]
    obtain ⟨-, hnone, -⟩ | ⟨-, heq⟩ := hf.replies content
    · rw [hnone, List.map_nil, List.drop_nil]
    · rw [heq, List.length_cons, List.length_map, Nat.add_sub_cancel]
      exact List.drop_eq_nil_of_le (by rw [List.length_map])
  have hqueue : d.world.queue = [] := by
    by_contra hq
    rw [h.world] at hdisk
    obtain ⟨d', _, _, hrun, -⟩ := h.talking.write hd hq hdisk
    have hstep : Zit.Step sha1 t x.leecher.world (.writeNextPiece []) d'.world := by
      rw [h.world]
      exact wp_intro hrun rfl
    rw [← h.world] at hq hdisk
    exact hstuck _ _ (.write hq hdisk (.other h.running hstep))
  refine hrefines.finished hd hsound ?_ hasked hqueue
  by_cases hawake : 0 ∈ a.awake
  · exact h.talking.fair.idle hd.limit_pos hawake (hasked 0 hm)
  · -- nobody who is interested is left asleep
    obtain ⟨p, hp⟩ := hpeer 0 hm
    have hline := h.talking.line 0 p hp
    refine (hrefines.tracks.peer 0 p hp).interested.resolve_left fun hint => ?_
    have hgot := h.all_read hs hstuck hm
    obtain ⟨s, hf, hstands⟩ := hline.follows
    obtain ⟨-, -, hsilent⟩ | ⟨-, heq⟩ := hf.replies content
    · rw [hstands.1 hint] at hsilent
      cases hsilent
    · refine hawake (hline.awake.2 ?_)
      rw [hgot, heq]
      exact Nat.succ_pos _

end Exchanging

/-! ## The start -/

/-- The blocks that are missing when the torrent has been constructed. -/
def Torrent.missing (t : Torrent) (w : World) : Finset Block :=
  (blocksOf t).filter fun b => w.clientPieces.bit b.1.toNat = false

/-- A torrent of the same content and pieces, constructed with all of them and the content on its
disk, after what happens at a seeder before the exchange. -/
structure Seeder.Ready (sha1 : Bytes → Sha1) (t : Torrent) (content : Bytes) (s : Torrent)
    (w : World) : Prop extends ContentOf sha1 s content where
  pieceLength : s.pieceLength = t.pieceLength
  greeted : ∃ v own, Constructed sha1 s v ∧
    (∀ k < s.pieces.length, v.clientPieces.bit k = true) ∧
    (∀ pos < content.length, s.readByte v.disk pos = content[pos]?) ∧
    Run (Returns sha1 s) v (greeted own) w

/-- What has been said at the start: that we are interested, if we are. -/
def Talk.start (w : World) (i : Nat) : Talk :=
  ⟨if (w.peers[i]?.map (·.amInterested)) = some true then [.interested []] else [], [], 0⟩

/-- What the leecher says when it has shown its pieces. -/
theorem Showed.stream {p : Peer} (h : Showed p) : p.sent.flatten =
    (p.sent.filter (· ≠ idMsg .interested)).flatten ++
      Msg.encodeAll (if p.amInterested then [.interested []] else []) := by
  obtain ⟨shown, hnot, hsent⟩ := h
  have hall : shown.filter (· ≠ idMsg .interested) = shown := by
    refine List.filter_eq_self.2 fun b hb => ?_
    exact decide_eq_true fun heq => hnot (heq ▸ hb)
  rw [hsent, List.filter_append, hall]
  cases p.amInterested with
  | true =>
    have hinterested : idMsg .interested = (Msg.interested []).encode := Sent.idMsg_eq rfl
    rw [if_pos rfl, if_pos rfl, List.filter_cons_of_neg (by simp), List.filter_nil, List.append_nil,
      List.flatten_append, List.flatten_singleton, hinterested, Msg.encodeAll_cons,
      Msg.encodeAll_nil, List.append_nil]
  | false =>
    rw [if_neg Bool.false_ne_true, if_neg Bool.false_ne_true, List.filter_nil, List.append_nil,
      Msg.encodeAll_nil, List.append_nil]

section
variable {w w' : World} {bf : Bitfield} {ts : Nat → Torrent} {ws : Nat → World}

/-- The leecher at the start. -/
theorem Talking.start (hc : Constructed sha1 t w) (hd : Downloadable sha1 t content w.disk.cwd)
    (hown : w.clientPieces.size = 0 ∨ t.pieces.length ≤ w.clientPieces.size)
    (hfound : ∀ x ∈ w.marks, x.data = pieceData t content x.id) (hm : 0 < m)
    (hbf : Seeder.Complete t bf) (hg : Run (Returns sha1 t) w (greet bf m) w') :
    Talking sha1 t content w.disk.cwd m (shownTo w') (t.missing w) (.start w')
      (Asking.start t w) (Talk.start w') := by
  have hgathered := Gathered.of_run (Fresh.constructed hc).peers hg
  refine ⟨.start hc hd hown hfound hm hbf hg, Asking.start_fair t m w, fun i p hp => ?_,
    fun b hb => ?_, fun i _ => List.nodup_nil, fun i _ b hb => absurd hb List.not_mem_nil,
    fun i _ j _ _ => List.disjoint_nil_left _⟩
  · have hshowed := (hgathered.peer p (List.mem_of_getElem? hp)).2.2.2.2
    have hsaid : (Talk.start w' i).said = if p.amInterested then [.interested []] else [] := by
      rw [Talk.start]
      change w'.peers[i]? = some p at hp
      simp only [hp, Option.map_some, Option.some.injEq]
    refine ⟨?_, ?_, ?_, rfl⟩
    · rw [hsaid]
      cases p.amInterested with
      | true => exact ⟨.interested, .interested (.nil _), iff_of_true rfl rfl⟩
      | false => exact ⟨.silent, .nil _, iff_of_false Bool.false_ne_true Standing.noConfusion⟩
    · rw [hsaid, hshowed.stream, shownTo, Download.sentTo]
      change w'.peers[i]? = some p at hp
      rw [hp]
      rfl
    · exact iff_of_false (Finset.notMem_empty i) (Nat.lt_irrefl 0)
  · obtain ⟨hmem, hundone, -⟩ := Window.mem_free_iff.1 hb
    refine Finset.mem_filter.2 ⟨hmem, ?_⟩
    by_contra hbit
    exact hundone (Finset.mem_filter.2 ⟨hmem, by simpa using hbit⟩)

theorem Seeding.of_ready (hd : Downloadable sha1 t content c)
    (hs : ∀ i < m, Seeder.Ready sha1 t content (ts i) (ws i)) (hshort : content.length ≤ 2 ^ 32)
    (hplain : search btStart content = none) : Seeding sha1 t content ts m where
  uploadable i hi := by
    have hready := hs i hi
    obtain ⟨v, own, hc, -⟩ := hready.greeted
    exact ⟨hready.toContentOf, by rw [hready.pieceLength]; exact hd.small, hshort,
      Torrent.lengths_of_constructed hc⟩
  same i hi := .of_content hd.toContentOf (hs i hi).toContentOf (hs i hi).pieceLength
  plain := hplain

/-- Both ends at the start. -/
theorem Exchanging.start (hs : ∀ i < m, Seeder.Ready sha1 t content (ts i) (ws i))
    (h : Talking sha1 t content c m (shownTo w') u (.start w') a (Talk.start w')) :
    Exchanging sha1 t content c m (shownTo w') (fun i => stream (ws i) 0) u ts
      (.start w' ws m) (.start w') a (Talk.start w') := by
  refine ⟨h, rfl, rfl, fun i hi => ?_⟩
  obtain ⟨v, own, hc, hown, hdisk, hrun⟩ := (hs i hi).greeted
  obtain ⟨hserving, q, hpeers, hstands⟩ :=
    Serving.greeted hc (hs i hi).toContentOf hown hdisk hrun
  refine ⟨[], [], q, hserving, hpeers, rfl, hstands, ⟨.init, rfl, ?_⟩, ⟨.init, ?_, ?_⟩, rfl⟩
  · show Receives (shownTo w' i) (stream w' i) (shownTo w' i).length _ _ _
    have hbytes : stream w' i = _ := h.stream_eq hi
    rw [hbytes]
    exact .start _ _
  · exact List.getElem?_replicate_of_lt hi
  · have hbytes : q.sent.flatten = stream (ws i) 0 := by
      rw [stream, Download.sentTo, hpeers]
      rfl
    rw [hbytes]
    have := Receives.start (stream (ws i) 0) []
    rwa [Msg.encodeAll_nil, List.append_nil] at this

end

/-! ## One byte -/

/-- Nothing is left to be read, and no piece waits. -/
theorem Exchange.stuck_of {sha1 : Bytes → Sha1} {t : Torrent} {ts : Nat → Torrent}
    {peerIds : Nat → Bytes} {peerId : Bytes} {x : Exchange}
    (hup : ∀ i < x.leecher.world.peers.length, (stream x.leecher.world i).drop (x.up i) = [])
    (hdown : ∀ i < x.leecher.world.peers.length,
      (stream (x.seeders i).world 0).drop (x.down i) = [])
    (hqueue : x.leecher.world.queue = []) :
    Stuck (Exchange.Step sha1 t ts peerIds peerId) x := by
  intro e x' hstep
  cases hstep with
  | @up i n now seeder hne _ =>
    refine hne ?_
    rw [Exchange.nextUp]
    by_cases hi : i < x.leecher.world.peers.length
    · rw [hup i hi, List.take_nil]
    · rw [stream, Download.sentTo, List.getElem?_eq_none (Nat.le_of_not_lt hi)]
      simp
  | @down i n now leecher hne hread =>
    cases hread with
    | receive _ hpeer _ =>
      rw [Exchange.nextDown, hdown i (List.getElem?_eq_some_iff.1 hpeer).1, List.take_nil] at hne
      exact hne rfl
  | write hq _ _ => exact hq hqueue

/-- One byte between two clients, in reads that end anywhere. -/
def exchangeEvents : List Exchange.Event :=
  [.up 0 3 1, .up 0 9 1, .down 0 7 2, .up 0 17 3, .down 0 9 4, .down 0 9 5, .write, .up 0 5 6]

/-- The exchange of a byte that one client lacks and the other one found at its start. -/
theorem exchange_oneByte : ∃ t w w' s v x,
    (Constructed Torrent.oneByteSha1 t w ∧
      Downloadable Torrent.oneByteSha1 t [120] w.disk.cwd ∧ w.clientPieces.size = 0 ∧
      (∀ m ∈ w.marks, m.data = pieceData t [120] m.id) ∧ Seeder.Complete t ⟨[0x80]⟩ ∧
      Run (Returns Torrent.oneByteSha1 t) w (greet ⟨[0x80]⟩ 1) w' ∧
      ∀ i < 1, Seeder.Ready Torrent.oneByteSha1 t [120] ((fun _ => s) i) ((fun _ => v) i)) ∧
    Run (Exchange.Step Torrent.oneByteSha1 t (fun _ => s) (fun _ => []) [])
      (.start w' (fun _ => v) 1) exchangeEvents x ∧
    Stuck (Exchange.Step Torrent.oneByteSha1 t (fun _ => s) (fun _ => []) []) x ∧
    x.leecher.world.queue = [] := by
  have hcheck : checkNew Torrent.oneByteSha1 Torrent.oneByteConfig [] Torrent.oneByteFile [0] ⟨∅⟩
      (fun t w => t.isOneByte && decide (w.clientPieces.size = 0) && w.marks.isEmpty &&
        ((greet ⟨[0x80]⟩ 1).foldlM (returned Torrent.oneByteSha1 t) w).any fun w' =>
          checkNew Torrent.oneByteSha1 Torrent.oneByteConfig [] Torrent.oneByteFile [0] wholeFile
            fun s v => s.isOneByte && v.clientPieces.bit 0 &&
              decide (s.readByte v.disk 0 = some 120) &&
              ((greeted ⟨[]⟩).foldlM (returned Torrent.oneByteSha1 s) v).any fun v' =>
                (exchangeEvents.foldlM (Exchange.exec Torrent.oneByteSha1 t (fun _ => s)
                  (fun _ => []) []) (.start w' (fun _ => v') 1)).any fun x =>
                    decide (x.leecher.world.peers.length = 1) &&
                      ((stream x.leecher.world 0).drop (x.up 0)).isEmpty &&
                      ((stream (x.seeders 0).world 0).drop (x.down 0)).isEmpty &&
                      x.leecher.world.queue.isEmpty) = true := by
    decide +kernel
  obtain ⟨t, w, hc, h⟩ := checkNew_true hcheck
  simp only [Bool.and_eq_true, decide_eq_true_eq, Option.any_eq_true, List.isEmpty_iff] at h
  obtain ⟨⟨⟨hone, hsize⟩, hmarks⟩, w', hgreet, h⟩ := h
  obtain ⟨s, v, hv, h⟩ := checkNew_true h
  simp only [Bool.and_eq_true, decide_eq_true_eq, Option.any_eq_true, List.isEmpty_iff] at h
  obtain ⟨⟨⟨hsame, hbit⟩, hbyte⟩, v', hgreeted, x, hevents, ⟨⟨hpeers, hup⟩, hdown⟩, hqueue⟩ := h
  obtain ⟨hn, hd⟩ := Torrent.isOneByte_downloadable hone w.disk.cwd
  obtain ⟨hns, hds⟩ := Torrent.isOneByte_downloadable hsame v.disk.cwd
  have hzero {P : Nat → Prop} (h0 : P 0) : ∀ i < 1, P i := fun i hi => by
    rwa [Nat.lt_one_iff.1 hi]
  have hready : Seeder.Ready Torrent.oneByteSha1 t [120] s v' := by
    refine ⟨hds.toContentOf, ?_, v, ⟨[]⟩, hv, ?_, hzero hbyte, ?_⟩
    · simp only [Torrent.isOneByte, Bool.and_eq_true, decide_eq_true_eq] at hone hsame
      exact UInt32.toNat.inj (by rw [hone.1.1.1.1.1, hsame.1.1.1.1.1])
    · rw [hns]
      exact hzero hbit
    · exact (Run.of_foldlM hgreeted).mono fun _ _ _ h => returned_iff.1 h
  refine ⟨t, w, w', s, v', x, ⟨hc, hd, hsize, fun m hm => ?_, .oneByte hn,
    (Run.of_foldlM hgreet).mono fun _ _ _ h => returned_iff.1 h, fun _ _ => hready⟩,
    (Run.of_foldlM hevents).mono fun _ _ _ h => Exchange.exec_step h, ?_, hqueue⟩
  · rw [hmarks] at hm
    cases hm
  · refine Exchange.stuck_of ?_ ?_ hqueue
    · rw [hpeers]
      exact hzero hup
    · rw [hpeers]
      exact hzero hdown

/-! ## Runs -/

/-- A bound for the reads of both sides and the writes of pieces. -/
def Torrent.traffic (t : Torrent) (w : World) (m : Nat) : Nat :=
  15 * m + 16414 * (t.missing w).card +
    ((Finset.range t.pieces.length).filter fun k => w.clientPieces.bit k = false).card

section
variable {w w' : World} {bf : Bitfield} {ts : Nat → Torrent} {ws : Nat → World}
  {peerIds : Nat → Bytes} {peerId : Bytes} {x : Exchange} {es : List Exchange.Event}

end

end

end Zit
