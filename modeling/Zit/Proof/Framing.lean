import Zit.Proof.Frame

/-!
# Messages cut into reads

A connection reads the bytes of a sequence of messages in any pieces. `receive_delivers` says when
the parses that do something are the frames of the messages that arrived in full, in order, with the
rest still in the buffer: when every buffer a message is looked at in is a `CleanSlice` of it. A read
whose buffer is clean is drained of its complete messages (`drain_clean`); at the first one that is
not, something is parsed, or kept waiting, that no later read makes good (`drain_lost`).
-/

set_option autoImplicit false

namespace Zit

open Lib

namespace PeerConnection

/-! ## Complete messages of a buffer -/

/-- The messages a prefix of their bytes holds in full, those it does not, and the bytes left. -/
def split : List Msg → Bytes → List Msg × List Msg × Bytes
  | [], b => ([], [], b)
  | m :: ms, b =>
    if m.encode.length ≤ b.length then
      (m :: (split ms (b.drop m.encode.length)).1, (split ms (b.drop m.encode.length)).2)
    else ([], m :: ms, b)

/-- No message is complete. -/
def Cut (ms : List Msg) (b : Bytes) : Prop :=
  match ms with
  | [] => b = []
  | m :: _ => b.length < m.encode.length

theorem prefix_drop {m : Msg} {ms : List Msg} {b : Bytes}
    (hb : b <+: Msg.encodeAll (m :: ms)) (hlen : m.encode.length ≤ b.length) :
    b = m.encode ++ b.drop m.encode.length ∧ b.drop m.encode.length <+: Msg.encodeAll ms := by
  rw [Msg.encodeAll_cons] at hb
  obtain ⟨q, rfl⟩ := List.prefix_of_prefix_length_le (List.prefix_append _ _) hb hlen
  rw [List.drop_left]
  exact ⟨rfl, (List.prefix_append_right_inj _).1 hb⟩

theorem split_spec {ms : List Msg} {b : Bytes} (hb : b <+: Msg.encodeAll ms) :
    ms = (split ms b).1 ++ (split ms b).2.1 ∧
      b = Msg.encodeAll (split ms b).1 ++ (split ms b).2.2 ∧
      (split ms b).2.2 <+: Msg.encodeAll (split ms b).2.1 ∧
      Cut (split ms b).2.1 (split ms b).2.2 := by
  induction ms generalizing b with
  | nil =>
    have : b = [] := List.prefix_nil.1 hb
    subst this
    exact ⟨rfl, rfl, List.nil_prefix, rfl⟩
  | cons m ms ih =>
    rw [split]
    by_cases hlen : m.encode.length ≤ b.length
    · rw [if_pos hlen]
      obtain ⟨hsplit, hdrop⟩ := prefix_drop hb hlen
      obtain ⟨h1, h2, h3, h4⟩ := ih hdrop
      refine ⟨by rw [List.cons_append, ← h1], ?_, h3, h4⟩
      rw [Msg.encodeAll_cons, List.append_assoc, ← h2]
      exact hsplit
    · rw [if_neg hlen]
      exact ⟨rfl, rfl, hb, Nat.lt_of_not_le hlen⟩

theorem split_of_cut {ms : List Msg} {b : Bytes} (h : Cut ms b) : split ms b = ([], ms, b) := by
  cases ms with
  | nil => rfl
  | cons m ms => rw [split, if_neg (Nat.not_le_of_lt h)]

theorem split_nil (ms : List Msg) : split ms [] = ([], ms, []) := by
  cases ms with
  | nil => rfl
  | cons m ms =>
    rw [split, if_neg]
    simp

/-- The bytes that follow only add messages. -/
theorem split_append (done rest : List Msg) (b : Bytes) :
    split (done ++ rest) (Msg.encodeAll done ++ b) =
      (done ++ (split rest b).1, (split rest b).2) := by
  induction done with
  | nil => rfl
  | cons m done ih =>
    rw [List.cons_append, split, Msg.encodeAll_cons, List.append_assoc, if_pos (by simp),
      List.drop_left, ih]
    rfl

/-! ## Draining one buffer -/

/-- The parses that consumed something or called the peer. -/
def trace (ps : List Parsed) : List Parsed := ps.filter fun p => p ≠ ⟨[], 0⟩

theorem trace_cons {p : Parsed} (h : p ≠ ⟨[], 0⟩) (ps : List Parsed) :
    trace (p :: ps) = p :: trace ps := by
  simp [trace, h]

theorem trace_append (ps qs : List Parsed) : trace (ps ++ qs) = trace ps ++ trace qs := by
  simp [trace]

/-- The messages `ms` were delivered, `left` is still in the buffer. -/
def Delivers (x : Received) (ms : List Msg) (left : Bytes) : Prop :=
  trace x.parsed = ms.map Msg.frame ∧ x.conn = ⟨left, false⟩ ∧ x.thrown = none

section
variable {ctx : PeerContext} {b : Bytes} (hne : b ≠ []) (t : Nat)
include hne

theorem drain_error {e : Exn} (hp : Message.parse ctx b = .error e) :
    drain ctx (t + 1) ⟨b, false⟩ = ⟨[], ⟨b, false⟩, some e⟩ := by
  rw [drain, if_neg (by simpa using hne), hp]

theorem drain_stay {p : Parsed} (hp : Message.parse ctx b = .ok p) (hc : p.consumed = 0) :
    drain ctx (t + 1) ⟨b, false⟩ = ⟨[p], ⟨b, p.calls.contains .stop⟩, none⟩ := by
  rw [drain, if_neg (by simpa using hne), hp]
  simp [hc]

theorem drain_go {p : Parsed} (hp : Message.parse ctx b = .ok p) (hc : p.consumed ≠ 0) :
    drain ctx (t + 1) ⟨b, false⟩ =
      let rest := drain ctx t ⟨b.drop p.consumed, p.calls.contains .stop⟩
      ⟨p :: rest.parsed, rest.conn, rest.thrown⟩ := by
  rw [drain, if_neg (by simpa using hne), hp]
  simp [hc]

end

theorem drain_empty (ctx : PeerContext) (t : Nat) (s : Bool) :
    drain ctx t ⟨[], s⟩ = ⟨[], ⟨[], s⟩, none⟩ := by
  cases t <;> rfl

theorem frame_no_stop (m : Msg) : m.frame.calls.contains .stop = false := by
  rw [List.contains_eq_any_beq, List.any_eq_false]
  intro c hc
  simpa using ((Msg.calls_of_mem hc).2).symm

/-- Every buffer a message is looked at in, while one read is drained, is a clean slice of it. -/
def CleanBuf : List Msg → Bytes → Prop
  | [], _ => True
  | m :: ms, b => b = [] ∨ (Message.CleanSlice m b ∧
      (m.encode.length ≤ b.length → CleanBuf ms (b.drop m.encode.length)))

/-- A clean buffer is drained of its complete messages. -/
theorem drain_clean (ctx : PeerContext) {ms : List Msg} {b : Bytes} {t : Nat}
    (hb : b <+: Msg.encodeAll ms) (hc : CleanBuf ms b) (ht : b.length ≤ t) :
    Delivers (drain ctx t ⟨b, false⟩) (split ms b).1 (split ms b).2.2 := by
  induction ms generalizing b t with
  | nil =>
    have : b = [] := List.prefix_nil.1 hb
    subst this
    rw [drain_empty]
    exact ⟨rfl, rfl, rfl⟩
  | cons m ms ih =>
    by_cases hne : b = []
    · subst hne
      rw [drain_empty, split_nil]
      exact ⟨rfl, rfl, rfl⟩
    obtain ⟨t, rfl⟩ : ∃ n, t = n + 1 :=
      ⟨t - 1, by have := List.length_pos_iff.2 hne; omega⟩
    obtain ⟨hslice, hrest⟩ := hc.resolve_left hne
    rw [split]
    by_cases hlen : m.encode.length ≤ b.length
    · rw [if_pos hlen]
      obtain ⟨hsplit, hdrop⟩ := prefix_drop hb hlen
      have hp : Message.parse ctx b = .ok m.frame := by
        rw [hsplit] at hslice ⊢
        exact Message.parse_frame ctx hslice
      have hpos : m.frame.consumed ≠ 0 := by simp [Msg.frame]
      have hlt : (b.drop m.encode.length).length ≤ t := by
        rw [List.length_drop, Msg.encode_length]
        omega
      obtain ⟨h1, h2, h3⟩ := ih hdrop (hrest hlen) hlt
      rw [drain_go hne t hp hpos, frame_no_stop]
      refine ⟨?_, h2, h3⟩
      rw [trace_cons (Msg.frame_ne_idle m), List.map_cons, ← h1]
      rfl
    · rw [if_neg hlen]
      rw [Msg.encodeAll_cons] at hb
      rw [drain_stay hne t (Message.parse_cut ctx hb hslice (Nat.lt_of_not_le hlen)) rfl]
      exact ⟨rfl, rfl, rfl⟩

/-- The messages are lost: an exception leaves, something is parsed that is not the next message,
or a complete message is kept waiting. -/
def Lost (ms : List Msg) (b : Bytes) (x : Received) : Prop :=
  x.thrown.isSome = true ∨
  (∃ pre m post p q, ms = pre ++ m :: post ∧ trace x.parsed = pre.map Msg.frame ++ p :: q ∧
    p ≠ m.frame) ∨
  (∃ pre m post, (split ms b).1 = pre ++ m :: post ∧ trace x.parsed = pre.map Msg.frame ∧
    x.conn.stopped = false ∧ WaitsForBitfield x.conn.response)

theorem drain_lost (ctx : PeerContext) {ms : List Msg} {b : Bytes} {t : Nat}
    (hs : ∀ m ∈ ms, m.Sized) (hb : b <+: Msg.encodeAll ms) (hc : ¬CleanBuf ms b)
    (ht : b.length ≤ t) : Lost ms b (drain ctx t ⟨b, false⟩) := by
  induction ms generalizing b t with
  | nil => exact absurd trivial hc
  | cons m ms ih =>
    have hne : b ≠ [] := fun h => hc (.inl h)
    obtain ⟨t, rfl⟩ : ∃ n, t = n + 1 :=
      ⟨t - 1, by have := List.length_pos_iff.2 hne; omega⟩
    by_cases hslice : Message.CleanSlice m b
    · -- the message itself is read; the fault lies behind it
      have hlen : m.encode.length ≤ b.length := by
        by_contra hlen
        exact hc (.inr ⟨hslice, fun h => absurd h hlen⟩)
      have hrest : ¬CleanBuf ms (b.drop m.encode.length) := fun h => hc (.inr ⟨hslice, fun _ => h⟩)
      obtain ⟨hsplit, hdrop⟩ := prefix_drop hb hlen
      have hp : Message.parse ctx b = .ok m.frame := by
        rw [hsplit] at hslice ⊢
        exact Message.parse_frame ctx hslice
      have hpos : m.frame.consumed ≠ 0 := by simp [Msg.frame]
      have hlt : (b.drop m.encode.length).length ≤ t := by
        rw [List.length_drop, Msg.encode_length]
        omega
      have ih' := ih (fun x hx => hs x (by simp [hx])) hdrop hrest hlt
      rw [drain_go hne t hp hpos, frame_no_stop]
      rcases ih' with h | ⟨pre, m', post, p, q, h1, h2, h3⟩ | ⟨pre, m', post, h1, h2, h3, h4⟩
      · exact .inl h
      · refine .inr (.inl ⟨m :: pre, m', post, p, q, by rw [h1]; rfl, ?_, h3⟩)
        rw [trace_cons (Msg.frame_ne_idle m), List.map_cons, List.cons_append, ← h2]
        rfl
      · refine .inr (.inr ⟨m :: pre, m', post, ?_, ?_, h3, h4⟩)
        · rw [split, if_pos hlen, h1]
          rfl
        · rw [trace_cons (Msg.frame_ne_idle m), List.map_cons, ← h2]
          rfl
    · have hb' := hb
      rw [Msg.encodeAll_cons] at hb'
      rcases Message.parse_deviant ctx (hs m (by simp)) hb' hslice with
        (⟨e, he⟩ | ⟨p, hp, hidle, hframe⟩) | ⟨hlen, hw⟩
      · rw [drain_error hne t he]
        exact .inl rfl
      · by_cases hz : p.consumed = 0
        · rw [drain_stay hne t hp hz]
          exact .inr (.inl ⟨[], m, ms, p, [], rfl, trace_cons hidle [], hframe⟩)
        · rw [drain_go hne t hp hz]
          exact .inr (.inl ⟨[], m, ms, p, _, rfl, trace_cons hidle _, hframe⟩)
      · rw [drain_stay hne t (Message.parse_of_waits ctx hw) rfl]
        refine .inr (.inr ⟨[], m, (split ms (b.drop m.encode.length)).1, ?_, rfl, rfl, hw⟩)
        rw [split, if_pos hlen]
        rfl

/-! ## One read after the other -/

/-- Every read is clean, in the buffer it makes with what the reads before it left. -/
def CleanReads : List Msg → Bytes → List Bytes → Prop
  | _, _, [] => True
  | ms, b, r :: reads => CleanBuf ms (b ++ r) ∧
      CleanReads (split ms (b ++ r)).2.1 (split ms (b ++ r)).2.2 reads

theorem receive_cons (ctx : PeerContext) (b r : Bytes) (reads : List Bytes) {x : Received}
    (hx : drain ctx (b ++ r).length ⟨b ++ r, false⟩ = x) (h : x.thrown = none) :
    receive ctx ⟨b, false⟩ (r :: reads) = ⟨x.parsed ++ (receive ctx x.conn reads).parsed,
      (receive ctx x.conn reads).conn, (receive ctx x.conn reads).thrown⟩ := by
  simp only [receive, handleResponse, Bool.false_eq_true, if_false, hx, h, Option.isSome_none]

theorem receive_cons_thrown (ctx : PeerContext) (b r : Bytes) (reads : List Bytes)
    (h : (drain ctx (b ++ r).length ⟨b ++ r, false⟩).thrown.isSome = true) :
    receive ctx ⟨b, false⟩ (r :: reads) = drain ctx (b ++ r).length ⟨b ++ r, false⟩ := by
  simp only [receive, handleResponse, Bool.false_eq_true, if_false, h, if_true]

/-- A buffer kept waiting is never read as a message: what comes out of it is a handshake. -/
theorem receive_waiting (ctx : PeerContext) (reads : List Bytes) {b : Bytes}
    (hw : WaitsForBitfield b) :
    (receive ctx ⟨b, false⟩ reads).thrown.isSome = true ∨
      trace (receive ctx ⟨b, false⟩ reads).parsed = [] ∨
      ∃ p q i, trace (receive ctx ⟨b, false⟩ reads).parsed = p :: q ∧
        PeerCall.verifyInfoHash i ∈ p.calls := by
  induction reads generalizing b with
  | nil => exact .inr (.inl rfl)
  | cons r reads ih =>
    have hne : b ++ r ≠ [] := by
      obtain ⟨k, -, -, h73, -⟩ := hw
      intro h
      rw [(List.append_eq_nil_iff.1 h).1] at h73
      simp at h73
    obtain ⟨t, ht⟩ : ∃ n, (b ++ r).length = n + 1 :=
      ⟨(b ++ r).length - 1, by have := List.length_pos_iff.2 hne; omega⟩
    by_cases hw' : WaitsForBitfield (b ++ r)
    · have hd := drain_stay hne t (Message.parse_of_waits ctx hw') rfl
      rw [← ht] at hd
      rw [receive_cons ctx b r reads hd rfl]
      exact ih hw'
    · rcases Message.parse_of_looks ctx (Message.looks_of_waits hw r) hw' with
        ⟨e, he⟩ | ⟨p, i, hp, hi⟩
      · have hd := drain_error hne t he
        rw [← ht] at hd
        rw [receive_cons_thrown ctx b r reads (by rw [hd]; rfl), hd]
        exact .inl rfl
      · have hidle : p ≠ ⟨[], 0⟩ := by
          rintro rfl
          cases hi
        have hhead : ∃ q, trace (drain ctx (b ++ r).length ⟨b ++ r, false⟩).parsed = p :: q := by
          rw [ht]
          by_cases hz : p.consumed = 0
          · rw [drain_stay hne t hp hz]
            exact ⟨_, trace_cons hidle _⟩
          · rw [drain_go hne t hp hz]
            exact ⟨_, trace_cons hidle _⟩
        obtain ⟨q, hq⟩ := hhead
        by_cases hth : (drain ctx (b ++ r).length ⟨b ++ r, false⟩).thrown.isSome = true
        · rw [receive_cons_thrown ctx b r reads hth]
          exact .inl hth
        · rw [receive_cons ctx b r reads rfl (by simpa using hth)]
          exact .inr (.inr ⟨p, _, i, by rw [trace_append, hq]; rfl, hi⟩)

theorem eq_of_not_stopped {conn : PeerConnection} (h : conn.stopped = false) :
    conn = ⟨conn.response, false⟩ := by
  cases conn
  cases h
  rfl

theorem frame_at {pre post done rest : List Msg} {m : Msg} {p : Parsed} {q : List Parsed}
    (hms : pre ++ m :: post = done ++ rest)
    (h : pre.map Msg.frame ++ p :: q = done.map Msg.frame) : p = m.frame := by
  obtain ⟨pre', post', rfl, hpre, hpost⟩ := List.map_eq_append_iff.1 h.symm
  obtain ⟨m', post'', rfl, rfl, -⟩ := List.map_eq_cons_iff.1 hpost
  have hlen : pre.length = pre'.length := by simpa using (congrArg List.length hpre).symm
  rw [List.append_assoc, List.cons_append] at hms
  have := (List.append_inj hms hlen).2
  rw [(List.cons.inj this).1]

/-- What is lost in one read stays lost. -/
theorem receive_lost (ctx : PeerContext) {ms : List Msg} {b r : Bytes} (reads : List Bytes)
    (hU : b ++ (r :: reads).flatten <+: Msg.encodeAll ms)
    (h : Lost ms (b ++ r) (drain ctx (b ++ r).length ⟨b ++ r, false⟩)) (left : Bytes) :
    ¬Delivers (receive ctx ⟨b, false⟩ (r :: reads))
      (split ms (b ++ (r :: reads).flatten)).1 left := by
  intro hin
  obtain ⟨h1, -, h3⟩ := hin
  by_cases hth : (drain ctx (b ++ r).length ⟨b ++ r, false⟩).thrown.isSome = true
  · rw [receive_cons_thrown ctx b r reads hth] at h3
    rw [h3] at hth
    cases hth
  rw [receive_cons ctx b r reads rfl (by simpa using hth)] at h1 h3
  rw [trace_append] at h1
  have hbr : b ++ r <+: Msg.encodeAll ms := by
    refine List.IsPrefix.trans ?_ hU
    rw [List.flatten_cons, ← List.append_assoc]
    exact List.prefix_append _ _
  rcases h with h | ⟨pre, m, post, p, q, hms, htr, hp⟩ | ⟨pre, m, post, hms, htr, hst, hw⟩
  · exact hth h
  · -- the parse stands where the frame of `m` should
    rw [htr, List.append_assoc, List.cons_append] at h1
    exact hp (frame_at (hms.symm.trans (split_spec hU).1) h1)
  · -- the message that waits is complete, but a handshake comes out of the buffer
    obtain ⟨hspec, hb, -, -⟩ := split_spec hbr
    have hdone : ∃ d, (split ms (b ++ (r :: reads).flatten)).1 = pre ++ m :: d := by
      have := split_append (split ms (b ++ r)).1 (split ms (b ++ r)).2.1
        ((split ms (b ++ r)).2.2 ++ reads.flatten)
      rw [← hspec, ← List.append_assoc, ← hb, List.append_assoc, ← List.flatten_cons] at this
      rw [this, hms]
      exact ⟨post ++ (split (split ms (b ++ r)).2.1 ((split ms (b ++ r)).2.2 ++ reads.flatten)).1,
        by simp⟩
    obtain ⟨d, hd⟩ := hdone
    rw [htr, hd, List.map_append, List.append_cancel_left_eq] at h1
    rw [eq_of_not_stopped hst] at h1 h3
    rcases receive_waiting ctx reads hw with h | h | ⟨p, q, i, h, hi⟩
    · rw [h3] at h
      cases h
    · rw [h] at h1
      cases h1
    · rw [h] at h1
      cases h1
      exact (Msg.calls_of_mem hi).1 i rfl

/-- The connection delivers the complete messages, and keeps the rest, exactly when every read is
clean. -/
theorem receive_delivers (ctx : PeerContext) (reads : List Bytes) {ms : List Msg} {b : Bytes}
    (hs : ∀ m ∈ ms, m.Sized) (hU : b ++ reads.flatten <+: Msg.encodeAll ms) (hb : Cut ms b) :
    Delivers (receive ctx ⟨b, false⟩ reads) (split ms (b ++ reads.flatten)).1
      (split ms (b ++ reads.flatten)).2.2 ↔ CleanReads ms b reads := by
  induction reads generalizing ms b with
  | nil =>
    simp only [List.flatten_nil, List.append_nil, split_of_cut hb]
    exact ⟨fun _ => trivial, fun _ => ⟨rfl, rfl, rfl⟩⟩
  | cons r reads ih =>
    have hbr : b ++ r <+: Msg.encodeAll ms := by
      refine List.IsPrefix.trans ?_ hU
      rw [List.flatten_cons, ← List.append_assoc]
      exact List.prefix_append _ _
    by_cases hc : CleanBuf ms (b ++ r)
    · obtain ⟨hspec, hsplit, -, hcut⟩ := split_spec hbr
      obtain ⟨h1, h2, h3⟩ := drain_clean ctx hbr hc (Nat.le_refl _)
      have happ := split_append (split ms (b ++ r)).1 (split ms (b ++ r)).2.1
        ((split ms (b ++ r)).2.2 ++ reads.flatten)
      rw [← hspec, ← List.append_assoc, ← hsplit, List.append_assoc, ← List.flatten_cons] at happ
      have hU' : (split ms (b ++ r)).2.2 ++ reads.flatten <+:
          Msg.encodeAll (split ms (b ++ r)).2.1 := by
        have := hU
        rw [List.flatten_cons, ← List.append_assoc, hsplit, List.append_assoc, hspec,
          Msg.encodeAll_append, ← hspec, List.prefix_append_right_inj] at this
        exact this
      have ih' := ih (fun m hm => hs m (by rw [hspec]; exact List.mem_append_right _ hm)) hU' hcut
      rw [CleanReads, and_iff_right hc, ← ih', receive_cons ctx b r reads rfl h3, happ, h2]
      unfold Delivers
      rw [trace_append, h1, List.map_append, List.append_cancel_left_eq]
    · refine iff_of_false ?_ fun h => hc h.1
      exact receive_lost ctx reads hU (drain_lost ctx hs hbr hc (Nat.le_refl _)) _

/-! ## Positions -/

/-- Where the `k`-th message of a stream starts. -/
def start (ms : List Msg) (k : Nat) : Nat := (Msg.encodeAll (ms.take k)).length

/-- How much the first `j` reads hold. -/
def boundary (reads : List Bytes) (j : Nat) : Nat := (reads.take j).flatten.length

@[simp] theorem start_zero (ms : List Msg) : start ms 0 = 0 := rfl

@[simp] theorem boundary_zero (reads : List Bytes) : boundary reads 0 = 0 := rfl

theorem start_cons (m : Msg) (ms : List Msg) (k : Nat) :
    start (m :: ms) (k + 1) = m.encode.length + start ms k := by
  simp [start]

theorem boundary_cons (r : Bytes) (reads : List Bytes) (j : Nat) :
    boundary (r :: reads) (j + 1) = r.length + boundary reads j := by
  simp [boundary]

theorem start_append (done rest : List Msg) (k : Nat) :
    start (done ++ rest) (done.length + k) = (Msg.encodeAll done).length + start rest k := by
  rw [start, List.take_length_add_append, Msg.encodeAll_append, List.length_append]
  rfl

theorem start_le (done rest : List Msg) {k : Nat} (h : k ≤ done.length) :
    start (done ++ rest) k ≤ (Msg.encodeAll done).length := by
  rw [start, List.take_append_of_le_length h]
  conv => rhs; rw [← List.take_append_drop k done, Msg.encodeAll_append, List.length_append]
  omega

theorem start_succ {ms : List Msg} {k : Nat} {m : Msg} (h : ms[k]? = some m) :
    start ms (k + 1) = start ms k + m.encode.length := by
  obtain ⟨hk, rfl⟩ := List.getElem?_eq_some_iff.1 h
  rw [start, List.take_succ_eq_append_getElem hk, Msg.encodeAll_append, List.length_append]
  simp [start]

theorem boundary_mono (reads : List Bytes) {i j : Nat} (h : i ≤ j) :
    boundary reads i ≤ boundary reads j := by
  unfold boundary
  obtain ⟨d, rfl⟩ := Nat.exists_eq_add_of_le h
  rw [List.take_add, List.flatten_append, List.length_append]
  omega

theorem boundary_length (reads : List Bytes) :
    boundary reads reads.length = reads.flatten.length := by
  rw [boundary, List.take_length]

theorem boundary_le (reads : List Bytes) (j : Nat) : boundary reads j ≤ reads.flatten.length := by
  rw [← boundary_length]
  by_cases hj : j ≤ reads.length
  · exact boundary_mono reads hj
  · rw [boundary, List.take_of_length_le (by omega), boundary_length]

/-- Every byte arrives in a read. -/
theorem exists_boundary (reads : List Bytes) {n : Nat} (h0 : 0 < n)
    (h : n ≤ reads.flatten.length) :
    ∃ j < reads.length, boundary reads j < n ∧ n ≤ boundary reads (j + 1) := by
  by_contra hnone
  have hall : ∀ j ≤ reads.length, boundary reads j < n := by
    intro j hj
    induction j with
    | zero => exact h0
    | succ j ih =>
      by_contra hge
      exact hnone ⟨j, by omega, ih (by omega), by omega⟩
  have hlast := hall reads.length (Nat.le_refl _)
  rw [boundary_length] at hlast
  omega

theorem slice_length (reads : List Bytes) (j n : Nat) :
    ((reads.flatten.take (boundary reads j)).drop n).length = boundary reads j - n := by
  rw [List.length_drop, List.length_take, Nat.min_eq_left (boundary_le reads j)]

theorem cleanBuf_iff {ms : List Msg} {b : Bytes} :
    CleanBuf ms b ↔ ∀ k m, ms[k]? = some m → start ms k < b.length →
      Message.CleanSlice m (b.drop (start ms k)) := by
  induction ms generalizing b with
  | nil => simp [CleanBuf]
  | cons m ms ih =>
    rw [CleanBuf]
    constructor
    · rintro hc (_ | k) m' hm hk
      · cases hm
        have hne : b ≠ [] := by
          rintro rfl
          simp at hk
        exact (hc.resolve_left hne).1
      · rw [start_cons] at hk ⊢
        have hne : b ≠ [] := by
          rintro rfl
          simp at hk
        have := ih.1 ((hc.resolve_left hne).2 (by omega)) k m' hm
          (by rw [List.length_drop]; omega)
        rwa [List.drop_drop] at this
    · intro h
      by_cases hne : b = []
      · exact .inl hne
      · refine .inr ⟨h 0 m rfl (List.length_pos_iff.2 hne), fun hlen => ih.2 fun k m' hm hk => ?_⟩
        rw [List.length_drop] at hk
        have := h (k + 1) m' hm (by rw [start_cons]; omega)
        rwa [start_cons, ← List.drop_drop] at this

/-- The messages behind those that the first buffer completes. -/
theorem getElem?_rest (done rest : List Msg) (k : Nat) :
    (done ++ rest)[done.length + k]? = rest[k]? := by
  rw [List.getElem?_append_right (Nat.le_add_right _ _), Nat.add_sub_cancel_left]

/-- What a buffer holds of such a message is the same when the reads start behind the first one. -/
theorem slice_rest (done rest : List Msg) {b r left : Bytes}
    (h : b ++ r = Msg.encodeAll done ++ left) (reads : List Bytes) (j k : Nat) :
    ((b ++ (r :: reads).flatten).take (b.length + boundary (r :: reads) (j + 1))).drop
        (start (done ++ rest) (done.length + k)) =
      ((left ++ reads.flatten).take (left.length + boundary reads j)).drop (start rest k) := by
  have hall : b ++ (r :: reads).flatten = Msg.encodeAll done ++ (left ++ reads.flatten) := by
    rw [List.flatten_cons, ← List.append_assoc, h, List.append_assoc]
  have hlen : b.length + r.length = (Msg.encodeAll done).length + left.length := by
    simpa only [List.length_append] using congrArg List.length h
  rw [hall, boundary_cons, ← Nat.add_assoc, hlen, Nat.add_assoc, List.take_length_add_append,
    start_append, List.drop_length_add_append]

/-- Every buffer a message is looked at in: after the read that ends at boundary `j + 1`, unless the
message is complete at the boundary before. -/
theorem cleanReads_iff {ms : List Msg} {b : Bytes} {reads : List Bytes}
    (hU : b ++ reads.flatten <+: Msg.encodeAll ms) (hb : Cut ms b) :
    CleanReads ms b reads ↔ ∀ j < reads.length, ∀ k m, ms[k]? = some m →
      start ms k < b.length + boundary reads (j + 1) →
      b.length + boundary reads j < start ms (k + 1) →
      Message.CleanSlice m
        (((b ++ reads.flatten).take (b.length + boundary reads (j + 1))).drop (start ms k)) := by
  induction reads generalizing ms b with
  | nil => simp [CleanReads]
  | cons r reads ih =>
    have hbr : b ++ r <+: Msg.encodeAll ms := by
      refine List.IsPrefix.trans ?_ hU
      rw [List.flatten_cons, ← List.append_assoc]
      exact List.prefix_append _ _
    obtain ⟨hspec, hsplit, -, hcut⟩ := split_spec hbr
    generalize hd : (split ms (b ++ r)).1 = done at hspec hsplit
    generalize hrst : (split ms (b ++ r)).2.1 = rest at hspec hcut
    generalize hl : (split ms (b ++ r)).2.2 = left at hsplit hcut
    have hU' : left ++ reads.flatten <+: Msg.encodeAll rest := by
      have := hU
      rwa [List.flatten_cons, ← List.append_assoc, hsplit, List.append_assoc, hspec,
        Msg.encodeAll_append, List.prefix_append_right_inj] at this
    have hlen : b.length + r.length = (Msg.encodeAll done).length + left.length := by
      simpa only [List.length_append] using congrArg List.length hsplit
    have hfirst : (b ++ (r :: reads).flatten).take (b.length + r.length) = b ++ r := by
      rw [List.flatten_cons, ← List.append_assoc, ← List.length_append, List.take_left]
    rw [CleanReads, cleanBuf_iff, hrst, hl, ih hU' hcut]
    constructor
    · rintro ⟨h0, hrec⟩ (_ | j) hj k m hm hk hk'
      · rw [boundary_cons, boundary_zero, Nat.add_zero] at hk ⊢
        rw [hfirst]
        exact h0 k m hm (by rwa [List.length_append])
      · rw [boundary_cons] at hk hk'
        have hge : done.length ≤ k := by
          by_contra hlt
          have := start_le done rest (k := k + 1) (by omega)
          rw [← hspec] at this
          omega
        obtain ⟨k', rfl⟩ := Nat.exists_eq_add_of_le hge
        subst hspec
        rw [start_append] at hk
        rw [Nat.add_assoc done.length, start_append] at hk'
        rw [slice_rest done rest hsplit]
        rw [getElem?_rest] at hm
        exact hrec j (by simpa using hj) k' m hm (by omega) (by omega)
    · intro h
      refine ⟨fun k m hm hk => ?_, fun j hj k m hm hk hk' => ?_⟩
      · have hcutk : b.length < start ms (k + 1) := by
          cases ms with
          | nil => cases hm
          | cons m0 ms =>
            rw [start_cons]
            have : b.length < m0.encode.length := hb
            omega
        have := h 0 (by simp) k m hm (by rw [boundary_cons, boundary_zero]; simpa using hk)
          (by simpa using hcutk)
        rwa [boundary_cons, boundary_zero, Nat.add_zero, hfirst] at this
      · subst hspec
        have := h (j + 1) (by simpa using hj) (done.length + k) m (by rwa [getElem?_rest])
          (by rw [boundary_cons, start_append]; omega)
          (by rw [boundary_cons, Nat.add_assoc done.length, start_append]; omega)
        rwa [slice_rest done rest hsplit] at this

end PeerConnection

end Zit
