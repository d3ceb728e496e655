import Zit.Proof.Front

/-!
# No message before the handshake

`Message.parse` keeps no record of the handshakes it has seen, so whether it acts only behind a
matching one is up to the peer. `heard` is what the buffers it looks at bring, and `guarded_iff` says
when that keeps every call behind the torrent's own handshake.
-/

set_option autoImplicit false

namespace Zit

open Lib

/-- Something a peer says: a handshake, with a bitfield that is not empty or without, or a message
that is acted on. -/
inductive Heard
  | handshake (infoHash : Sha1) (pieces : Bool)
  | message
  deriving DecidableEq, Repr

/-- Something the connection does: it has checked an info hash, or acts on a message. -/
inductive Deed
  | checked (infoHash : Sha1)
  | acted
  deriving DecidableEq, Repr

def Deed.hash? : Deed → Option Sha1
  | .checked infoHash => some infoHash
  | .acted => none

def PeerCall.deed : PeerCall → Option Deed
  | .verifyInfoHash infoHash => some (.checked infoHash)
  | c => if c.acts then some .acted else none

/-- Every action comes after the check of a handshake with this info hash, and of no other. -/
def Guarded (infoHash : Sha1) (deeds : List Deed) : Prop :=
  ∀ pre post, deeds = pre ++ .acted :: post →
    .checked infoHash ∈ pre ∧ ∀ h, .checked h ∈ pre → h = infoHash

/-! ## What is heard -/

/-- What a buffer brings: a handshake that is not waited for, or the message at its front. -/
def hear (b : Bytes) : Option Heard :=
  match HandshakeMsg.parse b with
  | .error _ => none
  | .ok (some hs) =>
    if hs.consumed = 0 then none else some (.handshake hs.infoHash (hs.bitfield.size != 0))
  | .ok none =>
    match front b with
    | .call _ => some .message
    | _ => none

namespace Heard

/-- The connection would act on it. -/
def acts (infoHash : Sha1) : Heard → Bool
  | .handshake h pieces => h == infoHash && pieces
  | .message => true

/-- A handshake for another torrent. -/
def foreign (infoHash : Sha1) : Heard → Bool
  | .handshake h _ => h != infoHash
  | .message => false

def hashes : Heard → List Sha1
  | .handshake h _ => [h]
  | .message => []

def deeds (infoHash : Sha1) (x : Heard) : List Deed :=
  x.hashes.map .checked ++ if x.acts infoHash then [.acted] else []

end Heard

/-- The peer says nothing to act on; or it opens with a handshake for this torrent, and says nothing
to act on after a handshake for another one. -/
def Greeted (infoHash : Sha1) (hs : List Heard) : Prop :=
  (∀ x ∈ hs, x.acts infoHash = false) ∨
    (∃ pieces, hs.head? = some (.handshake infoHash pieces)) ∧
      hs.Pairwise fun x y => x.foreign infoHash = true → y.acts infoHash = false

namespace PeerConnection

variable (ctx : PeerContext)

/-- The buffers `drain` looks at. -/
def drainBuffers : Nat → PeerConnection → List Bytes
  | 0, _ => []
  | turns + 1, conn =>
    if conn.response.isEmpty then []
    else
      match Message.parse ctx conn.response with
      | .error _ => [conn.response]
      | .ok p =>
        if p.consumed = 0 then [conn.response]
        else conn.response :: drainBuffers turns
          ⟨conn.response.drop p.consumed, conn.stopped || p.calls.contains .stop⟩

/-- The buffers the reads of a connection make it look at. -/
def buffers : PeerConnection → List Bytes → List Bytes
  | _, [] => []
  | conn, data :: reads =>
    let response := conn.response ++ data
    let looked := if conn.stopped then []
      else drainBuffers ctx response.length { conn with response }
    let r := handleResponse ctx conn data
    if r.thrown.isSome then looked else looked ++ buffers r.conn reads

/-- What the peer says on a new connection. -/
def heard (reads : List Bytes) : List Heard := (buffers ctx init reads).filterMap hear

/-- The deeds of a new connection. -/
def deeds (reads : List Bytes) : List Deed :=
  ((receive ctx init reads).parsed.flatMap (·.calls)).filterMap PeerCall.deed

end PeerConnection

/-! ## One buffer -/

/-- The calls `Message.parse` makes. -/
def callsOf : Except Exn Parsed → List PeerCall
  | .ok p => p.calls
  | .error _ => []

theorem acts_deed {c : PeerCall} (h : c.acts = true) : c.deed = some .acted := by
  cases c <;> first | rfl | cases h

theorem parseHandshake_deeds (ctx : PeerContext) (hs : HandshakeMsg) (h : hs.consumed ≠ 0) :
    (Message.parseHandshake ctx hs).calls.filterMap PeerCall.deed =
      (Heard.handshake hs.infoHash (hs.bitfield.size != 0)).deeds ctx.infoHash := by
  unfold Message.parseHandshake
  rw [if_neg h]
  by_cases hne : ctx.infoHash ≠ hs.infoHash
  · simp [hne, Ne.symm hne, PeerCall.deed, Heard.deeds, Heard.hashes, Heard.acts]
  · rw [if_neg hne]
    by_cases hs0 : hs.bitfield.size = 0 <;> cases ctx.listening <;>
      simp [hs0, not_not.1 hne, PeerCall.deed, PeerCall.acts, Heard.deeds, Heard.hashes, Heard.acts]

/-- What a buffer brings is what its parsing does. -/
theorem parse_deeds (ctx : PeerContext) (b : Bytes) :
    (callsOf (Message.parse ctx b)).filterMap PeerCall.deed =
      ((hear b).map (Heard.deeds ctx.infoHash)).getD [] := by
  unfold Message.parse hear
  cases hp : HandshakeMsg.parse b with
  | error e => rfl
  | ok o =>
    cases o with
    | some hs =>
      show (Message.parseHandshake ctx hs).calls.filterMap PeerCall.deed = _
      by_cases h0 : hs.consumed = 0
      · simp [Message.parseHandshake, h0]
      · rw [parseHandshake_deeds ctx hs h0]
        simp [h0]
    | none =>
      have hfront := parsePrefixed_front b
      show (callsOf (Message.parsePrefixed b)).filterMap PeerCall.deed = _
      cases hf : front b with
      | idle =>
        rw [hf] at hfront
        obtain ⟨n, hn⟩ := hfront
        rw [hn]
        rfl
      | tooLong =>
        rw [hf] at hfront
        rw [show Message.parsePrefixed b = _ from hfront]
        rfl
      | short =>
        rw [hf] at hfront
        obtain ⟨e, he⟩ := hfront
        rw [he]
        rfl
      | call c =>
        rw [hf] at hfront
        obtain ⟨n, hn⟩ := hfront
        rw [hn]
        simp [callsOf, acts_deed (front_acts hf), Heard.deeds, Heard.hashes, Heard.acts]

/-! ## All buffers of a connection -/

namespace PeerConnection

variable {ctx : PeerContext}

theorem drain_calls (n : Nat) (conn : PeerConnection) :
    (drain ctx n conn).parsed.flatMap (·.calls) =
      (drainBuffers ctx n conn).flatMap fun b => callsOf (Message.parse ctx b) := by
  induction n generalizing conn with
  | zero => rfl
  | succ n ih =>
    unfold drain drainBuffers
    by_cases he : conn.response.isEmpty
    · simp [he]
    · rw [if_neg he, if_neg he]
      cases hp : Message.parse ctx conn.response with
      | error e => simp [hp, callsOf]
      | ok p =>
        by_cases hc : p.consumed = 0
        · simp [hp, hc, callsOf]
        · simp [hp, hc, callsOf, ih]

theorem receive_calls (conn : PeerConnection) (reads : List Bytes) :
    (receive ctx conn reads).parsed.flatMap (·.calls) =
      (buffers ctx conn reads).flatMap fun b => callsOf (Message.parse ctx b) := by
  induction reads generalizing conn with
  | nil => rfl
  | cons data reads ih =>
    have hone : (handleResponse ctx conn data).parsed.flatMap (·.calls) =
        (if conn.stopped then [] else drainBuffers ctx (conn.response ++ data).length
          { conn with response := conn.response ++ data }).flatMap fun b =>
            callsOf (Message.parse ctx b) := by
      unfold handleResponse
      split
      · rfl
      · exact drain_calls _ _
    unfold receive buffers
    dsimp only
    split
    · exact hone
    · rw [List.flatMap_append, List.flatMap_append, hone, ih]

theorem deeds_eq (reads : List Bytes) :
    deeds ctx reads = (heard ctx reads).flatMap (Heard.deeds ctx.infoHash) := by
  unfold deeds heard
  rw [receive_calls]
  induction buffers ctx init reads with
  | nil => rfl
  | cons b bs ih =>
    rw [List.flatMap_cons, List.filterMap_append, ih, parse_deeds, List.filterMap_cons]
    cases hear b with
    | none => rfl
    | some x => rfl

end PeerConnection

/-! ## Guarded deeds -/

section
variable {infoHash : Sha1} {seen : List Sha1}

/-- A handshake for this torrent has been seen, and none for another one. -/
def Trusted (infoHash : Sha1) (seen : List Sha1) : Prop :=
  infoHash ∈ seen ∧ ∀ h ∈ seen, h = infoHash

/-- `Guarded` when the info hashes `seen` have been checked already. -/
def GuardedFrom (infoHash : Sha1) (seen : List Sha1) (deeds : List Deed) : Prop :=
  ∀ pre post, deeds = pre ++ .acted :: post → Trusted infoHash (pre.filterMap Deed.hash? ++ seen)

theorem mem_hashes {pre : List Deed} {h : Sha1} :
    h ∈ pre.filterMap Deed.hash? ↔ .checked h ∈ pre := by
  rw [List.mem_filterMap]
  constructor
  · intro hin
    obtain ⟨d, hd, hh⟩ := hin
    cases d with
    | checked k =>
      cases hh
      exact hd
    | acted => cases hh
  · intro hd
    exact ⟨_, hd, rfl⟩

theorem guardedFrom_nil {deeds : List Deed} :
    GuardedFrom infoHash [] deeds ↔ Guarded infoHash deeds := by
  simp only [GuardedFrom, Guarded, Trusted, List.append_nil, mem_hashes]

theorem guardedFrom_checked {h : Sha1} {deeds : List Deed} :
    GuardedFrom infoHash seen (.checked h :: deeds) ↔ GuardedFrom infoHash (h :: seen) deeds := by
  -- the hash moves from the front of the deeds to those seen before
  have hmove (pre : List Deed) : Trusted infoHash
      ((.checked h :: pre).filterMap Deed.hash? ++ seen) ↔
        Trusted infoHash (pre.filterMap Deed.hash? ++ h :: seen) := by
    simp only [Trusted, List.filterMap_cons, Deed.hash?, List.cons_append, List.mem_cons,
      List.mem_append]
    grind
  constructor
  · intro hg pre post he
    exact (hmove pre).1 (hg (.checked h :: pre) post (by rw [he]; rfl))
  · intro hg pre post he
    cases pre with
    | nil => cases he
    | cons d pre =>
      obtain ⟨rfl, hrest⟩ := List.cons_eq_cons.1 he
      exact (hmove pre).2 (hg pre post hrest)

theorem guardedFrom_acted {deeds : List Deed} : GuardedFrom infoHash seen (.acted :: deeds) ↔
    Trusted infoHash seen ∧ GuardedFrom infoHash seen deeds := by
  constructor
  · intro hg
    exact ⟨hg [] deeds rfl, fun pre post he => hg (.acted :: pre) post (by rw [he]; rfl)⟩
  · intro hg pre post he
    cases pre with
    | nil => exact hg.1
    | cons d pre =>
      obtain ⟨rfl, hrest⟩ := List.cons_eq_cons.1 he
      exact hg.2 pre post hrest

/-- What is heard next is acted on only if what was seen up to then can be trusted. -/
theorem guardedFrom_heard (x : Heard) {deeds : List Deed} :
    GuardedFrom infoHash seen (x.deeds infoHash ++ deeds) ↔
      (x.acts infoHash = true → Trusted infoHash (x.hashes ++ seen)) ∧
        GuardedFrom infoHash (x.hashes ++ seen) deeds := by
  have hact (seen' : List Sha1) : GuardedFrom infoHash seen'
      ((if x.acts infoHash then [.acted] else []) ++ deeds) ↔
        (x.acts infoHash = true → Trusted infoHash seen') ∧ GuardedFrom infoHash seen' deeds := by
    cases x.acts infoHash with
    | true => simpa using guardedFrom_acted
    | false => simp
  unfold Heard.deeds
  cases x with
  | message => exact hact seen
  | handshake h pieces =>
    rw [Heard.hashes, List.map_singleton, List.append_assoc, List.singleton_append,
      guardedFrom_checked]
    exact hact (h :: seen)

/-- After a handshake for another torrent nothing may be acted on. -/
theorem guardedFrom_spoiled (hseen : ∃ h ∈ seen, h ≠ infoHash) (hs : List Heard) :
    GuardedFrom infoHash seen (hs.flatMap (Heard.deeds infoHash)) ↔
      ∀ x ∈ hs, x.acts infoHash = false := by
  induction hs generalizing seen with
  | nil => simp [GuardedFrom]
  | cons x hs ih =>
    obtain ⟨h, hh, hne⟩ := hseen
    have hin : h ∈ x.hashes ++ seen := List.mem_append_right _ hh
    have hno : ¬Trusted infoHash (x.hashes ++ seen) := fun hc => hne (hc.2 h hin)
    rw [List.flatMap_cons, guardedFrom_heard, ih ⟨h, hin, hne⟩, List.forall_mem_cons]
    simp [hno]

/-- After a handshake for this torrent only one for another is in the way. -/
theorem guardedFrom_trusted (hseen : Trusted infoHash seen) (hs : List Heard) :
    GuardedFrom infoHash seen (hs.flatMap (Heard.deeds infoHash)) ↔
      hs.Pairwise fun x y => x.foreign infoHash = true → y.acts infoHash = false := by
  induction hs generalizing seen with
  | nil => simp [GuardedFrom]
  | cons x hs ih =>
    rw [List.flatMap_cons, guardedFrom_heard, List.pairwise_cons]
    cases hf : x.foreign infoHash with
    | false =>
      have htrust : Trusted infoHash (x.hashes ++ seen) := by
        cases x with
        | message => exact hseen
        | handshake h pieces =>
          have heq : h = infoHash := by simpa [Heard.foreign] using hf
          exact ⟨List.mem_cons_of_mem _ hseen.1, fun k hk =>
            (List.mem_cons.1 hk).elim (fun he => he.trans heq) (hseen.2 k)⟩
      rw [ih htrust]
      simp [htrust]
    | true =>
      cases x with
      | message => cases hf
      | handshake h pieces =>
        have hne : h ≠ infoHash := by simpa [Heard.foreign] using hf
        have hspoil : ∃ k ∈ (Heard.handshake h pieces).hashes ++ seen, k ≠ infoHash :=
          ⟨h, List.mem_cons_self, hne⟩
        rw [guardedFrom_spoiled hspoil]
        have hacts : (Heard.handshake h pieces).acts infoHash = false := by simp [Heard.acts, hne]
        simp only [hacts, Bool.false_eq_true, false_implies, true_and, true_implies]
        refine ⟨fun hq => ⟨hq, ?_⟩, fun hq => hq.1⟩
        exact List.pairwise_of_forall_mem_list fun y _ z hz _ => hq z hz

theorem guarded_heard (hs : List Heard) :
    Guarded infoHash (hs.flatMap (Heard.deeds infoHash)) ↔ Greeted infoHash hs := by
  rw [← guardedFrom_nil]
  cases hs with
  | nil => simp [GuardedFrom, Greeted]
  | cons x hs =>
    rw [List.flatMap_cons, guardedFrom_heard]
    unfold Greeted
    cases x with
    | message => simp [Trusted, Heard.hashes, Heard.acts]
    | handshake h pieces =>
      by_cases heq : h = infoHash
      · subst heq
        have htrust : Trusted h ((Heard.handshake h pieces).hashes ++ []) := by
          simp [Trusted, Heard.hashes]
        have hnot : (Heard.handshake h pieces).foreign h = false := by simp [Heard.foreign]
        rw [guardedFrom_trusted htrust, List.pairwise_cons]
        simp only [hnot, htrust, List.head?_cons]
        refine ⟨fun hq => .inr ⟨⟨pieces, rfl⟩, by simp, hq.2⟩, fun hq => ⟨by simp, ?_⟩⟩
        rcases hq with hq | hq
        · exact List.pairwise_of_forall_mem_list fun y _ z hz _ =>
            hq z (List.mem_cons_of_mem _ hz)
        · exact hq.2.2
      · have hacts : (Heard.handshake h pieces).acts infoHash = false := by simp [Heard.acts, heq]
        have hspoil : ∃ k ∈ (Heard.handshake h pieces).hashes ++ [], k ≠ infoHash :=
          ⟨h, List.mem_cons_self, heq⟩
        rw [guardedFrom_spoiled hspoil, List.forall_mem_cons]
        simp [hacts, heq]

end

/-- Exactly when the connection acts on nothing without the torrent's own handshake. -/
theorem guarded_iff (ctx : PeerContext) (reads : List Bytes) :
    Guarded ctx.infoHash (PeerConnection.deeds ctx reads) ↔
      Greeted ctx.infoHash (PeerConnection.heard ctx reads) := by
  rw [PeerConnection.deeds_eq]
  exact guarded_heard _

/-- A HAVE on a new connection is acted on at once. -/
theorem unguarded_have : ¬∀ (ctx : PeerContext) (reads : List Bytes), ctx.listening = false →
    Guarded ctx.infoHash (PeerConnection.deeds ctx reads) := by
  intro hall
  let infoHash : Sha1 := .zero
  have hacted : PeerConnection.deeds ⟨infoHash, false⟩ [[0, 0, 0, 5, 4, 0, 0, 0, 7]] = [.acted] := by
    decide +kernel
  have hguarded := hall ⟨infoHash, false⟩ [[0, 0, 0, 5, 4, 0, 0, 0, 7]] rfl
  exact List.not_mem_nil (hguarded [] [] hacted).1

end Zit
