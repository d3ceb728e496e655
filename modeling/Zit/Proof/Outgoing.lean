import Zit.Lib.Run
import Zit.Outgoing

/-!
# The outgoing queue

`m_msg` is not empty exactly while a message waits for the connection or is being sent, so that
`write` starts at most one chain of resolving, connecting and sending (`InOrder`). What has been
passed to `async_write` is a prefix of what has been passed to `write` (`fifo_run`).
-/

set_option autoImplicit false

namespace Zit

open Lib

namespace Outgoing

/-- A call with a message that is not empty, on a connection that is not stopped. -/
def Event.Proper : Event → Prop
  | .write call => call.msg ≠ []
  | .sent _ _ calls => ∀ call ∈ calls, call.msg ≠ []
  | .stop => False
  | _ => True

def Step (c : Outgoing) (e : Event) (c' : Outgoing) : Prop := e.Proper ∧ step c e = some c'

def isWrite : Pending → Bool
  | .write _ _ => true
  | _ => false

/-- The messages of the calls that the handler of `async_write` leads to. -/
def nested (startRead : Bool) (calls : List Call) : List Bytes :=
  if startRead then calls.map (·.msg) else []

/-- Messages are sent in order, one at a time and each as it was, and the next one is started when
one has been sent. -/
structure Fifo (c : Outgoing) : Prop where
  order : c.passed <+: c.written
  single : (c.pending.filter isWrite).length ≤ 1
  unchanged : ∀ buffer startRead, .write buffer startRead ∈ c.pending → c.msg = buffer
  next : ∀ k err calls buffer startRead c', c.pending[k]? = some (.write buffer startRead) →
    Step c (.sent k err calls) c' → ∀ msg queue,
      c.sendQueue ++ nested startRead calls = msg :: queue →
        c'.passed = c.passed ++ [msg] ∧ c'.pending = [.write msg false] ∧ c'.sendQueue = queue

/-! ## The three phases -/

/-- Nothing is to be sent. -/
structure Idle (c : Outgoing) : Prop where
  msg : c.msg = []
  queue : c.sendQueue = []
  pending : c.pending = []
  endpoint : c.connected = false → c.endpoint = []
  written : c.written = c.passed

/-- The first message waits for the connection, or the connection has failed. -/
structure Connecting (c : Outgoing) : Prop where
  msg : c.msg ≠ []
  connected : c.connected = false
  pending : c.pending = [] ∨ (∃ url, c.pending = [.resolve url]) ∨
    ∃ endpoint next, c.pending = [.connect endpoint next]
  written : c.written = c.passed ++ c.msg :: c.sendQueue

structure Sending (c : Outgoing) : Prop where
  msg : c.msg ≠ []
  connected : c.connected = true
  pending : ∃ startRead, c.pending = [.write c.msg startRead]
  written : c.written = c.passed ++ c.sendQueue

structure InOrder (c : Outgoing) : Prop where
  running : c.stopped = false
  full : ∀ msg ∈ c.sendQueue, msg ≠ []
  phase : c.Idle ∨ c.Connecting ∨ c.Sending

theorem InOrder.start : InOrder {} := ⟨rfl, nofun, .inl ⟨rfl, rfl, rfl, fun _ => rfl, rfl⟩⟩

/-! ## The functions -/

section
variable {c : Outgoing}

theorem send_ok (hs : c.stopped = false) (hm : c.msg ≠ []) (startRead : Bool) :
    send startRead c = .ok () { c with
      passed := c.passed ++ [c.msg], pending := c.pending ++ [.write c.msg startRead] } := by
  have hrunning : ¬c.stopped = true := by rw [hs]; exact Bool.false_ne_true
  simp only [send, bind, EStateM.bind, get_run]
  rw [if_neg hrunning, if_neg hm]
  rfl

/-- While something is being sent, or waits to be, messages are queued. -/
theorem write_queued (hm : c.msg ≠ []) (call : Call) : write call c = .ok () { c with
    written := c.written ++ [call.msg], sendQueue := c.sendQueue ++ [call.msg] } := by
  simp only [write, bind, EStateM.bind, get_run, modify_run, hm, ne_eq, not_false_eq_true, if_true]
  rfl

theorem forM_write_queued (hm : c.msg ≠ []) (calls : List Call) : forM calls write c = .ok () { c with
    written := c.written ++ calls.map (·.msg), sendQueue := c.sendQueue ++ calls.map (·.msg) } := by
  induction calls generalizing c with
  | nil =>
    simp only [List.map_nil, List.append_nil]
    rfl
  | cons call calls ih =>
    rw [List.forM_cons]
    simp only [bind, EStateM.bind, write_queued hm call]
    rw [ih (by exact hm)]
    simp only [List.map_cons, List.append_assoc, List.singleton_append]

/-! ## Steps -/

/-- A call of `write` when nothing is to be sent: the message is sent on a connected socket, or it
waits while its url is resolved. -/
theorem Idle.write (h : c.Idle) (hs : c.stopped = false) {call : Call} (hm : call.msg ≠ []) :
    InOrder (final (write call) c) := by
  -- what is sent at once
  have hsent (c' : Outgoing) (startRead : Bool) (hc : c'.connected = true)
      (hmsg : c'.msg = call.msg) (hqueue : c'.sendQueue = []) (hpending : c'.pending = [])
      (hwritten : c'.written = c'.passed ++ [call.msg]) (hrun : c'.stopped = false) :
      wp (send startRead) c' (fun _ => InOrder) fun _ => InOrder := by
    have hne : c'.msg ≠ [] := by rwa [hmsg]
    refine wp_intro (send_ok hrun hne startRead) ⟨hrun, ?_, .inr (.inr ⟨hne, hc, ?_, ?_⟩)⟩
    · rw [hqueue]
      exact nofun
    · exact ⟨startRead, by rw [hpending]; rfl⟩
    · rw [hwritten, hqueue, hmsg, List.append_nil]
  have hfirst : c.written ++ [call.msg] = c.passed ++ call.msg :: c.sendQueue := by
    rw [h.written, h.queue]
  refine final_of_wp ?_
  unfold Outgoing.write
  simp only [wp_bind, wp_modify, wp_get]
  refine wp_ite (fun hne => absurd h.msg hne) fun _ => ?_
  simp only [wp_bind, wp_set]
  refine wp_ite (fun _ => ?_) fun _ => wp_ite (fun hc => ?_) fun hc => ?_
  · simp only [wp_bind, wp_modify]
    exact hsent _ true rfl rfl h.queue h.pending (by rw [hfirst, h.queue]) hs
  · have hconnected : c.connected = true := by
      rcases hc with hc | hc
      · exact hc
      · by_contra hno
        exact hc (h.endpoint (by simpa using hno))
    have hrunning : ¬c.stopped = true := by rw [hs]; exact Bool.false_ne_true
    unfold handleConnect
    simp only [wp_bind, wp_get]
    refine wp_ite (fun hst => absurd hst hrunning) fun _ => wp_ite (fun _ => ?_) fun hno =>
      absurd rfl hno
    refine wp_ite (fun hno => ?_) fun _ => ?_
    · rw [hconnected] at hno
      cases hno
    · exact hsent _ false hconnected rfl h.queue h.pending (by rw [hfirst, h.queue]) hs
  · have hconnected : c.connected = false := by
      by_contra hyes
      exact hc (.inl (by simpa using hyes))
    have hfull : ∀ msg ∈ c.sendQueue, msg ≠ [] := by
      rw [h.queue]
      exact nofun
    cases call.url with
    | none => exact ⟨hs, hfull, .inr (.inl ⟨hm, hconnected, .inl h.pending, hfirst⟩)⟩
    | some url =>
      refine ⟨hs, hfull, .inr (.inl ⟨hm, hconnected, .inr (.inl ⟨url, ?_⟩), hfirst⟩)⟩
      show c.pending ++ [_] = _
      rw [h.pending]
      rfl

theorem InOrder.write (h : InOrder c) {call : Call} (hm : call.msg ≠ []) :
    InOrder (final (write call) c) := by
  by_cases hmsg : c.msg = []
  · rcases h.phase with hi | hc | hs
    · exact hi.write h.running hm
    · exact absurd hmsg hc.msg
    · exact absurd hmsg hs.msg
  · rw [final, write_queued hmsg call]
    refine ⟨h.running, ?_, ?_⟩
    · intro msg hmem
      rcases List.mem_append.1 hmem with hmem | hmem
      · exact h.full msg hmem
      · rw [List.mem_singleton.1 hmem]
        exact hm
    · rcases h.phase with hi | hc | hs
      · exact absurd hi.msg hmsg
      · refine .inr (.inl ⟨hc.msg, hc.connected, hc.pending, ?_⟩)
        rw [hc.written, List.append_assoc]
        rfl
      · refine .inr (.inr ⟨hs.msg, hs.connected, hs.pending, ?_⟩)
        rw [hs.written, List.append_assoc]

/-- The end of `async_resolve`, which is no longer pending. -/
theorem Connecting.resolved (h : c.Connecting) (hp : c.pending = []) (hs : c.stopped = false)
    (hfull : ∀ msg ∈ c.sendQueue, msg ≠ []) (endpoints : Option (List Bytes)) (bindFails : Bool) :
    InOrder (final (handleResolve endpoints bindFails) c) := by
  have hrest : InOrder c := ⟨hs, hfull, .inr (.inl h)⟩
  refine final_of_wp ?_
  unfold handleResolve
  cases endpoints with
  | none => exact hrest
  | some endpoints =>
    cases endpoints with
    | nil => exact hrest
    | cons endpoint rest =>
      simp only [wp_bind, wp_modify]
      refine wp_ite (fun _ => ?_) fun _ => ?_
      · exact ⟨hs, hfull, .inr (.inl ⟨h.msg, h.connected, h.pending, h.written⟩)⟩
      · refine ⟨hs, hfull, .inr (.inl ⟨h.msg, h.connected, .inr (.inr ⟨endpoint, rest, ?_⟩),
          h.written⟩)⟩
        show c.pending ++ [_] = _
        rw [hp]
        rfl

/-- The end of `async_connect`: the message is sent, or the next endpoint is tried. -/
theorem Connecting.connect (h : c.Connecting) (hp : c.pending = []) (hs : c.stopped = false)
    (hfull : ∀ msg ∈ c.sendQueue, msg ≠ []) (err : Bool) (next : List Bytes) :
    InOrder (final (handleConnect err next) c) := by
  have hrunning : ¬c.stopped = true := by rw [hs]; exact Bool.false_ne_true
  refine final_of_wp ?_
  unfold handleConnect
  simp only [wp_bind, wp_get]
  refine wp_ite (fun hst => absurd hst hrunning) fun _ => wp_ite (fun _ => ?_) fun _ => ?_
  · refine wp_ite (fun _ => ?_) fun hno => ?_
    · simp only [wp_bind, wp_set]
      refine wp_intro (@send_ok { c with connected := true } hs h.msg true)
        ⟨hs, hfull, .inr (.inr ⟨h.msg, rfl, ?_, ?_⟩)⟩
      · exact ⟨true, by rw [hp]; rfl⟩
      · show c.written = (c.passed ++ [c.msg]) ++ c.sendQueue
        rw [h.written, List.append_assoc]
        rfl
    · rw [h.connected] at hno
      exact absurd rfl hno
  · cases next with
    | nil => exact ⟨hs, hfull, .inr (.inl ⟨h.msg, h.connected, h.pending, h.written⟩)⟩
    | cons endpoint rest =>
      refine ⟨hs, hfull, .inr (.inl ⟨h.msg, h.connected, .inr (.inr ⟨endpoint, rest, ?_⟩),
        h.written⟩)⟩
      show c.pending ++ [_] = _
      rw [hp]
      rfl

/-- The first message of the queue is sent. -/
theorem sendNext_ok (hs : c.stopped = false) (hfull : ∀ msg ∈ c.sendQueue, msg ≠ []) :
    sendNext c = .ok () (match c.sendQueue with
      | [] => { c with msg := [] }
      | msg :: queue => { c with
        msg, sendQueue := queue
        passed := c.passed ++ [msg], pending := c.pending ++ [.write msg false] }) := by
  unfold sendNext
  simp only [bind, EStateM.bind, get_run]
  cases hq : c.sendQueue with
  | nil => rfl
  | cons msg queue =>
    rw [hq] at hfull
    exact @send_ok { c with msg, sendQueue := queue } hs (hfull msg List.mem_cons_self) false

/-- The end of `async_write`; what was written in the handler comes behind the queue. -/
theorem handleWrite_eq (hmsg : c.msg ≠ []) (hs : c.stopped = false) (startRead : Bool)
    (calls : List Call) : handleWrite startRead calls c = sendNext { c with
      written := c.written ++ nested startRead calls
      sendQueue := c.sendQueue ++ nested startRead calls } := by
  have hrunning : ¬c.stopped = true := by rw [hs]; exact Bool.false_ne_true
  unfold handleWrite nested
  simp only [bind, EStateM.bind, get_run]
  rw [if_neg hrunning]
  cases startRead with
  | true =>
    simp only [if_true, EStateM.bind, forM_write_queued hmsg calls]
  | false =>
    simp only [Bool.false_eq_true, if_false, List.append_nil]

theorem final_handleWrite (hmsg : c.msg ≠ []) (hs : c.stopped = false) {startRead : Bool}
    {calls : List Call} (hfull : ∀ msg ∈ c.sendQueue ++ nested startRead calls, msg ≠ []) :
    final (handleWrite startRead calls) c = match c.sendQueue ++ nested startRead calls with
      | [] => { c with msg := [], written := c.written ++ nested startRead calls, sendQueue := [] }
      | msg :: queue => { c with
        msg, written := c.written ++ nested startRead calls, sendQueue := queue
        passed := c.passed ++ [msg], pending := c.pending ++ [.write msg false] } := by
  have hnext := @sendNext_ok { c with
    written := c.written ++ nested startRead calls
    sendQueue := c.sendQueue ++ nested startRead calls } hs hfull
  rw [final, handleWrite_eq hmsg hs, hnext]
  cases c.sendQueue ++ nested startRead calls <;> rfl

theorem Sending.sent (h : c.Sending) (hs : c.stopped = false) {startRead : Bool}
    {calls : List Call} (hfull : ∀ msg ∈ c.sendQueue ++ nested startRead calls, msg ≠ []) :
    InOrder (final (handleWrite startRead calls) { c with pending := [] }) := by
  rw [@final_handleWrite { c with pending := [] } h.msg hs _ _ hfull]
  dsimp only
  cases hq : c.sendQueue ++ nested startRead calls with
  | nil =>
    obtain ⟨hqueue, hnested⟩ := List.append_eq_nil_iff.1 hq
    refine ⟨hs, nofun, .inl ⟨rfl, rfl, rfl, fun hno => ?_, ?_⟩⟩
    · exact absurd (h.connected.symm.trans hno) nofun
    · show c.written ++ nested startRead calls = c.passed
      rw [h.written, hqueue, hnested, List.append_nil, List.append_nil]
  | cons msg queue =>
    rw [hq] at hfull
    refine ⟨hs, fun m hm => hfull m (List.mem_cons_of_mem _ hm),
      .inr (.inr ⟨hfull msg List.mem_cons_self, h.connected, ⟨false, rfl⟩, ?_⟩)⟩
    show c.written ++ nested startRead calls = (c.passed ++ [msg]) ++ queue
    rw [h.written, List.append_assoc, hq, List.append_assoc]
    rfl

end

/-! ## Runs -/

section
variable {c c' : Outgoing}

/-- The operation that ends is the only one. -/
theorem pending_single {op : Pending} {k : Nat} {pending : List Pending} (hp : pending = [op])
    {op' : Pending} (h : pending[k]? = some op') : op' = op ∧ pending.eraseIdx k = [] := by
  subst hp
  cases k with
  | zero => exact ⟨(Option.some.inj h).symm, rfl⟩
  | succ k => cases h

/-- An operation that is not a write belongs to a message that waits for the connection. -/
theorem InOrder.connecting (h : InOrder c) {k : Nat} {op : Pending} (hk : c.pending[k]? = some op)
    (hop : isWrite op = false) : c.Connecting ∧ c.pending.eraseIdx k = [] := by
  rcases h.phase with hi | hc | hs
  · rw [hi.pending] at hk
    cases hk
  · refine ⟨hc, ?_⟩
    rcases hc.pending with hp | ⟨url, hp⟩ | ⟨endpoint, next, hp⟩
    · rw [hp] at hk
      cases hk
    · exact (pending_single hp hk).2
    · exact (pending_single hp hk).2
  · obtain ⟨startRead, hp⟩ := hs.pending
    obtain ⟨rfl, -⟩ := pending_single hp hk
    cases hop

/-- A write that is pending is the one of `m_msg`. -/
theorem InOrder.sending (h : InOrder c) {k : Nat} {buffer : Bytes} {startRead : Bool}
    (hk : c.pending[k]? = some (.write buffer startRead)) :
    c.Sending ∧ c.msg = buffer ∧ c.pending.eraseIdx k = [] := by
  rcases h.phase with hi | hc | hs
  · rw [hi.pending] at hk
    cases hk
  · rcases hc.pending with hp | ⟨url, hp⟩ | ⟨endpoint, next, hp⟩
    · rw [hp] at hk
      cases hk
    · cases (pending_single hp hk).1
    · cases (pending_single hp hk).1
  · obtain ⟨startRead', hp⟩ := hs.pending
    obtain ⟨heq, herase⟩ := pending_single hp hk
    cases heq
    exact ⟨hs, rfl, herase⟩

theorem InOrder.full_nested (h : InOrder c) {calls : List Call}
    (hcalls : ∀ call ∈ calls, call.msg ≠ []) (startRead : Bool) :
    ∀ msg ∈ c.sendQueue ++ nested startRead calls, msg ≠ [] := by
  intro msg hmem
  rcases List.mem_append.1 hmem with hmem | hmem
  · exact h.full msg hmem
  · unfold nested at hmem
    split at hmem
    · obtain ⟨call, hcall, rfl⟩ := List.mem_map.1 hmem
      exact hcalls call hcall
    · cases hmem

/-- The message, when the operation it waited for has ended. -/
theorem Connecting.idle (h : c.Connecting) : Connecting { c with pending := [] } :=
  ⟨h.msg, h.connected, .inl rfl, h.written⟩

theorem InOrder.step (h : InOrder c) {e : Event} (hs : Step c e c') : InOrder c' := by
  obtain ⟨hproper, hs⟩ := hs
  obtain ⟨⟨pending, m⟩, hm, rfl⟩ := Option.map_eq_some_iff.1 hs
  cases e with
  | write call =>
    obtain ⟨rfl, rfl⟩ := Prod.mk.inj (Option.some.inj hm)
    exact h.write hproper
  | resolved k endpoints bindFails =>
    cases hk : c.pending[k]? with
    | none => simp [handler, hk] at hm
    | some op =>
      cases op with
      | resolve url =>
        simp only [handler, hk, Option.some_inj, Prod.mk.injEq] at hm
        obtain ⟨rfl, rfl⟩ := hm
        obtain ⟨hc, herase⟩ := h.connecting hk rfl
        rw [herase]
        exact hc.idle.resolved rfl h.running h.full endpoints bindFails
      | connect _ _ => simp [handler, hk] at hm
      | write _ _ => simp [handler, hk] at hm
  | connected k err =>
    cases hk : c.pending[k]? with
    | none => simp [handler, hk] at hm
    | some op =>
      cases op with
      | resolve _ => simp [handler, hk] at hm
      | connect endpoint next =>
        simp only [handler, hk, Option.some_inj, Prod.mk.injEq] at hm
        obtain ⟨rfl, rfl⟩ := hm
        obtain ⟨hc, herase⟩ := h.connecting hk rfl
        rw [herase]
        exact hc.idle.connect rfl h.running h.full err next
      | write _ _ => simp [handler, hk] at hm
  | sent k err calls =>
    cases hk : c.pending[k]? with
    | none => simp [handler, hk] at hm
    | some op =>
      cases op with
      | resolve _ => simp [handler, hk] at hm
      | connect _ _ => simp [handler, hk] at hm
      | write buffer startRead =>
        simp only [handler, hk, Option.some_inj, Prod.mk.injEq] at hm
        obtain ⟨rfl, rfl⟩ := hm
        obtain ⟨hsending, -, herase⟩ := h.sending hk
        rw [herase]
        exact hsending.sent h.running (h.full_nested hproper startRead)
  | stop => exact hproper.elim

/-- In order, whatever comes next. -/
theorem InOrder.fifo (h : InOrder c) : Fifo c := by
  refine ⟨?_, ?_, fun buffer startRead hmem => ?_, ?_⟩
  · rcases h.phase with hi | hc | hs
    · exact ⟨[], by rw [hi.written, List.append_nil]⟩
    · exact ⟨_, hc.written.symm⟩
    · exact ⟨_, hs.written.symm⟩
  · rcases h.phase with hi | hc | hs
    · rw [hi.pending]
      exact Nat.zero_le 1
    · rcases hc.pending with hp | ⟨url, hp⟩ | ⟨endpoint, next, hp⟩ <;> rw [hp] <;>
        exact Nat.zero_le 1
    · obtain ⟨startRead, hp⟩ := hs.pending
      rw [hp]
      exact Nat.le_refl 1
  · obtain ⟨k, hk⟩ := List.mem_iff_getElem?.1 hmem
    exact (h.sending hk).2.1
  · intro k err calls buffer startRead c' hk hstep msg queue hq
    obtain ⟨hproper, hstep⟩ := hstep
    obtain ⟨hsending, -, herase⟩ := h.sending hk
    obtain ⟨⟨pending, m⟩, hm, rfl⟩ := Option.map_eq_some_iff.1 hstep
    simp only [handler, hk, Option.some_inj, Prod.mk.injEq] at hm
    obtain ⟨rfl, rfl⟩ := hm
    dsimp only
    rw [herase, @final_handleWrite { c with pending := [] } hsending.msg h.running _ _
      (h.full_nested hproper startRead)]
    dsimp only
    rw [hq]
    exact ⟨rfl, rfl, rfl⟩

/-- In every state that calls of `write` and the ends of the operations lead to, in any order. -/
theorem fifo_run {es : List Event} (hr : Run Step {} es c) : Fifo c :=
  (hr.inv (I := InOrder) (fun _ _ _ h hs => h.step hs) .start).fifo

end

/-- Two messages are written before there is a connection, which fails for the first endpoint; a
third one comes in the handler of the first. -/
def threeMessages : List Event :=
  [.write ⟨some [117], false, [1]⟩, .write ⟨some [117], false, [2]⟩,
    .resolved 0 (some [[97], [98]]) false, .connected 0 true, .connected 0 false,
    .sent 0 false [⟨some [117], true, [3]⟩], .sent 0 true []]

theorem fifo_run_three : ∃ c, Run Step {} threeMessages c ∧ c.passed = [[1], [2], [3]] ∧ Fifo c := by
  have hproper : ∀ e ∈ threeMessages, e.Proper := by
    simp [threeMessages, Event.Proper]
  have hcheck : (threeMessages.foldlM step {}).map (·.passed) = some [[1], [2], [3]] := by
    decide +kernel
  obtain ⟨c, hc, hpassed⟩ := Option.map_eq_some_iff.1 hcheck
  have hr : Run Step {} threeMessages c :=
    (Run.of_foldlM hc).mono_mem fun e he _ _ h => ⟨hproper e he, h⟩
  exact ⟨c, hr, hpassed, fifo_run hr⟩

end Outgoing

end Zit
