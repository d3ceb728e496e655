import Zit.Lib.Effect
import Zit.Types

/-!
# Sending messages

The sending side of `PeerConnection`: `write`, `handle_resolve`, `send` and `handle_connect`. An
asynchronous operation is pending until its handler is called; the pending ones may complete in any
order. `m_msg` is the message that is being sent, or waits for the connection, and is empty when
nothing is. Two further fields only keep a record: the messages passed to `write` and the buffers
passed to `async_write`. Sockets are left out: whether one is connected or cannot be bound is an
input.
-/

set_option autoImplicit false

namespace Zit

open Lib

/-- An asynchronous operation with what its handler has captured. An iterator of the resolver is the
list of the endpoints that are left. -/
inductive Pending
  | resolve (url : Bytes)
  | connect (endpoint : Bytes) (next : List Bytes)
  | write (buffer : Bytes) (startRead : Bool)
  deriving DecidableEq, Repr

structure Outgoing where
  msg : Bytes := []
  sendQueue : List Bytes := []
  connected : Bool := false
  endpoint : List Bytes := []
  stopped : Bool := false
  pending : List Pending := []
  written : List Bytes := []
  passed : List Bytes := []
  deriving DecidableEq, Repr

abbrev OutgoingM := EStateM Exn Outgoing

namespace Outgoing

def startOp (op : Pending) : OutgoingM Unit :=
  modify fun c => { c with pending := c.pending ++ [op] }

/-- `send(start_read)` -/
def send (startRead : Bool := false) : OutgoingM Unit := do
  let c ← get
  if c.stopped then return
  else if c.msg = [] then throw (.runtimeError "send called with empty message")
  else
    modify fun c => { c with passed := c.passed ++ [c.msg] }
    startOp (.write c.msg startRead)

/-- `handle_connect(err, endpoint_iterator)` -/
def handleConnect (err : Bool) (next : List Bytes) : OutgoingM Unit := do
  let c ← get
  if c.stopped then return
  else if !err then
    if !c.connected then
      set { c with connected := true }
      send true
    else send
  else
    match next with
    | endpoint :: rest =>
      -- "Trying next endpoint"
      set { c with endpoint := next }
      startOp (.connect endpoint rest)
    | [] => set { c with endpoint := [] }

/-- `handle_resolve`; `none` is an error. The socket is bound before it is connected. -/
def handleResolve (endpoints : Option (List Bytes)) (bindFails : Bool) : OutgoingM Unit :=
  match endpoints with
  | none => return
  | some [] => throw (.undefined "end of the endpoints")
  | some (endpoint :: rest) => do
    modify fun c => { c with endpoint := endpoint :: rest }
    if bindFails then throw (.runtimeError "bind")
    else startOp (.connect endpoint rest)

/-- What comes with a call of `write`: the url of the peer, and whether the socket is open and has a
remote endpoint. -/
structure Call where
  url : Option Bytes
  remote : Bool
  msg : Bytes
  deriving DecidableEq, Repr

/-- `write(url, msg)` -/
def write (call : Call) : OutgoingM Unit := do
  modify fun c => { c with written := c.written ++ [call.msg] }
  let c ← get
  -- "If we are already sending something, queue this message"
  if c.msg ≠ [] then set { c with sendQueue := c.sendQueue ++ [call.msg] }
  else
    set { c with msg := call.msg }
    if call.remote ∧ !c.connected then
      -- "this is an accepted incoming connection"
      modify fun c => { c with connected := true }
      send true
    else if c.connected ∨ c.endpoint ≠ [] then handleConnect false c.endpoint
    else
      match call.url with
      | none => throw (.runtimeError "write called with empty url")
      | some url => startOp (.resolve url)

/-- The end of the handler of `async_write`. -/
def sendNext : OutgoingM Unit := do
  let c ← get
  match c.sendQueue with
  | msg :: queue =>
    set { c with msg, sendQueue := queue }
    send
  -- "Indicates that all sending is done"
  | [] => set { c with msg := [] }

/-- The handler of `async_write`, which logs an error. With `startRead` it calls `handle_response`,
which may call `write`. -/
def handleWrite (startRead : Bool) (calls : List Call) : OutgoingM Unit := do
  let c ← get
  if c.stopped then return
  else
    if startRead then forM calls write
    sendNext

def stop : OutgoingM Unit := modify fun c => { c with stopped := true }

/-! ## Events -/

/-- What happens next: a call of `write`, or the end of the pending operation with the index. -/
inductive Event
  | write (call : Call)
  | resolved (k : Nat) (endpoints : Option (List Bytes)) (bindFails : Bool)
  | connected (k : Nat) (err : Bool)
  | sent (k : Nat) (err : Bool) (calls : List Call)
  | stop
  deriving DecidableEq, Repr

/-- The handler that is called, and the operations that are left; `none` when there is no such
operation. -/
def handler (c : Outgoing) : Event → Option (List Pending × OutgoingM Unit)
  | .write call => some (c.pending, write call)
  | .resolved k endpoints bindFails =>
    match c.pending[k]? with
    | some (.resolve _) => some (c.pending.eraseIdx k, handleResolve endpoints bindFails)
    | _ => none
  | .connected k err =>
    match c.pending[k]? with
    | some (.connect _ next) => some (c.pending.eraseIdx k, handleConnect err next)
    | _ => none
  | .sent k _ calls =>
    match c.pending[k]? with
    | some (.write _ startRead) => some (c.pending.eraseIdx k, handleWrite startRead calls)
    | _ => none
  | .stop => some (c.pending, stop)

/-- The state after an event, whether or not an exception has left its handler. -/
def step (c : Outgoing) (e : Event) : Option Outgoing :=
  (handler c e).map fun (pending, m) => final m { c with pending }

end Outgoing

end Zit
