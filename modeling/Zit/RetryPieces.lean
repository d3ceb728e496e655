import Zit.Session

/-!
# Asking for blocks again

`retry_pieces` of `torrent.cpp`, which marks the blocks of inactive pieces and goes round the peers
until so many have been requested again. `turns` keeps a record of the turns of its loop.
-/

set_option autoImplicit false

namespace Zit

open Lib World

/-- A turn of the loop: the peer, `retry` before it, and the requests it has made. -/
structure Turn where
  peer : Nat
  retry : Nat
  issued : Nat
  deriving DecidableEq, Repr

structure Retrying where
  world : World
  turns : List Turn := []

/-- What `ranges::shuffle` does. -/
structure PeerOrder where
  run : List Peer → List Peer
  perm : ∀ peers, (run peers).Perm peers

namespace Retrying

abbrev RetryM := EStateM Exn Retrying

def onWorld {α : Type} (m : App α) : RetryM α :=
  zoom Retrying.world (fun world s => { s with world }) m

/-- The `for` over the active pieces, with the blocks marked so far. -/
def markBlocks (now : Int) : List (Sigma fun _ : UInt32 => Nat) → UInt64 → App UInt64
  | [], retry => return retry
  | piece :: pieces, retry => do
    let p ← deref piece.2
    let (blocks, p) := p.retryBlocks now
    store piece.2 p
    markBlocks now pieces (retry + UInt64.ofNat blocks)

variable (t : Torrent)

/-- The argument for `request_next_block`: "Fill up to MAX_PENDING_REQUESTS, but always at least
1". -/
def maxPending (pending : Int) (retry : UInt64) : Except Exn UInt16 := do
  let pendingSz := if pending < 0 then 0 else pending.toNat
  let maxPending ← (numericCast .u64 .i32 t.maxPendingRequests).map (·.toNat)
  let desired := if pendingSz < maxPending then maxPending - pendingSz else 1
  let toRequest := min desired retry.toNat
  (numericCast .u16 .u64 (pendingSz + toRequest : Nat)).map fun v => UInt16.ofNat v.toNat

/-- The `while (retry > 0)` at the peer `it`; `clock` tells the time. Enough turns are
`(retry + 1) * m_peers.size() + 1`. -/
def retryLoop (clock : Nat → Int) : Nat → Nat → UInt64 → UInt64 → RetryM UInt64
  | 0, _, _, _ => throw .diverged
  | turns + 1, it, startCount, retry => do
    if retry = 0 then return retry
    else
      let p ← onWorld (Peer.getPeer it)
      let n ← lift (maxPending t p.pendingRequests retry)
      let issued ← onWorld (Peer.requestNextBlock t it (clock turns) n)
      modify fun s => { s with turns := s.turns ++ [⟨it, retry.toNat, issued⟩] }
      let retry := retry - UInt64.ofNat issued
      let s ← get
      if it + 1 = s.world.peers.length then
        -- "Could not retry all blocks."
        if retry = startCount then return retry
        else retryLoop clock turns 0 retry retry
      else retryLoop clock turns (it + 1) startCount retry

/-- `retry_pieces`, up to the timer that is set again whenever it ends. -/
def retryPieces (order : PeerOrder) (stopped : Bool) (clock : Nat → Int) (turns : Nat) :
    RetryM UInt64 := do
  if stopped then return 0
  else
    let s ← get
    let retry ← onWorld (markBlocks (clock turns) s.world.activePieces.entries 0)
    if retry = 0 then return retry
    else
      -- "To hit different peers for each invocation - shuffle the list"
      onWorld (modify fun w => { w with peers := order.run w.peers })
      let s ← get
      -- "No peers available for retrying"
      if s.world.peers = [] then return retry
      else retryLoop t clock turns 0 retry retry

end Retrying

end Zit
