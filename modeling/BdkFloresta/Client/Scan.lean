import BdkFloresta.Client.State
import BdkFloresta.Node.View

/-!
`scan` and `scan_continuous`. A call is a function of its environment: what the
node answers at each of the call's program points, whether a token is cancelled
there, what the event lock holds and what the block channel delivers. Nothing
relates two program points, so every interleaving with the node, with the
shutdown watcher and with a caller that cancels or drops the future is some
environment.
-/

namespace BdkFloresta

def fullScanLookahead : Nat := 1000

inductive ScanKind where
  | sync
  | fullScan (customLookahead : Option Nat)
  | custom (startHeight customLookahead : Nat)
  deriving DecidableEq, Repr

/-- What ends the `select` of one turn of `wait_until_ready`. -/
inductive Wake where
  | cancelled
  | changed
  | senderGone
  deriving DecidableEq, Repr

/-- The places where a scan calls the node. -/
inductive NodePoint where
  | filterHeight
  | matchFilters
  | fetchBlocks
  | blockHeight (i : Nat)
  | stopHash
  deriving DecidableEq, Repr

/-- The places where a scan looks at its cancellation token. -/
inductive CancelPoint where
  | beforeMatch
  | afterMatch
  | fetchBlocks
  | block (i : Nat)
  deriving DecidableEq, Repr

/-- What the receive loop's `select` yields. -/
inductive Recv where
  | cancelled
  | closed
  | block (block : Block) (height : Nat)

structure ScanEnv where
  /-- The state read and the wake-up of each turn of `wait_until_ready`. -/
  ready : List (State × Wake)
  node : NodePoint → NodeView
  cancelled : CancelPoint → Bool
  /-- `fetch_blocks` never yields and the future is dropped there. -/
  fetchParked : Bool
  /-- What the event lock holds, by the number of events passed before. -/
  eventTx : Nat → EventSlot
  /-- The lock of an already registered block sink is poisoned. -/
  sinkPoisoned : Bool

def saturatingAdd (a b : Nat) : Nat := min (a + b) u32Max

def waitUntilReady : List (State × Wake) → Exit
  | [] => .parked
  | (state, wake) :: rest =>
      match state with
      | .operational => .ok
      | .shuttingDown => .err .unresponsiveNode
      | .inactive => .err .unresponsiveNode
      | _ =>
          match wake with
          | .cancelled => .err .scanAborted
          | .senderGone => .err .unresponsiveNode
          | .changed => waitUntilReady rest

section spks
variable {σ : Type} [KeychainTxOutIndex σ]

/-- The scripts derived for one keychain: the last revealed index, or zero, plus
the lookahead many. -/
def keychainSpks (index : σ) (keychain : KeychainKind) (it : SpkIter)
    (customLookahead : Nat) : List ScriptBuf :=
  let lastIndex := (lastRevealedIndices index keychain).getD 0
  let bound := saturatingAdd lastIndex customLookahead
  it.take bound

def deriveSpksWithCustomLookahead (index : σ) (customLookahead : Nat) :
    Except ClientError (List ScriptBuf) :=
  match unboundedSpkIter index .external with
  | none => .error .noExternalKeychain
  | some externalKeyIter =>
      let spks := keychainSpks index .external externalKeyIter customLookahead
      -- the internal keychain is optional
      match unboundedSpkIter index .internal with
      | none => .ok spks
      | some internalKeyIter =>
          .ok (spks ++ keychainSpks index .internal internalKeyIter customLookahead)

def deriveSpks (index : σ) : Except ClientError (List ScriptBuf) :=
  deriveSpksWithCustomLookahead index (lookahead index)

end spks

namespace Client
variable {σ : Type} [BdkChain σ]

/-- The start height and the scripts of a scan. -/
def scanStart (c : Client σ) : ScanKind → Except ClientError (Nat × List ScriptBuf)
  | .sync => (deriveSpks c.txGraph.index).map fun spks => (c.checkpoint.height, spks)
  | .fullScan customLookahead =>
      (deriveSpksWithCustomLookahead c.txGraph.index
        (customLookahead.getD fullScanLookahead)).map fun spks => (0, spks)
  | .custom startHeight customLookahead =>
      (deriveSpksWithCustomLookahead c.txGraph.index customLookahead).map fun spks =>
        (startHeight, spks)

/-- End the call where `p` holds. -/
def endIf (p : Prop) [Decidable p] (exit : Exit) : Except Exit Unit :=
  if p then .error exit else .ok ()

/-- The matching blocks, fetched from the peers unless the scan is cancelled. -/
def fetchMatching (env : ScanEnv) (hashes : List BlockHash) : Except Exit (List Block) :=
  if hashes = [] then .ok []
  else do
    endIf (env.cancelled .fetchBlocks) (.err .scanAborted)
    endIf env.fetchParked .parked
    ((env.node .fetchBlocks).fetchBlocks hashes).mapError fun e => .err (.node e)

/-- The scan up to the fetched blocks. It reads the client and changes nothing;
a failure is the way the whole scan ends. -/
def fetchRelevant (env : ScanEnv) (kind : ScanKind) (c : Client σ) :
    Except Exit (Nat × List Block) := do
  let (startHeight, spks) ← (c.scanStart kind).mapError Exit.err
  let stopHeight ← (env.node .filterHeight).getFilterHeight.mapError fun e => .err (.node e)
  endIf (startHeight > stopHeight) (.err (.invalidRange startHeight stopHeight))
  endIf (env.cancelled .beforeMatch) (.err .scanAborted)
  let hashes ← ((env.node .matchFilters).matchFilters spks startHeight stopHeight).mapError
    fun e => .err (.node e)
  endIf (env.cancelled .afterMatch) (.err .scanAborted)
  let blocks ← fetchMatching env hashes
  return (stopHeight, blocks)

/-- The scan's block loop, from its `i`-th turn. -/
def scanBlocks (env : ScanEnv) : Nat → List Block → Client σ → Exit × Client σ
  | _, [], c => (.ok, c)
  | i, block :: rest, c =>
      if env.cancelled (.block i) then (.err .scanAborted, c)
      else match (env.node (.blockHeight i)).getBlockHeight block.blockHash with
        | .error e => (.err (.node e), c)
        | .ok height =>
            andThen (c.scanBlock env.eventTx block height) (scanBlocks env (i + 1) rest)

/-- The final checkpoint: no relevant block lies between the checkpoint and the
stop height. -/
def finishScan (env : ScanEnv) (stopHeight : Nat) (c : Client σ) : Exit × Client σ :=
  if c.checkpoint.height < stopHeight then
    match (env.node .stopHash).getBlockHash stopHeight with
    | .error e => (.err (.node e), c)
    | .ok stopHash => c.emitUpdate env.eventTx ⟨stopHeight, stopHash⟩
  else (.ok, c)

def scanInner (env : ScanEnv) (kind : ScanKind) (c : Client σ) : Exit × Client σ :=
  match c.fetchRelevant env kind with
  | .error exit => (exit, c)
  | .ok (stopHeight, blocks) =>
      andThen (c.scanBlocks env 0 blocks) (finishScan env stopHeight)

/-- The event that closes the filter scan; a dropped future sends none, and neither
does a panic. -/
def closingEvent (keepGoing : Bool) : Exit → Option ScanEvent
  | .ok => some (.finished keepGoing)
  | .err e => some (.error e.display)
  | .parked | .panicked => none

/-- The filter scan with its closing event. -/
def notifiedScan (env : ScanEnv) (keepGoing : Bool) (kind : ScanKind) (c : Client σ) :
    Exit × Client σ :=
  let (exit, c) := c.scanInner env kind
  match closingEvent keepGoing exit with
  | none => (exit, c)
  | some event => andThen (c.sendEvent env.eventTx event) fun c => (exit, c)

def scan (env : ScanEnv) (kind : ScanKind) (c : Client σ) : Exit × Client σ :=
  andThen (waitUntilReady env.ready, c) (notifiedScan env false kind)

/-- The receive loop of a continuous scan over what the `select` yields; after
the last delivery the call stays at its await. -/
def receiveLoop (eventTx : Nat → EventSlot) : List Recv → Client σ → Exit × Client σ
  | [], c => (.parked, c)
  | .cancelled :: _, c => (.err .scanAborted, c)
  | .closed :: _, c => (.err .unresponsiveNode, c)
  | .block block height :: rest, c =>
      andThen (c.receiveBlock eventTx block height) (receiveLoop eventTx rest)

/-- `scan_continuous`. -/
def scanContinuous (env : ScanEnv) (kind : ScanKind) (deliveries : List Recv)
    (c : Client σ) : Exit × Client σ :=
  andThen (waitUntilReady env.ready, c) fun c =>
    -- `enable_block_forwarding`
    if env.sinkPoisoned then (.err .poisonedLock, c)
    else andThen (c.notifiedScan env true kind) (receiveLoop env.eventTx deliveries)

end Client
end BdkFloresta
