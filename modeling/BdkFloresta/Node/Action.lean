import BdkFloresta.Chain.Types
import BdkFloresta.Node.Fsm

/-!
The actions a node can be performing, the calls that perform them, and the
errors a node call can return.
-/

namespace BdkFloresta

inductive Action where
  | connectingToPeer (socket : SocketAddr)
  | disconnectingFromPeer (socket : SocketAddr)
  | removingPeer (socket : SocketAddr)
  | pinging
  | fetchingBlock (hash : BlockHash)
  | fetchingBlocks (count : Nat)
  | broadcastingTransaction (txid : Txid)
  | matchingFilters
  deriving DecidableEq, Repr

def Action.display : Action → String
  | .connectingToPeer socket => s!"Connecting to peer={socket.text}"
  | .disconnectingFromPeer socket => s!"Disconnecting from peer={socket.text}"
  | .removingPeer socket => s!"Removing peer={socket.text}"
  | .pinging => "Pinging all peers"
  | .fetchingBlock hash => s!"Fetching block with hash={displayHash hash}"
  | .fetchingBlocks count => s!"Fetching {count} blocks"
  | .broadcastingTransaction txid =>
      s!"Broadcasting transaction with txid={displayHash txid}"
  | .matchingFilters => "Matching filters to block hashes"

/-- A call of one of the node methods that track an action. -/
inductive Operation where
  | matchFilters (spks : List ScriptBuf) (startHeight stopHeight : Nat)
  | fetchBlock (hash : BlockHash)
  | fetchBlocks (hashes : List BlockHash)
  | broadcastTx (tx : Transaction)
  | addPeer (socket : SocketAddr)
  | disconnectPeer (socket : SocketAddr)
  | removePeer (socket : SocketAddr)
  | ping
  deriving DecidableEq, Repr

def Operation.action : Operation → Action
  | .matchFilters _ _ _ => .matchingFilters
  | .fetchBlock hash => .fetchingBlock hash
  | .fetchBlocks hashes => .fetchingBlocks hashes.length
  | .broadcastTx tx => .broadcastingTransaction tx.txid
  | .addPeer socket => .connectingToPeer socket
  | .disconnectPeer socket => .disconnectingFromPeer socket
  | .removePeer socket => .removingPeer socket
  | .ping => .pinging

/-- Whether the method awaits between tracking and untracking; `match_filters`
is not async, so it cannot be dropped half way. -/
def Operation.awaits : Operation → Bool
  | .matchFilters _ _ _ => false
  | _ => true

/-- `NodeError`. The errors of other crates are carried as their display text. -/
inductive NodeError where
  | notRunning
  | alreadyRunning
  | dirtyShutdown (e : String)
  | unresponsiveNode (e : String)
  | blockchain (e : String)
  | mempool (e : String)
  | missingBlock (hash : BlockHash)
  | illegalAction (state : State) (attempted : Action)
  | noSpksProvided
  | compactBlockFilter (e : String)
  | stopHeightExceedsFilterTip (requested available : Nat)
  deriving DecidableEq, Repr

def NodeError.display : NodeError → String
  | .notRunning => "The node is not running"
  | .alreadyRunning => "The node is already running"
  | .dirtyShutdown e => s!"The node failed to perform a clean shutdown: {e}"
  | .unresponsiveNode e => s!"The node is unresponsive: {e}"
  | .blockchain e => s!"Blockchain error: {e}"
  | .mempool e => s!"Mempool error: {e}"
  | .missingBlock hash =>
      s!"The block with hash={displayHash hash} does not exist in the chain"
  | .illegalAction state attempted =>
      s!"The requested action={attempted.display} cannot be performed at the current " ++
        s!"state={state.display}"
  | .noSpksProvided => "No spks were provided when rescanning the blockchain"
  | .compactBlockFilter e => s!"Compact Block Filter error: {e}"
  | .stopHeightExceedsFilterTip requested available =>
      s!"The provided stop_height={requested} exceeds filter store height={available}"

end BdkFloresta
