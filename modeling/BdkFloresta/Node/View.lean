import BdkFloresta.Node.Action

/-!
The node methods a scan calls. The chain state, the filter store and the peer
handle are other crates, so a method is a function of what they answer at the
moment of the call; errors of theirs carry their display text.
-/

namespace BdkFloresta

/-- What the node's parts answer at one moment. -/
structure NodeView where
  /-- The value of the state channel. -/
  state : State
  /-- `block_filters.get_height`. -/
  filterHeight : Except String Nat
  /-- `block_filters.match_any`. -/
  matchAny : List ScriptBuf → Nat → Nat → Except String (List BlockHash)
  /-- `handle.get_block`. -/
  getBlock : BlockHash → Except String (Option Block)
  /-- `chain_state.get_block_height`. -/
  blockHeight : BlockHash → Except String (Option Nat)
  /-- `chain_state.get_block_hash`. -/
  blockHash : Nat → Except String BlockHash

namespace NodeView

def getFilterHeight (node : NodeView) : Except NodeError Nat :=
  node.filterHeight.mapError .compactBlockFilter

def getBlockHeight (node : NodeView) (hash : BlockHash) : Except NodeError Nat :=
  match node.blockHeight hash with
  | .error e => .error (.blockchain e)
  | .ok none => .error (.missingBlock hash)
  | .ok (some height) => .ok height

def getBlockHash (node : NodeView) (height : Nat) : Except NodeError BlockHash :=
  (node.blockHash height).mapError .blockchain

/-- `match_filters`: only an operational node matches, and not past the filter
tip. -/
def matchFilters (node : NodeView) (spks : List ScriptBuf) (startHeight stopHeight : Nat) :
    Except NodeError (List BlockHash) :=
  if node.state ≠ .operational then .error (.illegalAction node.state .matchingFilters)
  else match node.filterHeight with
    | .error e => .error (.compactBlockFilter e)
    | .ok filterTip =>
        if stopHeight > filterTip then
          .error (.stopHeightExceedsFilterTip stopHeight filterTip)
        else (node.matchAny spks startHeight stopHeight).mapError .compactBlockFilter

def fetchBlock (node : NodeView) (hash : BlockHash) : Except NodeError Block :=
  match node.getBlock hash with
  | .error e => .error (.unresponsiveNode e)
  | .ok none => .error (.missingBlock hash)
  | .ok (some block) => .ok block

/-- `fetch_blocks`: every block, in the order of the hashes, or an error. When
several requests fail, which error wins is left to their timing in the source
and is the first in order here. -/
def fetchBlocks (node : NodeView) (hashes : List BlockHash) : Except NodeError (List Block) :=
  hashes.mapM node.fetchBlock

end NodeView
end BdkFloresta
