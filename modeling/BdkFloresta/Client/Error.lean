import BdkFloresta.Node.Action

/-!
The errors a client call can return, with the texts that reach a subscriber.
-/

namespace BdkFloresta

inductive ClientError where
  | networkMismatch (nodeNet walletNet : Network)
  | scanAborted
  | invalidRange (startHeight stopHeight : Nat)
  | noExternalKeychain
  | unresponsiveNode
  | poisonedLock
  | node (e : NodeError)
  deriving DecidableEq, Repr

def ClientError.display : ClientError → String
  | .networkMismatch nodeNet walletNet =>
      s!"Network mismatch between node={nodeNet.display} and wallet={walletNet.display}"
  | .scanAborted => "The scan was aborted"
  | .invalidRange startHeight stopHeight =>
      s!"Invalid scan range: start_height={startHeight} > stop_height={stopHeight}"
  | .noExternalKeychain => "The wallet has no external keychain"
  | .unresponsiveNode => "The node is unresponsive"
  | .poisonedLock => "The event channel's lock is poisoned"
  | .node e => s!"Node Error: {e.display}"

end BdkFloresta
