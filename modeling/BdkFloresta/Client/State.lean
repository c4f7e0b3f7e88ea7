import BdkFloresta.Chain.BdkChain
import BdkFloresta.Client.Error

/-!
The client's state and the small operations its scans are made of: sending an
event, cutting an update, applying a block. Besides the fields of the source the
state keeps three histories that no operation reads: the events passed to
`send_event`, those that reached the channel, and the applied blocks.
-/

namespace BdkFloresta

/-- A `TxUpdate`, as far as the client fills it: transactions and anchors. -/
abbrev TxUpdate := TxGraph

structure Update where
  txUpdate : TxUpdate
  lastActiveIndices : KeychainKind → Option Nat
  chain : Option CheckPoint

inductive ScanEvent where
  | walletUpdate (update : Update)
  | finished (keepGoing : Bool)
  | error (e : String)

/-- One call of `apply_block_relevant` by the client, with what it changed. -/
structure Application where
  block : Block
  height : Nat
  changeset : ChangeSet

@[ext] structure Client (σ : Type) where
  checkpoint : CheckPoint
  txGraph : IndexedTxGraph σ
  /-- Every event passed to `send_event`. -/
  passed : List ScanEvent
  /-- The events put into the channel. -/
  channel : List ScanEvent
  /-- Every block passed to `apply_block_relevant`. -/
  applied : List Application

/-- What `send_event` finds behind the lock of `event_tx`. -/
inductive EventSlot where
  | sender
  | taken
  | poisoned
  deriving DecidableEq, Repr

/-- How a call ends: it returns, its future stays at an await, where it may be
dropped, or it panics, and the client is unwound with the task. -/
inductive Exit where
  | ok
  | err (e : ClientError)
  | parked
  | panicked
  deriving DecidableEq, Repr

namespace Client
variable {σ : Type}

/-- Go on with the next statement unless the call has ended. -/
def andThen (r : Exit × Client σ) (next : Client σ → Exit × Client σ) : Exit × Client σ :=
  match r with
  | (.ok, c) => next c
  | (exit, c) => (exit, c)

@[simp] theorem andThen_ok (c : Client σ) (next : Client σ → Exit × Client σ) :
    andThen (.ok, c) next = next c := rfl

@[simp] theorem andThen_err (e : ClientError) (c : Client σ)
    (next : Client σ → Exit × Client σ) : andThen (.err e, c) next = (.err e, c) := rfl

@[simp] theorem andThen_parked (c : Client σ) (next : Client σ → Exit × Client σ) :
    andThen (.parked, c) next = (.parked, c) := rfl

@[simp] theorem andThen_panicked (c : Client σ) (next : Client σ → Exit × Client σ) :
    andThen (.panicked, c) next = (.panicked, c) := rfl

/-- The client of a wallet's index and checkpoint. -/
def ofWallet (index : σ) (checkpoint : CheckPoint) : Client σ :=
  ⟨checkpoint, .new index, [], [], []⟩

/-- `Client::new`: the networks have to agree. -/
def new (nodeNet walletNet : Network) (index : σ) (checkpoint : CheckPoint) :
    Except ClientError (Client σ) :=
  if walletNet ≠ nodeNet then .error (.networkMismatch nodeNet walletNet)
  else .ok (ofWallet index checkpoint)

def sendEvent (eventTx : Nat → EventSlot) (event : ScanEvent) (c : Client σ) :
    Exit × Client σ :=
  let slot := eventTx c.passed.length
  let c := { c with passed := c.passed ++ [event] }
  match slot with
  | .poisoned => (.err .poisonedLock, c)
  | .taken => (.ok, c)
  | .sender => (.ok, { c with channel := c.channel ++ [event] })

variable [BdkChain σ]

/-- `finish_update`: the graph's content goes into the update, the index alone
stays. -/
def finishUpdate (c : Client σ) : Update × Client σ :=
  let txUpdate := c.txGraph.graph
  let lastActiveIndices := lastUsedIndices c.txGraph.index
  let index := c.txGraph.index
  (⟨txUpdate, lastActiveIndices, some c.checkpoint⟩, { c with txGraph := .new index })

/-- `apply_block_relevant` on the client's graph. -/
def applyBlock (c : Client σ) (block : Block) (height : Nat) : ChangeSet × Client σ :=
  let (txGraph, changeset) := applyBlockRelevant c.txGraph block height
  (changeset, { c with txGraph, applied := c.applied ++ [⟨block, height, changeset⟩] })

/-- `self.checkpoint = self.checkpoint.clone().insert(..)`. -/
def insertCheckpoint (block : BlockId) (c : Client σ) : Exit × Client σ :=
  match BdkChain.insert (σ := σ) c.checkpoint block with
  | some checkpoint => (.ok, { c with checkpoint })
  | none => (.panicked, c)

/-- Insert the block into the checkpoint, cut an update and send it. -/
def emitUpdate (eventTx : Nat → EventSlot) (block : BlockId) (c : Client σ) :
    Exit × Client σ :=
  andThen (c.insertCheckpoint block) fun c =>
    let (update, c) := c.finishUpdate
    c.sendEvent eventTx (.walletUpdate update)

/-- The body of the scan's block loop, once the block's height is known. An
empty change set is a false positive of the filters. -/
def scanBlock (eventTx : Nat → EventSlot) (block : Block) (height : Nat) (c : Client σ) :
    Exit × Client σ :=
  let (changeset, c) := c.applyBlock block height
  if changeset.isEmpty then (.ok, c)
  else c.emitUpdate eventTx ⟨height, block.blockHash⟩

/-- The body of the continuous scan's receive loop. -/
def receiveBlock (eventTx : Nat → EventSlot) (block : Block) (height : Nat) (c : Client σ) :
    Exit × Client σ :=
  if height ≤ c.checkpoint.height then (.ok, c)
  else
    let (_, c) := c.applyBlock block height
    c.emitUpdate eventTx ⟨height, block.blockHash⟩

end Client
end BdkFloresta
