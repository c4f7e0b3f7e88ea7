import BdkFloresta.Library.Runs
import BdkFloresta.Node.Fsm
import Mathlib.Logic.Function.Basic

/-!
One `Node::run` call with everything that runs beside it: the status poll, the
shutdown task, any number of `Node::shutdown` calls and a signal. Each step is
one access to what the threads share, so a list of steps is an interleaving on
a multi-threaded runtime. The poll guards what it publishes against a shutdown;
`run` publishes `Active` with no guard, and that is the only way back.
-/

namespace BdkFloresta

inductive Writer where
  | run
  | poll
  | shutdownTask
  deriving DecidableEq, Repr

/-- One value sent over the state channel. -/
structure Publication where
  writer : Writer
  state : State
  deriving DecidableEq, Repr

/-- How far `Node::run` has come. -/
inductive RunPc where
  | start
  | tookInner
  | setStartedAt
  | spawnedNode
  | spawnedPoll
  | spawnedShutdown
  | storedHandle
  | returned
  | alreadyRunning
  deriving DecidableEq, Repr

/-- How far the shutdown task has come. -/
inductive ShutdownPc where
  | notSpawned
  | listening
  | woken
  | killed
  | announced
  | cancelled
  | nodeStopped
  | nodeJoined
  | pollJoined
  | flushed
  | finished
  deriving DecidableEq, Repr

inductive PollPc where
  | notSpawned
  | selecting
  | polling
  | ended
  deriving DecidableEq, Repr

/-- How far one `Node::shutdown` call has come. -/
inductive CallerPc where
  | idle
  | locking
  | awaiting
  | returned
  | dropped
  deriving DecidableEq, Repr

/-- The fields of `Node` that its tasks share, and where each thread is. -/
structure NodeRun where
  inner : Bool
  startedAt : Bool
  state : State
  published : List Publication
  cancellationToken : Bool
  killSignal : Bool
  flushAttempted : Bool
  /-- The mutex holds the shutdown task's handle. -/
  shutdownTask : Bool
  /-- The `shutdown` call that holds the mutex. -/
  shutdownLock : Option Nat
  run : RunPc
  shutdown : ShutdownPc
  poll : PollPc
  callers : Nat → CallerPc

/-- A node as `Builder::build` returns it. -/
def NodeRun.built : NodeRun where
  inner := true
  startedAt := false
  state := .inactive
  published := []
  cancellationToken := false
  killSignal := false
  flushAttempted := false
  shutdownTask := false
  shutdownLock := none
  run := .start
  shutdown := .notSpawned
  poll := .notSpawned
  callers := fun _ => .idle

/-- `send_replace`, or the modifying branch of `send_if_modified`. -/
def NodeRun.publish (s : NodeRun) (writer : Writer) (state : State) : NodeRun :=
  { s with state := state, published := s.published ++ [⟨writer, state⟩] }

inductive NodeStep where
  | runTakeInner
  | runSetStartedAt
  | runSpawnNode
  | runSpawnPoll
  | runSpawnShutdown
  | runStoreHandle
  | runPublishActive
  | pollWake
  | pollSkip
  | pollPublish (wireReady : Bool) (nodeTip chainTip filterTip : Nat)
  | pollBreak
  | shutdownSignal
  | shutdownRequested
  | shutdownKill
  | shutdownAnnounce
  | shutdownCancel
  | shutdownNodeStopped
  | shutdownJoinNode
  | shutdownJoinPoll
  | shutdownFlush
  | shutdownFinish
  | callCancel (i : Nat)
  | callLock (i : Nat)
  | callJoin (i : Nat)
  | callDrop (i : Nat)
  deriving DecidableEq, Repr

open Runs (enabled)

/-- The closure the poll gives to `send_if_modified`; the poll task ends when
the closure panics. -/
def NodeRun.pollPublish (s : NodeRun) (ov : Overflow) (wireReady : Bool)
    (nodeTip chainTip filterTip : Nat) : NodeRun :=
  if s.state = .shuttingDown then { s with poll := .selecting }
  else match computeNextState ov wireReady s.state nodeTip chainTip filterTip with
    | none => { s with poll := .ended }
    | some nextState =>
        if s.state = nextState then { s with poll := .selecting }
        else { s.publish .poll nextState with poll := .selecting }

def NodeRun.setCaller (s : NodeRun) (i : Nat) (pc : CallerPc) : NodeRun :=
  { s with callers := Function.update s.callers i pc }

def NodeRun.step (ov : Overflow) (s : NodeRun) : NodeStep → Option NodeRun
  -- `run`
  | .runTakeInner =>
      enabled (s.run = .start)
        (if s.inner then { s with run := .tookInner, inner := false }
        else { s with run := .alreadyRunning })
  | .runSetStartedAt =>
      enabled (s.run = .tookInner)
        (if s.startedAt then { s with run := .alreadyRunning }
        else { s with run := .setStartedAt, startedAt := true })
  | .runSpawnNode => enabled (s.run = .setStartedAt) { s with run := .spawnedNode }
  | .runSpawnPoll =>
      enabled (s.run = .spawnedNode) { s with run := .spawnedPoll, poll := .selecting }
  | .runSpawnShutdown =>
      enabled (s.run = .spawnedPoll)
        { s with run := .spawnedShutdown, shutdown := .listening }
  | .runStoreHandle =>
      enabled (s.run = .spawnedShutdown ∧ s.shutdownLock = none)
        { s with run := .storedHandle, shutdownTask := true }
  | .runPublishActive =>
      enabled (s.run = .storedHandle) { s.publish .run .active with run := .returned }
  -- the status poll; a failed height lookup skips the publication
  | .pollWake => enabled (s.poll = .selecting) { s with poll := .polling }
  | .pollSkip => enabled (s.poll = .polling) { s with poll := .selecting }
  | .pollPublish wireReady nodeTip chainTip filterTip =>
      enabled (s.poll = .polling) (s.pollPublish ov wireReady nodeTip chainTip filterTip)
  | .pollBreak =>
      enabled (s.poll = .selecting ∧ s.cancellationToken = true) { s with poll := .ended }
  -- the shutdown task; each wait ends by its event or by its timeout, and the write lock of
  -- `kill_signal`, which is shared with the node's own code, is taken as granted at once
  | .shutdownSignal => enabled (s.shutdown = .listening) { s with shutdown := .woken }
  | .shutdownRequested =>
      enabled (s.shutdown = .listening ∧ s.cancellationToken = true)
        { s with shutdown := .woken }
  | .shutdownKill =>
      enabled (s.shutdown = .woken) { s with shutdown := .killed, killSignal := true }
  | .shutdownAnnounce =>
      enabled (s.shutdown = .killed)
        { s.publish .shutdownTask .shuttingDown with shutdown := .announced }
  | .shutdownCancel =>
      enabled (s.shutdown = .announced)
        { s with shutdown := .cancelled, cancellationToken := true }
  | .shutdownNodeStopped =>
      enabled (s.shutdown = .cancelled) { s with shutdown := .nodeStopped }
  | .shutdownJoinNode =>
      enabled (s.shutdown = .nodeStopped) { s with shutdown := .nodeJoined }
  | .shutdownJoinPoll =>
      enabled (s.shutdown = .nodeJoined) { s with shutdown := .pollJoined }
  | .shutdownFlush =>
      enabled (s.shutdown = .pollJoined)
        { s with shutdown := .flushed, flushAttempted := true }
  | .shutdownFinish =>
      enabled (s.shutdown = .flushed)
        { s.publish .shutdownTask .inactive with shutdown := .finished }
  -- the `shutdown` calls; the guard taken in the scrutinee is held over the await, and the
  -- free mutex goes to any of the requests (`FifoRun` keeps their queue)
  | .callCancel i =>
      enabled (s.callers i = .idle)
        { s.setCaller i .locking with cancellationToken := true }
  | .callLock i =>
      enabled (s.callers i = .locking ∧ s.shutdownLock = none)
        (if s.shutdownTask then
          { s.setCaller i .awaiting with shutdownTask := false, shutdownLock := some i }
        else s.setCaller i .returned)
  | .callJoin i =>
      enabled (s.callers i = .awaiting ∧ s.shutdown = .finished)
        { s.setCaller i .returned with shutdownLock := none }
  | .callDrop i =>
      enabled (s.callers i = .locking ∨ s.callers i = .awaiting)
        { s.setCaller i .dropped with
          shutdownLock := if s.callers i = .awaiting then none else s.shutdownLock }

end BdkFloresta
