import BdkFloresta.Client.Scan
import BdkFloresta.Library.Watch
import BdkFloresta.Node.Shutdown

/-!
`wait_until_ready` against the node's state channel. The loop reads the state with
`borrow`, which does not mark it as seen, so it may decide on a newer state than the
one it then waits on. It still never sleeps on a state it would return on, and its
result is the one of the state it read last.
-/

namespace BdkFloresta
open Runs (exec)

/-- What the loop's `match` returns on, and with what. -/
def readyVerdict : State → Option Exit
  | .operational => some .ok
  | .shuttingDown => some (.err .unresponsiveNode)
  | .inactive => some (.err .unresponsiveNode)
  | _ => none

/-- A `wait_until_ready` call and the state channel. -/
abbrev ReadyWait := Watch.Waiter State Exit

namespace ReadyWait

/-- One access of the call, or of the node, to the channel. -/
def step : ReadyWait → Watch.Step State → Option ReadyWait :=
  Watch.step readyVerdict (.err .unresponsiveNode) (.err .scanAborted)

def exit (s : ReadyWait) : Exit :=
  match s.phase with
  | .returned result => result
  | .reading | .waiting => .parked

/-- What ended the `select` after the last read, if anything did. -/
def lastWake (s : ReadyWait) : Wake :=
  match s.phase with
  | .returned (.err .scanAborted) => .cancelled
  | .returned (.err _) => .senderGone
  | _ => .changed

/-- The turns of the loop, each as what it reads and what wakes it. -/
def turns (s : ReadyWait) : List (State × Wake) :=
  s.past.map (fun state => (state, .changed)) ++
    s.current.toList.map fun state => (state, s.lastWake)

abbrev Inv : ReadyWait → Prop :=
  Watch.Inv readyVerdict (.err .unresponsiveNode) (.err .scanAborted)

/-- At the last read of a call that subscribed to `c` the published state is `state`. -/
def LastRead (c : Watch.Channel State) (steps : List (Watch.Step State)) (state : State) :
    Prop :=
  Watch.LastRead readyVerdict (.err .unresponsiveNode) (.err .scanAborted)
    (Watch.subscribe c) steps state

end ReadyWait

theorem waitUntilReady_decided {state : State} {result : Exit}
    (h : readyVerdict state = some result) (wake : Wake) (rest : List (State × Wake)) :
    waitUntilReady ((state, wake) :: rest) = result := by
  cases state with
  | operational | shuttingDown | inactive => exact Option.some.inj h
  | active | dnsBootstrapping | headerSync _ | initialBlockDownload _ _
  | compactBlockFilterDownload _ | backfill => cases h

theorem waitUntilReady_undecided {state : State} (h : readyVerdict state = none)
    (wake : Wake) (rest : List (State × Wake)) :
    waitUntilReady ((state, wake) :: rest) =
      match wake with
      | .cancelled => .err .scanAborted
      | .senderGone => .err .unresponsiveNode
      | .changed => waitUntilReady rest := by
  cases state with
  | operational | shuttingDown | inactive => cases h
  | active | dnsBootstrapping | headerSync _ | initialBlockDownload _ _
  | compactBlockFilterDownload _ | backfill => rfl

theorem waitUntilReady_past {past : List State} (h : ∀ state ∈ past, readyVerdict state = none)
    (rest : List (State × Wake)) :
    waitUntilReady (past.map (fun state => (state, .changed)) ++ rest) =
      waitUntilReady rest := by
  induction past with
  | nil => rfl
  | cons state past ih =>
      obtain ⟨hstate, hpast⟩ := List.forall_mem_cons.mp h
      rw [List.map_cons, List.cons_append, waitUntilReady_undecided hstate]
      exact ih hpast

theorem readyVerdict_ok {state : State} (h : readyVerdict state = some .ok) :
    state = .operational := by
  cases state with
  | operational => rfl
  | inactive | active | dnsBootstrapping | headerSync _ | initialBlockDownload _ _
  | compactBlockFilterDownload _ | backfill | shuttingDown => cases h

theorem readyVerdict_err {state : State} {e : ClientError}
    (h : readyVerdict state = some (.err e)) :
    e = .unresponsiveNode ∧ (state = .shuttingDown ∨ state = .inactive) := by
  cases state with
  | shuttingDown => exact ⟨(Exit.err.inj (Option.some.inj h)).symm, .inl rfl⟩
  | inactive => exact ⟨(Exit.err.inj (Option.some.inj h)).symm, .inr rfl⟩
  | operational | active | dnsBootstrapping | headerSync _ | initialBlockDownload _ _
  | compactBlockFilterDownload _ | backfill => cases h

theorem readyVerdict_none {state : State} (h : readyVerdict state = none) :
    state ≠ .operational ∧ state ≠ .shuttingDown ∧ state ≠ .inactive := by
  refine ⟨?_, ?_, ?_⟩ <;> rintro rfl <;> cases h

namespace ReadyWait

/-- The interleaved loop is the loop as a function of its turns. -/
theorem waitUntilReady_turns {s : ReadyWait} (hs : Inv s) :
    waitUntilReady s.turns = s.exit := by
  rw [turns, waitUntilReady_past hs.past]
  cases hphase : s.phase with
  | reading => simp [hs.reading hphase, waitUntilReady, exit, hphase]
  | waiting =>
      obtain ⟨v, hv, hnone, -⟩ := hs.waiting hphase
      simp [hv, lastWake, exit, hphase, waitUntilReady_undecided hnone, waitUntilReady]
  | returned result =>
      obtain ⟨v, hv, hdecided | ⟨hnone, rfl | ⟨rfl, -⟩⟩⟩ := hs.returned result hphase
      · simp [hv, exit, hphase, waitUntilReady_decided hdecided]
      · simp [hv, lastWake, exit, hphase, waitUntilReady_undecided hnone]
      · simp [hv, lastWake, exit, hphase, waitUntilReady_undecided hnone]

theorem exit_settled {s : ReadyWait} (hs : Inv s) {result : Exit} (hexit : s.exit = result)
    (hended : result ≠ .parked) :
    Watch.Settled readyVerdict (.err .unresponsiveNode) (.err .scanAborted) s result := by
  cases hphase : s.phase with
  | reading | waiting => exact absurd (hexit.symm.trans (by simp [exit, hphase])) hended
  | returned other =>
      obtain rfl : other = result := by simpa [exit, hphase] using hexit
      exact hs.returned other hphase

/-- For every interleaving with publications, with the end of the sender and with a
cancellation: a parked call leaves no state unnoticed that it would return on, it returns
`Ok` on nothing but a published `Operational`, `UnresponsiveNode` on nothing but a
published `ShuttingDown` or `Inactive` or the end of the sender, and its result is the
one the loop computes from its turns. -/
theorem waitUntilReady_sound {c : Watch.Channel State} {steps : List (Watch.Step State)}
    {s : ReadyWait} (h : exec step (Watch.subscribe c) steps = some s) :
    (s.Parked → s.channel.value ≠ .operational ∧ s.channel.value ≠ .shuttingDown ∧
      s.channel.value ≠ .inactive) ∧
    (s.exit = .ok → LastRead c steps .operational) ∧
    (s.exit = .err .unresponsiveNode → LastRead c steps .shuttingDown ∨
      LastRead c steps .inactive ∨ s.channel.closed = true) ∧
    waitUntilReady s.turns = s.exit := by
  have hs : Inv s := Watch.inv_exec h
  refine ⟨fun hparked => readyVerdict_none (hs.parked hparked), fun hok => ?_, fun herr => ?_,
    waitUntilReady_turns hs⟩
  · obtain ⟨v, hv, hverdict | ⟨-, hend | ⟨hend, -⟩⟩⟩ := exit_settled hs hok (by simp)
    · obtain rfl := readyVerdict_ok hverdict
      exact Watch.lastRead_of_current h hv
    · cases hend
    · cases hend
  · obtain ⟨v, hv, hverdict | ⟨-, hend | ⟨-, hclosed⟩⟩⟩ := exit_settled hs herr (by simp)
    · have hread := Watch.lastRead_of_current h hv
      obtain ⟨-, rfl | rfl⟩ := readyVerdict_err hverdict
      · exact .inl hread
      · exact .inr (.inl hread)
    · cases hend
    · exact .inr (.inr hclosed)

section examples

/-- The state is read a second time before the wake-up for it is due, and
`Operational` is published while the call decides. -/
def readTwice : List (Watch.Step State) :=
  [.sendReplace .active, .borrow, .sendIfModified fun _ => none, .changed, .borrow,
    .sendIfModified fun _ => some (.headerSync 7), .sendReplace .operational, .changed,
    .borrow]

theorem waitUntilReady_sound_readTwice :
    LastRead ⟨.inactive, 4, false⟩ readTwice .operational :=
  (waitUntilReady_sound (s := ⟨⟨.operational, 7, false⟩, 7, .returned .ok,
    [.active, .active], some .operational⟩) rfl).2.1 rfl

end examples
end ReadyWait

/-- The node's state and how often it was published; the client keeps the sender. -/
def NodeRun.stateChannel (s : NodeRun) : Watch.Channel State :=
  ⟨s.state, s.published.length, false⟩

/-- What a node's step does to the state channel, as a closure of `send_if_modified`. -/
def NodeStep.modify (ov : Overflow) : NodeStep → State → Option State
  | .runPublishActive, _ => some .active
  | .pollPublish wireReady nodeTip chainTip filterTip, currentState =>
      if currentState = .shuttingDown then none
      else match computeNextState ov wireReady currentState nodeTip chainTip filterTip with
        | none => none
        | some nextState => if currentState = nextState then none else some nextState
  | .shutdownAnnounce, _ => some .shuttingDown
  | .shutdownFinish, _ => some .inactive
  | _, _ => none

theorem stateChannel_publish (s : NodeRun) (writer : Writer) (state : State) :
    (s.publish writer state).stateChannel = s.stateChannel.sendReplace state := by
  simp [NodeRun.stateChannel, NodeRun.publish, Watch.Channel.sendReplace,
    Watch.Channel.sendIfModified]

theorem stateChannel_pollPublish (s : NodeRun) (ov : Overflow) (wireReady : Bool)
    (nodeTip chainTip filterTip : Nat) :
    (s.pollPublish ov wireReady nodeTip chainTip filterTip).stateChannel =
      s.stateChannel.sendIfModified
        ((NodeStep.pollPublish wireReady nodeTip chainTip filterTip).modify ov) := by
  simp only [NodeRun.pollPublish, Watch.Channel.sendIfModified, NodeStep.modify,
    show s.stateChannel.value = s.state from rfl]
  by_cases hshut : s.state = .shuttingDown
  · simp only [hshut, if_true, NodeRun.stateChannel]
  · simp only [hshut, if_false]
    cases computeNextState ov wireReady s.state nodeTip chainTip filterTip with
    | none => rfl
    | some nextState =>
        by_cases hsame : s.state = nextState
        · simp only [hsame, if_true, NodeRun.stateChannel]
        · simp only [hsame, if_false]
          exact stateChannel_publish s .poll nextState

/-- Every step of the node acts on the state channel as one publication, or not at all. -/
theorem stateChannel_step {ov : Overflow} {s t : NodeRun} {a : NodeStep}
    (h : s.step ov a = some t) :
    t.stateChannel = s.stateChannel.sendIfModified (a.modify ov) := by
  cases a with
  | runTakeInner | runSetStartedAt | callLock i =>
      obtain ⟨-, rfl⟩ := Runs.enabled_eq_some.mp h
      split <;> rfl
  | runPublishActive | shutdownAnnounce | shutdownFinish =>
      obtain ⟨-, rfl⟩ := Runs.enabled_eq_some.mp h
      exact stateChannel_publish s _ _
  | pollPublish wireReady nodeTip chainTip filterTip =>
      obtain ⟨-, rfl⟩ := Runs.enabled_eq_some.mp h
      exact stateChannel_pollPublish s ov wireReady nodeTip chainTip filterTip
  | runSpawnNode | runSpawnPoll | runSpawnShutdown | runStoreHandle | pollWake | pollSkip
  | pollBreak | shutdownSignal | shutdownRequested | shutdownKill | shutdownCancel
  | shutdownNodeStopped | shutdownJoinNode | shutdownJoinPoll | shutdownFlush
  | callCancel i | callJoin i | callDrop i =>
      obtain ⟨-, rfl⟩ := Runs.enabled_eq_some.mp h
      rfl

/-- So a step of the node is a step of every call that waits on its state. -/
theorem ReadyWait.step_of_node {ov : Overflow} {s t : NodeRun} {a : NodeStep}
    (h : s.step ov a = some t) {w : ReadyWait} (hw : w.channel = s.stateChannel) :
    w.step (.sendIfModified (a.modify ov)) = some { w with channel := t.stateChannel } := by
  rw [stateChannel_step h, ← hw]
  exact Runs.enabled_eq_some.mpr ⟨by rw [hw]; rfl, rfl⟩

end BdkFloresta
