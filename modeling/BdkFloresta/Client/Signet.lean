import BdkFloresta.Client.Life
import BdkFloresta.Client.Task
import BdkFloresta.Node.Swept

/-!
The `main` of an application once `run` and `Client::new` have returned: the node, a
client whose continuous scan is a task, the task that applies the events to the wallet,
and `main` itself, which waits for a signal or for the scan's end and then stops the scan,
joins the wallet's task and shuts the node down. The parts share the node's token, the
client's token, the sender of the events and the handles of the tasks.
-/

namespace BdkFloresta

/-- How far `main` has come. -/
inductive MainPc where
  | selecting
  /-- `stop` has cancelled the token and awaits the scan's task. -/
  | stopping
  /-- `scan_task.await` -/
  | joining
  | shuttingDown
  | done
  deriving DecidableEq, Repr

structure ClientSignet where
  node : NodeRun
  life : ClientLife
  scan : ScanPc
  main : MainPc

inductive SignetStep where
  | node (a : NodeStep)
  | life (a : LifeStep)
  | scan (a : TaskStep)
  | interrupted
  | joined
  | stopped
  | shutdown
  | returned

/-- The loop of the wallet's task breaks after an `Error`. -/
def ScanEvent.isError : ScanEvent → Bool
  | .error _ => true
  | .walletUpdate _ | .finished _ => false

/-- Only `main` calls `shutdown`, and nothing drops the call. -/
def NodeStep.OfNode : NodeStep → Prop
  | .callCancel _ | .callDrop _ => False
  | _ => True

instance : DecidablePred NodeStep.OfNode := fun a => by
  unfold NodeStep.OfNode
  split <;> infer_instance

namespace ClientSignet
open Runs (enabled)

def start (node : NodeRun) : ClientSignet where
  node := node
  life := .new node.cancellationToken
  scan := .spawned
  main := .selecting

/-- The wallet's task has read an `Error`. -/
def Broken (s : ClientSignet) : Prop := s.life.received.getLast?.any ScanEvent.isError = true

instance (s : ClientSignet) : Decidable s.Broken :=
  inferInstanceAs (Decidable (s.life.received.getLast?.any ScanEvent.isError = true))

/-- The scan's call has returned and its task has dropped the client. -/
def TaskEnded (s : ClientSignet) : Prop := s.scan = .returned ∧ s.life.client = .dropped

instance (s : ClientSignet) : Decidable s.TaskEnded :=
  inferInstanceAs (Decidable (s.scan = .returned ∧ s.life.client = .dropped))

/-- When the others let a step of the client's life happen. -/
def Allows (s : ClientSignet) : LifeStep → Prop
  | .watcherCancel | .watcherTake => True
  | .dropCancel | .dropAbort | .dropTake => s.scan = .returned
  | .recv | .recvNone => ¬ s.Broken
  | .subscriberDrop => s.Broken
  | .nodeCancel | .tokenCancel | .send _ => False

instance (s : ClientSignet) : DecidablePred s.Allows := fun a => by
  unfold Allows
  split <;> infer_instance

/-- The client's watcher holds a clone of the node's token. -/
def withNode (s : ClientSignet) (node : NodeRun) : ClientSignet :=
  { s with
    node := node
    life := { s.life with nodeToken := s.life.nodeToken || node.cancellationToken } }

def step (ov : Overflow) (s : ClientSignet) : SignetStep → Option ClientSignet
  | .node a => if a.OfNode then (s.node.step ov a).map s.withNode else none
  | .life a =>
      if s.Allows a then (s.life.step a).map fun life => { s with life := life } else none
  | .scan a =>
      (s.scan.step s.node.stateChannel s.life.cancellationToken a).map fun (scan, event) =>
        { s with scan := scan, life := event.toList.foldl ClientLife.sendEvent s.life }
  -- the `select` of `main`; `stop` cancels the token once more after a `join`
  | .interrupted =>
      enabled (s.main = .selecting)
        { s with main := .stopping, life := { s.life with cancellationToken := true } }
  | .joined =>
      enabled (s.main = .selecting ∧ s.TaskEnded)
        { s with main := .joining, life := { s.life with cancellationToken := true } }
  | .stopped => enabled (s.main = .stopping ∧ s.TaskEnded) { s with main := .joining }
  | .shutdown =>
      if s.main = .joining ∧ s.life.subscriber ≠ .listening then
        (s.node.step ov (.callCancel 0)).map fun node =>
          { s.withNode node with main := .shuttingDown }
      else none
  | .returned =>
      enabled (s.main = .shuttingDown ∧ s.node.callers 0 = .returned) { s with main := .done }

end ClientSignet

theorem ScanPc.step_running {pc : ScanPc} {node : Watch.Channel State} {cancelled : Bool}
    {a : TaskStep} {r : ScanPc × Option ScanEvent} (h : pc.step node cancelled a = some r) :
    pc ≠ .returned := by
  rintro rfl
  cases a <;> cases h

theorem NodeStep.OfNode.alone {a : NodeStep} (h : a.OfNode) : a.Alone := by
  cases a with
  | callCancel i | callDrop i => exact h.elim
  | _ => trivial

namespace ClientSignet
variable {ov : Overflow} {s t : ClientSignet}

/-- What the node sees of a step; the call is `main`'s. -/
theorem node_moves {a : SignetStep} (h : s.step ov a = some t) :
    t.node = s.node ∨ ∃ b, b.Alone ∧ s.node.step ov b = some t.node := by
  cases a with
  | node a =>
      simp only [step] at h
      split at h
      next hof =>
        obtain ⟨node, hnode, rfl⟩ := Option.map_eq_some_iff.mp h
        exact .inr ⟨a, hof.alone, hnode⟩
      · cases h
  | life a =>
      simp only [step] at h
      split at h
      · obtain ⟨life, -, rfl⟩ := Option.map_eq_some_iff.mp h
        exact .inl rfl
      · cases h
  | scan a =>
      obtain ⟨⟨scan, event⟩, -, rfl⟩ := Option.map_eq_some_iff.mp h
      exact .inl rfl
  | shutdown =>
      simp only [step] at h
      split at h
      · obtain ⟨node, hnode, rfl⟩ := Option.map_eq_some_iff.mp h
        exact .inr ⟨.callCancel 0, rfl, hnode⟩
      · cases h
  | interrupted | joined | stopped | returned =>
      obtain ⟨-, rfl⟩ := Runs.enabled_eq_some.mp h
      exact .inl rfl

/-- The node's token, once cancelled, is cancelled in the watcher's clone. -/
theorem withNode_moves (s : ClientSignet) (node : NodeRun) :
    ∃ as, Runs.exec ClientLife.step s.life as = some (s.withNode node).life := by
  cases htoken : node.cancellationToken with
  | true => exact ⟨[.nodeCancel], by simp [Runs.exec, ClientLife.step, withNode, htoken]⟩
  | false => exact ⟨[], by simp [Runs.exec, withNode, htoken]⟩

theorem life_moves {a : SignetStep} (hs : s.life.client ≠ .alive → s.scan = .returned)
    (h : s.step ov a = some t) : ∃ as, Runs.exec ClientLife.step s.life as = some t.life := by
  cases a with
  | node a =>
      simp only [step] at h
      split at h
      · obtain ⟨node, -, rfl⟩ := Option.map_eq_some_iff.mp h
        exact s.withNode_moves node
      · cases h
  | life a =>
      simp only [step] at h
      split at h
      · obtain ⟨life, hlife, rfl⟩ := Option.map_eq_some_iff.mp h
        exact ⟨[a], by simp [Runs.exec, hlife]⟩
      · cases h
  | scan a =>
      obtain ⟨⟨scan, event⟩, hscan, rfl⟩ := Option.map_eq_some_iff.mp h
      have halive : s.life.client = .alive := by
        by_contra hdropping
        exact ScanPc.step_running hscan (hs hdropping)
      cases event with
      | none => exact ⟨[], rfl⟩
      | some event =>
          exact ⟨[.send event], by simp [Runs.exec, ClientLife.step, Runs.enabled, halive]⟩
  | shutdown =>
      simp only [step] at h
      split at h
      · obtain ⟨node, -, rfl⟩ := Option.map_eq_some_iff.mp h
        exact s.withNode_moves node
      · cases h
  | interrupted | joined =>
      obtain ⟨-, rfl⟩ := Runs.enabled_eq_some.mp h
      exact ⟨[.tokenCancel], rfl⟩
  | stopped | returned =>
      obtain ⟨-, rfl⟩ := Runs.enabled_eq_some.mp h
      exact ⟨[], rfl⟩

end ClientSignet

/-- The scan's task has ended before `main` gets here. -/
def MainPc.Stopped : MainPc → Prop
  | .joining | .shuttingDown | .done => True
  | .selecting | .stopping => False

/-- The wallet's task has ended before `main` gets here. -/
def MainPc.Joined : MainPc → Prop
  | .shuttingDown | .done => True
  | .selecting | .stopping | .joining => False

namespace ClientSignet
variable {ov : Overflow} {s t : ClientSignet}

/-- Who has waited for whom, and an `Error` as the last event of all. -/
structure Ordered (s : ClientSignet) : Prop where
  delivers : ClientLife.Delivers s.life
  closed : ClientLife.Closed s.life
  dropping : s.life.client ≠ .alive → s.scan = .returned
  last : ∀ e ∈ s.life.passed.dropLast, e.isError = false
  erred : (∃ e ∈ s.life.passed, e.isError = true) → s.scan = .returned
  gone : s.life.subscriber = .gone → s.Broken
  lost : s.life.watcher ≠ .finished → s.life.channel = s.life.passed
  stopping : s.main ≠ .selecting → s.life.cancellationToken = true
  ended : s.main.Stopped → s.TaskEnded
  read : s.main.Joined → s.life.subscriber ≠ .listening

theorem start_ordered (node : NodeRun) : Ordered (start node) where
  delivers := ClientLife.new_delivers _
  closed := ClientLife.new_closed _
  dropping := fun h => absurd rfl h
  last := by simp [start, ClientLife.new]
  erred := by simp [start, ClientLife.new]
  gone := by simp [start, ClientLife.new]
  lost := fun _ => rfl
  stopping := fun h => absurd rfl h
  ended := False.elim
  read := False.elim

/-- A step that is not about the scan leaves its events where they are. -/
theorem Ordered.aside (hs : Ordered s) (hdelivers : ClientLife.Delivers t.life)
    (hclosed : ClientLife.Closed t.life) (hclient : t.life.client = s.life.client)
    (hscan : t.scan = s.scan) (hpassed : t.life.passed = s.life.passed)
    (hreceived : t.life.received = s.life.received)
    (hsubscriber : t.life.subscriber = s.life.subscriber)
    (hchannel : t.life.channel = s.life.channel) (hwatcher : t.life.watcher = s.life.watcher)
    (hstopping : t.main ≠ .selecting → t.life.cancellationToken = true)
    (hended : t.main.Stopped → s.TaskEnded)
    (hread : t.main.Joined → s.life.subscriber ≠ .listening) : Ordered t := by
  refine ⟨hdelivers, hclosed, ?_, ?_, ?_, ?_, ?_, hstopping, ?_, ?_⟩
  · rw [hclient, hscan]
    exact hs.dropping
  · rw [hpassed]
    exact hs.last
  · rw [hpassed, hscan]
    exact hs.erred
  · rw [hsubscriber, Broken, hreceived]
    exact hs.gone
  · rw [hwatcher, hchannel, hpassed]
    exact hs.lost
  · rw [TaskEnded, hclient, hscan]
    exact hended
  · rw [hsubscriber]
    exact hread

theorem ordered_life {a : LifeStep} (hs : Ordered s) (hallows : s.Allows a) {life : ClientLife}
    (h : s.life.step a = some life) (delivers : ClientLife.Delivers life)
    (closed : ClientLife.Closed life) : Ordered { s with life := life } := by
  cases a with
  | watcherCancel =>
      obtain ⟨⟨hpc, -⟩, rfl⟩ := Runs.enabled_eq_some.mp h
      exact ⟨delivers, closed, hs.dropping, hs.last, hs.erred, hs.gone,
        fun _ => hs.lost (by rw [hpc]; decide), fun _ => rfl, hs.ended, hs.read⟩
  | watcherTake =>
      obtain ⟨-, rfl⟩ := Runs.enabled_eq_some.mp h
      exact ⟨delivers, closed, hs.dropping, hs.last, hs.erred, hs.gone,
        fun h => absurd rfl h, hs.stopping, hs.ended, hs.read⟩
  | dropCancel =>
      obtain ⟨hpc, rfl⟩ := Runs.enabled_eq_some.mp h
      refine ⟨delivers, closed, fun _ => hallows, hs.last, hs.erred, hs.gone, hs.lost,
        fun _ => rfl, fun hstopped => ?_, hs.read⟩
      exact absurd ((hs.ended hstopped).2.symm.trans hpc) (by decide)
  | dropAbort =>
      obtain ⟨hpc, rfl⟩ := Runs.enabled_eq_some.mp h
      refine ⟨delivers, closed, fun _ => hallows, hs.last, hs.erred, hs.gone,
        fun hwatcher => hs.lost fun hfinished => ?_, hs.stopping, fun hstopped => ?_, hs.read⟩
      · simp [hfinished] at hwatcher
      · exact absurd ((hs.ended hstopped).2.symm.trans hpc) (by decide)
  | dropTake =>
      obtain ⟨-, rfl⟩ := Runs.enabled_eq_some.mp h
      exact ⟨delivers, closed, fun _ => hallows, hs.last, hs.erred, hs.gone, hs.lost,
        hs.stopping, fun _ => ⟨hallows, rfl⟩, hs.read⟩
  | recv =>
      simp only [ClientLife.step] at h
      split at h
      · cases h
      · obtain ⟨hpc, rfl⟩ := Runs.enabled_eq_some.mp h
        exact ⟨delivers, closed, hs.dropping, hs.last, hs.erred,
          fun hgone => absurd (hpc.symm.trans hgone) (by decide), hs.lost, hs.stopping,
          hs.ended, hs.read⟩
  | recvNone =>
      obtain ⟨-, rfl⟩ := Runs.enabled_eq_some.mp h
      exact ⟨delivers, closed, hs.dropping, hs.last, hs.erred, by simp, hs.lost, hs.stopping,
        hs.ended, by simp⟩
  | subscriberDrop =>
      obtain ⟨-, rfl⟩ := Runs.enabled_eq_some.mp h
      exact ⟨delivers, closed, hs.dropping, hs.last, hs.erred, fun _ => hallows, hs.lost,
        hs.stopping, hs.ended, by simp⟩
  | nodeCancel | tokenCancel | send event => exact hallows.elim

/-- A broken loop has read all the events there are. -/
theorem Ordered.broken (hs : Ordered s) (h : s.Broken) :
    s.life.received = s.life.passed ∧ s.scan = .returned := by
  obtain ⟨e, hlast, herror⟩ := (Option.any_eq_true _ _).mp h
  obtain ⟨before, hreceived⟩ := List.getLast?_eq_some_iff.mp hlast
  obtain ⟨after, hpassed⟩ := hs.delivers.received.trans hs.delivers.sent
  rw [hreceived] at hpassed
  have hmem : e ∈ s.life.passed := by
    rw [← hpassed]
    simp
  refine ⟨?_, hs.erred ⟨e, hmem, herror⟩⟩
  have hafter : after = [] := by
    by_contra hne
    have hdropped : e ∈ s.life.passed.dropLast := by
      rw [← hpassed, List.dropLast_append_of_ne_nil hne]
      simp
    exact absurd herror (by rw [hs.last e hdropped]; decide)
  rw [hreceived, ← hpassed, hafter, List.append_nil]

/-- While the scan runs its client is alive, no `Error` has been passed, and what was not
put into the channel was passed after the watcher had taken the sender. -/
theorem Ordered.running (hs : Ordered s) (h : s.scan ≠ .returned) :
    s.life.client = .alive ∧ (∀ e ∈ s.life.passed, e.isError = false) ∧ ¬ s.main.Stopped ∧
      s.life.subscriber ≠ .gone := by
  refine ⟨?_, fun e he => ?_, fun hstopped => h (hs.ended hstopped).1, fun hgone => ?_⟩
  · by_contra hdropping
    exact h (hs.dropping hdropping)
  · by_contra herror
    exact h (hs.erred ⟨e, he, Bool.eq_true_of_not_eq_false herror⟩)
  · exact h (hs.broken (hs.gone hgone)).2

/-- Only a scan that returns passes an `Error`. -/
theorem step_error {pc pc' : ScanPc} {node : Watch.Channel State} {cancelled : Bool}
    {a : TaskStep} {e : ScanEvent} (h : pc.step node cancelled a = some (pc', some e))
    (herror : e.isError = true) : pc' = .returned := by
  unfold ScanPc.step at h
  split at h <;> grind [ScanEvent.isError, Runs.enabled, cases Option]

theorem ordered_scan {a : TaskStep} (hs : Ordered s) {scan : ScanPc} {event : Option ScanEvent}
    (h : s.scan.step s.node.stateChannel s.life.cancellationToken a = some (scan, event))
    (delivers : ClientLife.Delivers (event.toList.foldl ClientLife.sendEvent s.life))
    (closed : ClientLife.Closed (event.toList.foldl ClientLife.sendEvent s.life)) :
    Ordered { s with
      scan := scan, life := event.toList.foldl ClientLife.sendEvent s.life } := by
  obtain ⟨halive, hquiet, hunstopped, hgone⟩ := hs.running (ScanPc.step_running h)
  cases event with
  | none =>
      exact ⟨delivers, closed, fun hdropping => absurd halive hdropping, hs.last,
        fun ⟨e, he, herror⟩ => absurd herror (by rw [hquiet e he]; decide), hs.gone, hs.lost,
        hs.stopping, fun hstopped => absurd hstopped hunstopped, hs.read⟩
  | some event =>
      have hlost : s.life.watcher ≠ .finished → s.life.eventTx = true := fun hwatcher => by
        by_contra htaken
        rcases hs.closed.taken.mp (Bool.eq_false_iff.mpr htaken) with hfinished | hdropped
        · exact hwatcher hfinished
        · exact absurd (halive.symm.trans hdropped) (by decide)
      have hdropLast : ∀ e ∈ (s.life.passed ++ [event]).dropLast, e.isError = false := by
        rw [List.dropLast_concat]
        exact hquiet
      have herred : (∃ e ∈ s.life.passed ++ [event], e.isError = true) → scan = .returned := by
        rintro ⟨e, he, herror⟩
        rcases List.mem_append.mp he with he | he
        · exact absurd herror (by rw [hquiet e he]; decide)
        · rw [List.mem_singleton.mp he] at herror
          exact step_error h herror
      simp only [Option.toList_some, List.foldl_cons, List.foldl_nil, ClientLife.sendEvent] at *
      split
      next hopen =>
        refine ⟨by simpa [hopen] using delivers, by simpa [hopen] using closed,
          fun hdropping => absurd halive hdropping, hdropLast, herred, hs.gone,
          fun hwatcher => ?_, hs.stopping, fun hstopped => absurd hstopped hunstopped, hs.read⟩
        rw [hs.lost hwatcher]
      next hclosed =>
        refine ⟨by simpa [hclosed] using delivers, by simpa [hclosed] using closed,
          fun hdropping => absurd halive hdropping, hdropLast, herred, hs.gone,
          fun hwatcher => absurd ⟨hlost hwatcher, hgone⟩ hclosed, hs.stopping,
          fun hstopped => absurd hstopped hunstopped, hs.read⟩

theorem ordered_step {a : SignetStep} (hs : Ordered s) (h : s.step ov a = some t) :
    Ordered t := by
  obtain ⟨as, has⟩ := life_moves hs.dropping h
  have delivers : ClientLife.Delivers t.life :=
    Runs.exec_invariant (fun _ _ _ hs => ClientLife.delivers_step hs) hs.delivers has
  have closed : ClientLife.Closed t.life :=
    Runs.exec_invariant (fun _ _ _ hs => ClientLife.closed_step hs) hs.closed has
  cases a with
  | node a =>
      simp only [step] at h
      split at h
      · obtain ⟨node, -, rfl⟩ := Option.map_eq_some_iff.mp h
        exact hs.aside delivers closed rfl rfl rfl rfl rfl rfl rfl hs.stopping hs.ended hs.read
      · cases h
  | shutdown =>
      simp only [step] at h
      split at h
      next hjoining =>
        obtain ⟨hpc, hsubscriber⟩ := hjoining
        obtain ⟨node, -, rfl⟩ := Option.map_eq_some_iff.mp h
        exact hs.aside delivers closed rfl rfl rfl rfl rfl rfl rfl
          (fun _ => hs.stopping (by rw [hpc]; decide)) (fun _ => hs.ended (by rw [hpc]; trivial))
          fun _ => hsubscriber
      · cases h
  | interrupted =>
      obtain ⟨-, rfl⟩ := Runs.enabled_eq_some.mp h
      exact hs.aside delivers closed rfl rfl rfl rfl rfl rfl rfl (fun _ => rfl) False.elim
        False.elim
  | joined =>
      obtain ⟨⟨-, hended⟩, rfl⟩ := Runs.enabled_eq_some.mp h
      exact hs.aside delivers closed rfl rfl rfl rfl rfl rfl rfl (fun _ => rfl) (fun _ => hended)
        False.elim
  | stopped =>
      obtain ⟨⟨hpc, hended⟩, rfl⟩ := Runs.enabled_eq_some.mp h
      exact hs.aside delivers closed rfl rfl rfl rfl rfl rfl rfl
        (fun _ => hs.stopping (by rw [hpc]; decide)) (fun _ => hended) False.elim
  | returned =>
      obtain ⟨⟨hpc, -⟩, rfl⟩ := Runs.enabled_eq_some.mp h
      exact hs.aside delivers closed rfl rfl rfl rfl rfl rfl rfl
        (fun _ => hs.stopping (by rw [hpc]; decide)) (fun _ => hs.ended (by rw [hpc]; trivial))
        fun _ => hs.read (by rw [hpc]; trivial)
  | scan a =>
      obtain ⟨⟨scan, event⟩, hscan, rfl⟩ := Option.map_eq_some_iff.mp h
      exact ordered_scan hs hscan delivers closed
  | life a =>
      simp only [step] at h
      split at h
      next hallows =>
        obtain ⟨life, hlife, rfl⟩ := Option.map_eq_some_iff.mp h
        exact ordered_life hs hallows hlife delivers closed
      · cases h

/-- Everything a run of the application keeps. -/
structure Sound (s : ClientSignet) : Prop where
  ordered : Ordered s
  channel : ChannelInv s.node
  queued : NodeRun.Queued s.node
  swept : NodeRun.Swept s.node
  alone : NodeRun.Alone s.node
  called : s.main.Joined ↔ s.node.callers 0 ≠ .idle
  done : s.main = .done → s.node.callers 0 = .returned

theorem start_sound {node : NodeRun} (h : node.Started ov) : Sound (start node) := by
  obtain ⟨as, has⟩ := h.reached
  exact ⟨start_ordered node,
    Runs.exec_invariant (fun _ _ _ hs => channelInv_step hs) channelInv_built has,
    NodeRun.reached_queued has,
    Runs.exec_invariant (fun _ _ _ hs => NodeRun.swept_step hs) NodeRun.built_swept has,
    h.alone, iff_of_false id fun hcalled => hcalled (h.uncalled 0), nofun⟩

theorem Sound.called_step {a : SignetStep} (hs : Sound s) (h : s.step ov a = some t) :
    (t.main.Joined ↔ t.node.callers 0 ≠ .idle) ∧
      (t.main = .done → t.node.callers 0 = .returned) := by
  cases a with
  | node a =>
      simp only [step] at h
      split at h
      next hof =>
        obtain ⟨node, hnode, rfl⟩ := Option.map_eq_some_iff.mp h
        rcases NodeRun.caller_step (i := 0) hnode with hsame | ⟨-, rfl⟩ | ⟨hwaiting, hcalled⟩
        · simp only [withNode, hsame]
          exact ⟨hs.called, hs.done⟩
        · exact hof.elim
        · refine ⟨iff_of_true (hs.called.mpr fun hidle => ?_) hcalled, fun hdone => ?_⟩
          · simp [hidle] at hwaiting
          · simp [hs.done hdone] at hwaiting
      · cases h
  | life a =>
      simp only [step] at h
      split at h
      · obtain ⟨life, -, rfl⟩ := Option.map_eq_some_iff.mp h
        exact ⟨hs.called, hs.done⟩
      · cases h
  | scan a =>
      obtain ⟨⟨scan, event⟩, -, rfl⟩ := Option.map_eq_some_iff.mp h
      exact ⟨hs.called, hs.done⟩
  | shutdown =>
      simp only [step] at h
      split at h
      · obtain ⟨node, hnode, rfl⟩ := Option.map_eq_some_iff.mp h
        obtain ⟨-, rfl⟩ := Runs.enabled_eq_some.mp hnode
        exact ⟨iff_of_true trivial (by simp [withNode, NodeRun.setCaller]), by simp⟩
      · cases h
  | interrupted =>
      obtain ⟨hpc, rfl⟩ := Runs.enabled_eq_some.mp h
      exact ⟨by rw [← hs.called, hpc]; rfl, by simp⟩
  | joined | stopped =>
      obtain ⟨⟨hpc, -⟩, rfl⟩ := Runs.enabled_eq_some.mp h
      exact ⟨by rw [← hs.called, hpc]; rfl, by simp⟩
  | returned =>
      obtain ⟨⟨hpc, hreturned⟩, rfl⟩ := Runs.enabled_eq_some.mp h
      exact ⟨by rw [← hs.called, hpc]; rfl, fun _ => hreturned⟩

theorem sound_step {a : SignetStep} (hs : Sound s) (h : s.step ov a = some t) : Sound t := by
  have ordered := ordered_step hs.ordered h
  have hnode : ChannelInv t.node ∧ NodeRun.Queued t.node ∧ NodeRun.Swept t.node ∧
      NodeRun.Alone t.node := by
    rcases node_moves h with hsame | ⟨b, halone, hb⟩
    · rw [hsame]
      exact ⟨hs.channel, hs.queued, hs.swept, hs.alone⟩
    · exact ⟨channelInv_step hs.channel hb, NodeRun.queued_step hs.queued hb,
        NodeRun.swept_step hs.swept hb, NodeRun.alone_step hs.alone halone hb⟩
  obtain ⟨channel, queued, swept, alone⟩ := hnode
  exact ⟨ordered, channel, queued, swept, alone, (hs.called_step h).1, (hs.called_step h).2⟩

end ClientSignet
end BdkFloresta
