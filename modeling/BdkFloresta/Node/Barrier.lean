import BdkFloresta.Node.Publications
import BdkFloresta.Node.Action

/-!
A `shutdown` call as a barrier. Only one caller takes the shutdown task's handle;
the others find it gone, and may go on only because the owner holds the mutex
until the task has finished. If `run` has returned before the first cancellation
the handle is there to be taken, and after the task's end nothing writes the
state any more.
-/

namespace BdkFloresta

def ShutdownPc.Killed : ShutdownPc → Prop
  | .notSpawned | .listening | .woken => False
  | _ => True

def ShutdownPc.Cancelled : ShutdownPc → Prop
  | .notSpawned | .listening | .woken | .killed | .announced => False
  | _ => True

def ShutdownPc.Flushed : ShutdownPc → Prop
  | .flushed | .finished => True
  | _ => False

def ShutdownPc.Ended : ShutdownPc → Prop
  | .finished => True
  | _ => False

theorem ShutdownPc.Ended.past {pc : ShutdownPc} (h : pc.Ended) :
    pc.Killed ∧ pc.Cancelled ∧ pc.Flushed := by
  cases pc with
  | finished => exact ⟨trivial, trivial, trivial⟩
  | _ => exact h.elim

namespace NodeRun

/-- `Node::run` up to where it owns the inner node. -/
def takeInner (s : NodeRun) : Except NodeError NodeRun :=
  if s.inner then .ok { s with inner := false } else .error .alreadyRunning

/-- The first step of a `run` call is this entry. -/
theorem step_runTakeInner (ov : Overflow) (s : NodeRun) : s.step ov .runTakeInner =
    Runs.enabled (s.run = .start) (match s.takeInner with
      | .ok t => { t with run := .tookInner }
      | .error _ => { s with run := .alreadyRunning }) := by
  simp only [step, takeInner]
  split <;> rfl

/-- No cancellation before `run` has returned, and no dropped `shutdown` call. -/
def Orderly (s : NodeRun) : NodeStep → Prop
  | .callCancel _ | .shutdownCancel => s.run = .returned
  | .callDrop _ => False
  | _ => True

instance (s : NodeRun) : (a : NodeStep) → Decidable (s.Orderly a)
  | .callCancel _ | .shutdownCancel => inferInstanceAs (Decidable (s.run = .returned))
  | .callDrop _ => isFalse id
  | .runTakeInner | .runSetStartedAt | .runSpawnNode | .runSpawnPoll | .runSpawnShutdown
  | .runStoreHandle | .runPublishActive | .pollWake | .pollSkip | .pollPublish .. | .pollBreak
  | .shutdownSignal | .shutdownRequested | .shutdownKill | .shutdownAnnounce
  | .shutdownNodeStopped | .shutdownJoinNode | .shutdownJoinPoll | .shutdownFlush
  | .shutdownFinish | .callLock _ | .callJoin _ => isTrue True.intro

/-- What the tasks have done by where they are. -/
structure Staged (s : NodeRun) : Prop where
  inner : s.run ≠ .start → s.inner = false
  cancelled : s.shutdown.Cancelled → s.run = .returned
  killed : s.shutdown.Killed → s.killSignal = true
  flushed : s.shutdown.Flushed → s.flushAttempted = true
  ended : s.shutdown.Ended → s.state = .inactive

/-- Who answers for the shutdown task: its handle is stored, or a caller holds the
mutex, or it has finished. -/
structure Owned (s : NodeRun) : Prop where
  idle : s.run ≠ .returned → s.shutdownLock = none ∧ ∀ i, s.callers i = .idle
  stored : s.run = .storedHandle → s.shutdownTask = true
  owner : s.run = .returned →
    s.shutdownTask = true ∨ s.shutdownLock ≠ none ∨ s.shutdown.Ended
  returned : ∀ i, s.callers i = .returned → s.shutdown.Ended

theorem built_staged : Staged .built :=
  ⟨fun h => absurd rfl h, False.elim, False.elim, False.elim, False.elim⟩

theorem built_owned : Owned .built :=
  ⟨fun _ => ⟨rfl, fun _ => rfl⟩, fun h => absurd h (by decide),
    fun h => absurd h (by decide), fun _ h => absurd (show CallerPc.idle = .returned from h)
      (by decide)⟩

/-- Before `run` returns nothing is cancelled, so its own steps have only the inner node
to account for. -/
theorem Staged.before_return {s t : NodeRun} (hs : Staged s) (hrun : s.run ≠ .returned)
    (hinner : t.inner = false) (hshutdown : t.shutdown = s.shutdown)
    (hkill : t.killSignal = s.killSignal) (hflush : t.flushAttempted = s.flushAttempted) :
    Staged t := by
  have huncancelled : ¬ t.shutdown.Cancelled := by
    rw [hshutdown]
    exact fun hc => hrun (hs.cancelled hc)
  refine ⟨fun _ => hinner, fun hc => absurd hc huncancelled, ?_, ?_,
    fun hend => absurd (ShutdownPc.Ended.past hend).2.1 huncancelled⟩
  · rw [hshutdown, hkill]
    exact hs.killed
  · rw [hshutdown, hflush]
    exact hs.flushed

theorem staged_step {ov : Overflow} {s t : NodeRun} {a : NodeStep} (hs : Staged s)
    (hok : Orderly s a) (h : s.step ov a = some t) : Staged t := by
  obtain ⟨inner, cancelled, killed, flushed, ended⟩ := id hs
  cases a with
  | pollPublish wireReady nodeTip chainTip filterTip =>
      obtain ⟨-, rfl⟩ := Runs.enabled_eq_some.mp h
      obtain ⟨state, published, poll, heq, hfrozen⟩ :=
        s.pollPublish_frame ov wireReady nodeTip chainTip filterTip
      rw [heq]
      refine ⟨inner, cancelled, killed, flushed, fun hend => ?_⟩
      have hstate := ended hend
      exact (hfrozen (by rw [hstate]; trivial)).trans hstate
  | runTakeInner =>
      obtain ⟨hpc, rfl⟩ := Runs.enabled_eq_some.mp h
      have hrun : s.run ≠ .returned := by rw [hpc]; decide
      split
      · exact hs.before_return hrun rfl rfl rfl rfl
      next hinner =>
        exact hs.before_return hrun (Bool.eq_false_iff.mpr hinner) rfl rfl rfl
  | runSetStartedAt =>
      obtain ⟨hpc, rfl⟩ := Runs.enabled_eq_some.mp h
      have hrun : s.run ≠ .returned := by rw [hpc]; decide
      have hinner : s.inner = false := inner (by rw [hpc]; decide)
      split <;> exact hs.before_return hrun hinner rfl rfl rfl
  | runSpawnNode | runSpawnPoll | runPublishActive =>
      obtain ⟨hpc, rfl⟩ := Runs.enabled_eq_some.mp h
      exact hs.before_return (by rw [hpc]; decide) (inner (by rw [hpc]; decide)) rfl rfl rfl
  | runStoreHandle =>
      obtain ⟨⟨hpc, -⟩, rfl⟩ := Runs.enabled_eq_some.mp h
      exact hs.before_return (by rw [hpc]; decide) (inner (by rw [hpc]; decide)) rfl rfl rfl
  | runSpawnShutdown =>
      obtain ⟨hpc, rfl⟩ := Runs.enabled_eq_some.mp h
      exact ⟨fun _ => inner (by rw [hpc]; decide), False.elim, False.elim, False.elim,
        False.elim⟩
  | pollWake | pollSkip | pollBreak | callCancel i | callJoin i =>
      obtain ⟨-, rfl⟩ := Runs.enabled_eq_some.mp h
      exact ⟨inner, cancelled, killed, flushed, ended⟩
  | callLock i =>
      obtain ⟨-, rfl⟩ := Runs.enabled_eq_some.mp h
      split <;> exact ⟨inner, cancelled, killed, flushed, ended⟩
  | callDrop i => exact hok.elim
  | shutdownSignal =>
      obtain ⟨-, rfl⟩ := Runs.enabled_eq_some.mp h
      exact ⟨inner, False.elim, False.elim, False.elim, False.elim⟩
  | shutdownRequested =>
      obtain ⟨-, rfl⟩ := Runs.enabled_eq_some.mp h
      exact ⟨inner, False.elim, False.elim, False.elim, False.elim⟩
  | shutdownKill =>
      obtain ⟨-, rfl⟩ := Runs.enabled_eq_some.mp h
      exact ⟨inner, False.elim, fun _ => rfl, False.elim, False.elim⟩
  | shutdownAnnounce =>
      obtain ⟨hpc, rfl⟩ := Runs.enabled_eq_some.mp h
      exact ⟨inner, False.elim, fun _ => killed (by rw [hpc]; trivial), False.elim,
        False.elim⟩
  | shutdownCancel =>
      obtain ⟨hpc, rfl⟩ := Runs.enabled_eq_some.mp h
      exact ⟨inner, fun _ => hok, fun _ => killed (by rw [hpc]; trivial), False.elim,
        False.elim⟩
  | shutdownNodeStopped | shutdownJoinNode | shutdownJoinPoll =>
      obtain ⟨hpc, rfl⟩ := Runs.enabled_eq_some.mp h
      exact ⟨inner, fun _ => cancelled (by rw [hpc]; trivial),
        fun _ => killed (by rw [hpc]; trivial), False.elim, False.elim⟩
  | shutdownFlush =>
      obtain ⟨hpc, rfl⟩ := Runs.enabled_eq_some.mp h
      exact ⟨inner, fun _ => cancelled (by rw [hpc]; trivial),
        fun _ => killed (by rw [hpc]; trivial), fun _ => rfl,
        False.elim⟩
  | shutdownFinish =>
      obtain ⟨hpc, rfl⟩ := Runs.enabled_eq_some.mp h
      exact ⟨inner, fun _ => cancelled (by rw [hpc]; trivial),
        fun _ => killed (by rw [hpc]; trivial), fun _ => flushed (by rw [hpc]; trivial),
        fun _ => rfl⟩

/-- While the task runs, its own steps change nothing about who answers for it. -/
theorem Owned.of_running {s t : NodeRun} (hs : Owned s) (hrunning : ¬ s.shutdown.Ended)
    (hrun : t.run = s.run) (htask : t.shutdownTask = s.shutdownTask)
    (hlock : t.shutdownLock = s.shutdownLock) (hcallers : t.callers = s.callers) : Owned t := by
  refine ⟨?_, ?_, ?_, ?_⟩
  · rw [hrun, hlock, hcallers]
    exact hs.idle
  · rw [hrun, htask]
    exact hs.stored
  · rw [hrun, htask, hlock]
    exact fun h => (hs.owner h).imp_right fun h => .inl (h.resolve_right hrunning)
  · rw [hcallers]
    exact fun i hi => absurd (hs.returned i hi) hrunning

theorem returned_setCaller {s : NodeRun} {F : Prop} (h : ∀ j, s.callers j = .returned → F)
    {i : Nat} {pc : CallerPc} (hpc : pc = .returned → F) (j : Nat)
    (hj : (s.setCaller i pc).callers j = .returned) : F := by
  simp only [setCaller] at hj
  by_cases hji : j = i
  · rw [hji, Function.update_self] at hj
    exact hpc hj
  · rw [Function.update_of_ne hji] at hj
    exact h j hj

/-- Nobody calls `shutdown` before `run` has returned. -/
theorem Owned.run_of_called {s : NodeRun} (hs : Owned s) {i : Nat} (h : s.callers i ≠ .idle) :
    s.run = .returned := by
  by_contra hne
  exact h ((hs.idle hne).2 i)

theorem owned_step {ov : Overflow} {s t : NodeRun} {a : NodeStep} (hs : Owned s)
    (hok : Orderly s a) (h : s.step ov a = some t) : Owned t := by
  obtain ⟨idle, stored, owner, returned⟩ := id hs
  cases a with
  | pollPublish wireReady nodeTip chainTip filterTip =>
      obtain ⟨-, rfl⟩ := Runs.enabled_eq_some.mp h
      obtain ⟨state, published, poll, heq, -⟩ :=
        s.pollPublish_frame ov wireReady nodeTip chainTip filterTip
      rw [heq]
      exact ⟨idle, stored, owner, returned⟩
  | runTakeInner | runSetStartedAt =>
      obtain ⟨hpc, rfl⟩ := Runs.enabled_eq_some.mp h
      have hidle := idle (by rw [hpc]; decide)
      split <;> exact ⟨fun _ => hidle, by simp, by simp, returned⟩
  | runSpawnNode | runSpawnPoll =>
      obtain ⟨hpc, rfl⟩ := Runs.enabled_eq_some.mp h
      exact ⟨fun _ => idle (by rw [hpc]; decide), by simp, by simp, returned⟩
  | runSpawnShutdown =>
      obtain ⟨hpc, rfl⟩ := Runs.enabled_eq_some.mp h
      have hidle := idle (by rw [hpc]; decide)
      refine ⟨fun _ => hidle, by simp, by simp, fun i hi => ?_⟩
      exact absurd ((hidle.2 i).symm.trans hi) (by decide)
  | runStoreHandle =>
      obtain ⟨⟨hpc, -⟩, rfl⟩ := Runs.enabled_eq_some.mp h
      exact ⟨fun _ => idle (by rw [hpc]; decide), fun _ => rfl, by simp, returned⟩
  | runPublishActive =>
      obtain ⟨hpc, rfl⟩ := Runs.enabled_eq_some.mp h
      exact ⟨fun hne => absurd rfl hne, by simp, fun _ => .inl (stored hpc), returned⟩
  | pollWake | pollSkip | pollBreak =>
      obtain ⟨-, rfl⟩ := Runs.enabled_eq_some.mp h
      exact ⟨idle, stored, owner, returned⟩
  | callCancel i =>
      obtain ⟨-, rfl⟩ := Runs.enabled_eq_some.mp h
      exact ⟨fun hne => absurd hok hne, stored, owner, returned_setCaller returned (by simp)⟩
  | callLock i =>
      obtain ⟨⟨hpc, hfree⟩, rfl⟩ := Runs.enabled_eq_some.mp h
      have hrun : s.run = .returned := hs.run_of_called (by rw [hpc]; decide)
      split
      · exact ⟨fun hne => absurd hrun hne, fun hst => absurd (hrun.symm.trans hst) (by decide),
          fun _ => .inr (.inl (by simp)), returned_setCaller returned (by simp)⟩
      next htaken =>
        -- the handle is gone and nobody holds the mutex, so its owner has seen the end
        have hend : s.shutdown.Ended :=
          ((owner hrun).resolve_left htaken).resolve_left fun hheld => hheld hfree
        exact ⟨fun hne => absurd hrun hne, stored, owner,
          returned_setCaller returned fun _ => hend⟩
  | callJoin i =>
      obtain ⟨⟨hpc, hfinished⟩, rfl⟩ := Runs.enabled_eq_some.mp h
      have hrun : s.run = .returned := hs.run_of_called (by rw [hpc]; decide)
      have hend : s.shutdown.Ended := by
        rw [hfinished]
        trivial
      exact ⟨fun hne => absurd hrun hne, stored, fun _ => .inr (.inr hend),
        returned_setCaller returned fun _ => hend⟩
  | callDrop i => exact hok.elim
  | shutdownSignal | shutdownKill | shutdownAnnounce | shutdownCancel | shutdownNodeStopped
  | shutdownJoinNode | shutdownJoinPoll | shutdownFlush | shutdownFinish =>
      obtain ⟨hpc, rfl⟩ := Runs.enabled_eq_some.mp h
      exact hs.of_running (by rw [hpc]; exact id) rfl rfl rfl rfl
  | shutdownRequested =>
      obtain ⟨⟨hpc, -⟩, rfl⟩ := Runs.enabled_eq_some.mp h
      exact hs.of_running (by rw [hpc]; exact id) rfl rfl rfl rfl

/-- The shutdown is over: nothing is left that writes the state, and nothing gives
the inner node back. -/
structure Over (s : NodeRun) : Prop where
  state : s.state = .inactive
  inner : s.inner = false
  run : s.run = .returned
  shutdown : s.shutdown.Ended

theorem over_step {ov : Overflow} {s t : NodeRun} {a : NodeStep} (hs : Over s)
    (h : s.step ov a = some t) : Over t := by
  obtain ⟨state, inner, run, shutdown⟩ := hs
  cases a with
  | pollPublish wireReady nodeTip chainTip filterTip =>
      obtain ⟨-, rfl⟩ := Runs.enabled_eq_some.mp h
      obtain ⟨state', published, poll, heq, hfrozen⟩ :=
        s.pollPublish_frame ov wireReady nodeTip chainTip filterTip
      rw [heq]
      exact ⟨(hfrozen (by rw [state]; trivial)).trans state, inner, run, shutdown⟩
  | runTakeInner | runSetStartedAt | runSpawnNode | runSpawnPoll | runSpawnShutdown
  | runPublishActive =>
      obtain ⟨hpc, -⟩ := Runs.enabled_eq_some.mp h
      exact absurd (run.symm.trans hpc) (by decide)
  | runStoreHandle =>
      obtain ⟨⟨hpc, -⟩, -⟩ := Runs.enabled_eq_some.mp h
      exact absurd (run.symm.trans hpc) (by decide)
  | pollWake | pollSkip | pollBreak | callCancel i | callJoin i | callDrop i =>
      obtain ⟨-, rfl⟩ := Runs.enabled_eq_some.mp h
      exact ⟨state, inner, run, shutdown⟩
  | callLock i =>
      obtain ⟨-, rfl⟩ := Runs.enabled_eq_some.mp h
      split <;> exact ⟨state, inner, run, shutdown⟩
  | shutdownSignal | shutdownKill | shutdownAnnounce | shutdownCancel | shutdownNodeStopped
  | shutdownJoinNode | shutdownJoinPoll | shutdownFlush | shutdownFinish =>
      obtain ⟨hpc, -⟩ := Runs.enabled_eq_some.mp h
      rw [hpc] at shutdown
      exact shutdown.elim
  | shutdownRequested =>
      obtain ⟨⟨hpc, -⟩, -⟩ := Runs.enabled_eq_some.mp h
      rw [hpc] at shutdown
      exact shutdown.elim

/-- If `run` returns before the first cancellation and no `shutdown` call is
dropped, a returned call finds the node killed, flushed and inactive, and from then
on the node stays so and cannot be run again. -/
theorem shutdown_is_barrier (ov : Overflow) (steps : List NodeStep) {s : NodeRun}
    (hrun : Runs.exec (step ov) .built steps = some s)
    (horderly : Runs.EachStep (step ov) Orderly .built steps) {i : Nat}
    (hreturned : s.callers i = .returned) :
    s.killSignal = true ∧ s.flushAttempted = true ∧ s.state = .inactive ∧
      ∀ later, Runs.Always (step ov)
        (fun t => t.state = .inactive ∧ t.takeInner = .error .alreadyRunning) s later := by
  have hstaged : Staged s := Runs.exec_invariant_of_eachStep
    (fun _ _ _ hs hok ht => staged_step hs hok ht) built_staged horderly hrun
  have howned : Owned s := Runs.exec_invariant_of_eachStep
    (fun _ _ _ hs hok ht => owned_step hs hok ht) built_owned horderly hrun
  have hend := howned.returned i hreturned
  obtain ⟨hkilled, hcancelled, hflushed⟩ := hend.past
  have hback := hstaged.cancelled hcancelled
  have hover : Over s :=
    ⟨hstaged.ended hend, hstaged.inner (by rw [hback]; decide), hback, hend⟩
  refine ⟨hstaged.killed hkilled, hstaged.flushed hflushed, hover.state, fun later => ?_⟩
  refine (Runs.always_invariant (fun _ _ _ hs ht => over_step hs ht) hover later).mono
    fun t ht => ⟨ht.state, ?_⟩
  rw [takeInner, ht.inner]
  rfl

section examples

/-- Two `shutdown` calls on a running node: the first takes the handle, the second
gets the mutex once the first has returned. A poll outlives its join. -/
def twoCallers : List NodeStep :=
  [.runTakeInner, .runSetStartedAt, .runSpawnNode, .runSpawnPoll, .runSpawnShutdown,
    .runStoreHandle, .runPublishActive, .pollWake, .callCancel 0, .callCancel 1, .callLock 0,
    .shutdownRequested, .shutdownKill, .shutdownAnnounce, .shutdownCancel,
    .shutdownNodeStopped, .shutdownJoinNode, .shutdownJoinPoll, .shutdownFlush,
    .shutdownFinish, .callJoin 0, .pollPublish true 5 5 5, .callLock 1]

theorem shutdown_is_barrier_twoCallers : ∃ s,
    Runs.exec (step .wraps) .built twoCallers = some s ∧ s.callers 1 = .returned ∧
      s.killSignal = true ∧ s.flushAttempted = true ∧ s.state = .inactive ∧
      ∀ later, Runs.Always (step .wraps)
        (fun t => t.state = .inactive ∧ t.takeInner = .error .alreadyRunning) s later :=
  ⟨_, rfl, rfl, shutdown_is_barrier .wraps twoCallers rfl (by decide) (i := 1) rfl⟩

end examples
end NodeRun
end BdkFloresta
