import BdkFloresta.Library.Progress
import BdkFloresta.Node.Publications

/-!
Who holds the mutex lets go of it. `run` and every `shutdown` call lock the same mutex, and
a call that finds the shutdown task's handle holds the mutex until the task has finished.
The handle is there only once the task is, the task waits for nothing but timeouts, and the
holder's call has asked it to stop: so while the mutex is held the task or the holder has a
next step, and all of them together are ten.
-/

namespace BdkFloresta

/-- `run` has not stored the shutdown task's handle yet. -/
def RunPc.BeforeHandle : RunPc → Prop
  | .start | .tookInner | .setStartedAt | .spawnedNode | .spawnedPoll | .spawnedShutdown => True
  | .storedHandle | .returned | .alreadyRunning => False

instance : (pc : RunPc) → Decidable pc.BeforeHandle
  | .start | .tookInner | .setStartedAt | .spawnedNode | .spawnedPoll | .spawnedShutdown =>
      isTrue True.intro
  | .storedHandle | .returned | .alreadyRunning => isFalse id

/-- There is no shutdown task: `run` has not come to it, or has returned an error. -/
def RunPc.Unspawned : RunPc → Prop
  | .start | .tookInner | .setStartedAt | .spawnedNode | .spawnedPoll | .alreadyRunning => True
  | .spawnedShutdown | .storedHandle | .returned => False

/-- The steps the shutdown task still takes once it is asked to stop. -/
def ShutdownPc.remaining : ShutdownPc → Nat
  | .notSpawned | .listening => 9
  | .woken => 8
  | .killed => 7
  | .announced => 6
  | .cancelled => 5
  | .nodeStopped => 4
  | .nodeJoined => 3
  | .pollJoined => 2
  | .flushed => 1
  | .finished => 0

namespace NodeRun

/-- The mutex, the handle and the calls in the order they come about. -/
structure Queued (s : NodeRun) : Prop where
  before : s.run.BeforeHandle → s.shutdownTask = false ∧ s.shutdownLock = none
  spawned : s.shutdown = .notSpawned ↔ s.run.Unspawned
  task : s.shutdownTask = true → s.shutdown ≠ .notSpawned
  holder : ∀ i, s.shutdownLock = some i ↔ s.callers i = .awaiting
  held : s.shutdownLock ≠ none → s.shutdown ≠ .notSpawned ∧ s.shutdownTask = false
  called : ∀ i, s.callers i ≠ .idle → s.cancellationToken = true

theorem built_queued : Queued .built :=
  ⟨fun _ => ⟨rfl, rfl⟩, iff_of_true rfl trivial, fun h => absurd h (by decide),
    fun i => iff_of_false (by simp [built]) (by simp [built]), fun h => absurd rfl h,
    fun _ h => absurd rfl h⟩

/-- A caller that stops awaiting lets go of the mutex. -/
theorem Queued.releases {s : NodeRun} (hs : Queued s) (i : Nat) (pc : CallerPc)
    (hpc : pc ≠ .awaiting) (j : Nat) :
    (if s.callers i = .awaiting then none else s.shutdownLock) = some j ↔
      (s.setCaller i pc).callers j = .awaiting := by
  have hj := hs.holder j
  have hi := hs.holder i
  simp only [setCaller, Function.update_apply]
  by_cases hji : j = i
  · subst hji
    simp [hpc, hj]
  by_cases hawait : s.callers i = .awaiting
  · have hlock := hi.mpr hawait
    have hother : s.callers j ≠ .awaiting := fun h =>
      hji (Option.some.inj ((hj.mpr h).symm.trans hlock))
    simp [hawait, hji, hother]
  · simp [hawait, hji, hj]

/-- A step of the poll or of the shutdown task touches none of it. -/
theorem Queued.aside {s t : NodeRun} (hs : Queued s) (hrun : t.run = s.run)
    (hshutdown : t.shutdown = .notSpawned ↔ s.shutdown = .notSpawned)
    (htask : t.shutdownTask = s.shutdownTask) (hlock : t.shutdownLock = s.shutdownLock)
    (hcallers : t.callers = s.callers)
    (htoken : s.cancellationToken = true → t.cancellationToken = true) : Queued t := by
  refine ⟨?_, ?_, ?_, ?_, ?_, ?_⟩
  · rw [hrun, htask, hlock]
    exact hs.before
  · rw [hrun, hshutdown]
    exact hs.spawned
  · rw [htask, ne_eq, hshutdown]
    exact hs.task
  · rw [hlock, hcallers]
    exact hs.holder
  · rw [hlock, htask]
    exact fun hheld => (hs.held hheld).imp_left fun hspawned => mt hshutdown.mp hspawned
  · rw [hcallers]
    exact fun i hi => htoken (hs.called i hi)

/-- An early step of `run` only moves on. -/
theorem Queued.early {s t : NodeRun} (hs : Queued s) (hbefore : s.run.BeforeHandle)
    (hfrom : s.run.Unspawned) (hto : t.run.Unspawned) (hshutdown : t.shutdown = s.shutdown)
    (htask : t.shutdownTask = s.shutdownTask) (hlock : t.shutdownLock = s.shutdownLock)
    (hcallers : t.callers = s.callers) (htoken : t.cancellationToken = s.cancellationToken) :
    Queued t := by
  refine ⟨fun _ => ?_, iff_of_true ?_ hto, ?_, ?_, ?_, ?_⟩
  · rw [htask, hlock]
    exact hs.before hbefore
  · rw [hshutdown]
    exact hs.spawned.mpr hfrom
  · rw [htask, hshutdown]
    exact hs.task
  · rw [hlock, hcallers]
    exact hs.holder
  · rw [hlock, hshutdown, htask]
    exact hs.held
  · rw [hcallers, htoken]
    exact hs.called

theorem queued_step {ov : Overflow} {s t : NodeRun} {a : NodeStep} (hs : Queued s)
    (h : s.step ov a = some t) : Queued t := by
  cases a with
  | pollPublish wireReady nodeTip chainTip filterTip =>
      obtain ⟨-, rfl⟩ := Runs.enabled_eq_some.mp h
      obtain ⟨state, published, poll, heq, -⟩ :=
        s.pollPublish_frame ov wireReady nodeTip chainTip filterTip
      rw [heq]
      exact hs.aside rfl Iff.rfl rfl rfl rfl id
  | pollWake | pollSkip | pollBreak =>
      obtain ⟨-, rfl⟩ := Runs.enabled_eq_some.mp h
      exact hs.aside rfl Iff.rfl rfl rfl rfl id
  | shutdownSignal | shutdownKill | shutdownAnnounce | shutdownNodeStopped
  | shutdownJoinNode | shutdownJoinPoll | shutdownFlush | shutdownFinish =>
      obtain ⟨hpc, rfl⟩ := Runs.enabled_eq_some.mp h
      exact hs.aside rfl (iff_of_false nofun (by rw [hpc]; nofun)) rfl rfl rfl id
  | shutdownRequested =>
      obtain ⟨⟨hpc, -⟩, rfl⟩ := Runs.enabled_eq_some.mp h
      exact hs.aside rfl (iff_of_false nofun (by rw [hpc]; nofun)) rfl rfl rfl id
  | shutdownCancel =>
      obtain ⟨hpc, rfl⟩ := Runs.enabled_eq_some.mp h
      exact hs.aside rfl (iff_of_false nofun (by rw [hpc]; nofun)) rfl rfl rfl fun _ => rfl
  | runTakeInner | runSetStartedAt =>
      obtain ⟨hpc, rfl⟩ := Runs.enabled_eq_some.mp h
      split <;> exact hs.early (by rw [hpc]; trivial) (by rw [hpc]; trivial) trivial rfl rfl
        rfl rfl rfl
  | runSpawnNode | runSpawnPoll =>
      obtain ⟨hpc, rfl⟩ := Runs.enabled_eq_some.mp h
      exact hs.early (by rw [hpc]; trivial) (by rw [hpc]; trivial) trivial rfl rfl rfl rfl rfl
  | runSpawnShutdown =>
      obtain ⟨hpc, rfl⟩ := Runs.enabled_eq_some.mp h
      have hbefore := hs.before (by rw [hpc]; trivial)
      exact ⟨fun _ => hbefore, iff_of_false nofun id, fun _ => nofun, hs.holder,
        fun hheld => absurd hbefore.2 hheld, hs.called⟩
  | runStoreHandle =>
      obtain ⟨⟨hpc, hfree⟩, rfl⟩ := Runs.enabled_eq_some.mp h
      have hspawned : s.shutdown ≠ .notSpawned := by
        rw [ne_eq, hs.spawned, hpc]
        exact id
      exact ⟨False.elim, iff_of_false hspawned id, fun _ => hspawned, hs.holder,
        fun hheld => absurd hfree hheld, hs.called⟩
  | runPublishActive =>
      obtain ⟨hpc, rfl⟩ := Runs.enabled_eq_some.mp h
      have hspawned : s.shutdown ≠ .notSpawned := by
        rw [ne_eq, hs.spawned, hpc]
        exact id
      exact ⟨False.elim, iff_of_false hspawned id, hs.task, hs.holder, hs.held, hs.called⟩
  | callCancel i =>
      obtain ⟨hpc, rfl⟩ := Runs.enabled_eq_some.mp h
      have hholder := hs.releases i .locking nofun
      rw [hpc] at hholder
      exact ⟨hs.before, hs.spawned, hs.task, hholder, hs.held, fun _ _ => rfl⟩
  | callLock i =>
      obtain ⟨⟨hpc, hfree⟩, rfl⟩ := Runs.enabled_eq_some.mp h
      have htoken : s.cancellationToken = true := hs.called i (by rw [hpc]; nofun)
      split
      next htask =>
        refine ⟨fun hbefore => ?_, hs.spawned, nofun, fun j => ?_,
          fun _ => ⟨hs.task htask, rfl⟩, fun _ _ => htoken⟩
        · rw [(hs.before hbefore).1] at htask
          contradiction
        · have hj : s.callers j ≠ .awaiting := fun hj => by
            have hlock := (hs.holder j).mpr hj
            rw [hfree] at hlock
            contradiction
          by_cases hji : i = j
          · subst hji
            simp [setCaller]
          · simp [setCaller, Function.update_of_ne (Ne.symm hji), hji, hj]
      next htask =>
        have hholder := hs.releases i .returned nofun
        rw [hpc] at hholder
        exact ⟨hs.before, hs.spawned, hs.task, hholder, hs.held, fun _ _ => htoken⟩
  | callJoin i =>
      obtain ⟨⟨hpc, -⟩, rfl⟩ := Runs.enabled_eq_some.mp h
      have hholder := hs.releases i .returned nofun
      rw [hpc] at hholder
      exact ⟨fun hbefore => ⟨(hs.before hbefore).1, rfl⟩, hs.spawned, hs.task, hholder,
        fun h => absurd rfl h, fun _ _ => hs.called i (by rw [hpc]; nofun)⟩
  | callDrop i =>
      obtain ⟨hpc, rfl⟩ := Runs.enabled_eq_some.mp h
      have htoken : s.cancellationToken = true :=
        hs.called i (by rcases hpc with hpc | hpc <;> rw [hpc] <;> nofun)
      refine ⟨fun hbefore => ⟨(hs.before hbefore).1, ?_⟩, hs.spawned, hs.task,
        hs.releases i .dropped nofun, fun hlock => hs.held fun hfree => ?_, fun _ _ => htoken⟩
      · simp [(hs.before hbefore).2]
      · simp [hfree] at hlock

theorem reached_queued {ov : Overflow} {s : NodeRun} {as : List NodeStep}
    (h : Runs.exec (step ov) built as = some s) : Queued s :=
  Runs.exec_invariant (fun _ _ _ hs => queued_step hs) built_queued h

end NodeRun

/-- A step `run` itself takes. -/
def NodeStep.OfRun : NodeStep → Prop
  | .runTakeInner | .runSetStartedAt | .runSpawnNode | .runSpawnPoll | .runSpawnShutdown
  | .runStoreHandle | .runPublishActive => True
  | _ => False

/-- A step of the task once it is asked to stop, or of the call that has the mutex. -/
def NodeStep.Works : NodeStep → Prop
  | .shutdownRequested | .shutdownKill | .shutdownAnnounce | .shutdownCancel
  | .shutdownNodeStopped | .shutdownJoinNode | .shutdownJoinPoll | .shutdownFlush
  | .shutdownFinish | .callJoin _ => True
  | _ => False

instance : DecidablePred NodeStep.Works := fun a => by
  unfold NodeStep.Works
  split <;> infer_instance

/-- What a step does to call `i`. -/
inductive CallMove (i : Nat) (a : NodeStep) : CallerPc → CallerPc → Prop where
  | stays {pc} (hlock : a ≠ .callLock i) (hdrop : a ≠ .callDrop i) : CallMove i a pc pc
  | cancel (h : a = .callCancel i) : CallMove i a .idle .locking
  | lock {pc} (h : a = .callLock i) (hpc : pc = .awaiting ∨ pc = .returned) :
      CallMove i a .locking pc
  | join (h : a = .callJoin i) : CallMove i a .awaiting .returned
  | drop {pc} (h : a = .callDrop i) (hpc : pc ≠ .idle) : CallMove i a pc .dropped

namespace NodeRun

theorem call_moves {ov : Overflow} {s t : NodeRun} {a : NodeStep} (i : Nat)
    (h : s.step ov a = some t) : CallMove i a (s.callers i) (t.callers i) := by
  cases a with
  | pollPublish wireReady nodeTip chainTip filterTip =>
      obtain ⟨-, rfl⟩ := Runs.enabled_eq_some.mp h
      obtain ⟨state, published, poll, heq, -⟩ :=
        s.pollPublish_frame ov wireReady nodeTip chainTip filterTip
      rw [heq]
      exact .stays (by simp) (by simp)
  | runTakeInner | runSetStartedAt =>
      obtain ⟨-, rfl⟩ := Runs.enabled_eq_some.mp h
      split <;> exact .stays (by simp) (by simp)
  | callCancel j =>
      obtain ⟨hpc, rfl⟩ := Runs.enabled_eq_some.mp h
      by_cases hij : i = j
      · subst hij
        simp only [setCaller, Function.update_self, hpc]
        exact .cancel rfl
      · simp only [setCaller, Function.update_of_ne hij]
        exact .stays (by simp) (by simp)
  | callLock j =>
      obtain ⟨⟨hpc, -⟩, rfl⟩ := Runs.enabled_eq_some.mp h
      by_cases hij : i = j
      · subst hij
        rw [hpc]
        split <;> simp only [setCaller, Function.update_self]
        · exact .lock rfl (.inl rfl)
        · exact .lock rfl (.inr rfl)
      · have hother : NodeStep.callLock j ≠ .callLock i := by simp [Ne.symm hij]
        split <;> simp only [setCaller, Function.update_of_ne hij] <;>
          exact .stays hother (by simp)
  | callJoin j =>
      obtain ⟨⟨hpc, -⟩, rfl⟩ := Runs.enabled_eq_some.mp h
      by_cases hij : i = j
      · subst hij
        simp only [setCaller, Function.update_self, hpc]
        exact .join rfl
      · simp only [setCaller, Function.update_of_ne hij]
        exact .stays (by simp) (by simp)
  | callDrop j =>
      obtain ⟨hpc, rfl⟩ := Runs.enabled_eq_some.mp h
      by_cases hij : i = j
      · subst hij
        simp only [setCaller, Function.update_self]
        exact .drop rfl (by rcases hpc with hpc | hpc <;> simp [hpc])
      · simp only [setCaller, Function.update_of_ne hij]
        exact .stays (by simp) (by simp [Ne.symm hij])
  | _ =>
      obtain ⟨-, rfl⟩ := Runs.enabled_eq_some.mp h
      exact .stays (by simp) (by simp)

/-- A call may yet find the shutdown task's handle. -/
def handleAhead (shutdownTask : Bool) (run : RunPc) : Nat :=
  if shutdownTask = true ∨ run.BeforeHandle then 1 else 0

theorem handleAhead_le {run : RunPc} (h : run.BeforeHandle) (shutdownTask : Bool)
    (later : RunPc) : handleAhead shutdownTask later ≤ handleAhead shutdownTask run := by
  have hahead : handleAhead shutdownTask run = 1 := if_pos (.inr h)
  rw [hahead, handleAhead]
  split <;> decide

def mutexHeld : Option Nat → Nat
  | none => 0
  | some _ => 1

/-- What the task and the holder of the mutex, now or later, have left to do. -/
def working (s : NodeRun) : Nat :=
  s.shutdown.remaining + handleAhead s.shutdownTask s.run + mutexHeld s.shutdownLock

/-- The handle is either to be found or found by the holder. -/
theorem Queued.working_le {s : NodeRun} (hs : Queued s) : s.working ≤ 10 := by
  have hremaining : s.shutdown.remaining ≤ 9 := by cases s.shutdown <;> decide
  have hahead : handleAhead s.shutdownTask s.run ≤ 1 := by unfold handleAhead; split <;> decide
  unfold working
  cases hlock : s.shutdownLock with
  | none =>
      simp only [mutexHeld]
      omega
  | some i =>
      have hheld : s.shutdownLock ≠ none := by simp [hlock]
      have hstored : ¬ s.run.BeforeHandle := fun hbefore => hheld (hs.before hbefore).2
      have hfound : handleAhead s.shutdownTask s.run = 0 := by
        simp [handleAhead, (hs.held hheld).2, hstored]
      simp only [mutexHeld]
      omega

/-- No step adds to it, and the task's and the holder's steps take one thing out of it. -/
theorem working_step {ov : Overflow} {s t : NodeRun} {a : NodeStep} (hs : Queued s)
    (h : s.step ov a = some t) :
    t.working ≤ s.working ∧ (a.Works → t.working < s.working) := by
  cases a with
  | pollPublish wireReady nodeTip chainTip filterTip =>
      obtain ⟨-, rfl⟩ := Runs.enabled_eq_some.mp h
      obtain ⟨state, published, poll, heq, -⟩ :=
        s.pollPublish_frame ov wireReady nodeTip chainTip filterTip
      rw [heq]
      exact ⟨Nat.le_refl _, False.elim⟩
  | pollWake | pollSkip | pollBreak | callCancel i =>
      obtain ⟨-, rfl⟩ := Runs.enabled_eq_some.mp h
      exact ⟨Nat.le_refl _, False.elim⟩
  | shutdownSignal | shutdownKill | shutdownAnnounce | shutdownCancel | shutdownNodeStopped
  | shutdownJoinNode | shutdownJoinPoll | shutdownFlush | shutdownFinish =>
      obtain ⟨hpc, rfl⟩ := Runs.enabled_eq_some.mp h
      simp only [working, publish, hpc, ShutdownPc.remaining]
      omega
  | shutdownRequested =>
      obtain ⟨⟨hpc, -⟩, rfl⟩ := Runs.enabled_eq_some.mp h
      simp only [working, hpc, ShutdownPc.remaining]
      omega
  | runTakeInner | runSetStartedAt =>
      obtain ⟨hpc, rfl⟩ := Runs.enabled_eq_some.mp h
      refine ⟨?_, False.elim⟩
      have hbefore : s.run.BeforeHandle := by rw [hpc]; trivial
      split <;> exact Nat.add_le_add_right
        (Nat.add_le_add_left (handleAhead_le hbefore s.shutdownTask _) _) _
  | runSpawnNode | runSpawnPoll | runPublishActive =>
      obtain ⟨hpc, rfl⟩ := Runs.enabled_eq_some.mp h
      refine ⟨?_, False.elim⟩
      simp [working, handleAhead, publish, hpc, RunPc.BeforeHandle]
  | runSpawnShutdown =>
      obtain ⟨hpc, rfl⟩ := Runs.enabled_eq_some.mp h
      have hunspawned := hs.spawned.mpr (by rw [hpc]; trivial)
      refine ⟨?_, False.elim⟩
      simp [working, handleAhead, hpc, hunspawned, ShutdownPc.remaining, RunPc.BeforeHandle]
  | runStoreHandle =>
      obtain ⟨⟨hpc, -⟩, rfl⟩ := Runs.enabled_eq_some.mp h
      refine ⟨?_, False.elim⟩
      simp [working, handleAhead, hpc, RunPc.BeforeHandle]
  | callLock i =>
      obtain ⟨⟨-, hfree⟩, rfl⟩ := Runs.enabled_eq_some.mp h
      refine ⟨?_, False.elim⟩
      split
      next htask =>
        have hafter : ¬ s.run.BeforeHandle := fun hbefore => by
          rw [(hs.before hbefore).1] at htask
          contradiction
        simp [working, handleAhead, mutexHeld, setCaller, hfree, htask, hafter]
      next htask => exact Nat.le_refl _
  | callJoin i =>
      obtain ⟨⟨hpc, -⟩, rfl⟩ := Runs.enabled_eq_some.mp h
      have hlock := (hs.holder i).mpr hpc
      suffices hlt : working { s.setCaller i .returned with shutdownLock := none } <
        s.working from ⟨hlt.le, fun _ => hlt⟩
      simp [working, mutexHeld, setCaller, hlock]
  | callDrop i =>
      obtain ⟨-, rfl⟩ := Runs.enabled_eq_some.mp h
      refine ⟨Nat.add_le_add_left ?_ _, False.elim⟩
      split
      · exact Nat.zero_le _
      · exact Nat.le_refl _

/-- Whoever has the mutex has asked the task to stop, and the task waits for nothing but
its timeouts. -/
theorem Queued.works (ov : Overflow) {s : NodeRun} (hs : Queued s) {i : Nat}
    (hlock : s.shutdownLock = some i) : ∃ a t, a.Works ∧ s.step ov a = some t := by
  have hi : s.callers i = .awaiting := (hs.holder i).mp hlock
  have htoken : s.cancellationToken = true := hs.called i (by rw [hi]; nofun)
  cases hpc : s.shutdown with
  | notSpawned => exact absurd hpc (hs.held (by simp [hlock])).1
  | listening =>
      exact ⟨.shutdownRequested, _, trivial, Runs.enabled_eq_some.mpr ⟨⟨hpc, htoken⟩, rfl⟩⟩
  | woken => exact ⟨.shutdownKill, _, trivial, Runs.enabled_eq_some.mpr ⟨hpc, rfl⟩⟩
  | killed => exact ⟨.shutdownAnnounce, _, trivial, Runs.enabled_eq_some.mpr ⟨hpc, rfl⟩⟩
  | announced => exact ⟨.shutdownCancel, _, trivial, Runs.enabled_eq_some.mpr ⟨hpc, rfl⟩⟩
  | cancelled => exact ⟨.shutdownNodeStopped, _, trivial, Runs.enabled_eq_some.mpr ⟨hpc, rfl⟩⟩
  | nodeStopped => exact ⟨.shutdownJoinNode, _, trivial, Runs.enabled_eq_some.mpr ⟨hpc, rfl⟩⟩
  | nodeJoined => exact ⟨.shutdownJoinPoll, _, trivial, Runs.enabled_eq_some.mpr ⟨hpc, rfl⟩⟩
  | pollJoined => exact ⟨.shutdownFlush, _, trivial, Runs.enabled_eq_some.mpr ⟨hpc, rfl⟩⟩
  | flushed => exact ⟨.shutdownFinish, _, trivial, Runs.enabled_eq_some.mpr ⟨hpc, rfl⟩⟩
  | finished => exact ⟨.callJoin i, _, trivial, Runs.enabled_eq_some.mpr ⟨⟨hi, hpc⟩, rfl⟩⟩

end NodeRun
end BdkFloresta
