import BdkFloresta.Node.Barrier
import BdkFloresta.Node.Unblocked

/-!
A node that one thread runs and then shuts down. Once `run` has returned, the handle of
the shutdown task stays in its place until the one `shutdown` call takes it, so the call
returns after the task's end and not before; the task has then set the kill signal, tried
the flush and published its last state, and no poll publishes another.
-/

namespace BdkFloresta
namespace NodeRun
variable {ov : Overflow} {s t : NodeRun}

/-- What the shutdown task leaves behind it, and where its handle is until a call. -/
structure Swept (s : NodeRun) : Prop where
  killed : s.shutdown.Killed → s.killSignal = true
  flushed : s.shutdown.Flushed → s.flushAttempted = true
  handle : s.run = .storedHandle ∨ s.run = .returned → (∀ i, s.callers i = .idle) →
    s.shutdownTask = true

theorem built_swept : Swept .built := ⟨False.elim, False.elim, by simp [built]⟩

/-- After a call there is nothing left to say of the handle. -/
theorem Swept.called (hs : Swept s) (hshutdown : t.shutdown = s.shutdown)
    (hkill : t.killSignal = s.killSignal) (hflush : t.flushAttempted = s.flushAttempted)
    {i : Nat} (hcaller : t.callers i ≠ .idle) : Swept t := by
  refine ⟨?_, ?_, fun _ hidle => absurd (hidle i) hcaller⟩
  · rw [hshutdown, hkill]
    exact hs.killed
  · rw [hshutdown, hflush]
    exact hs.flushed

theorem swept_step {a : NodeStep} (hs : Swept s) (h : s.step ov a = some t) : Swept t := by
  obtain ⟨killed, flushed, handle⟩ := id hs
  cases a with
  | pollPublish wireReady nodeTip chainTip filterTip =>
      obtain ⟨-, rfl⟩ := Runs.enabled_eq_some.mp h
      obtain ⟨state, published, poll, heq, -⟩ :=
        s.pollPublish_frame ov wireReady nodeTip chainTip filterTip
      rw [heq]
      exact ⟨killed, flushed, handle⟩
  | pollWake | pollSkip | pollBreak =>
      obtain ⟨-, rfl⟩ := Runs.enabled_eq_some.mp h
      exact ⟨killed, flushed, handle⟩
  | runTakeInner | runSetStartedAt =>
      obtain ⟨-, rfl⟩ := Runs.enabled_eq_some.mp h
      split <;> exact ⟨killed, flushed, by simp⟩
  | runSpawnNode | runSpawnPoll =>
      obtain ⟨-, rfl⟩ := Runs.enabled_eq_some.mp h
      exact ⟨killed, flushed, by simp⟩
  | runSpawnShutdown =>
      obtain ⟨-, rfl⟩ := Runs.enabled_eq_some.mp h
      exact ⟨False.elim, False.elim, by simp⟩
  | runStoreHandle =>
      obtain ⟨-, rfl⟩ := Runs.enabled_eq_some.mp h
      exact ⟨killed, flushed, fun _ _ => rfl⟩
  | runPublishActive =>
      obtain ⟨hpc, rfl⟩ := Runs.enabled_eq_some.mp h
      exact ⟨killed, flushed, fun _ => handle (.inl hpc)⟩
  | shutdownSignal =>
      obtain ⟨-, rfl⟩ := Runs.enabled_eq_some.mp h
      exact ⟨False.elim, False.elim, handle⟩
  | shutdownRequested =>
      obtain ⟨-, rfl⟩ := Runs.enabled_eq_some.mp h
      exact ⟨False.elim, False.elim, handle⟩
  | shutdownKill =>
      obtain ⟨-, rfl⟩ := Runs.enabled_eq_some.mp h
      exact ⟨fun _ => rfl, False.elim, handle⟩
  | shutdownAnnounce | shutdownCancel | shutdownNodeStopped | shutdownJoinNode
  | shutdownJoinPoll =>
      obtain ⟨hpc, rfl⟩ := Runs.enabled_eq_some.mp h
      exact ⟨fun _ => killed (by rw [hpc]; trivial), False.elim, handle⟩
  | shutdownFlush =>
      obtain ⟨hpc, rfl⟩ := Runs.enabled_eq_some.mp h
      exact ⟨fun _ => killed (by rw [hpc]; trivial), fun _ => rfl, handle⟩
  | shutdownFinish =>
      obtain ⟨hpc, rfl⟩ := Runs.enabled_eq_some.mp h
      exact ⟨fun _ => killed (by rw [hpc]; trivial), fun _ => flushed (by rw [hpc]; trivial),
        handle⟩
  | callCancel i | callJoin i | callDrop i =>
      obtain ⟨-, rfl⟩ := Runs.enabled_eq_some.mp h
      exact hs.called rfl rfl rfl (i := i) (by simp [setCaller])
  | callLock i =>
      obtain ⟨-, rfl⟩ := Runs.enabled_eq_some.mp h
      split <;> exact hs.called rfl rfl rfl (i := i) (by simp [setCaller])

end NodeRun

/-- `run` has returned, and nobody has called `shutdown` yet. -/
structure NodeRun.Started (ov : Overflow) (node : NodeRun) : Prop where
  reached : ∃ as, Runs.exec (NodeRun.step ov) .built as = some node
  returned : node.run = .returned
  uncalled : ∀ i, node.callers i = .idle

/-- A step of the node, or the one thread's call `0`; nothing drops the call. -/
def NodeStep.Alone : NodeStep → Prop
  | .callCancel i => i = 0
  | .callDrop _ => False
  | _ => True

namespace NodeRun
variable {ov : Overflow} {s t : NodeRun}

/-- The one call finds the handle, and waits for the end of the task. -/
structure Alone (s : NodeRun) : Prop where
  run : s.run = .returned
  others : ∀ i, i ≠ 0 → s.callers i = .idle
  undropped : s.callers 0 ≠ .dropped
  handle : s.callers 0 = .idle ∨ s.callers 0 = .locking → s.shutdownTask = true
  returned : s.callers 0 = .returned → s.shutdown.Ended

theorem Started.alone (h : Started ov s) : Alone s := by
  obtain ⟨as, has⟩ := h.reached
  have hswept : Swept s := Runs.exec_invariant (fun _ _ _ hs => swept_step hs) built_swept has
  refine ⟨h.returned, fun i _ => h.uncalled i, ?_, fun _ => hswept.handle (.inr h.returned)
    h.uncalled, ?_⟩
  · rw [h.uncalled]
    decide
  · rw [h.uncalled]
    exact nofun

/-- A step of the shutdown task finds no call returned. -/
theorem Alone.at_work (hs : Alone s) (hworking : ¬ s.shutdown.Ended) (hrun : t.run = s.run)
    (hcallers : t.callers = s.callers) (htask : t.shutdownTask = s.shutdownTask) : Alone t := by
  refine ⟨hrun.trans hs.run, ?_, ?_, ?_, ?_⟩
  · rw [hcallers]
    exact hs.others
  · rw [hcallers]
    exact hs.undropped
  · rw [hcallers, htask]
    exact hs.handle
  · rw [hcallers]
    exact fun hreturned => absurd (hs.returned hreturned) hworking

theorem alone_step {a : NodeStep} (hs : Alone s) (ha : a.Alone) (h : s.step ov a = some t) :
    Alone t := by
  obtain ⟨run, others, undropped, handle, returned⟩ := id hs
  cases a with
  | pollPublish wireReady nodeTip chainTip filterTip =>
      obtain ⟨-, rfl⟩ := Runs.enabled_eq_some.mp h
      obtain ⟨state, published, poll, heq, -⟩ :=
        s.pollPublish_frame ov wireReady nodeTip chainTip filterTip
      rw [heq]
      exact ⟨run, others, undropped, handle, returned⟩
  | pollWake | pollSkip | pollBreak =>
      obtain ⟨-, rfl⟩ := Runs.enabled_eq_some.mp h
      exact ⟨run, others, undropped, handle, returned⟩
  | runTakeInner | runSetStartedAt | runSpawnNode | runSpawnPoll | runSpawnShutdown
  | runPublishActive =>
      obtain ⟨hpc, -⟩ := Runs.enabled_eq_some.mp h
      exact absurd (run.symm.trans hpc) (by decide)
  | runStoreHandle =>
      obtain ⟨⟨hpc, -⟩, -⟩ := Runs.enabled_eq_some.mp h
      exact absurd (run.symm.trans hpc) (by decide)
  | shutdownSignal | shutdownKill | shutdownAnnounce | shutdownCancel | shutdownNodeStopped
  | shutdownJoinNode | shutdownJoinPoll | shutdownFlush | shutdownFinish =>
      obtain ⟨hpc, rfl⟩ := Runs.enabled_eq_some.mp h
      exact hs.at_work (by rw [hpc]; exact id) rfl rfl rfl
  | shutdownRequested =>
      obtain ⟨⟨hpc, -⟩, rfl⟩ := Runs.enabled_eq_some.mp h
      exact hs.at_work (by rw [hpc]; exact id) rfl rfl rfl
  | callCancel i =>
      obtain rfl : i = 0 := ha
      obtain ⟨hpc, rfl⟩ := Runs.enabled_eq_some.mp h
      refine ⟨run, fun i hi => ?_, by simp [setCaller], fun _ => handle (.inl hpc),
        by simp [setCaller]⟩
      simpa [setCaller, hi] using others i hi
  | callLock i =>
      obtain ⟨⟨hpc, -⟩, rfl⟩ := Runs.enabled_eq_some.mp h
      obtain rfl : i = 0 := by
        by_contra hi
        exact absurd ((others i hi).symm.trans hpc) (by decide)
      rw [if_pos (handle (.inr hpc))]
      refine ⟨run, fun i hi => ?_, by simp [setCaller], by simp [setCaller],
        by simp [setCaller]⟩
      simpa [setCaller, hi] using others i hi
  | callJoin i =>
      obtain ⟨⟨hpc, hfinished⟩, rfl⟩ := Runs.enabled_eq_some.mp h
      obtain rfl : i = 0 := by
        by_contra hi
        exact absurd ((others i hi).symm.trans hpc) (by decide)
      refine ⟨run, fun i hi => ?_, by simp [setCaller], by simp [setCaller],
        fun _ => by simp [setCaller, hfinished, ShutdownPc.Ended]⟩
      simpa [setCaller, hi] using others i hi
  | callDrop i => exact ha.elim

/-- A call moves on by its own steps only. -/
theorem caller_step {a : NodeStep} {i : Nat} (h : s.step ov a = some t) :
    t.callers i = s.callers i ∨ s.callers i = .idle ∧ a = .callCancel i ∨
      (s.callers i = .locking ∨ s.callers i = .awaiting) ∧ t.callers i ≠ .idle := by
  cases a with
  | pollPublish wireReady nodeTip chainTip filterTip =>
      obtain ⟨-, rfl⟩ := Runs.enabled_eq_some.mp h
      obtain ⟨state, published, poll, heq, -⟩ :=
        s.pollPublish_frame ov wireReady nodeTip chainTip filterTip
      rw [heq]
      exact .inl rfl
  | runTakeInner | runSetStartedAt =>
      obtain ⟨-, rfl⟩ := Runs.enabled_eq_some.mp h
      split <;> exact .inl rfl
  | callCancel j =>
      obtain ⟨hpc, rfl⟩ := Runs.enabled_eq_some.mp h
      by_cases hij : i = j
      · exact .inr (.inl ⟨hij ▸ hpc, by rw [hij]⟩)
      · exact .inl (Function.update_of_ne hij ..)
  | callLock j =>
      obtain ⟨⟨hpc, -⟩, rfl⟩ := Runs.enabled_eq_some.mp h
      by_cases hij : i = j
      · subst hij
        exact .inr (.inr ⟨.inl hpc, by split <;> simp [setCaller]⟩)
      · split <;> exact .inl (Function.update_of_ne hij ..)
  | callJoin j =>
      obtain ⟨⟨hpc, -⟩, rfl⟩ := Runs.enabled_eq_some.mp h
      by_cases hij : i = j
      · subst hij
        exact .inr (.inr ⟨.inr hpc, by simp [setCaller]⟩)
      · exact .inl (Function.update_of_ne hij ..)
  | callDrop j =>
      obtain ⟨hpc, rfl⟩ := Runs.enabled_eq_some.mp h
      by_cases hij : i = j
      · subst hij
        exact .inr (.inr ⟨hpc, by simp [setCaller]⟩)
      · exact .inl (Function.update_of_ne hij ..)
  | _ =>
      obtain ⟨-, rfl⟩ := Runs.enabled_eq_some.mp h
      exact .inl rfl

theorem ended_iff_phase (pc : ShutdownPc) : pc.Ended ↔ pc.phase = 2 := by
  cases pc <;> simp [ShutdownPc.Ended, ShutdownPc.phase]

/-- Once `run` has returned, the state the task ends with is the last one. -/
theorem ended_step {a : NodeStep} (hchannel : ChannelInv s) (hrun : s.run = .returned)
    (hs : s.shutdown.Ended → s.state = .inactive) (h : s.step ov a = some t) :
    t.shutdown.Ended → t.state = .inactive := by
  rw [ended_iff_phase] at hs ⊢
  cases step_effect hchannel.spawnOrder h with
  | silent _ _ hstate _ hphase =>
      rw [hstate, hphase]
      exact hs
  | active =>
      obtain ⟨hpc, -⟩ := Runs.enabled_eq_some.mp h
      exact absurd (hrun.symm.trans hpc) (by decide)
  | polled _ _ _ hrunning _ _ _ hphase =>
      rw [hphase]
      intro hended
      rw [hs hended] at hrunning
      exact absurd trivial hrunning
  | announced _ _ _ hafter =>
      rw [hafter]
      exact fun hended => absurd hended (by decide)
  | finished hstate => exact fun _ => hstate

end NodeRun
end BdkFloresta
