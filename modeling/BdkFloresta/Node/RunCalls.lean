import BdkFloresta.Node.Trace
import BdkFloresta.Node.Unblocked

/-!
Any number of `Node::run` calls on one node. The first to lock `inner` takes the inner node
and goes on; every other one finds `None`. So the node runs as under a single call, and the
second guard, on `started_at`, never refuses anyone. The one call can be dropped where it
waits to store the handle of the shutdown task: then the tasks run, but the node is never
`Active`, the handle is gone, no `shutdown` call waits for the task and no `run` succeeds.
-/

namespace BdkFloresta

/-- How far one `run` call has come. -/
inductive RunCallPc where
  /-- It has not locked `inner` yet. -/
  | idle
  | owner
  | refused
  | returned
  /-- Dropped before it had the lock of `inner`. -/
  | dropped
  /-- Dropped at its second await, with the tasks spawned. -/
  | abandoned
  deriving DecidableEq, Repr

/-- The call took the inner node. -/
def RunCallPc.Took : RunCallPc → Prop
  | .owner | .returned | .abandoned => True
  | .idle | .refused | .dropped => False

structure RunCalls where
  node : NodeRun
  calls : Nat → RunCallPc

inductive RunCallStep where
  | node (a : NodeStep)
  | call (i : Nat)
  | go (i : Nat) (a : NodeStep)
  | drop (i : Nat)

instance : DecidablePred NodeStep.OfRun := fun a => by
  unfold NodeStep.OfRun
  split <;> infer_instance

namespace RunCalls

def built : RunCalls := ⟨.built, fun _ => .idle⟩

def setCall (s : RunCalls) (i : Nat) (pc : RunCallPc) : RunCalls :=
  { s with calls := Function.update s.calls i pc }

/-- Where the owner is once its statement is done. -/
def ownerPc : RunPc → RunCallPc
  | .returned => .returned
  | .alreadyRunning => .refused
  | _ => .owner

def step (ov : Overflow) (s : RunCalls) : RunCallStep → Option RunCalls
  | .node a =>
      if a.OfRun then none else (s.node.step ov a).map fun node => { s with node := node }
  -- `self.inner.lock().await.take().ok_or(NodeError::AlreadyRunning)?`
  | .call i =>
      if s.calls i = .idle then
        if s.node.inner then
          (s.node.step ov .runTakeInner).map fun node => { s.setCall i .owner with node := node }
        else some (s.setCall i .refused)
      else none
  | .go i a =>
      if s.calls i = .owner ∧ a.OfRun then
        (s.node.step ov a).map fun node => { s.setCall i (ownerPc node.run) with node := node }
      else none
  | .drop i =>
      match s.calls i with
      | .idle => some (s.setCall i .dropped)
      | .owner =>
          Runs.enabled (s.node.run = .spawnedShutdown) (s.setCall i .abandoned)
      | _ => none

end RunCalls

namespace NodeRun
variable {ov : Overflow} {s t : NodeRun}

/-- What the two guards of `run` find. -/
structure Entry (s : NodeRun) : Prop where
  inner : s.inner = true ↔ s.run = .start
  startedAt : s.startedAt = false ↔ s.run = .start ∨ s.run = .tookInner
  unrefused : s.run ≠ .alreadyRunning

theorem built_entry : Entry .built := ⟨by simp [built], by simp [built], by simp [built]⟩

/-- The inner node is there for the first statement, and the second guard lets it pass. -/
theorem entry_step {a : NodeStep} (hs : Entry s) (h : s.step ov a = some t) :
    Entry t ∧ (a.OfRun → t.run ≠ .start) ∧ (¬ a.OfRun → t.run = s.run) := by
  obtain ⟨inner, startedAt, unrefused⟩ := id hs
  cases a with
  | pollPublish wireReady nodeTip chainTip filterTip =>
      obtain ⟨-, rfl⟩ := Runs.enabled_eq_some.mp h
      obtain ⟨state, published, poll, heq, -⟩ :=
        s.pollPublish_frame ov wireReady nodeTip chainTip filterTip
      rw [heq]
      exact ⟨⟨inner, startedAt, unrefused⟩, False.elim, fun _ => rfl⟩
  | runTakeInner =>
      obtain ⟨hpc, rfl⟩ := Runs.enabled_eq_some.mp h
      rw [if_pos (inner.mpr hpc)]
      exact ⟨⟨by simp, by simp [startedAt, hpc], by simp⟩, fun _ => by simp,
        fun hne => absurd trivial hne⟩
  | runSetStartedAt =>
      obtain ⟨hpc, rfl⟩ := Runs.enabled_eq_some.mp h
      have hunset := startedAt.mpr (.inr hpc)
      rw [hunset, if_neg Bool.false_ne_true]
      have hinner : s.inner = false := by simpa [hpc] using inner
      exact ⟨⟨by simp [hinner], by simp, by simp⟩, fun _ => by simp,
        fun hne => absurd trivial hne⟩
  | runSpawnNode | runSpawnPoll | runSpawnShutdown | runPublishActive =>
      obtain ⟨hpc, rfl⟩ := Runs.enabled_eq_some.mp h
      have hinner : s.inner = false := by simpa [hpc] using inner
      have hset : s.startedAt = true := by simpa [hpc] using startedAt
      exact ⟨⟨by simp [publish, hinner], by simp [publish, hset], by simp⟩, fun _ => by simp,
        fun hne => absurd trivial hne⟩
  | runStoreHandle =>
      obtain ⟨⟨hpc, -⟩, rfl⟩ := Runs.enabled_eq_some.mp h
      have hinner : s.inner = false := by simpa [hpc] using inner
      have hset : s.startedAt = true := by simpa [hpc] using startedAt
      exact ⟨⟨by simp [hinner], by simp [hset], by simp⟩, fun _ => by simp,
        fun hne => absurd trivial hne⟩
  | callLock i =>
      obtain ⟨-, rfl⟩ := Runs.enabled_eq_some.mp h
      split <;> exact ⟨⟨inner, startedAt, unrefused⟩, False.elim, fun _ => rfl⟩
  | _ =>
      obtain ⟨-, rfl⟩ := Runs.enabled_eq_some.mp h
      exact ⟨⟨inner, startedAt, unrefused⟩, False.elim, fun _ => rfl⟩

end NodeRun

/-- Where a call may be while the node's `run` is here. -/
def RunCallPc.At (run : RunPc) : RunCallPc → Prop
  | .idle | .dropped => True
  | .owner => run ≠ .start ∧ run ≠ .returned
  | .refused => run ≠ .start
  | .returned => run = .returned
  | .abandoned => run = .spawnedShutdown

namespace RunCalls
variable {ov : Overflow} {s t : RunCalls}

/-- The node runs under one call, the one that took the inner node. -/
structure Single (s : RunCalls) : Prop where
  entry : NodeRun.Entry s.node
  places : ∀ i, (s.calls i).At s.node.run
  one : ∀ i j, (s.calls i).Took → (s.calls j).Took → i = j
  taken : s.node.run ≠ .start → ∃ i, (s.calls i).Took

theorem built_single : Single built :=
  ⟨NodeRun.built_entry, fun _ => trivial, fun _ _ h => h.elim, fun h => absurd rfl h⟩

/-- One call moves from a place where it has not taken anything, or stays the one that has. -/
theorem Single.moved (hs : Single s) (entry : NodeRun.Entry t.node) {i : Nat} {pc : RunCallPc}
    (hcalls : t.calls = Function.update s.calls i pc) (hplace : pc.At t.node.run)
    (hplaces : ∀ j, j ≠ i → (s.calls j).At t.node.run)
    (hone : pc.Took → ∀ j, (s.calls j).Took → j = i)
    (htaken : t.node.run ≠ .start → pc.Took ∨ ∃ j, j ≠ i ∧ (s.calls j).Took) : Single t := by
  refine ⟨entry, fun j => ?_, fun j k hj hk => ?_, fun hrun => ?_⟩
  · rw [hcalls, Function.update_apply]
    split
    · exact hplace
    next hne => exact hplaces j hne
  · rw [hcalls, Function.update_apply] at hj hk
    by_cases hji : j = i <;> by_cases hki : k = i <;>
      simp only [hji, hki, if_true, if_false] at hj hk
    · rw [hji, hki]
    · exact absurd (hone hj k hk) hki
    · exact absurd (hone hk j hj) hji
    · exact hs.one j k hj hk
  · rcases htaken hrun with hpc | ⟨j, hne, hj⟩
    · exact ⟨i, by simpa [hcalls] using hpc⟩
    · exact ⟨j, by simpa [hcalls, hne] using hj⟩

/-- Before the inner node is taken every call is outside. -/
theorem Single.untaken (hs : Single s) (hstart : s.node.run = .start) (i : Nat) :
    ¬ (s.calls i).Took ∧ ∀ run, (s.calls i).At run := by
  have hplace := hs.places i
  rw [hstart] at hplace
  cases hpc : s.calls i with
  | idle | dropped => exact ⟨id, fun _ => trivial⟩
  | owner =>
      rw [hpc] at hplace
      exact absurd rfl hplace.1
  | refused =>
      rw [hpc] at hplace
      exact absurd rfl hplace
  | returned | abandoned =>
      rw [hpc] at hplace
      cases hplace

/-- A call that has not taken the inner node does not look at how far `run` is. -/
theorem at_of_not_took {pc : RunCallPc} {run run' : RunPc} (h : ¬ pc.Took) (hat : pc.At run)
    (hrun : run ≠ .start → run' ≠ .start) : pc.At run' := by
  cases pc with
  | idle | dropped => trivial
  | refused => exact hrun hat
  | owner | returned | abandoned => exact absurd trivial h

theorem single_step {a : RunCallStep} (hs : Single s) (h : s.step ov a = some t) :
    Single t := by
  cases a with
  | node a =>
      simp only [step] at h
      split at h
      · cases h
      next hof =>
        obtain ⟨node, hnode, rfl⟩ := Option.map_eq_some_iff.mp h
        obtain ⟨entry, -, hsame⟩ := NodeRun.entry_step hs.entry hnode
        refine ⟨entry, fun i => ?_, hs.one, ?_⟩
        · rw [hsame hof]
          exact hs.places i
        · rw [hsame hof]
          exact hs.taken
  | call i =>
      simp only [step] at h
      split at h
      next hidle =>
        split at h
        next hinner =>
          obtain ⟨node, hnode, rfl⟩ := Option.map_eq_some_iff.mp h
          have huntaken := hs.untaken (hs.entry.inner.mp hinner)
          obtain ⟨entry, hstarted, -⟩ := NodeRun.entry_step hs.entry hnode
          have htook : node.run = .tookInner := by
            obtain ⟨-, rfl⟩ := Runs.enabled_eq_some.mp hnode
            rw [if_pos hinner]
          refine hs.moved entry (i := i) rfl ⟨hstarted trivial, ?_⟩
            (fun j _ => (huntaken j).2 _) (fun _ j hj => absurd hj (huntaken j).1)
            fun _ => .inl trivial
          rw [htook]
          decide
        next hgone =>
          obtain rfl := Option.some.inj h
          have hstarted : s.node.run ≠ .start := fun hstart => hgone (hs.entry.inner.mpr hstart)
          refine hs.moved hs.entry (i := i) rfl hstarted (fun j _ => hs.places j) False.elim
            fun hrun => .inr ?_
          obtain ⟨j, hj⟩ := hs.taken hrun
          exact ⟨j, fun hji => by rw [hji, hidle] at hj; exact hj, hj⟩
      · cases h
  | go i a =>
      simp only [step] at h
      split at h
      next howner =>
        obtain ⟨node, hnode, rfl⟩ := Option.map_eq_some_iff.mp h
        obtain ⟨hpc, hof⟩ := howner
        obtain ⟨entry, hstarted, -⟩ := NodeRun.entry_step hs.entry hnode
        have htook : (s.calls i).Took := by rw [hpc]; trivial
        have hothers (j : Nat) (hj : j ≠ i) : ¬ (s.calls j).Took := fun hjtook =>
          hj (hs.one j i hjtook htook)
        have hpc' : (ownerPc node.run).Took ∧ (ownerPc node.run).At node.run := by
          cases hrun : node.run with
          | start => exact absurd hrun (hstarted hof)
          | alreadyRunning => exact absurd hrun entry.unrefused
          | returned => exact ⟨trivial, rfl⟩
          | _ => exact ⟨trivial, nofun, nofun⟩
        exact hs.moved entry (i := i) rfl hpc'.2
          (fun j hj => at_of_not_took (hothers j hj) (hs.places j) fun _ => hstarted hof)
          (fun _ j hj => hs.one j i hj htook) fun _ => .inl hpc'.1
      · cases h
  | drop i =>
      simp only [step] at h
      split at h
      next hidle =>
        obtain rfl := Option.some.inj h
        refine hs.moved hs.entry (i := i) rfl trivial (fun j _ => hs.places j) False.elim
          fun hrun => .inr ?_
        obtain ⟨j, hj⟩ := hs.taken hrun
        exact ⟨j, fun hji => by rw [hji, hidle] at hj; exact hj, hj⟩
      next howner =>
        obtain ⟨hpc, rfl⟩ := Runs.enabled_eq_some.mp h
        have htook : (s.calls i).Took := by rw [howner]; trivial
        exact hs.moved hs.entry (i := i) rfl hpc (fun j _ => hs.places j)
          (fun _ j hj => hs.one j i hj htook) fun _ => .inl trivial
      · cases h

/-- The node does not see how many calls there are. -/
theorem node_moves {a : RunCallStep} (h : s.step ov a = some t) :
    ∃ bs, Runs.exec (NodeRun.step ov) s.node bs = some t.node := by
  have hone {b : NodeStep} {node : NodeRun} (hb : s.node.step ov b = some node) :
      ∃ bs, Runs.exec (NodeRun.step ov) s.node bs = some node :=
    ⟨[b], by rw [Runs.exec, hb]; rfl⟩
  cases a with
  | node a =>
      simp only [step] at h
      split at h
      · cases h
      · obtain ⟨node, hnode, rfl⟩ := Option.map_eq_some_iff.mp h
        exact hone hnode
  | call i =>
      simp only [step] at h
      split at h
      · split at h
        · obtain ⟨node, hnode, rfl⟩ := Option.map_eq_some_iff.mp h
          exact hone hnode
        · obtain rfl := Option.some.inj h
          exact ⟨[], rfl⟩
      · cases h
  | go i a =>
      simp only [step] at h
      split at h
      · obtain ⟨node, hnode, rfl⟩ := Option.map_eq_some_iff.mp h
        exact hone hnode
      · cases h
  | drop i =>
      simp only [step] at h
      split at h
      · obtain rfl := Option.some.inj h
        exact ⟨[], rfl⟩
      · obtain ⟨-, rfl⟩ := Runs.enabled_eq_some.mp h
        exact ⟨[], rfl⟩
      · cases h

/-- A call that is over, or dropped, stays where it is. -/
theorem calls_step {a : RunCallStep} {i : Nat} (hidle : s.calls i ≠ .idle)
    (howner : s.calls i ≠ .owner) (h : s.step ov a = some t) : t.calls i = s.calls i := by
  have hother {j : Nat} {pc : RunCallPc} (hj : i ≠ j) : (s.setCall j pc).calls i = s.calls i := by
    simp [setCall, hj]
  cases a with
  | node a =>
      simp only [step] at h
      split at h
      · cases h
      · obtain ⟨node, -, rfl⟩ := Option.map_eq_some_iff.mp h
        rfl
  | call j =>
      simp only [step] at h
      split at h
      next hj =>
        have hij : i ≠ j := fun hij => hidle (hij ▸ hj)
        split at h
        · obtain ⟨node, -, rfl⟩ := Option.map_eq_some_iff.mp h
          exact hother hij
        · obtain rfl := Option.some.inj h
          exact hother hij
      · cases h
  | go j a =>
      simp only [step] at h
      split at h
      next hj =>
        obtain ⟨node, -, rfl⟩ := Option.map_eq_some_iff.mp h
        exact hother fun hij => howner (hij ▸ hj.1)
      · cases h
  | drop j =>
      simp only [step] at h
      split at h
      next hj =>
        obtain rfl := Option.some.inj h
        exact hother fun hij => hidle (hij ▸ hj)
      next hj =>
        obtain ⟨-, rfl⟩ := Runs.enabled_eq_some.mp h
        exact hother fun hij => howner (hij ▸ hj)
      · cases h

theorem reached {as : List RunCallStep} (h : Runs.exec (step ov) built as = some s) :
    Single s ∧ ∃ bs, Runs.exec (NodeRun.step ov) .built bs = some s.node := by
  refine ⟨Runs.exec_invariant (fun _ _ _ hs => single_step hs) built_single h, ?_⟩
  refine Runs.exec_invariant (I := fun s =>
    ∃ bs, Runs.exec (NodeRun.step ov) .built bs = some s.node) (fun s a t hs ht => ?_) ⟨[], rfl⟩ h
  obtain ⟨bs, hbs⟩ := hs
  obtain ⟨cs, hcs⟩ := node_moves ht
  exact ⟨bs ++ cs, Runs.exec_append hbs hcs⟩

/-- Whatever `run` calls are made and dropped: the node runs as under one call, nobody is
refused by the second guard, as soon as the inner node is taken there is the one call that
took it, a call is refused only if another has taken it, and only that one can return. -/
theorem run_is_called_once (ov : Overflow) (as : List RunCallStep) {s : RunCalls}
    (h : Runs.exec (step ov) built as = some s) :
    (∃ bs, Runs.exec (NodeRun.step ov) .built bs = some s.node) ∧
      s.node.run ≠ .alreadyRunning ∧
      (s.node.run ≠ .start → ∃ i, (s.calls i).Took ∧ ∀ j, (s.calls j).Took → j = i) ∧
      (∀ i, s.calls i = .refused → ∃ j, j ≠ i ∧ (s.calls j).Took) ∧
      ∀ i, s.calls i = .returned → s.node.run = .returned := by
  obtain ⟨hs, hnode⟩ := reached h
  refine ⟨hnode, hs.entry.unrefused, fun hrun => ?_, fun i hi => ?_, fun i hi => ?_⟩
  · obtain ⟨i, hi⟩ := hs.taken hrun
    exact ⟨i, hi, fun j hj => hs.one j i hj hi⟩
  · have hstarted : s.node.run ≠ .start := by
      have hplace := hs.places i
      rwa [hi] at hplace
    obtain ⟨j, hj⟩ := hs.taken hstarted
    exact ⟨j, fun hji => by rw [hji, hi] at hj; exact hj, hj⟩
  · have hplace := hs.places i
    rwa [hi] at hplace

/-- After the one call was dropped where it waits to store the handle, no `run` ever
succeeds: the shutdown task is all that publishes and the polls leave the state alone, the
task's handle is in nobody's hands, and no `shutdown` call waits for the task. -/
theorem abandoned_run (ov : Overflow) (as : List RunCallStep) {s : RunCalls}
    (h : Runs.exec (step ov) built as = some s) {i : Nat} (hi : s.calls i = .abandoned)
    (later : List RunCallStep) {t : RunCalls} (ht : Runs.exec (step ov) s later = some t) :
    (∀ j, t.calls j ≠ .returned) ∧ t.node.state.Frozen ∧
      (∀ p ∈ t.node.published, p.writer = .shutdownTask) ∧
      t.node.shutdownTask = false ∧ ∀ j, t.node.callers j ≠ .awaiting := by
  obtain ⟨hs, bs, hbs⟩ := reached (Runs.exec_append h ht)
  have habandoned : t.calls i = .abandoned :=
    Runs.exec_invariant (I := fun s => s.calls i = .abandoned)
      (fun _ _ _ hs hstep => (calls_step (by rw [hs]; decide) (by rw [hs]; decide) hstep).trans hs)
      hi ht
  have hrun : t.node.run = .spawnedShutdown := by
    have hplace := hs.places i
    rwa [habandoned] at hplace
  have htraced : Traced ov t.node := reached_traced hbs
  have hqueued : NodeRun.Queued t.node := NodeRun.reached_queued hbs
  have hquiet := htraced.quiet (by rw [hrun]; decide)
  obtain ⟨hfrozen, hwriters⟩ := htraced.trace.frozen hquiet
  obtain ⟨htask, hlock⟩ := hqueued.before (by rw [hrun]; trivial)
  refine ⟨fun j hj => ?_, htraced.channel.held ▸ hfrozen, hwriters, htask, fun j hj => ?_⟩
  · have hplace := hs.places j
    rw [hj] at hplace
    exact absurd (hrun.symm.trans hplace) (by decide)
  · have hheld := (hqueued.holder j).mpr hj
    rw [hlock] at hheld
    cases hheld

section examples

/-- Two calls race; the one that wins is dropped, as by a timeout around it, before it has
stored the handle, and a third one comes too late. -/
def raced : List RunCallStep :=
  [.call 4, .call 7, .go 4 .runSetStartedAt, .go 4 .runSpawnNode, .go 4 .runSpawnPoll,
    .go 4 .runSpawnShutdown, .drop 4]

def tooLate : List RunCallStep :=
  [.call 1, .node (.callCancel 0), .node (.callLock 0), .node .shutdownRequested,
    .node .shutdownKill, .node .shutdownAnnounce]

theorem run_is_called_once_raced : ∃ s,
    Runs.exec (step .wraps) built raced = some s ∧ s.calls 7 = .refused ∧
      ∃ j, j ≠ 7 ∧ (s.calls j).Took :=
  ⟨_, rfl, rfl, (run_is_called_once .wraps raced rfl).2.2.2.1 7 rfl⟩

theorem abandoned_run_raced : ∃ s t,
    Runs.exec (step .wraps) built raced = some s ∧ s.calls 4 = .abandoned ∧
      Runs.exec (step .wraps) s tooLate = some t ∧ t.node.callers 0 = .returned ∧
      t.node.shutdown ≠ .finished ∧ t.node.shutdownTask = false :=
  ⟨_, _, rfl, rfl, rfl, rfl, by decide,
    (abandoned_run .wraps raced rfl (i := 4) rfl tooLate rfl).2.2.2.1⟩

end examples
end RunCalls
end BdkFloresta
