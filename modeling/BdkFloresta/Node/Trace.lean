import BdkFloresta.Node.Publications

/-!
The state channel as an abstract machine. All it knows is what has been published: `run`
publishes `Active` once, the shutdown task its two states once each and in order, and a
poll the next state of the one held, if that is another. The runs of the node publish
exactly the traces of this machine. Its subscribers see a change with every publication,
and see nothing but the shutdown as long as `run` has not returned.
-/

namespace BdkFloresta

def Publication.announcement : Publication := ⟨.shutdownTask, .shuttingDown⟩

def Publication.activation : Publication := ⟨.run, .active⟩

/-- What may have been published. -/
inductive StateTrace (ov : Overflow) : List Publication → Prop where
  | built : StateTrace ov []
  | active {ps : List Publication} : StateTrace ov ps → (∀ p ∈ ps, p.writer ≠ .run) →
      StateTrace ov (ps ++ [.activation])
  | polled {ps : List Publication} (wireReady : Bool) (nodeTip chainTip filterTip : Nat)
      {nextState : State} : StateTrace ov ps → ¬ (heldState ps).Frozen →
      computeNextState ov wireReady (heldState ps) nodeTip chainTip filterTip = some nextState →
      heldState ps ≠ nextState → StateTrace ov (ps ++ [⟨.poll, nextState⟩])
  | announced {ps : List Publication} : StateTrace ov ps → .announcement ∉ ps →
      StateTrace ov (ps ++ [.announcement])
  | ended {ps : List Publication} : StateTrace ov ps → .announcement ∈ ps → .ending ∉ ps →
      StateTrace ov (ps ++ [.ending])

namespace StateTrace
variable {ov : Overflow} {ps : List Publication}

/-- Without `run`'s publication nothing sets the polls going. -/
theorem frozen (h : StateTrace ov ps) (hquiet : ∀ p ∈ ps, p.writer ≠ .run) :
    (heldState ps).Frozen ∧ ∀ p ∈ ps, p.writer = .shutdownTask := by
  induction h with
  | built => exact ⟨trivial, nofun⟩
  | active _ _ =>
      exact absurd rfl (hquiet _ (List.mem_append_right _ (List.mem_singleton_self _)))
  | polled _ _ _ _ _ hrunning _ _ ih =>
      exact absurd (ih fun p hp => hquiet p (List.mem_append_left _ hp)).1 hrunning
  | announced _ _ ih | ended _ _ _ ih =>
      obtain ⟨-, hwriters⟩ := ih fun p hp => hquiet p (List.mem_append_left _ hp)
      rw [heldState_append]
      refine ⟨trivial, fun p hp => ?_⟩
      rcases List.mem_append.mp hp with hp | hp
      · exact hwriters p hp
      · rw [List.mem_singleton.mp hp]
        rfl

theorem polled_running {ps : List Publication} {wireReady : Bool}
    {nodeTip chainTip filterTip : Nat} {nextState : State} (hrunning : ¬ (heldState ps).Frozen)
    (hnext : computeNextState ov wireReady (heldState ps) nodeTip chainTip filterTip =
      some nextState) : nextState ≠ .shuttingDown ∧ nextState ≠ .inactive := by
  have hnextRunning := computeNextState_running hrunning hnext
  constructor <;> rintro rfl <;> exact hnextRunning trivial

/-- Only the announcement makes the channel hold `ShuttingDown`. -/
theorem announced_of_held (h : StateTrace ov ps) (hheld : heldState ps = .shuttingDown) :
    .announcement ∈ ps := by
  cases h with
  | built => cases hheld
  | active | ended =>
      rw [heldState_append] at hheld
      cases hheld
  | polled _ _ _ _ _ hrunning hnext =>
      rw [heldState_append] at hheld
      exact absurd hheld (polled_running hrunning hnext).1
  | announced => exact List.mem_append_right _ (List.mem_singleton_self _)

/-- Only the end makes the channel hold `Inactive` again. -/
theorem ended_of_held (h : StateTrace ov ps) (hheld : heldState ps = .inactive) :
    ps = [] ∨ .ending ∈ ps := by
  cases h with
  | built => exact .inl rfl
  | active | announced =>
      rw [heldState_append] at hheld
      cases hheld
  | polled _ _ _ _ _ hrunning hnext =>
      rw [heldState_append] at hheld
      exact absurd hheld (polled_running hrunning hnext).2
  | ended => exact .inr (List.mem_append_right _ (List.mem_singleton_self _))

/-- Every publication changes what the channel holds. -/
theorem changes (h : StateTrace ov ps) :
    ∀ before p, before ++ [p] <+: ps → heldState before ≠ p.state := by
  have hlast {ps : List Publication} {q : Publication} (hps : ∀ before p, before ++ [p] <+: ps →
      heldState before ≠ p.state) (hq : heldState ps ≠ q.state) :
      ∀ before p, before ++ [p] <+: ps ++ [q] → heldState before ≠ p.state := by
    intro before p hbefore
    rcases List.prefix_concat_iff.mp hbefore with heq | hbefore
    · obtain ⟨rfl, hpq⟩ := List.append_inj' heq rfl
      obtain rfl := List.cons.inj hpq |>.1
      exact hq
    · exact hps before p hbefore
  induction h with
  | built => exact fun before p hbefore => by simp at hbefore
  | active h hquiet ih =>
      refine hlast ih fun hheld => ?_
      have hfrozen := (h.frozen hquiet).1
      rw [hheld] at hfrozen
      exact hfrozen
  | polled _ _ _ _ _ _ _ hne ih => exact hlast ih hne
  | announced h hnone ih => exact hlast ih fun hheld => hnone (h.announced_of_held hheld)
  | ended h hann hnone ih =>
      refine hlast ih fun hheld => ?_
      rcases h.ended_of_held hheld with rfl | hend
      · cases hann
      · exact hnone hend

/-- Nobody but the shutdown task announces a shutdown. -/
theorem eq_announcement (h : StateTrace ov ps) :
    ∀ p ∈ ps, p.Announces → p = .announcement := by
  have hlast {ps : List Publication} {q : Publication}
      (hps : ∀ p ∈ ps, p.Announces → p = .announcement)
      (hq : q.Announces → q = .announcement) :
      ∀ p ∈ ps ++ [q], p.Announces → p = .announcement := by
    intro p hp
    rcases List.mem_append.mp hp with hp | hp
    · exact hps p hp
    · rw [List.mem_singleton.mp hp]
      exact hq
  induction h with
  | built => exact nofun
  | active _ _ ih | ended _ _ _ ih => exact hlast ih fun hann => nomatch hann
  | polled _ _ _ _ _ hrunning hnext _ ih =>
      exact hlast ih fun hann => absurd hann (polled_running hrunning hnext).1
  | announced _ _ ih => exact hlast ih fun _ => rfl

theorem announcement_mem_iff (h : StateTrace ov ps) :
    .announcement ∈ ps ↔ ∃ p ∈ ps, p.Announces :=
  ⟨fun hann => ⟨_, hann, rfl⟩, fun ⟨p, hp, hann⟩ => h.eq_announcement p hp hann ▸ hp⟩

/-- `run` publishes once at most, and the shutdown task its two states once each, the
announcement first. -/
theorem once (h : StateTrace ov ps) :
    ps.filter (fun p => p.writer = .run) <+: [.activation] ∧
      ps.filter (fun p => p.writer = .shutdownTask) <+: [.announcement, .ending] := by
  induction h with
  | built => exact ⟨List.nil_prefix, List.nil_prefix⟩
  | @active ps _ hquiet ih =>
      have hnone : ps.filter (fun p => p.writer = .run) = [] :=
        List.filter_eq_nil_iff.mpr fun p hp => by simpa using hquiet p hp
      rw [List.filter_append, List.filter_append, hnone]
      exact ⟨List.prefix_rfl, by simpa [Publication.activation] using ih.2⟩
  | polled _ _ _ _ _ _ _ _ ih => simpa [List.filter_append] using ih
  | @announced ps _ hnone ih =>
      refine ⟨by simpa [List.filter_append, Publication.announcement] using ih.1, ?_⟩
      rw [List.filter_append]
      rcases List.prefix_cons_iff.mp ih.2 with hfilter | ⟨later, hfilter, -⟩
      · rw [hfilter]
        exact ⟨[.ending], rfl⟩
      · have hmem : .announcement ∈ ps.filter (fun p => p.writer = .shutdownTask) := by
          rw [hfilter]
          exact List.mem_cons_self
        exact absurd (List.mem_of_mem_filter hmem) hnone
  | @ended ps _ hann hnone ih =>
      refine ⟨by simpa [List.filter_append, Publication.ending] using ih.1, ?_⟩
      rw [List.filter_append]
      have hmem : .announcement ∈ ps.filter (fun p => p.writer = .shutdownTask) :=
        List.mem_filter.mpr ⟨hann, rfl⟩
      have hend : .ending ∉ ps.filter (fun p => p.writer = .shutdownTask) := fun hend =>
        hnone (List.mem_of_mem_filter hend)
      rcases List.prefix_cons_iff.mp ih.2 with hfilter | ⟨later, hfilter, hlater⟩
      · rw [hfilter] at hmem
        cases hmem
      rcases List.prefix_cons_iff.mp hlater with rfl | ⟨rest, rfl, -⟩
      · rw [hfilter]
        exact List.prefix_rfl
      · rw [hfilter] at hend
        exact absurd (List.mem_cons_of_mem _ List.mem_cons_self) hend

end StateTrace

/-- What a step does to the channel, to `run` and to the shutdown task. -/
inductive Publishes (ov : Overflow) (s t : NodeRun) : Prop where
  | nothing : t.published = s.published → (t.run = .returned ↔ s.run = .returned) →
      Publishes ov s t
  | active : s.run = .storedHandle → t.published = s.published ++ [.activation] →
      t.run = .returned → Publishes ov s t
  | polled (wireReady : Bool) (nodeTip chainTip filterTip : Nat) (nextState : State) :
      computeNextState ov wireReady s.state nodeTip chainTip filterTip = some nextState →
      s.state ≠ nextState → t.published = s.published ++ [⟨.poll, nextState⟩] →
      t.run = s.run → Publishes ov s t
  | announced : s.shutdown = .killed → t.published = s.published ++ [.announcement] →
      t.run = s.run → Publishes ov s t
  | ended : s.shutdown = .flushed → t.published = s.published ++ [.ending] →
      t.run = s.run → Publishes ov s t

theorem step_publishes {ov : Overflow} {s t : NodeRun} {a : NodeStep}
    (h : s.step ov a = some t) : Publishes ov s t := by
  cases a with
  | pollPublish wireReady nodeTip chainTip filterTip =>
      obtain ⟨-, rfl⟩ := Runs.enabled_eq_some.mp h
      simp only [NodeRun.pollPublish]
      split
      · exact .nothing rfl Iff.rfl
      split
      · exact .nothing rfl Iff.rfl
      next nextState hnext =>
        split
        · exact .nothing rfl Iff.rfl
        next hne => exact .polled wireReady nodeTip chainTip filterTip nextState hnext hne rfl rfl
  | runPublishActive =>
      obtain ⟨hpc, rfl⟩ := Runs.enabled_eq_some.mp h
      exact .active hpc rfl rfl
  | shutdownAnnounce =>
      obtain ⟨hpc, rfl⟩ := Runs.enabled_eq_some.mp h
      exact .announced hpc rfl rfl
  | shutdownFinish =>
      obtain ⟨hpc, rfl⟩ := Runs.enabled_eq_some.mp h
      exact .ended hpc rfl rfl
  | runTakeInner | runSetStartedAt =>
      obtain ⟨hpc, rfl⟩ := Runs.enabled_eq_some.mp h
      split <;> exact .nothing rfl (by rw [hpc]; simp)
  | runSpawnNode | runSpawnPoll | runSpawnShutdown =>
      obtain ⟨hpc, rfl⟩ := Runs.enabled_eq_some.mp h
      exact .nothing rfl (by rw [hpc]; simp)
  | runStoreHandle =>
      obtain ⟨⟨hpc, -⟩, rfl⟩ := Runs.enabled_eq_some.mp h
      exact .nothing rfl (by rw [hpc]; simp)
  | callLock i =>
      obtain ⟨-, rfl⟩ := Runs.enabled_eq_some.mp h
      split <;> exact .nothing rfl Iff.rfl
  | _ =>
      obtain ⟨-, rfl⟩ := Runs.enabled_eq_some.mp h
      exact .nothing rfl Iff.rfl

/-- The publications so far are a trace, and the state tells what is still to come. -/
structure Traced (ov : Overflow) (s : NodeRun) : Prop where
  channel : ChannelInv s
  trace : StateTrace ov s.published
  quiet : s.run ≠ .returned → ∀ p ∈ s.published, p.writer ≠ .run

theorem Traced.announced {ov : Overflow} {s : NodeRun} (hs : Traced ov s) :
    .announcement ∈ s.published ↔ 1 ≤ s.shutdown.phase :=
  hs.trace.announcement_mem_iff.trans hs.channel.announced

theorem traced_step {ov : Overflow} {s t : NodeRun} {a : NodeStep} (hs : Traced ov s)
    (h : s.step ov a = some t) : Traced ov t := by
  have channel := channelInv_step hs.channel h
  have hquiet {q : Publication} (hq : q.writer ≠ .run) (hrun : t.run = s.run) :
      t.run ≠ .returned → ∀ p ∈ s.published ++ [q], p.writer ≠ .run := by
    intro hreturned p hp
    rcases List.mem_append.mp hp with hp | hp
    · exact hs.quiet (hrun ▸ hreturned) p hp
    · rw [List.mem_singleton.mp hp]
      exact hq
  cases step_publishes h with
  | nothing hpub hrun =>
      refine ⟨channel, hpub ▸ hs.trace, ?_⟩
      rw [hpub, ne_eq, hrun]
      exact hs.quiet
  | active hpc hpub hrun =>
      refine ⟨channel, hpub ▸ hs.trace.active (hs.quiet (by rw [hpc]; nofun)), ?_⟩
      exact fun hreturned => absurd hrun hreturned
  | polled wireReady nodeTip chainTip filterTip nextState hnext hne hpub hrun =>
      have hrunning : ¬ s.state.Frozen := fun hfrozen =>
        hne (Option.some.inj ((computeNextState_frozen hfrozen ..).symm.trans hnext))
      rw [hs.channel.held] at hnext hne hrunning
      refine ⟨channel, ?_, hpub ▸ hquiet nofun hrun⟩
      exact hpub ▸ hs.trace.polled wireReady nodeTip chainTip filterTip hrunning hnext hne
  | announced hpc hpub hrun =>
      have hnone : .announcement ∉ s.published := by
        rw [hs.announced, hpc]
        decide
      exact ⟨channel, hpub ▸ hs.trace.announced hnone, hpub ▸ hquiet nofun hrun⟩
  | ended hpc hpub hrun =>
      have hann : .announcement ∈ s.published := hs.announced.mpr (by rw [hpc]; decide)
      have hnone : .ending ∉ s.published := by
        rw [hs.channel.ended, hpc]
        decide
      exact ⟨channel, hpub ▸ hs.trace.ended hann hnone, hpub ▸ hquiet nofun hrun⟩

theorem reached_traced {ov : Overflow} {s : NodeRun} {as : List NodeStep}
    (h : Runs.exec (NodeRun.step ov) .built as = some s) : Traced ov s :=
  Runs.exec_invariant (fun _ _ _ hs => traced_step hs)
    ⟨channelInv_built, .built, fun _ => nofun⟩ h

/-- Everything is in its place to publish what may come next. -/
structure Ready (s : NodeRun) (ps : List Publication) : Prop where
  published : s.published = ps
  poll : s.poll = .polling
  unpublished : (∀ p ∈ ps, p.writer ≠ .run) → s.run = .storedHandle
  unannounced : .announcement ∉ ps → s.shutdown = .killed
  unended : .announcement ∈ ps → .ending ∉ ps → s.shutdown = .flushed

/-- Every trace is published by a run that is ready to go on. -/
theorem StateTrace.performed {ov : Overflow} {ps : List Publication} (h : StateTrace ov ps) :
    ∃ as s, Runs.exec (NodeRun.step ov) .built as = some s ∧ Ready s ps := by
  induction h with
  | built =>
      refine ⟨[.runTakeInner, .runSetStartedAt, .runSpawnNode, .runSpawnPoll, .runSpawnShutdown,
        .runStoreHandle, .pollWake, .shutdownSignal, .shutdownKill], _, rfl, ?_⟩
      exact ⟨rfl, rfl, fun _ => rfl, fun _ => rfl, nofun⟩
  | @active ps _ hquiet ih =>
      obtain ⟨as, s, has, hs⟩ := ih
      have hrun := hs.unpublished hquiet
      refine ⟨as ++ [.runPublishActive], { s.publish .run .active with run := .returned },
        Runs.exec_append has ?_, ?_⟩
      · simp [Runs.exec, NodeRun.step, Runs.enabled, hrun]
      · refine ⟨by simp [NodeRun.publish, hs.published, Publication.activation], hs.poll,
          fun hnone => ?_, fun hnone => hs.unannounced ?_, fun hann hnone => hs.unended ?_ ?_⟩
        · exact absurd rfl (hnone .activation (by simp))
        · exact fun hann => hnone (List.mem_append_left _ hann)
        · simpa [Publication.announcement, Publication.activation] using hann
        · exact fun hend => hnone (List.mem_append_left _ hend)
  | @polled ps wireReady nodeTip chainTip filterTip nextState _ hrunning hnext hne ih =>
      obtain ⟨as, s, has, hs⟩ := ih
      have hheld : s.state = heldState ps := by
        rw [(reached_traced has).channel.held, hs.published]
      rw [← hheld] at hrunning hnext hne
      have hannounced : s.state ≠ .shuttingDown := fun heq => hrunning (heq ▸ trivial)
      have hpublish : s.pollPublish ov wireReady nodeTip chainTip filterTip =
          { s.publish .poll nextState with poll := .selecting } := by
        simp [NodeRun.pollPublish, hannounced, hnext, hne]
      refine ⟨as ++ [.pollPublish wireReady nodeTip chainTip filterTip, .pollWake],
        { s.publish .poll nextState with poll := .polling }, Runs.exec_append has ?_, ?_⟩
      · simp [Runs.exec, NodeRun.step, Runs.enabled, hs.poll, hpublish]
      · refine ⟨by simp [NodeRun.publish, hs.published], rfl,
          fun hnone => hs.unpublished fun p hp => hnone p (List.mem_append_left _ hp),
          fun hnone => hs.unannounced fun hann => hnone (List.mem_append_left _ hann),
          fun hann hnone => hs.unended ?_ fun hend => hnone (List.mem_append_left _ hend)⟩
        simpa [Publication.announcement] using hann
  | @announced ps _ hnone ih =>
      obtain ⟨as, s, has, hs⟩ := ih
      have hpc := hs.unannounced hnone
      refine ⟨as ++ [.shutdownAnnounce, .shutdownCancel, .shutdownNodeStopped, .shutdownJoinNode,
        .shutdownJoinPoll, .shutdownFlush],
        { s.publish .shutdownTask .shuttingDown with
          shutdown := .flushed, cancellationToken := true, flushAttempted := true },
        Runs.exec_append has ?_, ?_⟩
      · simp [Runs.exec, NodeRun.step, Runs.enabled, NodeRun.publish, hpc]
      · refine ⟨by simp [NodeRun.publish, hs.published, Publication.announcement], hs.poll,
          fun hquiet => hs.unpublished fun p hp => hquiet p (List.mem_append_left _ hp),
          fun habsent => absurd (List.mem_append_right _ (List.mem_singleton_self _)) habsent,
          fun _ _ => rfl⟩
  | @ended ps _ hann hnone ih =>
      obtain ⟨as, s, has, hs⟩ := ih
      have hpc := hs.unended hann hnone
      refine ⟨as ++ [.shutdownFinish],
        { s.publish .shutdownTask .inactive with shutdown := .finished },
        Runs.exec_append has ?_, ?_⟩
      · simp [Runs.exec, NodeRun.step, Runs.enabled, hpc]
      · refine ⟨by simp [NodeRun.publish, hs.published, Publication.ending], hs.poll,
          fun hquiet => hs.unpublished fun p hp => hquiet p (List.mem_append_left _ hp),
          fun habsent => absurd (List.mem_append_left _ hann) habsent,
          fun _ habsent => absurd (List.mem_append_right _ (List.mem_singleton_self _)) habsent⟩

/-- The runs of the node publish exactly the traces of the abstract machine. -/
theorem published_iff_stateTrace (ov : Overflow) (ps : List Publication) :
    (∃ as s, Runs.exec (NodeRun.step ov) .built as = some s ∧ s.published = ps) ↔
      StateTrace ov ps := by
  constructor
  · rintro ⟨as, s, has, rfl⟩
    exact (reached_traced has).trace
  · intro h
    obtain ⟨as, s, has, hs⟩ := h.performed
    exact ⟨as, s, has, hs.published⟩

/-- Over every run: who is woken by the state channel finds another state than before, `run`
and the shutdown task publish each of their states once and in order, and until `run` has
returned only the shutdown task publishes, and the polls leave the state alone. -/
theorem every_publication_is_a_transition (ov : Overflow) (as : List NodeStep) {s : NodeRun}
    (h : Runs.exec (NodeRun.step ov) .built as = some s) :
    (∀ before p, before ++ [p] <+: s.published → heldState before ≠ p.state) ∧
      s.published.filter (fun p => p.writer = .run) <+: [.activation] ∧
      s.published.filter (fun p => p.writer = .shutdownTask) <+: [.announcement, .ending] ∧
      (s.run ≠ .returned → s.state.Frozen ∧ ∀ p ∈ s.published, p.writer = .shutdownTask) := by
  have hs := reached_traced h
  refine ⟨hs.trace.changes, hs.trace.once.1, hs.trace.once.2, fun hrun => ?_⟩
  rw [hs.channel.held]
  exact hs.trace.frozen (hs.quiet hrun)

section examples

/-- The node is told to shut down while `run` is at work, and `run` goes on to publish. -/
def overtaken : List NodeStep :=
  [.runTakeInner, .runSetStartedAt, .runSpawnNode, .runSpawnPoll, .runSpawnShutdown,
    .shutdownSignal, .shutdownKill, .shutdownAnnounce, .runStoreHandle, .pollWake,
    .runPublishActive, .pollPublish true 0 8 0]

theorem every_publication_is_a_transition_overtaken : ∃ s,
    Runs.exec (NodeRun.step .panics) .built overtaken = some s ∧
      s.published = [.announcement, .activation, ⟨.poll, .headerSync 8⟩] ∧
      ∀ before p, before ++ [p] <+: s.published → heldState before ≠ p.state :=
  ⟨_, rfl, rfl, (every_publication_is_a_transition .panics overtaken rfl).1⟩

end examples
end BdkFloresta
