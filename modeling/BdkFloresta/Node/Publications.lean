import BdkFloresta.Node.Shutdown

/-!
What the state channel carries over a whole run. The law is that a shutdown is
irreversible; one step either leaves the channel alone or is one of four
publications, and the law is broken exactly by a `run` that publishes `Active`
after the shutdown task has announced the shutdown.
-/

namespace BdkFloresta

/-- What the shutdown task has published: nothing, the announcement, or both
the announcement and the end. -/
def ShutdownPc.phase : ShutdownPc → Nat
  | .notSpawned | .listening | .woken | .killed => 0
  | .announced | .cancelled | .nodeStopped | .nodeJoined | .pollJoined | .flushed => 1
  | .finished => 2

def Publication.Announces (p : Publication) : Prop := p.state = .shuttingDown

instance (p : Publication) : Decidable p.Announces :=
  inferInstanceAs (Decidable (p.state = .shuttingDown))

/-- The last publication of the shutdown task. -/
def Publication.ending : Publication := ⟨.shutdownTask, .inactive⟩

/-- After `ShuttingDown` only `Inactive` is published, and after the shutdown
task's `Inactive` nothing is. -/
def Irreversible (published : List Publication) : Prop :=
  published.Pairwise fun p q =>
    (p.Announces → q.state = .inactive) ∧ p ≠ .ending

/-- The value a watch channel holds after the publications. -/
def heldState (published : List Publication) : State :=
  (published.getLast?.map Publication.state).getD .inactive

@[simp] theorem heldState_append (published : List Publication) (p : Publication) :
    heldState (published ++ [p]) = p.state := by
  simp [heldState]

theorem irreversible_append (published : List Publication) (q : Publication) :
    Irreversible (published ++ [q]) ↔ Irreversible published ∧
      ∀ p ∈ published, (p.Announces → q.state = .inactive) ∧ p ≠ .ending := by
  simp [Irreversible, List.pairwise_append]

/-- Once the shutdown is announced the channel holds a frozen state. -/
theorem heldState_frozen {published : List Publication} (h : Irreversible published)
    {p : Publication} (hp : p ∈ published) (hfrozen : p.Announces ∨ p = .ending) :
    (heldState published).Frozen := by
  induction published using List.reverseRecOn with
  | nil => cases hp
  | append_singleton ps q _ =>
      rw [heldState_append]
      obtain ⟨-, hlast⟩ := (irreversible_append ps q).mp h
      rcases List.mem_append.mp hp with hp | hp
      · rcases hfrozen with hann | rfl
        · rw [(hlast p hp).1 hann]
          trivial
        · exact absurd rfl (hlast _ hp).2
      · obtain rfl := List.mem_singleton.mp hp
        rcases hfrozen with hann | rfl
        · rw [show p.state = .shuttingDown from hann]
          trivial
        · trivial

/-- The one effect of a step on the channel and on the shutdown task's phase. -/
inductive Effect (s t : NodeRun) : NodeStep → Prop where
  | silent (a : NodeStep) : a ≠ .runPublishActive → t.state = s.state →
      t.published = s.published → t.shutdown.phase = s.shutdown.phase → Effect s t a
  | active : t.state = .active → t.published = s.published ++ [⟨.run, .active⟩] →
      t.shutdown.phase = s.shutdown.phase → Effect s t .runPublishActive
  | polled (a : NodeStep) (v : State) : a ≠ .runPublishActive → ¬ s.state.Frozen →
      ¬ v.Frozen → t.state = v → t.published = s.published ++ [⟨.poll, v⟩] →
      t.shutdown.phase = s.shutdown.phase → Effect s t a
  | announced : t.state = .shuttingDown →
      t.published = s.published ++ [⟨.shutdownTask, .shuttingDown⟩] →
      s.shutdown.phase = 0 → t.shutdown.phase = 1 → Effect s t .shutdownAnnounce
  | finished : t.state = .inactive → t.published = s.published ++ [.ending] →
      s.shutdown.phase = 1 → t.shutdown.phase = 2 → Effect s t .shutdownFinish

theorem pollPublish_effect (s : NodeRun) (ov : Overflow) (wireReady : Bool)
    (nodeTip chainTip filterTip : Nat) :
    Effect s (s.pollPublish ov wireReady nodeTip chainTip filterTip)
      (.pollPublish wireReady nodeTip chainTip filterTip) := by
  simp only [NodeRun.pollPublish]
  split
  · exact .silent _ nofun rfl rfl rfl
  · split
    · exact .silent _ nofun rfl rfl rfl
    next nextState hnext =>
      split
      · exact .silent _ nofun rfl rfl rfl
      next hne =>
        have hrunning : ¬ s.state.Frozen := fun hfrozen =>
          hne (Option.some.inj ((computeNextState_frozen hfrozen ..).symm.trans hnext))
        exact .polled _ nextState nofun hrunning (computeNextState_running hrunning hnext)
          rfl rfl rfl

/-- A poll writes the state channel and its own counter, and not a frozen state. -/
theorem NodeRun.pollPublish_frame (s : NodeRun) (ov : Overflow) (wireReady : Bool)
    (nodeTip chainTip filterTip : Nat) : ∃ state published poll,
      s.pollPublish ov wireReady nodeTip chainTip filterTip =
        { s with state := state, published := published, poll := poll } ∧
      (s.state.Frozen → state = s.state) := by
  simp only [NodeRun.pollPublish]
  split
  · exact ⟨s.state, s.published, .selecting, rfl, fun _ => rfl⟩
  · split
    · exact ⟨s.state, s.published, .ended, rfl, fun _ => rfl⟩
    next nextState hnext =>
      split
      · exact ⟨s.state, s.published, .selecting, rfl, fun _ => rfl⟩
      · refine ⟨nextState, s.published ++ [⟨.poll, nextState⟩], .selecting, rfl, fun h => ?_⟩
        exact Option.some.inj (hnext.symm.trans (computeNextState_frozen h ..))

/-- `run` has not spawned the shutdown task yet. -/
def RunPc.BeforeShutdownTask : RunPc → Prop
  | .start | .tookInner | .setStartedAt | .spawnedNode | .spawnedPoll => True
  | _ => False

/-- The shutdown task starts with `run`'s spawn and not before. -/
def NodeRun.SpawnOrder (s : NodeRun) : Prop :=
  s.run.BeforeShutdownTask → s.shutdown = .notSpawned

theorem spawnOrder_step {ov : Overflow} {s t : NodeRun} {a : NodeStep}
    (hs : s.SpawnOrder) (h : s.step ov a = some t) : t.SpawnOrder := by
  cases a with
  | pollPublish wireReady nodeTip chainTip filterTip =>
      obtain ⟨-, rfl⟩ := Runs.enabled_eq_some.mp h
      obtain ⟨_, _, _, heq, -⟩ := s.pollPublish_frame ov wireReady nodeTip chainTip filterTip
      rw [heq]
      exact hs
  | runTakeInner | runSetStartedAt =>
      obtain ⟨hpc, rfl⟩ := Runs.enabled_eq_some.mp h
      have hun := hs (by rw [hpc]; trivial)
      split <;> exact fun _ => hun
  | runSpawnNode | runSpawnPoll =>
      obtain ⟨hpc, rfl⟩ := Runs.enabled_eq_some.mp h
      exact fun _ => hs (by rw [hpc]; trivial)
  | runSpawnShutdown | runStoreHandle | runPublishActive =>
      obtain ⟨-, rfl⟩ := Runs.enabled_eq_some.mp h
      exact False.elim
  | pollWake | pollSkip | pollBreak | callCancel i | callJoin i | callDrop i =>
      obtain ⟨-, rfl⟩ := Runs.enabled_eq_some.mp h
      exact hs
  | callLock i =>
      obtain ⟨-, rfl⟩ := Runs.enabled_eq_some.mp h
      split <;> exact hs
  | shutdownSignal | shutdownKill | shutdownAnnounce | shutdownCancel
  | shutdownNodeStopped | shutdownJoinNode | shutdownJoinPoll | shutdownFlush
  | shutdownFinish =>
      obtain ⟨hpc, rfl⟩ := Runs.enabled_eq_some.mp h
      exact fun hrun => absurd (hs hrun) (by rw [hpc]; nofun)
  | shutdownRequested =>
      obtain ⟨⟨hpc, -⟩, rfl⟩ := Runs.enabled_eq_some.mp h
      exact fun hrun => absurd (hs hrun) (by rw [hpc]; nofun)

theorem step_effect {ov : Overflow} {s t : NodeRun} {a : NodeStep}
    (hs : s.SpawnOrder) (h : s.step ov a = some t) : Effect s t a := by
  cases a with
  | pollPublish wireReady nodeTip chainTip filterTip =>
      obtain ⟨-, rfl⟩ := Runs.enabled_eq_some.mp h
      exact pollPublish_effect s ov wireReady nodeTip chainTip filterTip
  | runPublishActive =>
      obtain ⟨-, rfl⟩ := Runs.enabled_eq_some.mp h
      exact .active rfl rfl rfl
  | shutdownAnnounce =>
      obtain ⟨hpc, rfl⟩ := Runs.enabled_eq_some.mp h
      exact .announced rfl rfl (by rw [hpc]; rfl) rfl
  | shutdownFinish =>
      obtain ⟨hpc, rfl⟩ := Runs.enabled_eq_some.mp h
      exact .finished rfl rfl (by rw [hpc]; rfl) rfl
  | runTakeInner | runSetStartedAt | callLock i =>
      obtain ⟨-, rfl⟩ := Runs.enabled_eq_some.mp h
      split <;> exact .silent _ nofun rfl rfl rfl
  | runSpawnNode | runSpawnPoll | runStoreHandle | pollWake | pollSkip | pollBreak
  | callCancel i | callJoin i | callDrop i =>
      obtain ⟨-, rfl⟩ := Runs.enabled_eq_some.mp h
      exact .silent _ nofun rfl rfl rfl
  | runSpawnShutdown =>
      obtain ⟨hpc, rfl⟩ := Runs.enabled_eq_some.mp h
      have hun : s.shutdown = .notSpawned := hs (by rw [hpc]; trivial)
      exact .silent _ nofun rfl rfl (by rw [hun]; rfl)
  | shutdownSignal | shutdownKill | shutdownCancel | shutdownNodeStopped
  | shutdownJoinNode | shutdownJoinPoll | shutdownFlush =>
      obtain ⟨hpc, rfl⟩ := Runs.enabled_eq_some.mp h
      exact .silent _ nofun rfl rfl (by rw [hpc]; rfl)
  | shutdownRequested =>
      obtain ⟨⟨hpc, -⟩, rfl⟩ := Runs.enabled_eq_some.mp h
      exact .silent _ nofun rfl rfl (by rw [hpc]; rfl)

/-- The channel holds the last publication, and the shutdown task has published
what its phase says. -/
structure ChannelInv (s : NodeRun) : Prop where
  spawnOrder : s.SpawnOrder
  held : s.state = heldState s.published
  announced : (∃ p ∈ s.published, p.Announces) ↔ 1 ≤ s.shutdown.phase
  ended : .ending ∈ s.published ↔ s.shutdown.phase = 2

theorem channelInv_built : ChannelInv .built where
  spawnOrder := fun _ => rfl
  held := rfl
  announced := by simp [NodeRun.built, ShutdownPc.phase]
  ended := by simp [NodeRun.built, ShutdownPc.phase]

theorem channelInv_step {ov : Overflow} {s t : NodeRun} {a : NodeStep}
    (hs : ChannelInv s) (h : s.step ov a = some t) : ChannelInv t := by
  have spawnOrder := spawnOrder_step hs.spawnOrder h
  have hann := hs.announced
  have hend := hs.ended
  cases step_effect hs.spawnOrder h with
  | silent _ _ hstate hpub hphase =>
      exact ⟨spawnOrder, by rw [hstate, hpub, hs.held], by rw [hpub, hphase, hann],
        by rw [hpub, hphase, hend]⟩
  | active hstate hpub hphase =>
      refine ⟨spawnOrder, by rw [hstate, hpub, heldState_append], ?_, ?_⟩
      · rw [hpub, hphase, ← hann]
        simp [Publication.Announces]
      · rw [hpub, hphase, ← hend]
        simp [Publication.ending]
  | polled _ v _ _ hv hstate hpub hphase =>
      have hne : v ≠ .shuttingDown := fun e => hv (e ▸ True.intro)
      refine ⟨spawnOrder, by rw [hstate, hpub, heldState_append], ?_, ?_⟩
      · rw [hpub, hphase, ← hann]
        simp [Publication.Announces, hne]
      · rw [hpub, hphase, ← hend]
        simp [Publication.ending]
  | announced hstate hpub hbefore hafter =>
      refine ⟨spawnOrder, by rw [hstate, hpub, heldState_append], ?_, ?_⟩
      · rw [hpub, hafter]
        simp [Publication.Announces]
      · rw [hpub, hafter]
        rw [hbefore] at hend
        simpa [Publication.ending] using hend
  | finished hstate hpub hbefore hafter =>
      refine ⟨spawnOrder, by rw [hstate, hpub, heldState_append]; rfl, ?_, ?_⟩
      · obtain ⟨p, hp, hpann⟩ := hann.mpr hbefore.ge
        rw [hpub, hafter]
        exact iff_of_true ⟨p, List.mem_append_left _ hp, hpann⟩ (by decide)
      · rw [hpub, hafter]
        simp

/-- `run` publishes `Active` only while the shutdown is not announced. -/
def ActiveBeforeShutdown (s : NodeRun) : NodeStep → Prop
  | .runPublishActive => ∀ p ∈ s.published, ¬ p.Announces
  | _ => True

theorem activeBeforeShutdown_of_ne {s : NodeRun} {a : NodeStep}
    (h : a ≠ .runPublishActive) : ActiveBeforeShutdown s a := by
  cases a <;> first | exact True.intro | exact absurd rfl h

theorem ChannelInv.announced_of_ended {s : NodeRun} (h : ChannelInv s)
    (hend : .ending ∈ s.published) : ∃ p ∈ s.published, p.Announces :=
  h.announced.mpr (by rw [h.ended.mp hend]; decide)

theorem irreversible_step_iff {ov : Overflow} {s t : NodeRun} {a : NodeStep}
    (hs : ChannelInv s) (hlaw : Irreversible s.published) (h : s.step ov a = some t) :
    Irreversible t.published ↔ ActiveBeforeShutdown s a := by
  cases step_effect hs.spawnOrder h with
  | silent _ hne _ hpub _ =>
      rw [hpub]
      exact iff_of_true hlaw (activeBeforeShutdown_of_ne hne)
  | active _ hpub _ =>
      rw [hpub, irreversible_append]
      constructor
      · rintro ⟨-, hall⟩ p hp hann
        exact nomatch (hall p hp).1 hann
      · intro hnone
        refine ⟨hlaw, fun p hp => ⟨fun hann => absurd hann (hnone p hp), ?_⟩⟩
        rintro rfl
        obtain ⟨q, hq, hqann⟩ := hs.announced_of_ended hp
        exact hnone q hq hqann
  | polled _ v hne hrunning _ _ hpub _ =>
      refine iff_of_true ?_ (activeBeforeShutdown_of_ne hne)
      have quiet (p : Publication) (hp : p ∈ s.published) :
          ¬ (p.Announces ∨ p = .ending) := fun hfrozen =>
        hrunning (hs.held ▸ heldState_frozen hlaw hp hfrozen)
      rw [hpub, irreversible_append]
      exact ⟨hlaw, fun p hp => ⟨fun hann => absurd (.inl hann) (quiet p hp),
        fun hend => quiet p hp (.inr hend)⟩⟩
  | announced _ hpub hbefore _ =>
      refine iff_of_true ?_ True.intro
      have hquiet : ¬ ∃ p ∈ s.published, p.Announces := by
        rw [hs.announced, hbefore]
        decide
      rw [hpub, irreversible_append]
      refine ⟨hlaw, fun p hp => ⟨fun hann => absurd ⟨p, hp, hann⟩ hquiet, ?_⟩⟩
      rintro rfl
      exact hquiet (hs.announced_of_ended hp)
  | finished _ hpub hbefore _ =>
      refine iff_of_true ?_ True.intro
      rw [hpub, irreversible_append]
      refine ⟨hlaw, fun p hp => ⟨fun _ => rfl, ?_⟩⟩
      rintro rfl
      exact absurd (hs.ended.mp hp) (by rw [hbefore]; decide)

/-- Over every interleaving, a shutdown is irreversible in the published states
exactly when `run` does not publish `Active` after the shutdown task has
announced the shutdown. -/
theorem shutdown_irreversible_iff (ov : Overflow) (steps : List NodeStep) :
    Runs.Always (NodeRun.step ov) (fun s => Irreversible s.published) .built steps ↔
      Runs.EachStep (NodeRun.step ov) ActiveBeforeShutdown .built steps := by
  apply Runs.always_iff_eachStep (I := ChannelInv)
  · exact fun s a t hs _ ht => channelInv_step hs ht
  · exact fun s a t hs hlaw ht => irreversible_step_iff hs hlaw ht
  · exact channelInv_built
  · exact List.Pairwise.nil

/-- A `shutdown` call made before `run` returns: the shutdown task, spawned with
the token already cancelled, announces the shutdown and `run` then publishes
`Active`. -/
theorem active_after_shutdown :
    ∃ s, Runs.exec (NodeRun.step .wraps) .built
        [.callCancel 0, .runTakeInner, .runSetStartedAt, .runSpawnNode, .runSpawnPoll,
          .runSpawnShutdown, .shutdownRequested, .shutdownKill, .shutdownAnnounce,
          .runStoreHandle, .runPublishActive] = some s ∧
      s.published = [⟨.shutdownTask, .shuttingDown⟩, ⟨.run, .active⟩] ∧
      ¬ Irreversible s.published := by
  refine ⟨_, rfl, rfl, ?_⟩
  show ¬ Irreversible [⟨.shutdownTask, .shuttingDown⟩, ⟨.run, .active⟩]
  intro h
  exact nomatch ((List.pairwise_cons.mp h).1 _ (List.mem_singleton_self _)).1 rfl

end BdkFloresta
