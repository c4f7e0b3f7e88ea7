import BdkFloresta.Library.Progress
import BdkFloresta.Node.Progress
import BdkFloresta.Node.Publications
import BdkFloresta.Node.Tips
import BdkFloresta.Node.View

/-!
The status poll against a chain that moves while it reads. A poll asks for the peers and
then reads the chain tip, the validated height and the filter height one after another, so
the heights it decides on need never have stood together. It reads the one that the other
two are measured against first: an `Operational` it publishes holds of the tip it read,
and towards a fixed tip no state it publishes is behind an earlier one.
-/

namespace BdkFloresta

/-- What the running poll has read so far. -/
inductive Reading where
  | asleep
  | woken
  | peers (wireReady : Bool)
  | chainTip (wireReady : Bool) (chainTip : Nat)
  | nodeTip (wireReady : Bool) (chainTip nodeTip : Nat)
  | filterTip (wireReady : Bool) (chainTip nodeTip filterTip : Nat)
  deriving DecidableEq, Repr

/-- The steps of the poll task's loop, which `NodeStep` has with heights of any kind. -/
def NodeStep.OfPoll : NodeStep → Prop
  | .pollWake | .pollSkip | .pollPublish .. => True
  | _ => False

instance : (a : NodeStep) → Decidable a.OfPoll
  | .pollWake | .pollSkip | .pollPublish .. => isTrue True.intro
  | .runTakeInner | .runSetStartedAt | .runSpawnNode | .runSpawnPoll | .runSpawnShutdown
  | .runStoreHandle | .runPublishActive | .pollBreak | .shutdownSignal | .shutdownRequested
  | .shutdownKill | .shutdownAnnounce | .shutdownCancel | .shutdownNodeStopped
  | .shutdownJoinNode | .shutdownJoinPoll | .shutdownFlush | .shutdownFinish | .callCancel _
  | .callLock _ | .callJoin _ | .callDrop _ => isFalse id

structure PollRun where
  node : NodeRun
  tips : Tips
  reading : Reading
  /-- What the polls decided on, the heights of each with the peers' readiness. -/
  polls : List (Bool × Heights)
  /-- The chain tip read by the last poll that found the node operational. -/
  shownTip : Nat

inductive PollStep where
  | header
  | validate (block : Block)
  | syncFilter
  | beside (a : NodeStep)
  | wake
  | readPeers (wireReady : Bool)
  | readChainTip
  | readNodeTip
  | readFilterTip
  | readFails
  | publish

namespace PollRun

/-- A node as `build` returns it, on a chain opened at these tips. -/
def built (tips : Tips) : PollRun := ⟨.built, tips, .asleep, [], 0⟩

/-- The poll's decision on what it has read. -/
def publish (ov : Overflow) (s : PollRun) (wireReady : Bool) (chainTip nodeTip filterTip : Nat) :
    PollRun :=
  { s with
    node := s.node.pollPublish ov wireReady nodeTip chainTip filterTip
    reading := .asleep
    polls := s.polls ++ [(wireReady, ⟨nodeTip, chainTip, filterTip⟩)]
    shownTip :=
      if computeNextState ov wireReady s.node.state nodeTip chainTip filterTip =
        some .operational then chainTip else s.shownTip }

def step (ov : Overflow) (s : PollRun) : PollStep → Option PollRun
  -- the chain and its filters
  | .header => some { s with tips := s.tips.header }
  | .validate block => (s.tips.validate? block).map fun tips => { s with tips }
  | .syncFilter => s.tips.syncFilter?.map fun tips => { s with tips }
  -- the node's other tasks and calls
  | .beside a =>
      if a.OfPoll then none else (s.node.step ov a).map fun node => { s with node }
  -- the poll
  | .wake =>
      (s.node.step ov .pollWake).map fun node => { s with node, reading := .woken }
  | .readPeers wireReady =>
      Runs.enabled (s.reading = .woken) { s with reading := .peers wireReady }
  | .readChainTip =>
      match s.reading with
      | .peers wireReady => some { s with reading := .chainTip wireReady s.tips.chainHeight }
      | _ => none
  | .readNodeTip =>
      match s.reading with
      | .chainTip wireReady chainTip =>
          some { s with reading := .nodeTip wireReady chainTip s.tips.chain.height }
      | _ => none
  | .readFilterTip =>
      match s.reading with
      | .nodeTip wireReady chainTip nodeTip =>
          some { s with
            reading := .filterTip wireReady chainTip nodeTip s.tips.filterHeight }
      | _ => none
  | .readFails =>
      match s.reading with
      | .peers _ | .chainTip _ _ | .nodeTip _ _ _ =>
          (s.node.step ov .pollSkip).map fun node => { s with node, reading := .asleep }
      | _ => none
  | .publish =>
      match s.reading with
      | .filterTip wireReady chainTip nodeTip filterTip =>
          Runs.enabled (s.node.poll = .polling)
            (s.publish ov wireReady chainTip nodeTip filterTip)
      | _ => none

/-- The next thing the poll reads, as it stands now. -/
inductive Reads (tips : Tips) : PollStep → Reading → Reading → Prop where
  | peers (wireReady : Bool) : Reads tips (.readPeers wireReady) .woken (.peers wireReady)
  | chainTip (wireReady : Bool) :
      Reads tips .readChainTip (.peers wireReady) (.chainTip wireReady tips.chainHeight)
  | nodeTip (wireReady : Bool) (chainTip : Nat) : Reads tips .readNodeTip
      (.chainTip wireReady chainTip) (.nodeTip wireReady chainTip tips.chain.height)
  | filterTip (wireReady : Bool) (chainTip nodeTip : Nat) : Reads tips .readFilterTip
      (.nodeTip wireReady chainTip nodeTip)
      (.filterTip wireReady chainTip nodeTip tips.filterHeight)

/-- No height is lower in `tips'`, and the chain tip is higher only by a new header. -/
structure Grown (a : PollStep) (tips tips' : Tips) : Prop where
  chain : tips.chainHeight ≤ tips'.chainHeight
  node : tips.chain.height ≤ tips'.chain.height
  filter : tips.filterHeight ≤ tips'.filterHeight
  tip : a ≠ .header → tips'.chainHeight = tips.chainHeight

/-- What one step does. -/
inductive Move (ov : Overflow) (s t : PollRun) (a : PollStep) : Prop where
  | grown (tips : Tips) : Grown a s.tips tips → t = { s with tips := tips } → Move ov s t a
  | beside (b : NodeStep) (node : NodeRun) : ¬ b.OfPoll → s.node.step ov b = some node →
      t = { s with node := node } → Move ov s t a
  | began (node : NodeRun) : s.node.step ov .pollWake = some node →
      t = { s with node := node, reading := .woken } → Move ov s t a
  | read (reading : Reading) : Reads s.tips a s.reading reading →
      t = { s with reading := reading } → Move ov s t a
  | failed (node : NodeRun) : s.node.step ov .pollSkip = some node →
      t = { s with node := node, reading := .asleep } → Move ov s t a
  | decided (wireReady : Bool) (chainTip nodeTip filterTip : Nat) :
      s.reading = .filterTip wireReady chainTip nodeTip filterTip →
      s.node.step ov (.pollPublish wireReady nodeTip chainTip filterTip) =
        some (s.publish ov wireReady chainTip nodeTip filterTip).node →
      t = s.publish ov wireReady chainTip nodeTip filterTip → Move ov s t a

theorem grown_validate {tips tips' : Tips} {block : Block}
    (h : tips.validate? block = some tips') : Grown (.validate block) tips tips' := by
  have hheight := (Tips.validate?_spec h).1
  simp only [Tips.validate?] at h
  split at h
  · split at h
    · obtain rfl := Option.some.inj h
      exact ⟨Nat.le_refl _, by omega, Nat.le_refl _, fun _ => rfl⟩
    · cases h
  · cases h

theorem grown_syncFilter {tips tips' : Tips} (h : tips.syncFilter? = some tips') :
    Grown .syncFilter tips tips' := by
  simp only [Tips.syncFilter?] at h
  split at h
  · obtain rfl := Option.some.inj h
    exact ⟨Nat.le_refl _, Nat.le_refl _, Nat.le_succ _, fun _ => rfl⟩
  · cases h

theorem step_move {ov : Overflow} {s t : PollRun} {a : PollStep} (h : s.step ov a = some t) :
    Move ov s t a := by
  cases a with
  | header =>
      obtain rfl := Option.some.inj h
      exact .grown s.tips.header
        ⟨Nat.le_succ _, Nat.le_refl _, Nat.le_refl _, fun hne => absurd rfl hne⟩ rfl
  | validate block =>
      obtain ⟨tips, htips, rfl⟩ := Option.map_eq_some_iff.mp h
      exact .grown tips (grown_validate htips) rfl
  | syncFilter =>
      obtain ⟨tips, htips, rfl⟩ := Option.map_eq_some_iff.mp h
      exact .grown tips (grown_syncFilter htips) rfl
  | beside b =>
      simp only [step] at h
      split at h
      · cases h
      next hother =>
        obtain ⟨node, hnode, rfl⟩ := Option.map_eq_some_iff.mp h
        exact .beside b node hother hnode rfl
  | wake =>
      obtain ⟨node, hnode, rfl⟩ := Option.map_eq_some_iff.mp h
      exact .began node hnode rfl
  | readPeers wireReady =>
      obtain ⟨hreading, rfl⟩ := Runs.enabled_eq_some.mp h
      exact .read _ (hreading ▸ .peers wireReady) rfl
  | readChainTip =>
      simp only [step] at h
      split at h
      next wireReady hreading =>
        obtain rfl := Option.some.inj h
        exact .read _ (hreading ▸ .chainTip wireReady) rfl
      · cases h
  | readNodeTip =>
      simp only [step] at h
      split at h
      next wireReady chainTip hreading =>
        obtain rfl := Option.some.inj h
        exact .read _ (hreading ▸ .nodeTip wireReady chainTip) rfl
      · cases h
  | readFilterTip =>
      simp only [step] at h
      split at h
      next wireReady chainTip nodeTip hreading =>
        obtain rfl := Option.some.inj h
        exact .read _ (hreading ▸ .filterTip wireReady chainTip nodeTip) rfl
      · cases h
  | readFails =>
      -- the chain tip, the validated height and the filter height may each fail
      simp only [step] at h
      split at h
      iterate 3
        · obtain ⟨node, hnode, rfl⟩ := Option.map_eq_some_iff.mp h
          exact .failed node hnode rfl
      · cases h
  | publish =>
      simp only [step] at h
      split at h
      next wireReady chainTip nodeTip filterTip hreading =>
        obtain ⟨hpoll, rfl⟩ := Runs.enabled_eq_some.mp h
        exact .decided wireReady chainTip nodeTip filterTip hreading
          (Runs.enabled_eq_some.mpr ⟨hpoll, rfl⟩) rfl
      · cases h

/-- Whatever the heights do, the node goes through one of its own runs. -/
theorem node_reached {ov : Overflow} {s t : PollRun} {as : List PollStep}
    (h : Runs.exec (step ov) s as = some t) :
    ∃ bs, Runs.exec (NodeRun.step ov) s.node bs = some t.node := by
  induction as generalizing s with
  | nil => exact ⟨[], congrArg (Option.map node) h⟩
  | cons a as ih =>
      obtain ⟨m, hm, hrest⟩ := Runs.exec_cons h
      obtain ⟨bs, hbs⟩ := ih hrest
      have hnode : ∀ b, s.node.step ov b = some m.node →
          ∃ bs, Runs.exec (NodeRun.step ov) s.node bs = some t.node := fun b hb =>
        ⟨b :: bs, by rw [Runs.exec, hb, Option.bind_some, hbs]⟩
      cases step_move hm with
      | grown tips _ heq | read reading _ heq =>
          subst heq
          exact ⟨bs, hbs⟩
      | beside b node _ hb heq | began node hb heq | failed node hb heq | decided _ _ _ _ _ hb heq =>
          subst heq
          exact hnode _ hb

end PollRun

/-- The reading is no newer than the tips. -/
def Reading.Behind (tips : Tips) : Reading → Prop
  | .asleep | .woken | .peers _ => True
  | .chainTip _ c => c ≤ tips.chainHeight
  | .nodeTip _ c n => c ≤ tips.chainHeight ∧ n ≤ tips.chain.height
  | .filterTip _ c n f => c ≤ tips.chainHeight ∧ n ≤ tips.chain.height ∧ f ≤ tips.filterHeight

/-- What has been read is no lower than an earlier poll's. -/
def Reading.Above (h : Heights) : Reading → Prop
  | .asleep | .woken | .peers _ => True
  | .chainTip _ c => h.chain ≤ c
  | .nodeTip _ c n => h.chain ≤ c ∧ h.node ≤ n
  | .filterTip _ c n f => h.chain ≤ c ∧ h.node ≤ n ∧ h.filter ≤ f

def Heights.Within (h : Heights) (tips : Tips) : Prop :=
  h.chain ≤ tips.chainHeight ∧ h.node ≤ tips.chain.height ∧ h.filter ≤ tips.filterHeight

theorem Heights.Within.grown {h : Heights} {a : PollStep} {tips tips' : Tips}
    (hgrown : PollRun.Grown a tips tips') (hh : h.Within tips) : h.Within tips' :=
  ⟨hh.1.trans hgrown.chain, hh.2.1.trans hgrown.node, hh.2.2.trans hgrown.filter⟩

theorem Reading.Behind.grown {reading : Reading} {a : PollStep} {tips tips' : Tips}
    (hgrown : PollRun.Grown a tips tips') (h : reading.Behind tips) : reading.Behind tips' := by
  cases reading with
  | asleep | woken | peers wireReady => trivial
  | chainTip wireReady c => exact Nat.le_trans h hgrown.chain
  | nodeTip wireReady c n => exact ⟨h.1.trans hgrown.chain, h.2.trans hgrown.node⟩
  | filterTip wireReady c n f =>
      exact ⟨h.1.trans hgrown.chain, h.2.1.trans hgrown.node, h.2.2.trans hgrown.filter⟩

theorem PollRun.Reads.behind {tips : Tips} {a : PollStep} {reading reading' : Reading}
    (h : PollRun.Reads tips a reading reading') (hbehind : reading.Behind tips) :
    reading'.Behind tips := by
  cases h with
  | peers wireReady => trivial
  | chainTip wireReady => exact Nat.le_refl _
  | nodeTip wireReady chainTip => exact ⟨hbehind, Nat.le_refl _⟩
  | filterTip wireReady chainTip nodeTip => exact ⟨hbehind.1, hbehind.2, Nat.le_refl _⟩

theorem PollRun.Reads.above {tips : Tips} {a : PollStep} {reading reading' : Reading}
    {h : Heights} (hreads : PollRun.Reads tips a reading reading') (hwithin : h.Within tips)
    (habove : reading.Above h) : reading'.Above h := by
  cases hreads with
  | peers wireReady => trivial
  | chainTip wireReady => exact hwithin.1
  | nodeTip wireReady chainTip => exact ⟨habove, hwithin.2.1⟩
  | filterTip wireReady chainTip nodeTip => exact ⟨habove.1, habove.2, hwithin.2.2⟩

/-- Only a decision of the poll makes the node operational. -/
theorem NodeRun.operational_of_step {ov : Overflow} {s t : NodeRun} {a : NodeStep}
    (hother : ∀ w n c f, a ≠ .pollPublish w n c f) (h : s.step ov a = some t)
    (ht : t.state = .operational) : s.state = .operational := by
  cases a with
  | pollPublish w n c f => exact absurd rfl (hother w n c f)
  | runPublishActive | shutdownAnnounce | shutdownFinish =>
      obtain ⟨-, rfl⟩ := Runs.enabled_eq_some.mp h
      cases ht
  | runTakeInner | runSetStartedAt | callLock i =>
      obtain ⟨-, rfl⟩ := Runs.enabled_eq_some.mp h
      split at ht <;> exact ht
  | _ =>
      obtain ⟨-, rfl⟩ := Runs.enabled_eq_some.mp h
      exact ht

theorem NodeRun.operational_of_pollPublish {ov : Overflow} {s : NodeRun} {wireReady : Bool}
    {n c f : Nat} (h : (s.pollPublish ov wireReady n c f).state = .operational) :
    computeNextState ov wireReady s.state n c f = some .operational ∨ s.state = .operational := by
  simp only [NodeRun.pollPublish] at h
  split at h
  · exact .inr h
  · split at h
    · exact .inr h
    next next hnext =>
      split at h
      · exact .inr h
      · exact .inl (hnext.trans (congrArg some h))

/-- In any build a poll finds the node operational only at heights that cover the tip. -/
theorem computeNextState_operational {ov : Overflow} {wireReady : Bool} {s : State} {n c f : Nat}
    (hs : ¬ s.Frozen) (h : computeNextState ov wireReady s n c f = some .operational) :
    0 < n ∧ c ≤ n ∧ c ≤ f := by
  have hclamp : (if f > n then n else f) = min f n := by split <;> omega
  rw [computeNextState_of_running hs] at h
  simp only [computeNextState, hclamp] at h
  split at h
  · cases h
  split at h
  · cases h
  obtain ⟨tolerated, -, hstate⟩ := Option.map_eq_some_iff.mp h
  by_cases hbehind : tolerated < c
  · rw [if_pos hbehind] at hstate
    cases hstate
  by_cases hmissing : min f n < c
  · rw [if_neg hbehind, if_pos hmissing] at hstate
    cases hstate
  by_cases hpos : n > 0
  · omega
  · rw [if_neg hbehind, if_neg hmissing, if_neg hpos] at hstate
    cases hstate

namespace PollRun

/-- The polls' heights, what is being read and the state at hand. -/
structure Consistent (s : PollRun) : Prop where
  behind : s.reading.Behind s.tips
  within : ∀ p ∈ s.polls, p.2.Within s.tips
  above : ∀ p ∈ s.polls, s.reading.Above p.2
  rising : s.polls.Pairwise fun p q =>
    p.2.chain ≤ q.2.chain ∧ p.2.node ≤ q.2.node ∧ p.2.filter ≤ q.2.filter
  shown : s.node.state = .operational →
    0 < s.tips.chain.height ∧ s.shownTip ≤ s.tips.filterHeight

theorem built_consistent (tips : Tips) : Consistent (built tips) :=
  ⟨trivial, nofun, nofun, .nil, by simp [built, NodeRun.built]⟩

theorem consistent_step {ov : Overflow} {s t : PollRun} {a : PollStep} (hs : Consistent s)
    (h : Move ov s t a) : Consistent t := by
  cases h with
  | grown tips hgrown heq =>
      subst heq
      exact ⟨hs.behind.grown hgrown, fun p hp => (hs.within p hp).grown hgrown, hs.above, hs.rising,
        fun hop => ⟨Nat.lt_of_lt_of_le (hs.shown hop).1 hgrown.node,
          (hs.shown hop).2.trans hgrown.filter⟩⟩
  | beside b node hother hnode heq =>
      subst heq
      refine ⟨hs.behind, hs.within, hs.above, hs.rising, fun hop => hs.shown ?_⟩
      exact NodeRun.operational_of_step (fun w n c f heq => hother (by rw [heq]; trivial)) hnode hop
  | began node hnode heq | failed node hnode heq =>
      subst heq
      refine ⟨trivial, hs.within, fun _ _ => trivial, hs.rising, fun hop => hs.shown ?_⟩
      exact NodeRun.operational_of_step (by simp) hnode hop
  | read reading hreads heq =>
      subst heq
      exact ⟨hreads.behind hs.behind, hs.within,
        fun p hp => hreads.above (hs.within p hp) (hs.above p hp), hs.rising, hs.shown⟩
  | decided wireReady chainTip nodeTip filterTip hreading hnode heq =>
      subst heq
      have hbehind := hs.behind
      have habove := hs.above
      rw [hreading] at hbehind habove
      refine ⟨trivial, fun p hp => ?_, fun _ _ => trivial, ?_, ?_⟩
      · rcases List.mem_append.mp hp with hp | hp
        · exact hs.within p hp
        · obtain rfl := List.mem_singleton.mp hp
          exact hbehind
      · refine List.pairwise_append.mpr ⟨hs.rising, List.pairwise_singleton .., ?_⟩
        intro p hp q hq
        obtain rfl := List.mem_singleton.mp hq
        exact habove p hp
      · intro hop
        simp only [publish]
        split
        next hfound =>
          have hrunning : ¬ s.node.state.Frozen := fun hfrozen => by
            rw [computeNextState_frozen hfrozen] at hfound
            rw [Option.some.inj hfound] at hfrozen
            exact hfrozen
          obtain ⟨hpos, -, hcovered⟩ := computeNextState_operational hrunning hfound
          exact ⟨Nat.lt_of_lt_of_le hpos hbehind.2.1, hcovered.trans hbehind.2.2⟩
        next hfound =>
          exact hs.shown ((NodeRun.operational_of_pollPublish hop).resolve_left hfound)

theorem reached_consistent {ov : Overflow} {tips : Tips} {s : PollRun} {as : List PollStep}
    (h : Runs.exec (step ov) (built tips) as = some s) : Consistent s :=
  Runs.exec_invariant (fun _ _ _ hs ht => consistent_step hs (step_move ht))
    (built_consistent tips) h

/-- What the node answers at one moment of a run. -/
def view (s : PollRun) (parts : NodeView) : NodeView :=
  { parts with state := s.node.state, filterHeight := .ok s.tips.filterHeight }

end PollRun

/-- The states that the poll has published. -/
def polled (published : List Publication) : List State :=
  (published.filter fun p => p.writer = .poll).map Publication.state

@[simp] theorem polled_append (published : List Publication) (p : Publication) :
    polled (published ++ [p]) =
      polled published ++ if p.writer = .poll then [p.state] else [] := by
  by_cases h : p.writer = .poll <;> simp [polled, h]

/-- The other writers leave the poll's publications alone. -/
theorem NodeRun.polled_of_step {ov : Overflow} {s t : NodeRun} {a : NodeStep}
    (hother : ∀ w n c f, a ≠ .pollPublish w n c f) (h : s.step ov a = some t) :
    polled t.published = polled s.published := by
  cases a with
  | pollPublish w n c f => exact absurd rfl (hother w n c f)
  | runPublishActive | shutdownAnnounce | shutdownFinish =>
      obtain ⟨-, rfl⟩ := Runs.enabled_eq_some.mp h
      simp [NodeRun.publish]
  | runTakeInner | runSetStartedAt | callLock i =>
      obtain ⟨-, rfl⟩ := Runs.enabled_eq_some.mp h
      split <;> rfl
  | _ =>
      obtain ⟨-, rfl⟩ := Runs.enabled_eq_some.mp h
      rfl

/-- A poll of a ready node publishes the state of its heights or nothing. -/
theorem NodeRun.polled_pollPublish (ov : Overflow) (s : NodeRun) {h : Heights}
    (hfits : h.node + operationalTolerance ≤ u32Max) :
    polled (s.pollPublish ov true h.node h.chain h.filter).published = polled s.published ∨
      polled (s.pollPublish ov true h.node h.chain h.filter).published =
        polled s.published ++ [h.state] := by
  have hsum : SumFits true s.state h.node := .inr (.inr hfits)
  have hnext := computeNextState_of_sumFits hsum ov h.chain h.filter
  simp only [NodeRun.pollPublish, hnext]
  by_cases hfrozen : s.state.Frozen
  · rw [exactNextState_frozen hfrozen, if_pos rfl]
    split <;> exact .inl rfl
  · rw [exactNextState_of_running hfrozen]
    split
    · exact .inl rfl
    · split
      · exact .inl rfl
      · exact .inr (by simp [NodeRun.publish, Heights.state])

/-- The peers were ready and the chain tip was `tip`, as far as the poll has read. -/
def Reading.Towards (tip : Nat) : Reading → Prop
  | .asleep | .woken => True
  | .peers w => w = true
  | .chainTip w c | .nodeTip w c _ | .filterTip w c _ _ => w = true ∧ c = tip

/-- The step brings no new header and finds the peers ready. -/
def PollStep.Quiet : PollStep → Prop
  | .header | .readPeers false => False
  | _ => True

instance : (a : PollStep) → Decidable a.Quiet
  | .header | .readPeers false => isFalse id
  | .readPeers true | .validate _ | .syncFilter | .beside _ | .wake | .readChainTip
  | .readNodeTip | .readFilterTip | .readFails | .publish => isTrue True.intro

namespace PollRun

/-- A sync towards one tip, and what it has published. -/
structure Towards (tip : Nat) (s : PollRun) : Prop where
  chain : s.tips.chainHeight = tip
  reading : s.reading.Towards tip
  polls : ∀ p ∈ s.polls, p.1 = true ∧ p.2.chain = tip
  published : (polled s.node.published).Sublist (s.polls.map fun p => p.2.state)

theorem towards_step {ov : Overflow} {tip : Nat} (hfits : tip + operationalTolerance ≤ u32Max)
    {s t : PollRun} {a : PollStep} (hquiet : a.Quiet) (hc : Consistent s) (hs : Towards tip s)
    (h : Move ov s t a) : Towards tip t := by
  cases h with
  | grown tips hgrown heq =>
      subst heq
      have htip := hgrown.tip (by rintro rfl; exact hquiet)
      exact ⟨htip.trans hs.chain, hs.reading, hs.polls, hs.published⟩
  | beside b node hother hnode heq =>
      subst heq
      refine ⟨hs.chain, hs.reading, hs.polls, ?_⟩
      rw [NodeRun.polled_of_step (fun w n c f heq => hother (by rw [heq]; trivial)) hnode]
      exact hs.published
  | began node hnode heq | failed node hnode heq =>
      subst heq
      refine ⟨hs.chain, trivial, hs.polls, ?_⟩
      rw [NodeRun.polled_of_step (by simp) hnode]
      exact hs.published
  | read reading hreads heq =>
      subst heq
      refine ⟨hs.chain, ?_, hs.polls, hs.published⟩
      have hreading := hs.reading
      generalize s.reading = before at hreads hreading
      cases hreads with
      | peers wireReady =>
          cases wireReady with
          | true => exact rfl
          | false => exact hquiet.elim
      | chainTip wireReady => exact ⟨hreading, hs.chain⟩
      | nodeTip wireReady chainTip | filterTip wireReady chainTip nodeTip => exact hreading
  | decided wireReady chainTip nodeTip filterTip hreading hnode heq =>
      subst heq
      have hbehind := hc.behind
      have htowards := hs.reading
      rw [hreading] at hbehind htowards
      obtain ⟨rfl, rfl⟩ := htowards
      have hnode : nodeTip + operationalTolerance ≤ u32Max := by
        have hle := hbehind.2.1.trans s.tips.validated_le
        rw [hs.chain] at hle
        omega
      refine ⟨hs.chain, trivial, fun p hp => ?_, ?_⟩
      · rcases List.mem_append.mp hp with hp | hp
        · exact hs.polls p hp
        · obtain rfl := List.mem_singleton.mp hp
          exact ⟨rfl, rfl⟩
      · simp only [publish, List.map_append, List.map_cons, List.map_nil]
        rcases NodeRun.polled_pollPublish ov s.node (h := ⟨nodeTip, chainTip, filterTip⟩) hnode with
          heq | heq <;> rw [heq]
        · exact hs.published.trans (List.sublist_append_left ..)
        · exact hs.published.append (List.Sublist.refl _)

/-- As long as no header arrives and the peers are ready: in every run of the node with
all its tasks and calls, and however the chain moves while a poll reads, no state the
polls publish is behind an earlier one, and each has its place in the order of a sync. -/
theorem torn_progress (ov : Overflow) (tips : Tips) (hstarted : 1 ≤ tips.chainHeight)
    (hfits : tips.chainHeight + operationalTolerance ≤ u32Max) (as : List PollStep)
    (hquiet : ∀ a ∈ as, a.Quiet) {s : PollRun}
    (h : Runs.exec (step ov) (built tips) as = some s) :
    (polled s.node.published).Pairwise State.Advances ∧
      ∀ v ∈ polled s.node.published, v.rank.isSome = true := by
  have hkeeps : ∀ u a v, Consistent u ∧ Towards tips.chainHeight u → PollStep.Quiet a →
      step ov u a = some v → Consistent v ∧ Towards tips.chainHeight v :=
    fun _ _ _ hu ha hv => ⟨consistent_step hu.1 (step_move hv),
      towards_step hfits ha hu.1 hu.2 (step_move hv)⟩
  obtain ⟨hconsistent, htowards⟩ := Runs.exec_own hkeeps
    ⟨built_consistent tips, rfl, trivial, nofun, List.Sublist.refl _⟩ hquiet h
  have hsyncing : Syncing tips.chainHeight (s.polls.map Prod.snd) := by
    refine ⟨fun p hp => ?_, fun p hp => ?_, ?_⟩
    · obtain ⟨q, hq, rfl⟩ := List.mem_map.mp hp
      exact (htowards.polls q hq).2
    · obtain ⟨q, hq, rfl⟩ := List.mem_map.mp hp
      have hle := (hconsistent.within q hq).2.1.trans s.tips.validated_le
      rw [htowards.chain] at hle
      omega
    · exact List.pairwise_map.mpr (hconsistent.rising.imp fun hpq => hpq.2)
  have hsub := htowards.published
  rw [← Function.comp_def Heights.state Prod.snd, ← List.map_map] at hsub
  exact ⟨(states_advance hstarted hsyncing).sublist hsub,
    fun v hv => states_ranked hstarted hsyncing (hsub.subset hv)⟩

section examples

/-- One header ahead of the genesis block. -/
def openedTips : Tips :=
  ⟨⟨[⟨10, 0, []⟩], List.nodup_singleton _⟩, 1, 0, List.cons_ne_nil _ _, Nat.zero_le 1, Nat.le_refl 0⟩

/-- The block and its filter come while the poll reads, each just before its height. -/
def tornPoll : List PollStep :=
  [.beside .runTakeInner, .beside .runSetStartedAt, .beside .runSpawnNode, .beside .runSpawnPoll,
    .beside .runSpawnShutdown, .beside .runStoreHandle, .beside .runPublishActive, .wake,
    .readPeers true, .readChainTip, .readFails, .wake, .readPeers true, .readChainTip,
    .validate ⟨11, 1, []⟩, .readNodeTip, .syncFilter, .readFilterTip, .publish]

theorem torn_progress_tornPoll : ∃ s,
    Runs.exec (step .panics) (built openedTips) tornPoll = some s ∧
      (polled s.node.published).Pairwise State.Advances :=
  ⟨_, rfl, (torn_progress .panics openedTips (by decide) (by decide) tornPoll (by decide) rfl).1⟩

end examples
end PollRun
end BdkFloresta
