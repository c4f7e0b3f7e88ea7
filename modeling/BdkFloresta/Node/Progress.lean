import BdkFloresta.Node.Exact
import BdkFloresta.Node.Tolerance

/-!
The progress of a sync towards a fixed chain tip. As long as the validated height and
the filter height do not fall, a ready node goes through its states in one direction,
and within a state the height it reports does not fall. The filter height counts only up
to the validated height, which moves as well; the least of two rising heights still rises.
-/

namespace BdkFloresta

namespace State

/-- The place of the states of a ready node in the order of a sync. -/
def rank : State → Option Nat
  | .headerSync _ => some 0
  | .initialBlockDownload _ _ => some 1
  | .compactBlockFilterDownload _ => some 2
  | .operational => some 3
  | _ => none

/-- The node's or the filters' height that a state reports. -/
def reported : State → Nat
  | .initialBlockDownload _ nodeHeight => nodeHeight
  | .compactBlockFilterDownload filterHeight => filterHeight
  | _ => 0

/-- `t` is a later state of a sync, or the same one with no lower height. -/
def Advances (s t : State) : Prop :=
  ∃ p q, s.rank = some p ∧ t.rank = some q ∧ (p < q ∨ p = q ∧ s.reported ≤ t.reported)

end State

theorem Classified.rank_isSome {n c f : Nat} {t : State} (h : Classified n c f t) (hc : 1 ≤ c) :
    t.rank.isSome = true := by
  cases h with
  | headers | blocks | filters | done => rfl
  | empty _ hzero => exact absurd hzero (Nat.ne_of_gt hc)

theorem Classified.running {n c f : Nat} {t : State} (h : Classified n c f t) : ¬ t.Frozen := by
  cases h with
  | headers | blocks | filters | done | empty => exact id

/-- No rise of either height moves the state back. -/
theorem Classified.advances {n n' c f f' : Nat} (hc : 1 ≤ c) (hn : n ≤ n') (hf : f ≤ f')
    {s t : State} (hs : Classified n c f s) (ht : Classified n' c f' t) : s.Advances t := by
  have hmin : min f n ≤ min f' n' := by omega
  cases hs with
  | headers hzero _ =>
      cases ht with
      | headers => exact ⟨0, 0, rfl, rfl, .inr ⟨rfl, Nat.le_refl _⟩⟩
      | blocks => exact ⟨0, 1, rfl, rfl, .inl (by decide)⟩
      | filters => exact ⟨0, 2, rfl, rfl, .inl (by decide)⟩
      | done => exact ⟨0, 3, rfl, rfl, .inl (by decide)⟩
      | empty _ hnone => omega
  | blocks hpos hbehind =>
      cases ht with
      | headers | empty => omega
      | blocks => exact ⟨1, 1, rfl, rfl, .inr ⟨rfl, hn⟩⟩
      | filters => exact ⟨1, 2, rfl, rfl, .inl (by decide)⟩
      | done => exact ⟨1, 3, rfl, rfl, .inl (by decide)⟩
  | filters hpos hnear hmissing =>
      cases ht with
      | headers | blocks | empty => omega
      | filters => exact ⟨2, 2, rfl, rfl, .inr ⟨rfl, hmin⟩⟩
      | done => exact ⟨2, 3, rfl, rfl, .inl (by decide)⟩
  | done hpos hnear hsynced =>
      cases ht with
      | headers | blocks | empty => omega
      | filters _ _ hmissing => exact absurd (hsynced.trans hmin) (Nat.not_le.mpr hmissing)
      | done => exact ⟨3, 3, rfl, rfl, .inr ⟨rfl, Nat.le_refl _⟩⟩
  | empty _ hnone => omega

/-- The states that successive polls of a ready node compute, each from the one before;
`none` when a poll panics. -/
def pollStates (ov : Overflow) : State → List Heights → Option (List State)
  | _, [] => some []
  | s, h :: rest =>
      (computeNextState ov true s h.node h.chain h.filter).bind fun t =>
        (pollStates ov t rest).map fun states => t :: states

/-- Polls on the way to a fixed chain tip, the other heights rising. -/
structure Syncing (chain : Nat) (polls : List Heights) : Prop where
  chain : ∀ h ∈ polls, h.chain = chain
  range : ∀ h ∈ polls, h.node + operationalTolerance ≤ u32Max
  rising : polls.Pairwise fun h h' => h.node ≤ h'.node ∧ h.filter ≤ h'.filter

/-- The state of a ready node at these heights. -/
def Heights.state (h : Heights) : State := exactNextState true .active h.node h.chain h.filter

theorem Heights.state_classified (h : Heights) : Classified h.node h.chain h.filter h.state :=
  exactNextState_classified (s := .active) id h.node h.chain h.filter

theorem Syncing.cons {chain : Nat} {h : Heights} {rest : List Heights}
    (hpolls : Syncing chain (h :: rest)) : Syncing chain rest where
  chain := fun h' hmem => hpolls.chain h' (List.mem_cons_of_mem h hmem)
  range := fun h' hmem => hpolls.range h' (List.mem_cons_of_mem h hmem)
  rising := hpolls.rising.of_cons

/-- What a poll computes depends on its own heights only. -/
theorem Syncing.computeNextState_head {chain : Nat} {h : Heights} {rest : List Heights}
    (hpolls : Syncing chain (h :: rest)) (ov : Overflow) {s : State} (hs : ¬ s.Frozen) :
    computeNextState ov true s h.node h.chain h.filter = some h.state := by
  have hfits : SumFits true s h.node := .inr (.inr (hpolls.range h (List.mem_cons_self ..)))
  rw [computeNextState_of_sumFits hfits, exactNextState_of_running hs]
  rfl

theorem pollStates_eq (ov : Overflow) {chain : Nat} {polls : List Heights}
    (hpolls : Syncing chain polls) {s : State} (hs : ¬ s.Frozen) :
    pollStates ov s polls = some (polls.map Heights.state) := by
  induction polls generalizing s with
  | nil => rfl
  | cons h rest ih =>
      simp only [pollStates, hpolls.computeNextState_head ov hs, Option.bind_some,
        ih hpolls.cons h.state_classified.running, Option.map_some, List.map_cons]

theorem states_advance {chain : Nat} (hchain : 1 ≤ chain) {polls : List Heights}
    (hpolls : Syncing chain polls) : (polls.map Heights.state).Pairwise State.Advances := by
  refine List.pairwise_map.mpr (hpolls.rising.imp_of_mem fun {h h'} hmem hmem' hrising => ?_)
  have hs := h.state_classified
  have ht := h'.state_classified
  rw [hpolls.chain h hmem] at hs
  rw [hpolls.chain h' hmem'] at ht
  exact Classified.advances hchain hrising.1 hrising.2 hs ht

theorem states_ranked {chain : Nat} (hchain : 1 ≤ chain) {polls : List Heights}
    (hpolls : Syncing chain polls) {t : State} (ht : t ∈ polls.map Heights.state) :
    t.rank.isSome = true := by
  obtain ⟨h, hmem, rfl⟩ := List.mem_map.mp ht
  exact h.state_classified.rank_isSome (by rw [hpolls.chain h hmem]; exact hchain)

/-- A poll publishes what it computes, unless the channel holds it already. -/
theorem pollPublish_of_next (ov : Overflow) {s : NodeRun} (hs : ¬ s.state.Frozen) {h : Heights}
    {t : State} (hnext : computeNextState ov true s.state h.node h.chain h.filter = some t) :
    s.pollPublish ov true h.node h.chain h.filter =
      if s.state = t then { s with poll := .selecting }
      else { s.publish .poll t with poll := .selecting } := by
  have hrunning : s.state ≠ .shuttingDown := fun heq => hs (by rw [heq]; trivial)
  rw [NodeRun.pollPublish, if_neg hrunning, hnext]

theorem exec_poll (ov : Overflow) {s : NodeRun} (hpoll : s.poll = .selecting)
    (hs : ¬ s.state.Frozen) {h : Heights} {t : State}
    (hnext : computeNextState ov true s.state h.node h.chain h.filter = some t)
    (rest : List Heights) :
    Runs.exec (NodeRun.step ov) s (pollSteps (h :: rest)) =
      Runs.exec (NodeRun.step ov)
        (if s.state = t then { s with poll := .selecting }
        else { s.publish .poll t with poll := .selecting }) (pollSteps rest) := by
  have hpublish := pollPublish_of_next ov (s := { s with poll := .polling }) hs hnext
  simp only [pollSteps, List.flatMap_cons, List.cons_append, List.nil_append, Runs.exec,
    NodeRun.step, Runs.enabled, hpoll, if_true, Option.bind_some, hpublish]
  rfl

/-- The published states are the computed ones without some of them. -/
theorem polls_publish (ov : Overflow) {chain : Nat} {polls : List Heights}
    (hpolls : Syncing chain polls) {s : NodeRun} (hpoll : s.poll = .selecting)
    (hs : ¬ s.state.Frozen) :
    ∃ t, ∃ published : List State, Runs.exec (NodeRun.step ov) s (pollSteps polls) = some t ∧
      t.published = s.published ++ published.map (Publication.mk .poll) ∧
      List.Sublist published (polls.map Heights.state) := by
  induction polls generalizing s with
  | nil => exact ⟨s, [], rfl, by simp, List.Sublist.refl _⟩
  | cons h rest ih =>
      rw [exec_poll ov hpoll hs (hpolls.computeNextState_head ov hs)]
      by_cases hsame : s.state = h.state
      · rw [if_pos hsame]
        obtain ⟨t, published, hexec, hpublished, hsub⟩ :=
          ih hpolls.cons (s := { s with poll := .selecting }) rfl hs
        exact ⟨t, published, hexec, hpublished, hsub.cons _⟩
      · rw [if_neg hsame]
        obtain ⟨t, published, hexec, hpublished, hsub⟩ :=
          ih hpolls.cons (s := { s.publish .poll h.state with poll := .selecting }) rfl
            h.state_classified.running
        refine ⟨t, h.state :: published, hexec, ?_, hsub.cons_cons _⟩
        rw [hpublished]
        simp [NodeRun.publish]

/-- Over polls of a ready node on the way to a fixed chain tip, from any state whose logic
is the poll's, no computed and no published state is behind an earlier one, and none is
`Active`: each has its place in the order of a sync. -/
theorem sync_progress_monotone (ov : Overflow) {chain : Nat} (hchain : 1 ≤ chain)
    {polls : List Heights} (hpolls : Syncing chain polls) :
    (∀ s : State, ¬ s.Frozen → ∃ states, pollStates ov s polls = some states ∧
      states.length = polls.length ∧ states.Pairwise State.Advances ∧
      ∀ t ∈ states, t.rank.isSome = true) ∧
    ∀ s : NodeRun, s.poll = .selecting → ¬ s.state.Frozen →
      ∃ t, ∃ published : List State, Runs.exec (NodeRun.step ov) s (pollSteps polls) = some t ∧
        t.published = s.published ++ published.map (Publication.mk .poll) ∧
        published.Pairwise State.Advances ∧ ∀ v ∈ published, v.rank.isSome = true := by
  have hadvance := states_advance hchain hpolls
  refine ⟨fun s hs => ?_, fun s hpoll hs => ?_⟩
  · exact ⟨_, pollStates_eq ov hpolls hs, List.length_map .., hadvance,
      fun t ht => states_ranked hchain hpolls ht⟩
  · obtain ⟨t, published, hexec, hpublished, hsub⟩ := polls_publish ov hpolls hpoll hs
    exact ⟨t, published, hexec, hpublished, hadvance.sublist hsub,
      fun v hv => states_ranked hchain hpolls (hsub.subset hv)⟩

section examples

/-- A sync whose filters are ahead of the blocks at first, and behind them in the end. -/
def wholeSync : List Heights :=
  [⟨0, 20, 0⟩, ⟨3, 20, 9⟩, ⟨9, 20, 9⟩, ⟨15, 20, 9⟩, ⟨18, 20, 18⟩, ⟨21, 20, 18⟩, ⟨21, 20, 30⟩]

theorem wholeSync_syncing : Syncing 20 wholeSync where
  chain := by decide
  range := by decide
  rising := by decide

theorem sync_progress_monotone_wholeSync :
    ∃ states, pollStates .panics .active wholeSync = some states ∧
      states.length = wholeSync.length ∧ states.Pairwise State.Advances ∧
      ∀ t ∈ states, t.rank.isSome = true :=
  (sync_progress_monotone .panics (by decide) wholeSync_syncing).1 .active id

end examples
end BdkFloresta
