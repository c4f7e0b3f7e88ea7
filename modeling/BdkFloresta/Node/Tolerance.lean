import BdkFloresta.Node.Shutdown

/-!
The operational tolerance. The next-state function lets the chain tip be up to
six blocks above the validated height before it calls the node syncing, but the
filter height it compares next is clamped to the validated height. So an
operational node stays so exactly while no header is ahead of its block.
-/

namespace BdkFloresta

/-- What one poll reads. -/
structure Heights where
  node : Nat
  chain : Nat
  filter : Nat
  deriving DecidableEq, Repr

namespace Heights

/-- The chain tip is within the tolerance of the validated height, and the filters
keep up with it. -/
def Tolerated (h : Heights) : Prop :=
  1 ≤ h.node ∧ h.node ≤ h.chain ∧ h.chain ≤ h.node + operationalTolerance ∧
    h.node ≤ h.filter

/-- No header is ahead of its block, and the tolerance can be added. -/
def Level (h : Heights) : Prop :=
  h.chain = h.node ∧ h.node + operationalTolerance ≤ u32Max

end Heights

/-- Within the tolerance the next state is `Operational` exactly if the heights are
level. -/
theorem computeNextState_tolerated_iff (ov : Overflow) {s : State} (hs : ¬ s.Frozen)
    {h : Heights} (htolerated : h.Tolerated) :
    computeNextState ov true s h.node h.chain h.filter = some .operational ↔ h.Level := by
  obtain ⟨hpos, hle, hnear, hfilter⟩ := htolerated
  rw [computeNextState_of_running hs]
  have hstarted : ¬ (h.node = 0 ∧ h.chain > 0) := by omega
  have hclamped : (if h.filter > h.node then h.node else h.filter) = h.node := by
    split <;> omega
  simp only [computeNextState, hclamped, Bool.not_true, Bool.false_eq_true, if_false,
    hstarted, Heights.Level, Overflow.add]
  by_cases hfits : h.node + operationalTolerance ≤ u32Max
  · have hsyncing : ¬ h.node + operationalTolerance < h.chain := by omega
    simp only [hfits, if_true, Option.map_some, hsyncing, if_false, and_true]
    by_cases hlevel : h.chain = h.node
    · simp [hlevel, show 0 < h.node from hpos]
    · have hbehind : h.node < h.chain := by omega
      simp [hbehind, hlevel]
  · simp only [hfits, if_false, and_false, iff_false]
    cases ov with
    | panics => simp
    | wraps =>
        have hsyncing : (h.node + operationalTolerance) % (u32Max + 1) < h.chain := by
          simp only [operationalTolerance, u32Max] at hfits ⊢
          omega
        simp [hsyncing]

/-- The steps of polls that find the wire ready and read the heights. -/
def pollSteps (polls : List Heights) : List NodeStep :=
  polls.flatMap fun h => [.pollWake, .pollPublish true h.node h.chain h.filter]

def NodeRun.StaysOperational (s : NodeRun) : Prop :=
  s.state = .operational ∧ s.poll ≠ .ended

theorem pollPublish_operational (ov : Overflow) {s : NodeRun} (hs : s.state = .operational)
    (h : Heights) :
    (computeNextState ov true s.state h.node h.chain h.filter = some .operational ∧
      s.pollPublish ov true h.node h.chain h.filter = { s with poll := .selecting }) ∨
    (computeNextState ov true s.state h.node h.chain h.filter ≠ some .operational ∧
      ¬ (s.pollPublish ov true h.node h.chain h.filter).StaysOperational) := by
  have hrunning : s.state ≠ .shuttingDown := by rw [hs]; nofun
  rw [NodeRun.pollPublish, if_neg hrunning]
  cases hnext : computeNextState ov true s.state h.node h.chain h.filter with
  | none => exact .inr ⟨nofun, fun hstays => hstays.2 rfl⟩
  | some next =>
      by_cases hsame : s.state = next
      · exact .inl ⟨congrArg some (hsame.symm.trans hs), if_pos hsame⟩
      · have hpublished : next ≠ .operational := fun heq => hsame (hs.trans heq.symm)
        refine .inr ⟨fun heq => hpublished (Option.some.inj heq), ?_⟩
        simp only [if_neg hsame]
        exact fun hstays => hpublished hstays.1

/-- Over polls within the tolerance, an operational node stays so exactly if the
heights are level at every poll. -/
theorem polls_stay_operational_iff (ov : Overflow) {polls : List Heights}
    (htolerated : ∀ h ∈ polls, h.Tolerated) {s : NodeRun} (hs : s.state = .operational)
    (hpoll : s.poll = .selecting) :
    Runs.Always (NodeRun.step ov) NodeRun.StaysOperational s (pollSteps polls) ↔
      ∀ h ∈ polls, h.Level := by
  induction polls generalizing s with
  | nil => exact iff_of_true ⟨hs, by rw [hpoll]; nofun⟩ nofun
  | cons h rest ih =>
      have hrest := fun h' hmem => htolerated h' (List.mem_cons_of_mem h hmem)
      have hnow := computeNextState_tolerated_iff ov (s := s.state) (by rw [hs]; exact id)
        (htolerated h (List.mem_cons_self ..))
      -- the poll wakes up, then publishes
      have hwoken : Runs.Always (NodeRun.step ov) NodeRun.StaysOperational s
          (pollSteps (h :: rest)) ↔
          Runs.Always (NodeRun.step ov) NodeRun.StaysOperational
            (({ s with poll := .polling } : NodeRun).pollPublish ov true h.node h.chain h.filter)
            (pollSteps rest) := by
        constructor
        · intro hall
          obtain ⟨-, hall⟩ := hall
          obtain ⟨-, hall⟩ := hall _ (Runs.enabled_eq_some.mpr ⟨hpoll, rfl⟩)
          exact hall _ (Runs.enabled_eq_some.mpr ⟨rfl, rfl⟩)
        · intro hall
          refine ⟨⟨hs, by rw [hpoll]; nofun⟩, fun t ht => ?_⟩
          obtain ⟨-, rfl⟩ := Runs.enabled_eq_some.mp ht
          refine ⟨⟨hs, nofun⟩, fun u hu => ?_⟩
          obtain ⟨-, rfl⟩ := Runs.enabled_eq_some.mp hu
          exact hall
      rw [hwoken, List.forall_mem_cons, ← hnow]
      rcases pollPublish_operational ov (s := { s with poll := .polling }) hs h with
        ⟨hstays, heq⟩ | ⟨hleaves, hnot⟩
      · rw [heq, and_iff_right hstays]
        exact ih hrest hs rfl
      · exact iff_of_false (fun hall => hnot hall.head) fun hlevel => hleaves hlevel.1

/-- The tolerance is honoured exactly where it is not needed: from a state whose
logic is the poll's, and along any polls of an operational node. -/
theorem tolerance_honoured_iff (ov : Overflow) :
    (∀ (s : State) (h : Heights), ¬ s.Frozen → h.Tolerated →
      (computeNextState ov true s h.node h.chain h.filter = some .operational ↔ h.Level)) ∧
    ∀ (s : NodeRun) (polls : List Heights), s.state = .operational → s.poll = .selecting →
      (∀ h ∈ polls, h.Tolerated) →
      (Runs.Always (NodeRun.step ov) NodeRun.StaysOperational s (pollSteps polls) ↔
        ∀ h ∈ polls, h.Level) :=
  ⟨fun _ _ hs h => computeNextState_tolerated_iff ov hs h,
    fun _ _ hs hpoll h => polls_stay_operational_iff ov h hs hpoll⟩

section examples

/-- An operational node at height 100 whose header tip has just become 101. -/
def newHeader : Heights := ⟨100, 101, 100⟩

/-- The node of a poll that has found all heights level so far. -/
def levelNode : NodeRun :=
  { NodeRun.built with state := .operational, poll := .selecting }

theorem tolerance_honoured_iff_level :
    (computeNextState .panics true .operational 100 100 100 = some .operational ↔
      Heights.Level ⟨100, 100, 100⟩) ∧
    (Runs.Always (NodeRun.step .panics) NodeRun.StaysOperational levelNode
      (pollSteps [newHeader]) ↔ ∀ h ∈ [newHeader], h.Level) :=
  ⟨(tolerance_honoured_iff .panics).1 .operational ⟨100, 100, 100⟩ id
      (by simp [Heights.Tolerated, operationalTolerance]),
    (tolerance_honoured_iff .panics).2 levelNode [newHeader] rfl rfl
      (by simp [newHeader, Heights.Tolerated, operationalTolerance])⟩

/-- One new header is tolerated, and takes the node out of `Operational`. -/
theorem newHeader_not_operational : newHeader.Tolerated ∧
    ∀ ov, computeNextState ov true .operational newHeader.node newHeader.chain
      newHeader.filter = some (.compactBlockFilterDownload 100) := by
  refine ⟨by simp [newHeader, Heights.Tolerated, operationalTolerance], fun ov => ?_⟩
  cases ov <;> rfl

end examples
end BdkFloresta
