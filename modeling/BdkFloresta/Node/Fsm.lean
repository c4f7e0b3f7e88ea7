import Mathlib.Data.Nat.Basic
import Mathlib.Tactic.SplitIfs

/-!
The node's states and the next-state function of its status poll. Heights are
`u32` values read as natural numbers; the one sum that can leave the range is
taken in the arithmetic of the build, which either panics or wraps.
-/

namespace BdkFloresta

/-- The set of states the node can be in. -/
inductive State where
  | inactive
  | active
  | dnsBootstrapping
  | headerSync (height : Nat)
  | initialBlockDownload (chainHeight nodeHeight : Nat)
  | compactBlockFilterDownload (filterHeight : Nat)
  | backfill
  | operational
  | shuttingDown
  deriving DecidableEq, Repr

def State.display : State → String
  | .inactive => "Inactive"
  | .active => "Active"
  | .dnsBootstrapping => "Address Manager Bootstrap"
  | .headerSync height => s!"Header Sync at height={height}"
  | .initialBlockDownload chainHeight nodeHeight =>
      s!"IBD at chain_height={chainHeight} and node_height={nodeHeight}"
  | .compactBlockFilterDownload filterHeight =>
      s!"CBF Download at filter_height={filterHeight}"
  | .backfill => "Backfilling"
  | .operational => "Operational"
  | .shuttingDown => "Shutting Down"

def u32Max : Nat := 4294967295

/-- What `u32` addition does past the end of the range: a debug build panics,
a release build wraps. -/
inductive Overflow where
  | panics
  | wraps
  deriving DecidableEq, Repr

/-- `a + b` on `u32`; `none` is the panic. -/
def Overflow.add (ov : Overflow) (a b : Nat) : Option Nat :=
  if a + b ≤ u32Max then some (a + b)
  else match ov with
    | .panics => none
    | .wraps => some ((a + b) % (u32Max + 1))

def operationalTolerance : Nat := 6

/-- `compute_next_state`; `none` when the tolerance sum panics. -/
def computeNextState (ov : Overflow) (wireReady : Bool) (currentState : State)
    (nodeHeight chainHeight filterHeight : Nat) : Option State :=
  -- the filter tip should not be greater than the node's tip
  let filterHeight := if filterHeight > nodeHeight then nodeHeight else filterHeight
  match currentState with
  | .shuttingDown | .inactive | .dnsBootstrapping | .backfill => some currentState
  | _ =>
      if !wireReady then some .active
      else if nodeHeight = 0 ∧ chainHeight > 0 then some (.headerSync chainHeight)
      else
        (ov.add nodeHeight operationalTolerance).map fun tolerated =>
          if tolerated < chainHeight then .initialBlockDownload chainHeight nodeHeight
          else if filterHeight < chainHeight then .compactBlockFilterDownload filterHeight
          else if nodeHeight > 0 then .operational
          else .active

/-- The states whose next-state logic is handled outside the poll. -/
def State.Frozen : State → Prop
  | .shuttingDown | .inactive | .dnsBootstrapping | .backfill => True
  | _ => False

theorem computeNextState_frozen {s : State} (h : s.Frozen) (ov : Overflow)
    (wireReady : Bool) (nodeHeight chainHeight filterHeight : Nat) :
    computeNextState ov wireReady s nodeHeight chainHeight filterHeight = some s := by
  cases s <;> first | rfl | exact h.elim

/-- The current state matters only through being frozen. -/
theorem computeNextState_of_running {s : State} (h : ¬ s.Frozen) (ov : Overflow)
    (wireReady : Bool) (nodeHeight chainHeight filterHeight : Nat) :
    computeNextState ov wireReady s nodeHeight chainHeight filterHeight =
      computeNextState ov wireReady .active nodeHeight chainHeight filterHeight := by
  cases s <;> first | rfl | exact (h True.intro).elim

theorem computeNextState_running {s t : State} (h : ¬ s.Frozen) {ov : Overflow}
    {wireReady : Bool} {nodeHeight chainHeight filterHeight : Nat}
    (hnext : computeNextState ov wireReady s nodeHeight chainHeight filterHeight = some t) :
    ¬ t.Frozen := by
  rw [computeNextState_of_running h] at hnext
  simp only [computeNextState] at hnext
  split at hnext
  · obtain rfl := Option.some.inj hnext
    exact id
  · split at hnext
    · obtain rfl := Option.some.inj hnext
      exact id
    · obtain ⟨tolerated, -, rfl⟩ := Option.map_eq_some_iff.mp hnext
      split_ifs <;> exact id

end BdkFloresta
