import BdkFloresta.Library.Runs
import BdkFloresta.Node.Action
import Mathlib.Logic.Function.Basic

/-!
The set of in-flight actions under overlapping calls. The set is keyed by the
action's value while calls overlap freely, and a call whose future is dropped at
its await never reaches its `untrack_action`. Both laws a reader would expect of
the set therefore hold on exactly the runs that avoid these two situations.
-/

namespace BdkFloresta

/-- How far one call has come. A dropped call has tracked its action and will
never untrack it. -/
inductive CallPhase where
  | idle
  | tracked (op : Operation)
  | dropped (op : Operation)
  | returned
  deriving DecidableEq, Repr

structure ActionState where
  actions : Finset Action
  calls : Nat → CallPhase

namespace ActionState

def init : ActionState := ⟨∅, fun _ => .idle⟩

def trackAction (s : ActionState) (action : Action) : ActionState :=
  { s with actions := insert action s.actions }

def untrackAction (s : ActionState) (action : Action) : ActionState :=
  { s with actions := s.actions.erase action }

def getActions (s : ActionState) : Finset Action := s.actions

def setCall (s : ActionState) (i : Nat) (phase : CallPhase) : ActionState :=
  { s with calls := Function.update s.calls i phase }

@[simp] theorem setCall_actions (s : ActionState) (i : Nat) (phase : CallPhase) :
    (s.setCall i phase).actions = s.actions := rfl

@[simp] theorem setCall_self (s : ActionState) (i : Nat) (phase : CallPhase) :
    (s.setCall i phase).calls i = phase := by
  simp [setCall]

theorem setCall_of_ne (s : ActionState) {i j : Nat} (phase : CallPhase) (h : j ≠ i) :
    (s.setCall i phase).calls j = s.calls j := by
  simp [setCall, h]

end ActionState

/-- The atomic steps of the calls: track, untrack (on success and on error
alike), and the drop of a future at its await. -/
inductive CallStep where
  | start (i : Nat) (op : Operation)
  | finish (i : Nat)
  | drop (i : Nat)
  deriving DecidableEq, Repr

open ActionState

def ActionState.step (s : ActionState) : CallStep → Option ActionState
  | .start i op =>
      match s.calls i with
      | .idle => some ((s.trackAction op.action).setCall i (.tracked op))
      | _ => none
  | .finish i =>
      match s.calls i with
      | .tracked op => some ((s.untrackAction op.action).setCall i .returned)
      | _ => none
  | .drop i =>
      match s.calls i with
      | .tracked op => if op.awaits then some (s.setCall i (.dropped op)) else none
      | _ => none

/-- Everything a step can do, guards included. -/
theorem step_cases {s t : ActionState} {a : CallStep} (h : s.step a = some t) :
    (∃ i op, a = .start i op ∧ s.calls i = .idle ∧
      t = (s.trackAction op.action).setCall i (.tracked op)) ∨
    (∃ i op, a = .finish i ∧ s.calls i = .tracked op ∧
      t = (s.untrackAction op.action).setCall i .returned) ∨
    (∃ i op, a = .drop i ∧ s.calls i = .tracked op ∧ op.awaits = true ∧
      t = s.setCall i (.dropped op)) := by
  cases a with
  | start i op =>
      simp only [ActionState.step] at h
      split at h
      · exact .inl ⟨i, op, rfl, ‹_›, (Option.some.inj h).symm⟩
      · cases h
  | finish i =>
      simp only [ActionState.step] at h
      split at h
      · exact .inr (.inl ⟨i, _, rfl, ‹_›, (Option.some.inj h).symm⟩)
      · cases h
  | drop i =>
      simp only [ActionState.step] at h
      split at h
      · split at h
        · exact .inr (.inr ⟨i, _, rfl, ‹_›, ‹_›, (Option.some.inj h).symm⟩)
        · cases h
      · cases h

/-- Call `i` has executed its `track_action` and not its `untrack_action`. -/
def ActionState.Pending (s : ActionState) (i : Nat) (op : Operation) : Prop :=
  s.calls i = .tracked op ∨ s.calls i = .dropped op

/-- Every action some call has tracked and not untracked is in the set. -/
def ActionState.Complete (s : ActionState) : Prop :=
  ∀ i op, s.Pending i op → op.action ∈ s.getActions

/-- A finishing call leaves no other pending call with an equal action. -/
def FinishesAlone (s : ActionState) : CallStep → Prop
  | .finish i => ∀ op, s.calls i = .tracked op →
      ∀ j other, j ≠ i → s.Pending j other → other.action ≠ op.action
  | _ => True

theorem complete_start {s : ActionState} (h : s.Complete) (i : Nat) (op : Operation) :
    ((s.trackAction op.action).setCall i (.tracked op)).Complete := by
  intro j other hj
  by_cases hji : j = i
  · subst hji
    have : op = other := by simpa [ActionState.Pending] using hj
    simp [getActions, trackAction, this]
  · have hs : s.Pending j other := by
      simpa [ActionState.Pending, setCall_of_ne _ _ hji, trackAction] using hj
    exact Finset.mem_insert_of_mem (h j other hs)

theorem complete_finish_iff {s : ActionState} (h : s.Complete) {i : Nat}
    {op : Operation} (hi : s.calls i = .tracked op) :
    ((s.untrackAction op.action).setCall i .returned).Complete ↔
      FinishesAlone s (.finish i) := by
  have pending_iff (j : Nat) (other : Operation) (hji : j ≠ i) :
      ((s.untrackAction op.action).setCall i .returned).Pending j other ↔
        s.Pending j other := by
    simp [ActionState.Pending, setCall_of_ne _ _ hji, untrackAction]
  constructor
  · intro hc op' hi' j other hji hj
    obtain rfl : op = op' := by simpa [hi] using hi'
    exact (Finset.mem_erase.mp (hc j other ((pending_iff j other hji).mpr hj))).1
  · intro halone j other hj
    by_cases hji : j = i
    · subst hji
      simp [ActionState.Pending] at hj
    · have hs := (pending_iff j other hji).mp hj
      exact Finset.mem_erase.mpr ⟨halone op hi j other hji hs, h j other hs⟩

theorem complete_drop {s : ActionState} (h : s.Complete) {i : Nat} {op : Operation}
    (hi : s.calls i = .tracked op) : (s.setCall i (.dropped op)).Complete := by
  intro j other hj
  by_cases hji : j = i
  · subst hji
    have : op = other := by simpa [ActionState.Pending] using hj
    exact this ▸ h j op (.inl hi)
  · exact h j other (by simpa [ActionState.Pending, setCall_of_ne _ _ hji] using hj)

theorem complete_step_iff {s t : ActionState} {a : CallStep} (h : s.Complete)
    (hstep : s.step a = some t) : t.Complete ↔ FinishesAlone s a := by
  obtain ⟨i, op, rfl, -, rfl⟩ | ⟨i, op, rfl, hi, rfl⟩ | ⟨i, op, rfl, hi, -, rfl⟩ :=
    step_cases hstep
  · exact iff_of_true (complete_start h i op) True.intro
  · exact complete_finish_iff h hi
  · exact iff_of_true (complete_drop h hi) True.intro

/-- No in-flight action is missing from the set, in every state of a run,
exactly when no call of the run untracks an action that another pending call
still shares. -/
theorem actions_complete_iff (steps : List CallStep) :
    Runs.Always ActionState.step ActionState.Complete init steps ↔
      Runs.EachStep ActionState.step FinishesAlone init steps := by
  apply Runs.always_iff_eachStep (I := fun _ => True)
  · exact fun _ _ _ _ _ _ => True.intro
  · exact fun s a t _ hs ht => complete_step_iff hs ht
  · trivial
  · intro i op h
    simp [ActionState.Pending, init] at h

/-- Two fetches of one block overlap; the first to finish takes the second's
action out of the set. -/
theorem overlapping_fetches_lose_action :
    ∃ s, Runs.exec ActionState.step init
        [.start 0 (.fetchBlock 7), .start 1 (.fetchBlock 7), .finish 0] = some s ∧
      s.Pending 1 (.fetchBlock 7) ∧
      (Operation.fetchBlock 7).action ∉ s.getActions := by
  refine ⟨_, rfl, .inl ?_, ?_⟩ <;> decide

/-- Every action in the set was tracked by a call that is still live; in
particular the set is empty when no call is in flight. -/
def ActionState.Sound (s : ActionState) : Prop :=
  ((∀ i op, s.calls i ≠ .tracked op) → s.getActions = ∅) ∧
    ∀ a ∈ s.getActions, ∃ i op, s.calls i = .tracked op ∧ op.action = a

/-- A dropped future leaves no action behind: its action is out of the set
already, or another live call accounts for it. -/
def DropsCovered (s : ActionState) : CallStep → Prop
  | .drop i => ∀ op, s.calls i = .tracked op → op.action ∈ s.getActions →
      ∃ j other, j ≠ i ∧ s.calls j = .tracked other ∧ other.action = op.action
  | _ => True

theorem sound_of_owned {s : ActionState}
    (h : ∀ a ∈ s.getActions, ∃ i op, s.calls i = .tracked op ∧ op.action = a) :
    s.Sound := by
  refine ⟨fun hidle => ?_, h⟩
  apply Finset.eq_empty_of_forall_notMem
  intro a ha
  obtain ⟨i, op, hi, -⟩ := h a ha
  exact hidle i op hi

theorem sound_start {s : ActionState} (h : s.Sound) {i : Nat} (op : Operation)
    (hi : s.calls i = .idle) :
    ((s.trackAction op.action).setCall i (.tracked op)).Sound := by
  apply sound_of_owned
  intro a ha
  rcases Finset.mem_insert.mp ha with rfl | ha
  · exact ⟨i, op, setCall_self _ _ _, rfl⟩
  · obtain ⟨j, other, hj, hother⟩ := h.2 a ha
    have hji : j ≠ i := fun e => by rw [e, hi] at hj; cases hj
    exact ⟨j, other, (setCall_of_ne _ _ hji).trans hj, hother⟩

theorem sound_finish {s : ActionState} (h : s.Sound) {i : Nat} {op : Operation}
    (hi : s.calls i = .tracked op) :
    ((s.untrackAction op.action).setCall i .returned).Sound := by
  apply sound_of_owned
  intro a ha
  obtain ⟨hne, ha⟩ := Finset.mem_erase.mp ha
  obtain ⟨j, other, hj, hother⟩ := h.2 a ha
  have hji : j ≠ i := by
    rintro rfl
    obtain rfl : op = other := by simpa [hi] using hj
    exact hne hother.symm
  exact ⟨j, other, (setCall_of_ne _ _ hji).trans hj, hother⟩

theorem sound_drop_iff {s : ActionState} (h : s.Sound) {i : Nat} {op : Operation}
    (hi : s.calls i = .tracked op) :
    (s.setCall i (.dropped op)).Sound ↔ DropsCovered s (.drop i) := by
  constructor
  · intro hs op' hi' ha
    obtain rfl : op = op' := by simpa [hi] using hi'
    obtain ⟨j, other, hj, hother⟩ := hs.2 _ ha
    have hji : j ≠ i := fun e => by subst e; simp at hj
    exact ⟨j, other, hji, by rwa [setCall_of_ne _ _ hji] at hj, hother⟩
  · intro hcovered
    apply sound_of_owned
    intro a ha
    obtain ⟨j, other, hj, hother⟩ := h.2 a ha
    by_cases hji : j = i
    · subst hji
      obtain rfl : op = other := by simpa [hi] using hj
      obtain ⟨k, owner, hkj, hk, howner⟩ := hcovered op hi (hother ▸ ha)
      exact ⟨k, owner, (setCall_of_ne _ _ hkj).trans hk, howner.trans hother⟩
    · exact ⟨j, other, (setCall_of_ne _ _ hji).trans hj, hother⟩

theorem sound_step_iff {s t : ActionState} {a : CallStep} (h : s.Sound)
    (hstep : s.step a = some t) : t.Sound ↔ DropsCovered s a := by
  obtain ⟨i, op, rfl, hi, rfl⟩ | ⟨i, op, rfl, hi, rfl⟩ | ⟨i, op, rfl, hi, -, rfl⟩ :=
    step_cases hstep
  · exact iff_of_true (sound_start h op hi) True.intro
  · exact iff_of_true (sound_finish h hi) True.intro
  · exact sound_drop_iff h hi

/-- No finished or abandoned call leaves its action in the set, in every state
of a run, exactly when every future the run drops at its await has its action
out of the set already or shares it with another live call. -/
theorem actions_sound_iff (steps : List CallStep) :
    Runs.Always ActionState.step ActionState.Sound init steps ↔
      Runs.EachStep ActionState.step DropsCovered init steps := by
  apply Runs.always_iff_eachStep (I := fun _ => True)
  · exact fun _ _ _ _ _ _ => True.intro
  · exact fun s a t _ hs ht => sound_step_iff hs ht
  · trivial
  · exact sound_of_owned (fun a ha => by simp [getActions, init] at ha)

/-- A cancelled scan drops its `fetch_blocks` future: nothing is in flight and
the action stays. -/
theorem dropped_fetch_leaves_action :
    ∃ s, Runs.exec ActionState.step init
        [.start 0 (.fetchBlocks [4, 5]), .drop 0] = some s ∧
      (∀ i op, s.calls i ≠ .tracked op) ∧ s.getActions = {.fetchingBlocks 2} := by
  refine ⟨_, rfl, fun i op => ?_, by decide⟩
  by_cases hi : i = 0
  · subst hi
    simp
  · rw [setCall_of_ne _ _ hi]
    simp [trackAction, setCall_of_ne _ _ hi, init]

end BdkFloresta
