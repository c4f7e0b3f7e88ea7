import BdkFloresta.Library.Progress
import BdkFloresta.Node.Unblocked
import Mathlib.Data.List.Basic

/-!
The mutex of the shutdown task's handle with its wait queue. tokio's mutex is fair: a
request joins the end of the queue when it is first polled, the free mutex goes to the
first one in it, and a request that is dropped leaves it. Nobody overtakes a request that
is in the queue, so a call of `shutdown` waits for the requests ahead of it, for the one
call among them that finds the handle and for the task. A run with the queue is a run of
the node in which the mutex goes to any request, and what holds of those holds here.
-/

namespace BdkFloresta

/-- Who requests the mutex: `run`, to store the handle, or a call of `shutdown`. -/
inductive Waiter where
  | run
  | call (i : Nat)
  deriving DecidableEq, Repr

/-- The request has been made and not been served. -/
def Waiter.Asks (s : NodeRun) : Waiter → Prop
  | .run => s.run = .spawnedShutdown
  | .call i => s.callers i = .locking

instance (s : NodeRun) : (w : Waiter) → Decidable (w.Asks s)
  | .run => inferInstanceAs (Decidable (_ = _))
  | .call _ => inferInstanceAs (Decidable (_ = _))

/-- The request the step is the turn of. -/
def NodeStep.turn : NodeStep → Option Waiter
  | .runStoreHandle => some .run
  | .callLock i => some (.call i)
  | _ => none

/-- The request that leaves the queue with the step. -/
def NodeStep.leaves : NodeStep → Option Waiter
  | .callDrop i => some (.call i)
  | a => a.turn

theorem NodeStep.leaves_of_turn {a : NodeStep} {w : Waiter} (h : a.turn = some w) :
    a.leaves = some w := by
  cases a with
  | callDrop i => cases h
  | _ => exact h

structure FifoRun where
  node : NodeRun
  /-- The requests that have been polled, the first one first. -/
  waiting : List Waiter

inductive FifoStep where
  | node (a : NodeStep)
  /-- A request is polled for the first time. -/
  | join (w : Waiter)
  deriving DecidableEq, Repr

namespace FifoRun
open Runs (enabled)

def built : FifoRun := ⟨.built, []⟩

def step (ov : Overflow) (s : FifoRun) : FifoStep → Option FifoRun
  | .join w => enabled (w.Asks s.node ∧ w ∉ s.waiting) { s with waiting := s.waiting ++ [w] }
  | .node a =>
      if a.turn = none ∨ a.turn = s.waiting.head? then
        (s.node.step ov a).map fun node =>
          ⟨node, s.waiting.filter fun w => a.leaves ≠ some w⟩
      else none

variable {ov : Overflow} {s t : FifoRun}

theorem step_node {a : NodeStep} (h : s.step ov (.node a) = some t) :
    (a.turn = none ∨ a.turn = s.waiting.head?) ∧ s.node.step ov a = some t.node ∧
      t.waiting = s.waiting.filter fun w => a.leaves ≠ some w := by
  simp only [step] at h
  split at h
  next hturn =>
    obtain ⟨node, hnode, rfl⟩ := Option.map_eq_some_iff.mp h
    exact ⟨hturn, hnode, rfl⟩
  · cases h

theorem node_step {a : NodeStep} {node : NodeRun}
    (hturn : a.turn = none ∨ a.turn = s.waiting.head?) (h : s.node.step ov a = some node) :
    s.step ov (.node a) = some ⟨node, s.waiting.filter fun w => a.leaves ≠ some w⟩ := by
  rw [step, if_pos hturn, h]
  rfl

/-- Forgetting the queue, a run is one of the node. -/
theorem reached_node {as : List FifoStep} (h : Runs.exec (step ov) built as = some s) :
    ∃ bs, Runs.exec (NodeRun.step ov) .built bs = some s.node := by
  refine Runs.exec_invariant
    (I := fun s => ∃ bs, Runs.exec (NodeRun.step ov) .built bs = some s.node)
    (fun s a t hs hstep => ?_) ⟨[], rfl⟩ h
  cases a with
  | join w =>
      obtain ⟨-, rfl⟩ := Runs.enabled_eq_some.mp hstep
      exact hs
  | node a =>
      obtain ⟨bs, hbs⟩ := hs
      obtain ⟨-, hnode, -⟩ := step_node hstep
      exact ⟨bs ++ [a], Runs.exec_append hbs (by simp [Runs.exec, hnode])⟩

section asks
variable {node node' : NodeRun} {a : NodeStep} {w : Waiter}

theorem run_stays (hpc : node.run = .spawnedShutdown) (hstays : a ≠ .runStoreHandle)
    (h : node.step ov a = some node') : node'.run = .spawnedShutdown := by
  cases a with
  | pollPublish wireReady nodeTip chainTip filterTip =>
      obtain ⟨-, rfl⟩ := Runs.enabled_eq_some.mp h
      obtain ⟨state, published, poll, heq, -⟩ :=
        node.pollPublish_frame ov wireReady nodeTip chainTip filterTip
      rw [heq]
      exact hpc
  | runStoreHandle => exact absurd rfl hstays
  | runTakeInner | runSetStartedAt | runSpawnNode | runSpawnPoll | runSpawnShutdown
  | runPublishActive =>
      obtain ⟨hother, -⟩ := Runs.enabled_eq_some.mp h
      cases hpc.symm.trans hother
  | callLock i =>
      obtain ⟨-, rfl⟩ := Runs.enabled_eq_some.mp h
      split <;> exact hpc
  | _ =>
      obtain ⟨-, rfl⟩ := Runs.enabled_eq_some.mp h
      exact hpc

/-- A request is there until its own step. -/
theorem asks_kept (hasks : w.Asks node) (hstays : a.leaves ≠ some w)
    (h : node.step ov a = some node') : w.Asks node' := by
  cases w with
  | run => exact run_stays hasks (fun ha => hstays (by rw [ha]; rfl)) h
  | call i =>
      have hmove := NodeRun.call_moves i h
      rw [show node.callers i = .locking from hasks] at hmove
      change node'.callers i = .locking
      generalize node'.callers i = pc' at hmove ⊢
      cases hmove with
      | stays => rfl
      | lock ha => exact absurd (by rw [ha]; rfl) hstays
      | drop ha => exact absurd (by rw [ha]; rfl) hstays

/-- A request of a free mutex can be served. -/
theorem serve (ov : Overflow) (hasks : w.Asks node) (hfree : node.shutdownLock = none) :
    ∃ a node', a.turn = some w ∧ node.step ov a = some node' := by
  cases w with
  | run =>
      exact ⟨.runStoreHandle, _, rfl, Runs.enabled_eq_some.mpr ⟨⟨hasks, hfree⟩, rfl⟩⟩
  | call i => exact ⟨.callLock i, _, rfl, Runs.enabled_eq_some.mpr ⟨⟨hasks, hfree⟩, rfl⟩⟩

/-- Nobody has a turn while the mutex is held. -/
theorem no_turn_of_held {i : Nat} (hlock : node.shutdownLock = some i)
    (h : node.step ov a = some node') : a.turn = none := by
  cases a with
  | runStoreHandle | callLock j =>
      have hfree := (Runs.enabled_eq_some.mp h).1.2
      cases hlock.symm.trans hfree
  | _ => rfl

end asks

/-- The queue holds requests that are there. -/
def Lined (s : FifoRun) : Prop := ∀ w ∈ s.waiting, w.Asks s.node

/-- The first request in the queue of a free mutex has its turn. -/
theorem Lined.serves_head (hs : s.Lined) (ov : Overflow) (hfree : s.node.shutdownLock = none)
    {v : Waiter} (hv : v ∈ s.waiting) : ∃ a w node, s.waiting.head? = some w ∧
      a.turn = some w ∧ s.node.step ov a = some node := by
  cases hqueue : s.waiting with
  | nil => simp [hqueue] at hv
  | cons w rest =>
      obtain ⟨a, node, hturn, hnode⟩ :=
        serve ov (hs w (hqueue ▸ List.mem_cons_self ..)) hfree
      exact ⟨a, w, node, rfl, hturn, hnode⟩

theorem lined_step {a : FifoStep} (hs : s.Lined) (h : s.step ov a = some t) : t.Lined := by
  cases a with
  | join w =>
      obtain ⟨⟨hasks, -⟩, rfl⟩ := Runs.enabled_eq_some.mp h
      intro v hv
      rcases List.mem_append.mp hv with hv | hv
      · exact hs v hv
      · exact List.mem_singleton.mp hv ▸ hasks
  | node a =>
      obtain ⟨-, hnode, hwaiting⟩ := step_node h
      intro w hw
      obtain ⟨hold, hstays⟩ := List.mem_filter.mp (hwaiting ▸ hw)
      exact asks_kept (hs w hold) (of_decide_eq_true hstays) hnode

section place
variable {waiting : List Waiter} {v w : Waiter} {p : Waiter → Bool}

/-- Requests ahead may leave the queue, and none gets ahead. -/
theorem idxOf_filter_le (hw : p w = true) : (waiting.filter p).idxOf w ≤ waiting.idxOf w := by
  induction waiting with
  | nil => exact Nat.le_refl _
  | cons v rest ih =>
      by_cases hvw : v = w
      · subst hvw
        rw [List.filter_cons_of_pos hw, List.idxOf_cons_self, List.idxOf_cons_self]
      rw [List.idxOf_cons_ne _ hvw]
      by_cases hv : p v = true
      · rw [List.filter_cons_of_pos hv, List.idxOf_cons_ne _ hvw]
        exact Nat.succ_le_succ ih
      · rw [List.filter_cons_of_neg hv]
        exact Nat.le_succ_of_le ih

theorem idxOf_filter_lt (hhead : waiting.head? = some v) (hv : p v = false) (hw : p w = true) :
    (waiting.filter p).idxOf w < waiting.idxOf w := by
  cases waiting with
  | nil => cases hhead
  | cons u rest =>
      obtain rfl := Option.some.inj hhead
      have hvw : u ≠ w := fun heq => by
        rw [heq, hw] at hv
        cases hv
      rw [List.filter_cons_of_neg (by simp [hv]), List.idxOf_cons_ne _ hvw]
      exact Nat.lt_succ_of_le (idxOf_filter_le hw)

end place

/-- The place of call `i` in the queue, the end of it before it has joined. -/
def place (s : FifoRun) (i : Nat) : Nat := s.waiting.idxOf (.call i)

/-- The requests ahead of call `i`. -/
def ahead (s : FifoRun) (i : Nat) : Nat :=
  if s.node.callers i = .locking then s.place i else 0

/-- What stands between call `i` and its return. -/
def pending (s : FifoRun) (i : Nat) : Nat :=
  s.node.working + if s.node.callers i = .locking then s.place i + 1 else 0

/-- Call `i` has been made, and its request is in the queue unless it has been served. -/
def InLine (i : Nat) (s : FifoRun) : Prop :=
  s.node.callers i ≠ .idle ∧ (s.node.callers i = .locking → .call i ∈ s.waiting)

end FifoRun

/-- A step of the shutdown task, of the call that has the mutex, or one with which a request
takes the mutex. -/
def FifoStep.Serves : FifoStep → Prop
  | .node a => a.Works ∨ a.turn ≠ none
  | .join _ => False

instance : DecidablePred FifoStep.Serves
  | .node a => inferInstanceAs (Decidable (a.Works ∨ a.turn ≠ none))
  | .join _ => isFalse id

namespace FifoRun
variable {ov : Overflow} {s t : FifoRun}

/-- The call has come to its end. -/
def Over (i : Nat) (s : FifoRun) : Prop :=
  s.node.callers i = .returned ∨ s.node.callers i = .dropped

theorem waits_of_not_over {i : Nat} (hi : s.node.callers i ≠ .idle) (h : ¬ s.Over i) :
    s.node.callers i = .locking ∨ s.node.callers i = .awaiting := by
  cases hpc : s.node.callers i with
  | idle => exact absurd hpc hi
  | locking => exact .inl rfl
  | awaiting => exact .inr rfl
  | returned => exact absurd (.inl hpc) h
  | dropped => exact absurd (.inr hpc) h

theorem over_step {i : Nat} {a : FifoStep} (hs : s.Over i) (h : s.step ov a = some t) :
    t.Over i := by
  cases a with
  | join w =>
      obtain ⟨-, rfl⟩ := Runs.enabled_eq_some.mp h
      exact hs
  | node a =>
      obtain ⟨-, hnode, -⟩ := step_node h
      have hmove := NodeRun.call_moves i hnode
      unfold Over at hs ⊢
      generalize s.node.callers i = pc at hs hmove
      generalize t.node.callers i = pc' at hmove ⊢
      cases hmove with
      | stays => exact hs
      | drop => exact .inr rfl
      | cancel | lock | join => simp at hs

theorem inLine_step {i : Nat} {a : FifoStep} (hs : s.InLine i) (h : s.step ov a = some t) :
    t.InLine i := by
  cases a with
  | join w =>
      obtain ⟨-, rfl⟩ := Runs.enabled_eq_some.mp h
      exact ⟨hs.1, fun hpc => List.mem_append_left _ (hs.2 hpc)⟩
  | node a =>
      obtain ⟨-, hnode, hwaiting⟩ := step_node h
      have hmove := NodeRun.call_moves i hnode
      obtain ⟨hcalled, hqueued⟩ := hs
      unfold InLine
      generalize s.node.callers i = pc at hcalled hqueued hmove
      generalize t.node.callers i = pc' at hmove ⊢
      cases hmove with
      | stays hlock hdrop =>
          refine ⟨hcalled, fun hpc => ?_⟩
          rw [hwaiting]
          refine List.mem_filter.mpr ⟨hqueued hpc, decide_eq_true fun hleaves => ?_⟩
          cases a <;> simp_all [NodeStep.leaves, NodeStep.turn]
      | cancel => exact absurd rfl hcalled
      | lock _ hpc => rcases hpc with rfl | rfl <;> simp
      | join | drop => simp

/-- No step puts anything in the way of a call in the queue, and a step that serves it takes
one thing out of it. -/
theorem pending_step {i : Nat} {a : FifoStep} (hs : NodeRun.Queued s.node) (hi : s.InLine i)
    (hwaits : ¬ s.Over i) (h : s.step ov a = some t) :
    t.pending i ≤ s.pending i ∧ (a.Serves → t.pending i < s.pending i) := by
  cases a with
  | join w =>
      obtain ⟨-, rfl⟩ := Runs.enabled_eq_some.mp h
      refine ⟨?_, False.elim⟩
      unfold pending
      split
      next hpc =>
        simp only [place, List.idxOf_append_of_mem (hi.2 hpc)]
        exact Nat.le_refl _
      · exact Nat.le_refl _
  | node a =>
      obtain ⟨hturn, hnode, hwaiting⟩ := step_node h
      obtain ⟨hle, hlt⟩ := NodeRun.working_step hs hnode
      have hmove := NodeRun.call_moves i hnode
      simp only [pending, FifoStep.Serves]
      rcases waits_of_not_over hi.1 hwaits with hpc | hpc
      · -- in the queue: whoever has a turn is ahead of the call, or is the call
        rw [hpc] at hmove ⊢
        generalize t.node.callers i = pc' at hmove ⊢
        cases hmove with
        | stays hlock hdrop =>
            have hstays : decide (a.leaves ≠ some (.call i)) = true := by
              refine decide_eq_true fun hleaves => ?_
              cases a <;> simp_all [NodeStep.leaves, NodeStep.turn]
            have hplace : t.place i ≤ s.place i := by
              rw [place, hwaiting]
              exact idxOf_filter_le hstays
            simp only [if_true]
            refine ⟨by omega, fun hserves => ?_⟩
            rcases hserves with hworks | htakes
            · have := hlt hworks
              omega
            · obtain ⟨w, hw⟩ := Option.ne_none_iff_exists'.mp htakes
              have hhead : s.waiting.head? = some w := by
                rw [← hturn.resolve_left htakes, hw]
              have hfewer : t.place i < s.place i := by
                rw [place, hwaiting]
                exact idxOf_filter_lt hhead (by simp [NodeStep.leaves_of_turn hw]) hstays
              omega
        | lock _ hpc' =>
            rcases hpc' with rfl | rfl <;> simp only [if_true, reduceCtorEq, if_false] <;> omega
        | drop =>
            simp only [if_true, reduceCtorEq, if_false]
            omega
      · -- with the mutex: no request has its turn
        have hlock := (hs.holder i).mpr hpc
        have hunserved := no_turn_of_held hlock hnode
        rw [hpc] at hmove ⊢
        have hafter : t.node.callers i ≠ .locking := by
          generalize t.node.callers i = pc' at hmove
          cases hmove <;> simp
        simp only [if_neg hafter, reduceCtorEq, if_false, hunserved, ne_eq, not_true_eq_false,
          or_false]
        exact ⟨hle, hlt⟩

/-- The first request in the queue or the holder of the mutex can go on. -/
theorem serves_enabled (ov : Overflow) (hs : NodeRun.Queued s.node) (hlined : s.Lined) {i : Nat}
    (hi : s.InLine i) (hwaits : ¬ s.Over i) : ∃ a t, a.Serves ∧ s.step ov a = some t := by
  cases hlock : s.node.shutdownLock with
  | some j =>
      obtain ⟨a, node, hworks, hnode⟩ := hs.works ov hlock
      exact ⟨.node a, _, .inl hworks, node_step (.inl (no_turn_of_held hlock hnode)) hnode⟩
  | none =>
      have hpc : s.node.callers i = .locking := by
        refine (waits_of_not_over hi.1 hwaits).resolve_right fun hpc => ?_
        exact absurd ((hs.holder i).mpr hpc) (by simp [hlock])
      obtain ⟨a, w, node, hhead, hturn, hnode⟩ := hlined.serves_head ov hlock (hi.2 hpc)
      exact ⟨.node a, _, .inr (by simp [hturn]), node_step (.inr (hturn.trans hhead.symm)) hnode⟩

theorem queued_step {a : FifoStep} (hs : NodeRun.Queued s.node) (h : s.step ov a = some t) :
    NodeRun.Queued t.node := by
  cases a with
  | join w =>
      obtain ⟨-, rfl⟩ := Runs.enabled_eq_some.mp h
      exact hs
  | node a => exact NodeRun.queued_step hs (step_node h).2.1

/-- A call in the queue is let through by the task and the requests ahead of it. -/
theorem serves_drains (ov : Overflow) (i : Nat) : Runs.Drains (step ov) FifoStep.Serves
    (fun s => NodeRun.Queued s.node ∧ s.Lined ∧ s.InLine i) (Over i) (fun s => s.pending i) where
  keeps _ _ _ hs h := ⟨queued_step hs.1 h, lined_step hs.2.1 h, inLine_step hs.2.2 h⟩
  spends _ _ _ hs hwaits hserves h := (pending_step hs.1 hs.2.2 hwaits h).2 hserves
  enabled _ hs hwaits := serves_enabled ov hs.1 hs.2.1 hs.2.2 hwaits

theorem pending_le (hs : NodeRun.Queued s.node) (i : Nat) : s.pending i ≤ s.ahead i + 11 := by
  have hworking := hs.working_le
  unfold pending ahead
  split <;> omega

/-- The steps that serve a call do not drop it. -/
theorem undropped_step {i : Nat} {a : FifoStep} (hs : s.node.callers i ≠ .dropped)
    (hserves : a.Serves) (h : s.step ov a = some t) : t.node.callers i ≠ .dropped := by
  cases a with
  | join w => exact hserves.elim
  | node a =>
      have hmove := NodeRun.call_moves i (step_node h).2.1
      generalize s.node.callers i = pc at hs hmove
      generalize t.node.callers i = pc' at hmove ⊢
      cases hmove with
      | stays => exact hs
      | cancel | join => simp
      | lock _ hpc => rcases hpc with rfl | rfl <;> simp
      | drop ha =>
          subst ha
          simp [FifoStep.Serves, NodeStep.Works, NodeStep.turn] at hserves

end FifoRun

/-- A step with which `run` goes on, or a request takes the mutex. -/
def FifoStep.OfRun : FifoStep → Prop
  | .node a => a.OfRun ∨ a.turn ≠ none
  | .join w => w = .run

namespace FifoRun
variable {ov : Overflow} {s t : FifoRun}

/-- The steps before `run` returns. -/
def runPending (s : FifoRun) : Nat :=
  match s.node.run with
  | .start => s.waiting.length + 8
  | .tookInner => s.waiting.length + 7
  | .setStartedAt => s.waiting.length + 6
  | .spawnedNode => s.waiting.length + 5
  | .spawnedPoll => s.waiting.length + 4
  | .spawnedShutdown =>
      if .run ∈ s.waiting then s.waiting.idxOf .run + 2 else s.waiting.length + 3
  | .storedHandle => 1
  | .returned | .alreadyRunning => 0

theorem runPending_le (s : FifoRun) : s.runPending ≤ s.waiting.length + 8 := by
  unfold runPending
  split
  case h_6 =>
    split
    next hqueued =>
      have hlt := List.idxOf_lt_length_of_mem hqueued
      omega
    · omega
  all_goals omega

/-- A step of `run` that does not need the mutex. -/
theorem run_goes {a : NodeStep} {node : NodeRun} (hown : a.OfRun) (hleaves : a.leaves = none)
    (h : s.node.step ov a = some node)
    (hless : runPending ⟨node, s.waiting⟩ < s.runPending) :
    ∃ a t, a.OfRun ∧ s.step ov a = some t ∧ t.runPending < s.runPending := by
  have hturn : a.turn = none := by
    by_contra hturn
    obtain ⟨w, hw⟩ := Option.ne_none_iff_exists'.mp hturn
    cases hleaves.symm.trans (NodeStep.leaves_of_turn hw)
  refine ⟨.node a, _, .inl hown, node_step (.inl hturn) h, ?_⟩
  simpa [hleaves] using hless

/-- With its request in the queue of a free mutex the first one's turn is a step on. -/
theorem run_served (ov : Overflow) (hlined : s.Lined) (hpc : s.node.run = .spawnedShutdown)
    (hfree : s.node.shutdownLock = none) (hqueued : .run ∈ s.waiting) :
    ∃ a t, a.OfRun ∧ s.step ov a = some t ∧ t.runPending < s.runPending := by
  obtain ⟨a, w, node, hhead, hturn, hnode⟩ := hlined.serves_head ov hfree hqueued
  refine ⟨.node a, _, .inr (by simp [hturn]), node_step (.inr (hturn.trans hhead.symm)) hnode, ?_⟩
  by_cases hrun : w = .run
  · subst hrun
    cases a with
    | runStoreHandle =>
        obtain ⟨-, rfl⟩ := Runs.enabled_eq_some.mp hnode
        simp [runPending, hpc, hqueued]
    | _ => cases hturn
  · -- another request is served, and `run` is one place further
    have hleaves := NodeStep.leaves_of_turn hturn
    have hother : a ≠ .runStoreHandle := by
      rintro rfl
      exact hrun (Option.some.inj hturn).symm
    have hstays := run_stays hpc hother hnode
    have hkept : decide (a.leaves ≠ some .run) = true := by simp [hleaves, hrun]
    have hless := idxOf_filter_lt hhead (p := fun v => a.leaves ≠ some v) (by simp [hleaves])
      hkept
    have hmem : .run ∈ s.waiting.filter fun v => a.leaves ≠ some v :=
      List.mem_filter.mpr ⟨hqueued, hkept⟩
    simp only [runPending, hstays, hpc, if_pos hqueued, if_pos hmem]
    omega

/-- Until it has the handle stored, the mutex is free, and those ahead of it in the queue
let it through at once. -/
theorem run_enabled (ov : Overflow) (hs : NodeRun.Queued s.node) (hlined : s.Lined)
    (hgoal : ¬ (s.node.run = .returned ∨ s.node.run = .alreadyRunning)) :
    ∃ a t, a.OfRun ∧ s.step ov a = some t ∧ t.runPending < s.runPending := by
  cases hpc : s.node.run with
  | start =>
      refine run_goes (a := .runTakeInner) trivial rfl (Runs.enabled_eq_some.mpr ⟨hpc, rfl⟩) ?_
      split <;> simp [runPending, hpc]
  | tookInner =>
      refine run_goes (a := .runSetStartedAt) trivial rfl
        (Runs.enabled_eq_some.mpr ⟨hpc, rfl⟩) ?_
      split <;> simp [runPending, hpc]
  | setStartedAt =>
      exact run_goes (a := .runSpawnNode) trivial rfl (Runs.enabled_eq_some.mpr ⟨hpc, rfl⟩)
        (by simp [runPending, hpc])
  | spawnedNode =>
      exact run_goes (a := .runSpawnPoll) trivial rfl (Runs.enabled_eq_some.mpr ⟨hpc, rfl⟩)
        (by simp [runPending, hpc])
  | spawnedPoll =>
      refine run_goes (a := .runSpawnShutdown) trivial rfl
        (Runs.enabled_eq_some.mpr ⟨hpc, rfl⟩) ?_
      have hlt (h : .run ∈ s.waiting) := List.idxOf_lt_length_of_mem h
      simp only [runPending, hpc]
      split <;> grind
  | storedHandle =>
      exact run_goes (a := .runPublishActive) trivial rfl
        (Runs.enabled_eq_some.mpr ⟨hpc, rfl⟩) (by simp [runPending, hpc])
  | returned => exact absurd (.inl hpc) hgoal
  | alreadyRunning => exact absurd (.inr hpc) hgoal
  | spawnedShutdown =>
      have hfree := (hs.before (by rw [hpc]; trivial)).2
      by_cases hqueued : .run ∈ s.waiting
      · exact run_served ov hlined hpc hfree hqueued
      · refine ⟨.join .run, { s with waiting := s.waiting ++ [.run] }, rfl,
          Runs.enabled_eq_some.mpr ⟨⟨hpc, hqueued⟩, rfl⟩, ?_⟩
        simp [runPending, hpc, hqueued, List.idxOf_append_of_notMem]

/-- Wherever a run has led, `run` comes to its end by its own steps and those with which the
requests ahead of it take the free mutex. A call that waits is let through by the shutdown
task and the requests ahead of it, with ten steps besides one for each request in the
queue up to its own; and however the rest is interleaved, nobody gets ahead of it: while it
waits no more such steps than these are taken. -/
theorem shutdown_calls_return (ov : Overflow) (as : List FifoStep) {s : FifoRun}
    (h : Runs.exec (step ov) built as = some s) :
    (∃ bs t, (∀ b ∈ bs, b.OfRun) ∧ bs.length ≤ s.waiting.length + 8 ∧
      Runs.exec (step ov) s bs = some t ∧
      (t.node.run = .returned ∨ t.node.run = .alreadyRunning)) ∧
    ∀ i, s.node.callers i = .locking ∨ s.node.callers i = .awaiting →
      (∃ bs t, (∀ b ∈ bs, b = .join (.call i) ∨ b.Serves) ∧ bs.length ≤ s.ahead i + 12 ∧
        Runs.exec (step ov) s bs = some t ∧ t.node.callers i = .returned) ∧
      ((s.node.callers i = .locking → .call i ∈ s.waiting) →
        ∀ bs t, Runs.exec (step ov) s bs = some t →
          t.node.callers i = .locking ∨ t.node.callers i = .awaiting →
            bs.countP FifoStep.Serves ≤ s.ahead i + 11) := by
  obtain ⟨cs, hcs⟩ := reached_node h
  have hs : NodeRun.Queued s.node := NodeRun.reached_queued hcs
  have hlined : s.Lined := Runs.exec_invariant (fun _ _ _ hs => lined_step hs)
    (fun _ hw => absurd hw List.not_mem_nil) h
  constructor
  · have hreach : ∃ bs t, (∀ b ∈ bs, b.OfRun) ∧ bs.length ≤ s.runPending ∧
        Runs.exec (step ov) s bs = some t ∧ (NodeRun.Queued t.node ∧ t.Lined) ∧
          (t.node.run = .returned ∨ t.node.run = .alreadyRunning) :=
      Runs.reaches_of_advance (fun u hu hgoal => by
        obtain ⟨a, v, hown, hv, hless⟩ := run_enabled ov hu.1 hu.2 hgoal
        exact ⟨a, v, hown, hv, ⟨queued_step hu.1 hv, lined_step hu.2 hv⟩, hless⟩) ⟨hs, hlined⟩
    obtain ⟨bs, t, hown, hlength, ht, -, hend⟩ := hreach
    exact ⟨bs, t, hown, hlength.trans s.runPending_le, ht, hend⟩
  intro i hi
  have hcalled : s.node.callers i ≠ .idle := by rcases hi with hi | hi <;> simp [hi]
  have hkept : s.node.callers i ≠ .dropped := by rcases hi with hi | hi <;> simp [hi]
  -- once its request is in the queue
  have hreturns {u : FifoRun} (hu : NodeRun.Queued u.node ∧ u.Lined ∧ u.InLine i)
      (hkept : u.node.callers i ≠ .dropped) : ∃ bs t, (∀ b ∈ bs, b.Serves) ∧
        bs.length ≤ u.ahead i + 11 ∧ Runs.exec (step ov) u bs = some t ∧
          t.node.callers i = .returned := by
    obtain ⟨bs, t, hserves, hlength, ht, hend⟩ := (serves_drains ov i).reaches hu
    have hundropped := Runs.exec_own (fun _ _ _ => undropped_step) hkept hserves ht
    exact ⟨bs, t, hserves, hlength.trans (pending_le hu.1 i), ht, hend.resolve_right hundropped⟩
  constructor
  · by_cases hqueued : s.node.callers i = .locking → .call i ∈ s.waiting
    · obtain ⟨bs, t, hserves, hlength, ht⟩ := hreturns ⟨hs, hlined, hcalled, hqueued⟩ hkept
      exact ⟨bs, t, fun b hb => .inr (hserves b hb), Nat.le_succ_of_le hlength, ht⟩
    · obtain ⟨hpc, hunqueued⟩ := Classical.not_imp.mp hqueued
      let u : FifoRun := { s with waiting := s.waiting ++ [.call i] }
      have hjoin : s.step ov (.join (.call i)) = some u :=
        Runs.enabled_eq_some.mpr ⟨⟨hpc, hunqueued⟩, rfl⟩
      have hahead : u.ahead i = s.ahead i := by
        simp [ahead, place, u, List.idxOf_append_of_notMem hunqueued,
          List.idxOf_of_notMem hunqueued]
      have hu : NodeRun.Queued u.node ∧ u.Lined ∧ u.InLine i :=
        ⟨hs, lined_step hlined hjoin, hcalled, fun _ => List.mem_append_right _ (by simp)⟩
      obtain ⟨bs, t, hserves, hlength, ht, hend⟩ := hreturns hu hkept
      refine ⟨.join (.call i) :: bs, t, List.forall_mem_cons.mpr
        ⟨.inl rfl, fun b hb => .inr (hserves b hb)⟩, ?_, ?_, hend⟩
      · rw [List.length_cons]
        omega
      · rw [Runs.exec, hjoin]
        exact ht
  · intro hqueued bs t ht hwaits
    have hover : ¬ t.Over i := by
      unfold Over
      rcases hwaits with hpc | hpc <;> simp [hpc]
    have hle : bs.countP FifoStep.Serves + t.pending i ≤
        s.pending i + bs.countP (fun _ => False) := (serves_drains ov i).countP_le
      (fun _ _ _ _ hover h => over_step hover h)
      (fun _ _ _ hs hwaits h => by simpa using (pending_step hs.1 hs.2.2 hwaits h).1)
      ⟨hs, hlined, hcalled, hqueued⟩ ht hover
    have hpending := pending_le hs i
    simp only [decide_false, List.countP_false, Function.const_apply] at hle
    omega

section examples

/-- Four calls. The first has the mutex and the handle, and two requests are ahead of the
last one's. -/
def fourCalls : List FifoStep :=
  [.node .runTakeInner, .node .runSetStartedAt, .node .runSpawnNode, .node .runSpawnPoll,
    .node .runSpawnShutdown, .join .run, .node .runStoreHandle, .node (.callCancel 0),
    .join (.call 0), .node (.callLock 0), .node (.callCancel 1), .node (.callCancel 2),
    .node (.callCancel 3), .join (.call 2), .join (.call 1), .join (.call 3)]

theorem shutdown_calls_return_fourCalls : ∃ s,
    Runs.exec (step .wraps) built fourCalls = some s ∧ s.node.callers 3 = .locking ∧
      s.ahead 3 = 2 ∧ ∃ bs t, (∀ b ∈ bs, b = .join (.call 3) ∨ b.Serves) ∧ bs.length ≤ 14 ∧
        Runs.exec (step .wraps) s bs = some t ∧ t.node.callers 3 = .returned :=
  ⟨_, rfl, rfl, rfl, ((shutdown_calls_return .wraps fourCalls rfl).2 3 (.inl rfl)).1⟩

end examples
end FifoRun
end BdkFloresta
