import BdkFloresta.Client.Error
import BdkFloresta.Library.Runs

/-!
The handle of a spawned scan. `join` awaits the task's handle in place and gives it
up only afterwards; `stop` takes it first and awaits what it took. A `stop` whose
future is dropped while it waits detaches the running task, and what is called on
the handle after that has nothing left to wait for.
-/

namespace BdkFloresta

/-- How the scan task ended. -/
inductive TaskEnd where
  | returned (result : Except ClientError Unit)
  | abortedOrPanicked

/-- What awaiting the task's handle yields. -/
def TaskEnd.joined : TaskEnd → Except ClientError Unit
  | .returned result => result
  | .abortedOrPanicked => .error .scanAborted

inductive HandleCall where
  | join
  | stop
  deriving DecidableEq, Repr

/-- A `join` or `stop` call that has returned, and whether the task had ended. -/
structure HandleReturn where
  call : HandleCall
  result : Except ClientError Unit
  ended : Bool

/-- A `ScanHandle`, the scan task and the call that waits on the handle. -/
structure ScanHandle where
  /-- The token is cancelled. -/
  token : Bool
  /-- The handle holds the task's `JoinHandle`. -/
  inner : Bool
  task : Option TaskEnd
  waiting : Option HandleCall
  dropped : Bool
  returns : List HandleReturn

inductive HandleStep where
  | taskEnds (taskEnd : TaskEnd)
  | join
  | stop
  /-- The awaited task's handle is ready. -/
  | ready
  /-- The future of the waiting call is dropped. -/
  | dropFuture
  | cancel
  | dropHandle

namespace ScanHandle
open Runs (enabled)

def new : ScanHandle := ⟨false, true, none, none, false, []⟩

def finish (s : ScanHandle) (call : HandleCall) (result : Except ClientError Unit) :
    ScanHandle :=
  { s with waiting := none, returns := s.returns ++ [⟨call, result, s.task.isSome⟩] }

/-- The handle is there and no `join` or `stop` borrows it. -/
def Free (s : ScanHandle) : Prop := s.waiting = none ∧ s.dropped = false

instance (s : ScanHandle) : Decidable s.Free :=
  inferInstanceAs (Decidable (s.waiting = none ∧ s.dropped = false))

def step (s : ScanHandle) : HandleStep → Option ScanHandle
  | .taskEnds taskEnd => enabled (s.task.isNone = true) { s with task := some taskEnd }
  | .join =>
      enabled s.Free
        (if s.inner then { s with waiting := some .join } else s.finish .join (.ok ()))
  | .stop =>
      enabled s.Free
        (if s.inner then { s with token := true, inner := false, waiting := some .stop }
        else { s with token := true }.finish .stop (.ok ()))
  | .ready =>
      match s.task, s.waiting with
      | some taskEnd, some .join =>
          some ({ s with inner := false }.finish .join taskEnd.joined)
      | some _, some .stop => some (s.finish .stop (.ok ()))
      | _, _ => none
  | .dropFuture => enabled (s.waiting.isSome = true) { s with waiting := none }
  | .cancel => enabled s.Free { s with token := true }
  -- the drop also aborts the task, which then ends at some moment
  | .dropHandle =>
      enabled s.Free { s with token := true, inner := false, dropped := true }

/-- Every `join` and `stop` that has returned did so after the task's end. -/
def Waited (s : ScanHandle) : Prop := ∀ r ∈ s.returns, r.ended = true

/-- A `join` or `stop` is called without a handle only after the task's end. -/
def CalledInTime (s : ScanHandle) : HandleStep → Prop
  | .join | .stop => s.inner = false → s.task.isSome = true
  | _ => True

/-- The future of a `stop` is dropped only after the task's end. -/
def StopsKept (s : ScanHandle) : HandleStep → Prop
  | .dropFuture => s.waiting = some .stop → s.task.isSome = true
  | _ => True

instance (s : ScanHandle) : (a : HandleStep) → Decidable (StopsKept s a)
  | .dropFuture =>
      inferInstanceAs (Decidable (s.waiting = some .stop → s.task.isSome = true))
  | .taskEnds _ | .join | .stop | .ready | .cancel | .dropHandle => isTrue True.intro

theorem waited_finish (s : ScanHandle) (call : HandleCall) (result : Except ClientError Unit) :
    (s.finish call result).Waited ↔ s.Waited ∧ s.task.isSome = true := by
  simp [Waited, finish, or_imp, forall_and]

/-- What a call returns is broken by exactly the calls without a handle. -/
theorem waited_step_iff {s t : ScanHandle} {a : HandleStep} (hs : s.Waited)
    (h : s.step a = some t) : t.Waited ↔ CalledInTime s a := by
  cases a with
  | taskEnds taskEnd | dropFuture | cancel | dropHandle =>
      obtain ⟨-, rfl⟩ := Runs.enabled_eq_some.mp h
      exact iff_of_true hs trivial
  | join | stop =>
      obtain ⟨-, rfl⟩ := Runs.enabled_eq_some.mp h
      split
      next hinner => exact iff_of_true hs fun hgone => absurd (hgone.symm.trans hinner) (by decide)
      next hgone =>
        rw [waited_finish]
        constructor
        · exact fun hw _ => hw.2
        · exact fun hok => ⟨hs, hok (Bool.eq_false_iff.mpr hgone)⟩
  | ready =>
      simp only [step] at h
      split at h
      next taskEnd htask _ =>
        obtain rfl := Option.some.inj h
        exact iff_of_true ((waited_finish ..).mpr ⟨hs, by simp [htask]⟩) trivial
      next htask _ =>
        obtain rfl := Option.some.inj h
        exact iff_of_true ((waited_finish ..).mpr ⟨hs, by simp [htask]⟩) trivial
      · cases h

/-- While the task runs, its handle is here or with a waiting `stop`. -/
def Attached (s : ScanHandle) : Prop :=
  s.task.isSome = false → s.inner = true ∨ s.waiting = some .stop ∨ s.dropped = true

theorem new_attached : Attached new := fun _ => .inl rfl

/-- A call that may start and finds no handle finds the task ended. -/
theorem Attached.ended {s : ScanHandle} (hs : Attached s) (hfree : s.Free)
    (hgone : s.inner = false) : s.task.isSome = true := by
  by_contra hrunning
  obtain ⟨hwaiting, hdropped⟩ := hfree
  rcases hs (Bool.eq_false_iff.mpr hrunning) with hinner | hstop | hdrop
  · exact absurd (hgone.symm.trans hinner) (by decide)
  · exact absurd (hwaiting.symm.trans hstop) (by decide)
  · exact absurd (hdropped.symm.trans hdrop) (by decide)

theorem attached_step {s t : ScanHandle} {a : HandleStep} (hs : Attached s)
    (hok : StopsKept s a) (h : s.step a = some t) : Attached t := by
  cases a with
  | taskEnds taskEnd =>
      obtain ⟨-, rfl⟩ := Runs.enabled_eq_some.mp h
      exact fun hrunning => absurd hrunning (by simp)
  | join | stop =>
      obtain ⟨hfree, rfl⟩ := Runs.enabled_eq_some.mp h
      split
      next hinner => simp [Attached, hinner]
      next hgone =>
        have hend := hs.ended hfree (Bool.eq_false_iff.mpr hgone)
        simp [Attached, finish, hend]
  | ready =>
      simp only [step] at h
      split at h
      next taskEnd htask _ =>
        obtain rfl := Option.some.inj h
        simp [Attached, finish, htask]
      next htask _ =>
        obtain rfl := Option.some.inj h
        simp [Attached, finish, htask]
      · cases h
  | dropFuture =>
      obtain ⟨-, rfl⟩ := Runs.enabled_eq_some.mp h
      intro hrunning
      -- a dropped `join` leaves the handle where it is
      rcases hs hrunning with hinner | hstop | hdrop
      · exact .inl hinner
      · exact absurd ((hok hstop).symm.trans hrunning) (by decide)
      · exact .inr (.inr hdrop)
  | cancel =>
      obtain ⟨-, rfl⟩ := Runs.enabled_eq_some.mp h
      exact hs
  | dropHandle =>
      obtain ⟨-, rfl⟩ := Runs.enabled_eq_some.mp h
      exact fun _ => .inr (.inr rfl)

theorem calledInTime_of_attached {s t : ScanHandle} {a : HandleStep} (hs : Attached s)
    (h : s.step a = some t) : CalledInTime s a := by
  cases a with
  | join | stop =>
      obtain ⟨hfree, -⟩ := Runs.enabled_eq_some.mp h
      exact hs.ended hfree
  | taskEnds _ | ready | dropFuture | cancel | dropHandle => trivial

/-- Over every sequence of calls, drops and moments of the task's end, each returned
`join` and `stop` has waited for the task exactly if none is called after the handle
is gone and before the task's end. No such call can be made as long as no future
of a `stop` is dropped while the task runs. -/
theorem stop_waits_iff (steps : List HandleStep) :
    (Runs.Always step Waited new steps ↔ Runs.EachStep step CalledInTime new steps) ∧
      (Runs.EachStep step StopsKept new steps → Runs.Always step Waited new steps) := by
  have hexact : Runs.Always step Waited new steps ↔
      Runs.EachStep step CalledInTime new steps :=
    Runs.always_iff_eachStep (I := fun _ => True) (fun _ _ _ _ _ _ => trivial)
      (fun _ _ _ _ hs ht => waited_step_iff hs ht) trivial (fun _ h => absurd h (by simp [new]))
      steps
  refine ⟨hexact, fun hkept => hexact.mpr ?_⟩
  exact Runs.EachStep.of_invariant (fun _ _ _ hs hok ht => attached_step hs hok ht)
    (fun _ _ _ hs ht => calledInTime_of_attached hs ht) new_attached hkept

section examples

/-- A `stop` is dropped while it waits, as by a timeout around it, then repeated. -/
def stopTwice : List HandleStep := [.stop, .dropFuture, .stop]

/-- A `join` in a `select` that another branch wins, then a `stop`. -/
def joinThenStop : List HandleStep :=
  [.join, .dropFuture, .stop, .taskEnds .abortedOrPanicked, .ready]

theorem stop_waits_joinThenStop : Runs.Always step Waited new joinThenStop :=
  (stop_waits_iff joinThenStop).2 (by decide)

/-- The second `stop` returns while the task still runs. -/
theorem stopTwice_does_not_wait : ∃ s, Runs.exec step new stopTwice = some s ∧
    s.task.isNone = true ∧ s.returns.length = 1 ∧ ¬ s.Waited := by
  refine ⟨_, rfl, rfl, rfl, fun h => ?_⟩
  exact absurd (h _ (List.mem_singleton_self _)) (by decide)

end examples
end ScanHandle
end BdkFloresta
