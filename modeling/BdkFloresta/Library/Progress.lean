import BdkFloresta.Library.Runs
import Mathlib.Data.List.Count

/-!
Progress by a measure. Some of the labels are the steps that work towards a goal; while
it is not reached one of them can be taken, and each of them lowers the measure. Then
these steps alone reach the goal from wherever a run may have led, and a run that has not
reached it has room for no more of them than the measure and the steps that raise it allow.
-/

namespace Runs
universe u v
variable {σ : Type u} {α : Type v}

/-- From the states of `inv` on, the own steps lead to the goal. -/
structure Drains (step : σ → α → Option σ) (own : α → Prop) (inv goal : σ → Prop)
    (measure : σ → Nat) : Prop where
  keeps : ∀ s a t, inv s → step s a = some t → inv t
  enabled : ∀ s, inv s → ¬ goal s → ∃ a t, own a ∧ step s a = some t
  spends : ∀ s a t, inv s → ¬ goal s → own a → step s a = some t → measure t < measure s

variable {step : σ → α → Option σ} {own : α → Prop} {inv goal : σ → Prop} {measure : σ → Nat}

/-- As long as an own step leads on, with less to do, a schedule of them leads to the goal. -/
theorem reaches_of_advance {P : σ → Prop}
    (advance : ∀ s, P s → ¬ goal s →
      ∃ a t, own a ∧ step s a = some t ∧ P t ∧ measure t < measure s)
    {s : σ} (hs : P s) :
    ∃ as t, (∀ a ∈ as, own a) ∧ as.length ≤ measure s ∧ exec step s as = some t ∧
      P t ∧ goal t := by
  -- on the measure, which each own step lowers
  induction hn : measure s using Nat.strong_induction_on generalizing s with
  | _ n ih =>
      by_cases hgoal : goal s
      · exact ⟨[], s, by simp, Nat.zero_le _, rfl, hs, hgoal⟩
      obtain ⟨a, m, hown, hm, hP, hlt⟩ := advance s hs hgoal
      obtain ⟨as, t, has, hlength, hexec, ht⟩ := ih (measure m) (hn ▸ hlt) hP rfl
      refine ⟨a :: as, t, ?_, ?_, ?_, ht⟩
      · exact List.forall_mem_cons.mpr ⟨hown, has⟩
      · rw [List.length_cons]
        omega
      · rw [exec, hm, Option.bind_some, hexec]

/-- The own steps alone reach the goal, whatever the environment has done before. -/
theorem Drains.reaches (h : Drains step own inv goal measure) {s : σ} (hs : inv s) :
    ∃ as t, (∀ a ∈ as, own a) ∧ as.length ≤ measure s ∧ exec step s as = some t ∧ goal t := by
  obtain ⟨as, t, has, hlength, hexec, -, ht⟩ := reaches_of_advance (P := inv)
    (fun s hs hgoal => by
      obtain ⟨a, m, hown, hm⟩ := h.enabled s hs hgoal
      exact ⟨a, m, hown, hm, h.keeps s a m hs hm, h.spends s a m hs hgoal hown hm⟩) hs
  exact ⟨as, t, has, hlength, hexec, ht⟩

/-- What the own steps keep is kept on a schedule of theirs. -/
theorem exec_own {P : σ → Prop} (keeps : ∀ s a t, P s → own a → step s a = some t → P t)
    {s t : σ} {as : List α} (hs : P s) (hown : ∀ a ∈ as, own a)
    (h : exec step s as = some t) : P t := by
  induction as generalizing s with
  | nil => exact Option.some.inj h ▸ hs
  | cons a as ih =>
      obtain ⟨m, hm, hrest⟩ := exec_cons h
      obtain ⟨ha, has⟩ := List.forall_mem_cons.mp hown
      exact ih (keeps s a m hs ha hm) has hrest

/-- A run that has not reached the goal holds no more own steps than the measure allows,
and one for each step that may have raised it. -/
theorem Drains.countP_le {raises : α → Prop} [DecidablePred own] [DecidablePred raises]
    (h : Drains step own inv goal measure)
    (stays : ∀ s a t, inv s → goal s → step s a = some t → goal t)
    (others : ∀ s a t, inv s → ¬ goal s → step s a = some t →
      measure t ≤ measure s + if raises a then 1 else 0)
    {s t : σ} {as : List α} (hs : inv s) (hexec : exec step s as = some t) (ht : ¬ goal t) :
    as.countP own + measure t ≤ measure s + as.countP raises := by
  induction as generalizing s with
  | nil =>
      obtain rfl := Option.some.inj hexec
      simp
  | cons a as ih =>
      obtain ⟨m, hm, hrest⟩ := exec_cons hexec
      have hkept := h.keeps s a m hs hm
      have hlater := ih hkept hrest
      have hgoal : ¬ goal s := fun hgoal =>
        ht (exec_invariant (I := fun u => inv u ∧ goal u)
          (fun u b v hu hv => ⟨h.keeps u b v hu.1 hv, stays u b v hu.1 hu.2 hv⟩)
          ⟨hs, hgoal⟩ hexec).2
      have hraised : as.countP raises + (if raises a then 1 else 0) =
          (a :: as).countP raises := by simp [List.countP_cons]
      by_cases hown : own a
      · have hlt := h.spends s a m hs hgoal hown hm
        rw [List.countP_cons_of_pos (by simpa using hown)]
        omega
      · have hle := others s a m hs hgoal hm
        rw [List.countP_cons_of_neg (by simpa using hown)]
        omega

end Runs
