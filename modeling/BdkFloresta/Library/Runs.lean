import Mathlib.Logic.Basic
import Mathlib.Data.List.Infix

/-!
Runs of a labelled transition system given by a partial step function. The
label carries every choice of the environment, so a list of labels is one
interleaving. A law about runs is either an invariant, or a law that holds
exactly on the runs each of whose steps meets a condition on the state it
leaves; both are settled here once, from what a single step does.
-/

namespace Runs
universe u v
variable {σ : Type u} {α : Type v} {step : σ → α → Option σ}

/-- The state after the labels, performed in order; `none` as soon as one of
them is not enabled. -/
def exec (step : σ → α → Option σ) : σ → List α → Option σ
  | s, [] => some s
  | s, a :: as => (step s a).bind fun t => exec step t as

/-- `P` holds in every state the run goes through, both ends included. -/
def Always (step : σ → α → Option σ) (P : σ → Prop) : σ → List α → Prop
  | s, [] => P s
  | s, a :: as => P s ∧ ∀ t, step s a = some t → Always step P t as

/-- Every step the run takes meets `ok` in the state it is taken from. -/
def EachStep (step : σ → α → Option σ) (ok : σ → α → Prop) : σ → List α → Prop
  | _, [] => True
  | s, a :: as => ∀ t, step s a = some t → ok s a ∧ EachStep step ok t as

/-- The steps of one run are checked one by one. -/
instance EachStep.decidable {ok : σ → α → Prop} [∀ s a, Decidable (ok s a)] :
    (s : σ) → (as : List α) → Decidable (EachStep step ok s as)
  | _, [] => isTrue True.intro
  | s, a :: as =>
      match h : step s a with
      | none => isTrue fun t ht => absurd (h.symm.trans ht) (Option.some_ne_none t).symm
      | some t =>
          have : Decidable (EachStep step ok t as) := EachStep.decidable t as
          decidable_of_iff (ok s a ∧ EachStep step ok t as)
            ⟨fun hok _ hu => Option.some.inj (h.symm.trans hu) ▸ hok, fun hall => hall t h⟩

/-- The step to `t` where `p` is its guard. -/
def enabled (p : Prop) [Decidable p] (t : σ) : Option σ := if p then some t else none

@[simp] theorem enabled_eq_some {p : Prop} [Decidable p] {t u : σ} :
    enabled p t = some u ↔ p ∧ t = u := by
  simp [enabled]

theorem exec_cons {s t : σ} {a : α} {as : List α}
    (h : exec step s (a :: as) = some t) :
    ∃ m, step s a = some m ∧ exec step m as = some t :=
  Option.bind_eq_some_iff.mp h

theorem exec_append {s m t : σ} {as bs : List α} (h : exec step s as = some m)
    (h' : exec step m bs = some t) : exec step s (as ++ bs) = some t := by
  induction as generalizing s with
  | nil => exact Option.some.inj h ▸ h'
  | cons a as ih =>
      obtain ⟨n, hn, hrest⟩ := exec_cons h
      rw [List.cons_append, exec, hn]
      exact ih hrest

/-- The invariant rule. -/
theorem exec_invariant {I : σ → Prop}
    (keeps : ∀ s a t, I s → step s a = some t → I t)
    {s t : σ} {as : List α} (hs : I s) (h : exec step s as = some t) : I t := by
  induction as generalizing s with
  | nil => exact Option.some.inj h ▸ hs
  | cons a as ih =>
      obtain ⟨m, hm, hrest⟩ := exec_cons h
      exact ih (keeps s a m hs hm) hrest

/-- The invariant rule for runs each of whose steps meets a condition. -/
theorem exec_invariant_of_eachStep {I : σ → Prop} {ok : σ → α → Prop}
    (keeps : ∀ s a t, I s → ok s a → step s a = some t → I t)
    {s t : σ} {as : List α} (hs : I s) (hok : EachStep step ok s as)
    (h : exec step s as = some t) : I t := by
  induction as generalizing s with
  | nil => exact Option.some.inj h ▸ hs
  | cons a as ih =>
      obtain ⟨m, hm, hrest⟩ := exec_cons h
      obtain ⟨ha, has⟩ := hok m hm
      exact ih (keeps s a m hs ha hm) has hrest

theorem always_invariant {I : σ → Prop} (keeps : ∀ s a t, I s → step s a = some t → I t)
    {s : σ} (hs : I s) (as : List α) : Always step I s as := by
  induction as generalizing s with
  | nil => exact hs
  | cons a as ih => exact ⟨hs, fun t ht => ih (keeps s a t hs ht)⟩

theorem Always.head {P : σ → Prop} {s : σ} {as : List α} (h : Always step P s as) : P s := by
  cases as with
  | nil => exact h
  | cons a as => exact h.1

/-- A law broken by exactly the steps that miss the condition holds along a
run exactly when no step of the run misses it. The invariant may rest on the law
having held so far. -/
theorem always_iff_eachStep {I P : σ → Prop} {ok : σ → α → Prop}
    (keeps : ∀ s a t, I s → P t → step s a = some t → I t)
    (exact_step : ∀ s a t, I s → P s → step s a = some t → (P t ↔ ok s a))
    {s : σ} (hI : I s) (hP : P s) (as : List α) :
    Always step P s as ↔ EachStep step ok s as := by
  induction as generalizing s with
  | nil => exact iff_of_true hP True.intro
  | cons a as ih =>
      constructor
      · intro h t ht
        have hPt : P t := (h.2 t ht).head
        exact ⟨(exact_step s a t hI hP ht).mp hPt,
          (ih (keeps s a t hI hPt ht) hPt).mp (h.2 t ht)⟩
      · intro h
        refine ⟨hP, fun t ht => ?_⟩
        obtain ⟨ha, has⟩ := h t ht
        have hPt := (exact_step s a t hI hP ht).mpr ha
        exact (ih (keeps s a t hI hPt ht) hPt).mpr has

/-- A condition that an invariant grants to every step holds along the run. -/
theorem EachStep.of_invariant {I : σ → Prop} {ok ok' : σ → α → Prop}
    (keeps : ∀ s a t, I s → ok s a → step s a = some t → I t)
    (grants : ∀ s a t, I s → step s a = some t → ok' s a)
    {s : σ} {as : List α} (hs : I s) (h : EachStep step ok s as) : EachStep step ok' s as := by
  induction as generalizing s with
  | nil => exact True.intro
  | cons a as ih =>
      intro t ht
      obtain ⟨ha, has⟩ := h t ht
      exact ⟨grants s a t hs ht, ih (keeps s a t hs ha ht) has⟩

theorem Always.mono {P Q : σ → Prop} (h : ∀ s, P s → Q s) {s : σ} {as : List α}
    (hP : Always step P s as) : Always step Q s as := by
  induction as generalizing s with
  | nil => exact h s hP
  | cons a as ih => exact ⟨h s hP.1, fun t ht => ih (hP.2 t ht)⟩

end Runs
