import BdkFloresta.Library.Runs
import Mathlib.Data.List.Basic

/-!
A watch channel: one value and the number of times it was replaced. A receiver keeps
the number it has seen, reads the value without touching that number, and waits until
the two differ. A `Waiter` is the loop that reads, decides and waits. What it decided
on may be newer than the number it waits on, but never older.
-/

namespace Watch
open Runs (enabled exec)
universe u v
variable {β : Type u} {γ : Type v}

structure Channel (β : Type u) where
  value : β
  version : Nat
  /-- Every sender is gone. -/
  closed : Bool

namespace Channel

/-- The closure yields the new value, or `none` where it reports no modification. -/
def sendIfModified (c : Channel β) (modify : β → Option β) : Channel β :=
  match modify c.value with
  | some v => { c with value := v, version := c.version + 1 }
  | none => c

def sendReplace (c : Channel β) (v : β) : Channel β := c.sendIfModified fun _ => some v

theorem sendIfModified_cases (c : Channel β) (modify : β → Option β) :
    c.sendIfModified modify = c ∨
      (c.sendIfModified modify).version = c.version + 1 ∧
        (c.sendIfModified modify).closed = c.closed := by
  unfold sendIfModified
  split
  · exact .inr ⟨rfl, rfl⟩
  · exact .inl rfl

end Channel

inductive Phase (γ : Type v) where
  | reading
  | waiting
  | returned (result : γ)
  deriving DecidableEq

/-- The channel together with one receiver's loop. -/
structure Waiter (β : Type u) (γ : Type v) where
  channel : Channel β
  seen : Nat
  phase : Phase γ
  /-- The values read before the last wake-up. -/
  past : List β
  /-- The value read since. -/
  current : Option β

inductive Step (β : Type u) where
  | sendReplace (v : β)
  | sendIfModified (modify : β → Option β)
  | close
  /-- The loop reads the value. -/
  | borrow
  | changed
  | senderGone
  /-- The wait ends by an event of another kind. -/
  | interrupt

def subscribe (c : Channel β) : Waiter β γ := ⟨c, c.version, .reading, [], none⟩

/-- Waiting, with nothing new to wake up for. -/
def Waiter.Parked (s : Waiter β γ) : Prop :=
  s.phase = .waiting ∧ s.seen = s.channel.version

instance [DecidableEq γ] (s : Waiter β γ) : Decidable s.Parked :=
  inferInstanceAs (Decidable (s.phase = .waiting ∧ s.seen = s.channel.version))

section loop
variable (verdict : β → Option γ) (onGone onInterrupt : γ)

def step [DecidableEq γ] (s : Waiter β γ) : Step β → Option (Waiter β γ)
  | .sendReplace v =>
      enabled (s.channel.closed = false) { s with channel := s.channel.sendReplace v }
  | .sendIfModified modify =>
      enabled (s.channel.closed = false) { s with channel := s.channel.sendIfModified modify }
  | .close => some { s with channel := { s.channel with closed := true } }
  | .borrow =>
      enabled (s.phase = .reading)
        { s with
          current := some s.channel.value
          phase :=
            match verdict s.channel.value with
            | some result => .returned result
            | none => .waiting }
  | .changed =>
      enabled (s.phase = .waiting ∧ s.seen ≠ s.channel.version)
        { s with
          seen := s.channel.version
          phase := .reading
          past := s.past ++ s.current.toList
          current := none }
  | .senderGone =>
      enabled (s.Parked ∧ s.channel.closed = true) { s with phase := .returned onGone }
  | .interrupt => enabled (s.phase = .waiting) { s with phase := .returned onInterrupt }

/-- What a decision rests on: the value read last, or the end of the wait. -/
def Settled (s : Waiter β γ) (result : γ) : Prop :=
  ∃ v, s.current = some v ∧
    (verdict v = some result ∨
      verdict v = none ∧
        (result = onInterrupt ∨ result = onGone ∧ s.channel.closed = true))

/-- An undecided value is still current while the versions agree. -/
structure Inv (s : Waiter β γ) : Prop where
  seen : s.seen ≤ s.channel.version
  past : ∀ v ∈ s.past, verdict v = none
  reading : s.phase = .reading → s.current = none
  waiting : s.phase = .waiting → ∃ v, s.current = some v ∧ verdict v = none ∧
    (s.seen = s.channel.version → v = s.channel.value)
  returned : ∀ result, s.phase = .returned result →
    Settled verdict onGone onInterrupt s result

variable {verdict onGone onInterrupt}

theorem inv_subscribe (c : Channel β) : Inv verdict onGone onInterrupt (subscribe c) where
  seen := Nat.le_refl _
  past := by simp [subscribe]
  reading := fun _ => rfl
  waiting := by simp [subscribe]
  returned := by simp [subscribe]

/-- A publication leaves a waiter either untouched or with something to wake up for. -/
theorem Inv.sendIfModified {s : Waiter β γ} (hs : Inv verdict onGone onInterrupt s)
    (modify : β → Option β) :
    Inv verdict onGone onInterrupt { s with channel := s.channel.sendIfModified modify } := by
  rcases s.channel.sendIfModified_cases modify with hsame | ⟨hversion, hclosed⟩
  · rw [hsame]
    exact hs
  · refine ⟨?_, hs.past, hs.reading, fun hwaiting => ?_, fun result hresult => ?_⟩
    · rw [hversion]
      exact Nat.le_succ_of_le hs.seen
    · obtain ⟨v, hv, hnone, -⟩ := hs.waiting hwaiting
      refine ⟨v, hv, hnone, fun heq => ?_⟩
      exact absurd (heq.trans hversion) (Nat.ne_of_lt (Nat.lt_succ_of_le hs.seen))
    · obtain ⟨v, hv, hwhy⟩ := hs.returned result hresult
      exact ⟨v, hv, by rwa [hclosed]⟩

/-- No lost wake-up: a parked loop would not decide on the published value. -/
theorem Inv.parked {s : Waiter β γ} (hs : Inv verdict onGone onInterrupt s)
    (hparked : s.Parked) : verdict s.channel.value = none := by
  obtain ⟨v, -, hnone, hcurrent⟩ := hs.waiting hparked.1
  exact hcurrent hparked.2 ▸ hnone

variable [DecidableEq γ]

theorem inv_step {s t : Waiter β γ} {a : Step β} (hs : Inv verdict onGone onInterrupt s)
    (h : step verdict onGone onInterrupt s a = some t) :
    Inv verdict onGone onInterrupt t := by
  cases a with
  | sendReplace v =>
      obtain ⟨-, rfl⟩ := Runs.enabled_eq_some.mp h
      exact hs.sendIfModified fun _ => some v
  | sendIfModified modify =>
      obtain ⟨-, rfl⟩ := Runs.enabled_eq_some.mp h
      exact hs.sendIfModified modify
  | close =>
      obtain rfl := Option.some.inj h
      refine ⟨hs.seen, hs.past, hs.reading, hs.waiting, fun result hresult => ?_⟩
      obtain ⟨v, hv, hverdict | ⟨hnone, hend⟩⟩ := hs.returned result hresult
      · exact ⟨v, hv, .inl hverdict⟩
      · exact ⟨v, hv, .inr ⟨hnone, hend.imp_right fun hgone => ⟨hgone.1, rfl⟩⟩⟩
  | borrow =>
      obtain ⟨-, rfl⟩ := Runs.enabled_eq_some.mp h
      cases hverdict : verdict s.channel.value with
      | none =>
          exact ⟨hs.seen, hs.past, by simp, fun _ => ⟨_, rfl, hverdict, fun _ => rfl⟩, by simp⟩
      | some result =>
          refine ⟨hs.seen, hs.past, by simp, by simp, fun result' hresult => ?_⟩
          obtain rfl := Phase.returned.inj hresult
          exact ⟨_, rfl, .inl hverdict⟩
  | changed =>
      obtain ⟨⟨hwaiting, -⟩, rfl⟩ := Runs.enabled_eq_some.mp h
      obtain ⟨v, hv, hnone, -⟩ := hs.waiting hwaiting
      refine ⟨Nat.le_refl _, fun w hw => ?_, fun _ => rfl, by simp, by simp⟩
      rcases List.mem_append.mp hw with hpast | hlast
      · exact hs.past w hpast
      · rw [hv] at hlast
        exact List.mem_singleton.mp hlast ▸ hnone
  | senderGone =>
      obtain ⟨⟨⟨hwaiting, -⟩, hclosed⟩, rfl⟩ := Runs.enabled_eq_some.mp h
      obtain ⟨v, hv, hnone, -⟩ := hs.waiting hwaiting
      refine ⟨hs.seen, hs.past, by simp, by simp, fun result hresult => ?_⟩
      exact ⟨v, hv, .inr ⟨hnone, .inr ⟨(Phase.returned.inj hresult).symm, hclosed⟩⟩⟩
  | interrupt =>
      obtain ⟨hwaiting, rfl⟩ := Runs.enabled_eq_some.mp h
      obtain ⟨v, hv, hnone, -⟩ := hs.waiting hwaiting
      refine ⟨hs.seen, hs.past, by simp, by simp, fun result hresult => ?_⟩
      exact ⟨v, hv, .inr ⟨hnone, .inl (Phase.returned.inj hresult).symm⟩⟩

theorem inv_exec {c : Channel β} {s : Waiter β γ} {steps : List (Step β)}
    (h : exec (step verdict onGone onInterrupt) (subscribe c) steps = some s) :
    Inv verdict onGone onInterrupt s :=
  Runs.exec_invariant (fun _ _ _ => inv_step) (inv_subscribe c) h

variable (verdict onGone onInterrupt) in
/-- At the last read of a run the channel holds `v`. -/
def LastRead (s : Waiter β γ) (steps : List (Step β)) (v : β) : Prop :=
  ∃ before after m, steps = before ++ .borrow :: after ∧ Step.borrow ∉ after ∧
    exec (step verdict onGone onInterrupt) s before = some m ∧ m.channel.value = v

/-- Only a read sets the current value, to what the channel then holds. -/
theorem current_step {s t : Waiter β γ} {a : Step β}
    (h : step verdict onGone onInterrupt s a = some t) {v : β} (hv : t.current = some v) :
    a = .borrow ∧ s.channel.value = v ∨ a ≠ .borrow ∧ s.current = some v := by
  cases a with
  | borrow =>
      obtain ⟨-, rfl⟩ := Runs.enabled_eq_some.mp h
      exact .inl ⟨rfl, Option.some.inj hv⟩
  | changed =>
      obtain ⟨-, rfl⟩ := Runs.enabled_eq_some.mp h
      cases hv
  | close =>
      obtain rfl := Option.some.inj h
      exact .inr ⟨by simp, hv⟩
  | sendReplace | sendIfModified | senderGone | interrupt =>
      obtain ⟨-, rfl⟩ := Runs.enabled_eq_some.mp h
      exact .inr ⟨by simp, hv⟩

theorem current_exec {s t : Waiter β γ} {steps : List (Step β)}
    (h : exec (step verdict onGone onInterrupt) s steps = some t) {v : β}
    (hv : t.current = some v) :
    LastRead verdict onGone onInterrupt s steps v ∨
      Step.borrow ∉ steps ∧ s.current = some v := by
  induction steps generalizing s with
  | nil => exact .inr ⟨by simp, Option.some.inj h ▸ hv⟩
  | cons a steps ih =>
      obtain ⟨m, hm, hrest⟩ := Runs.exec_cons h
      rcases ih hrest with ⟨before, after, n, hsplit, hafter, hn, hvalue⟩ | ⟨hnone, hcurrent⟩
      · refine .inl ⟨a :: before, after, n, by rw [hsplit]; rfl, hafter, ?_, hvalue⟩
        rw [Runs.exec, hm]
        exact hn
      · rcases current_step hm hcurrent with ⟨rfl, hvalue⟩ | ⟨hother, hcurrent⟩
        · exact .inl ⟨[], steps, s, rfl, hnone, rfl, hvalue⟩
        · refine .inr ⟨fun hmem => ?_, hcurrent⟩
          exact (List.mem_cons.mp hmem).elim (fun heq => hother heq.symm) hnone

theorem lastRead_of_current {c : Channel β} {s : Waiter β γ} {steps : List (Step β)}
    (h : exec (step verdict onGone onInterrupt) (subscribe c) steps = some s) {v : β}
    (hv : s.current = some v) :
    LastRead verdict onGone onInterrupt (subscribe c) steps v :=
  (current_exec h hv).resolve_right fun hnone => by simp [subscribe] at hnone

end loop
end Watch
