import BdkFloresta.Chain.Types
import BdkFloresta.Library.Runs
import Mathlib.Data.List.Basic

/-!
The block sink between the node's `on_block` calls and the continuous scans of one
client. A scan is followed through `enable_block_forwarding`, the life of its guard and
the drop of its receiver, a call of `on_block` through its two steps: the sender is
cloned under the lock and used after it. The sink is made and registered once; a later
scan only puts its own sender into it.
-/

namespace BdkFloresta

/-- A sender is named by its channel, a channel by the number of those made before. -/
structure BlockSink where
  blockTx : Option Nat
  /-- The lock is poisoned. -/
  poisoned : Bool
  deriving DecidableEq, Repr

namespace BlockSink

/-- The sender `on_block` clones under the lock. -/
def cloneTx (sink : BlockSink) : Option Nat :=
  if sink.poisoned then none else sink.blockTx

/-- `*active_tx = Some(block_tx)`; `none` is the `PoisonedLock` error. -/
def attach (sink : BlockSink) (blockTx : Nat) : Option BlockSink :=
  if sink.poisoned then none else some { sink with blockTx := some blockTx }

/-- `BlockFwdGuard::drop`. -/
def dropGuard (sink : BlockSink) : BlockSink :=
  if sink.poisoned then sink else { sink with blockTx := none }

end BlockSink

/-- How far `scan_continuous` has come with its channel `k` and the sink at `sink`. -/
inductive ForwardPc where
  | idle
  | opened (k : Nat)
  | made (k sink : Nat)
  | registered (k sink : Nat)
  | attached (k sink : Nat)
  | guarded (k sink : Nat)
  /-- The call ends and drops its guard. -/
  | dropping (k sink : Nat)
  | released (k : Nat)
  deriving DecidableEq, Repr

namespace ForwardPc

/-- The activation under way: from the moment a sink has the sender to the moment it
is taken out. -/
def activation : ForwardPc → Option Nat
  | .made k _ | .registered k _ | .attached k _ | .guarded k _ | .dropping k _ => some k
  | .idle | .opened _ | .released _ => none

/-- The activation whose `BlockFwdGuard` is alive. -/
def guard : ForwardPc → Option Nat
  | .guarded k _ => some k
  | _ => none

/-- The channel whose receiver is alive. -/
def receiver : ForwardPc → Option Nat
  | .idle => none
  | .opened k | .made k _ | .registered k _ | .attached k _ | .guarded k _ | .dropping k _
  | .released k => some k

/-- Inside `enable_block_forwarding` or the guard's drop. -/
def Inside : ForwardPc → Prop
  | .opened _ | .made _ _ | .registered _ _ | .attached _ _ | .dropping _ _ => True
  | .idle | .guarded _ _ | .released _ => False

theorem activation_eq_guard {pc : ForwardPc} (h : ¬ pc.Inside) : pc.activation = pc.guard := by
  cases pc with
  | idle | guarded k sink | released k => rfl
  | opened k | made k sink | registered k sink | attached k sink | dropping k sink =>
      exact absurd trivial h

/-- The client knows the only sink, and the call uses no other. -/
def Stored : ForwardPc → Prop
  | .made _ _ | .registered _ _ => False
  | .attached _ sink | .guarded _ sink | .dropping _ sink => sink = 0
  | .idle | .opened _ | .released _ => True

theorem guard_eq_some {pc : ForwardPc} {k : Nat} (h : pc.guard = some k) :
    ∃ sink, pc = .guarded k sink := by
  cases pc with
  | guarded j sink => exact ⟨sink, by rw [Option.some.inj h]⟩
  | idle | opened | made | registered | attached | dropping | released => cases h

theorem receiver_of_activation {pc : ForwardPc} {k : Nat} (h : pc.activation = some k) :
    pc.receiver = some k := by
  cases pc with
  | made | registered | attached | guarded | dropping => exact h
  | idle | opened | released => cases h

end ForwardPc

/-- A lock step of `on_block` and the activation it fell in. -/
structure LockStep where
  block : Block × Nat
  activation : Option Nat
  deriving DecidableEq, Repr

/-- A `send` of `on_block`, and whether it put the block into the channel. -/
structure BlockSend where
  channel : Nat
  block : Block × Nat
  put : Bool
  deriving DecidableEq, Repr

/-- The client's sinks, the node that notifies them and the call under way. -/
structure Forwarding where
  sinks : List BlockSink
  /-- The sinks of this client that the node notifies. -/
  subscribers : List Nat
  /-- `Client::block_sink`. -/
  blockSink : Option Nat
  pc : ForwardPc
  /-- The number of channels made. -/
  channels : Nat
  /-- The `on_block` calls of the current block that have not taken the lock. -/
  pending : List (Nat × (Block × Nat))
  /-- The sender and the block of the `on_block` call that has. -/
  sending : Option (Nat × (Block × Nat))
  notified : List (Block × Nat)
  log : List LockStep
  sends : List BlockSend

inductive ForwardStep where
  | openChannel
  | attachSink
  | blockSubscriber
  | storeSink
  | newGuard
  /-- The call returns or fails, or its future is dropped. -/
  | leave
  | dropGuard
  | dropReceiver
  | notify (block : Block) (height : Nat)
  | onBlockLock
  | onBlockSend
  deriving DecidableEq, Repr

namespace Forwarding
open Runs (enabled exec)

/-- `Client::new`, beside a node that may have notified others before. -/
def start : Forwarding := ⟨[], [], none, .idle, 0, [], none, [], [], []⟩

/-- The branch of `enable_block_forwarding` that finds or makes the sink. -/
def attachSink (s : Forwarding) (k : Nat) : Option Forwarding :=
  match s.blockSink with
  | some p =>
      s.sinks[p]?.map fun sink =>
        match sink.attach k with
        | some sink => { s with sinks := s.sinks.set p sink, pc := .attached k p }
        | none => { s with pc := .idle }
  | none =>
      some { s with
        sinks := s.sinks ++ [⟨some k, false⟩]
        pc := .made k s.sinks.length }

/-- The first half of `on_block`, on the sink at `p`. -/
def onBlockLock (s : Forwarding) (p : Nat) (block : Block × Nat)
    (rest : List (Nat × (Block × Nat))) : Forwarding :=
  { s with
    pending := rest
    sending := ((s.sinks[p]?.bind BlockSink.cloneTx).map fun k => (k, block))
    log := s.log ++ [⟨block, s.pc.activation⟩] }

def step (s : Forwarding) : ForwardStep → Option Forwarding
  | .openChannel =>
      enabled (s.pc = .idle) { s with pc := .opened s.channels, channels := s.channels + 1 }
  | .attachSink =>
      match s.pc with
      | .opened k => s.attachSink k
      | _ => none
  | .blockSubscriber =>
      match s.pc with
      | .made k p => some { s with subscribers := s.subscribers ++ [p], pc := .registered k p }
      | _ => none
  | .storeSink =>
      match s.pc with
      | .registered k p => some { s with blockSink := some p, pc := .attached k p }
      | _ => none
  | .newGuard =>
      match s.pc with
      | .attached k p => some { s with pc := .guarded k p }
      | _ => none
  | .leave =>
      match s.pc with
      | .guarded k p => some { s with pc := .dropping k p }
      | _ => none
  | .dropGuard =>
      match s.pc with
      | .dropping k p =>
          some { s with sinks := s.sinks.modify p BlockSink.dropGuard, pc := .released k }
      | _ => none
  | .dropReceiver =>
      match s.pc with
      | .released _ => some { s with pc := .idle }
      | _ => none
  -- the calls of one block follow those of the block before
  | .notify block height =>
      enabled (s.pending = [] ∧ s.sending = none)
        { s with
          pending := s.subscribers.map fun p => (p, (block, height))
          notified := s.notified ++ [(block, height)] }
  | .onBlockLock =>
      match s.pending, s.sending with
      | (p, block) :: rest, none => some (s.onBlockLock p block rest)
      | _, _ => none
  | .onBlockSend =>
      match s.sending with
      | some (k, block) =>
          some { s with
            sending := none
            sends := s.sends ++ [⟨k, block, s.pc.receiver = some k⟩] }
      | none => none

/-- The blocks sent to a channel, in the order of the sends. -/
def sentTo (s : Forwarding) (k : Nat) : List (Block × Nat) :=
  (s.sends.filter (·.channel = k)).map BlockSend.block

def putIn (s : Forwarding) (k : Nat) : List (Block × Nat) :=
  (s.sends.filter fun x => x.channel = k ∧ x.put).map BlockSend.block

/-- The block between the two steps of its `on_block`, if it goes to the channel. -/
def inFlightTo (s : Forwarding) (k : Nat) : List (Block × Nat) :=
  (s.sending.toList.filter (·.1 = k)).map Prod.snd

/-- The blocks whose lock step fell in an activation, in the order of the lock steps. -/
def lockedIn (s : Forwarding) (k : Nat) : List (Block × Nat) :=
  (s.log.filter (·.activation = some k)).map LockStep.block

/-- Everything a step can do, guards included. -/
inductive Effect (s : Forwarding) : Forwarding → Prop where
  | opened : s.pc = .idle →
      Effect s { s with pc := .opened s.channels, channels := s.channels + 1 }
  | made (k : Nat) : s.pc = .opened k → s.blockSink = none →
      Effect s { s with sinks := s.sinks ++ [⟨some k, false⟩], pc := .made k s.sinks.length }
  | reattached (k p : Nat) (sink sink' : BlockSink) : s.pc = .opened k →
      s.blockSink = some p → s.sinks[p]? = some sink → sink.attach k = some sink' →
      Effect s { s with sinks := s.sinks.set p sink', pc := .attached k p }
  | refused (k p : Nat) (sink : BlockSink) : s.pc = .opened k → s.blockSink = some p →
      s.sinks[p]? = some sink → sink.attach k = none → Effect s { s with pc := .idle }
  | registered (k p : Nat) : s.pc = .made k p →
      Effect s { s with subscribers := s.subscribers ++ [p], pc := .registered k p }
  | stored (k p : Nat) : s.pc = .registered k p →
      Effect s { s with blockSink := some p, pc := .attached k p }
  | guarded (k p : Nat) : s.pc = .attached k p → Effect s { s with pc := .guarded k p }
  | dropping (k p : Nat) : s.pc = .guarded k p → Effect s { s with pc := .dropping k p }
  | released (k p : Nat) : s.pc = .dropping k p →
      Effect s { s with sinks := s.sinks.modify p BlockSink.dropGuard, pc := .released k }
  | ended (k : Nat) : s.pc = .released k → Effect s { s with pc := .idle }
  | notified (block : Block × Nat) : s.pending = [] → s.sending = none →
      Effect s { s with
        pending := s.subscribers.map fun p => (p, block), notified := s.notified ++ [block] }
  | locked (p : Nat) (block : Block × Nat) (rest : List (Nat × (Block × Nat))) :
      s.pending = (p, block) :: rest → s.sending = none → Effect s (s.onBlockLock p block rest)
  | sent (k : Nat) (block : Block × Nat) : s.sending = some (k, block) →
      Effect s { s with
        sending := none, sends := s.sends ++ [⟨k, block, s.pc.receiver = some k⟩] }

theorem attachSink_effect {s t : Forwarding} {k : Nat} (hpc : s.pc = .opened k)
    (h : s.attachSink k = some t) : Effect s t := by
  simp only [attachSink] at h
  split at h
  next p hsink =>
    obtain ⟨sink, hat, rfl⟩ := Option.map_eq_some_iff.mp h
    split
    next sink' hattach => exact .reattached k p sink sink' hpc hsink hat hattach
    next hattach => exact .refused k p sink hpc hsink hat hattach
  next hsink =>
    obtain rfl := Option.some.inj h
    exact .made k hpc hsink

theorem step_effect {s t : Forwarding} {a : ForwardStep} (h : s.step a = some t) :
    Effect s t := by
  cases a with
  | openChannel =>
      obtain ⟨hpc, rfl⟩ := Runs.enabled_eq_some.mp h
      exact .opened hpc
  | attachSink =>
      simp only [step] at h
      split at h
      next k hpc => exact attachSink_effect hpc h
      · cases h
  | blockSubscriber =>
      simp only [step] at h
      split at h
      next k p hpc => exact Option.some.inj h ▸ .registered k p hpc
      · cases h
  | storeSink =>
      simp only [step] at h
      split at h
      next k p hpc => exact Option.some.inj h ▸ .stored k p hpc
      · cases h
  | newGuard =>
      simp only [step] at h
      split at h
      next k p hpc => exact Option.some.inj h ▸ .guarded k p hpc
      · cases h
  | leave =>
      simp only [step] at h
      split at h
      next k p hpc => exact Option.some.inj h ▸ .dropping k p hpc
      · cases h
  | dropGuard =>
      simp only [step] at h
      split at h
      next k p hpc => exact Option.some.inj h ▸ .released k p hpc
      · cases h
  | dropReceiver =>
      simp only [step] at h
      split at h
      next k hpc => exact Option.some.inj h ▸ .ended k hpc
      · cases h
  | notify block height =>
      obtain ⟨hidle, rfl⟩ := Runs.enabled_eq_some.mp h
      exact .notified (block, height) hidle.1 hidle.2
  | onBlockLock =>
      simp only [step] at h
      split at h
      next p block rest hpending hsending =>
        exact Option.some.inj h ▸ .locked p block rest hpending hsending
      · cases h
  | onBlockSend =>
      simp only [step] at h
      split at h
      next k block hsending => exact Option.some.inj h ▸ .sent k block hsending
      · cases h

/-- How far the one sink has come: from its making to the client that knows it. -/
inductive Stage (s : Forwarding) : Prop where
  | unmade : s.blockSink = none → s.sinks = [] → s.subscribers = [] →
      s.pc.activation = none → Stage s
  | made (k : Nat) : s.pc = .made k 0 → s.blockSink = none → s.sinks = [⟨some k, false⟩] →
      s.subscribers = [] → Stage s
  | registered (k : Nat) : s.pc = .registered k 0 → s.blockSink = none →
      s.sinks = [⟨some k, false⟩] → s.subscribers = [0] → Stage s
  | stored : s.blockSink = some 0 → s.sinks = [⟨s.pc.activation, false⟩] →
      s.subscribers = [0] → s.pc.Stored → Stage s

namespace Stage
variable {s t : Forwarding}

theorem subscribers_cases (hs : Stage s) : s.subscribers = [] ∨ s.subscribers = [0] := by
  cases hs with
  | unmade _ _ hsub _ | made _ _ _ _ hsub => exact .inl hsub
  | registered _ _ _ _ hsub | stored _ _ hsub _ => exact .inr hsub

/-- A sink holds the sender of the activation under way, and no other. -/
theorem blockTx_eq (hs : Stage s) {sink : BlockSink} (hsink : sink ∈ s.sinks) :
    sink.blockTx = s.pc.activation := by
  cases hs with
  | unmade _ hsinks _ _ => exact absurd (hsinks ▸ hsink) List.not_mem_nil
  | made k hpc _ hsinks _ | registered k hpc _ hsinks _ =>
      rw [hsinks] at hsink
      rw [List.mem_singleton.mp hsink, hpc]
      rfl
  | stored _ hsinks _ _ =>
      rw [hsinks] at hsink
      rw [List.mem_singleton.mp hsink]

/-- The node notifies a sink that `on_block` reads the activation's sender from. -/
theorem cloneTx_eq (hs : Stage s) {p : Nat} (hp : p ∈ s.subscribers) :
    s.sinks[p]?.bind BlockSink.cloneTx = s.pc.activation := by
  cases hs with
  | unmade _ _ hsub _ | made _ _ _ _ hsub => exact absurd (hsub ▸ hp) List.not_mem_nil
  | registered k hpc _ hsinks hsub =>
      obtain rfl : p = 0 := by simpa [hsub] using hp
      rw [hsinks, hpc]
      rfl
  | stored _ hsinks hsub _ =>
      obtain rfl : p = 0 := by simpa [hsub] using hp
      rw [hsinks]
      rfl

theorem of_eq (hs : Stage s) (hsinks : t.sinks = s.sinks) (hsub : t.subscribers = s.subscribers)
    (hsink : t.blockSink = s.blockSink) (hpc : t.pc = s.pc) : Stage t := by
  cases hs with
  | unmade h1 h2 h3 h4 =>
      exact .unmade (hsink ▸ h1) (hsinks ▸ h2) (hsub ▸ h3) (hpc ▸ h4)
  | made k h1 h2 h3 h4 => exact .made k (hpc ▸ h1) (hsink ▸ h2) (hsinks ▸ h3) (hsub ▸ h4)
  | registered k h1 h2 h3 h4 =>
      exact .registered k (hpc ▸ h1) (hsink ▸ h2) (hsinks ▸ h3) (hsub ▸ h4)
  | stored h1 h2 h3 h4 =>
      exact .stored (hsink ▸ h1) (by rw [hsinks, hpc, h2]) (hsub ▸ h3) (hpc ▸ h4)

theorem of_pc (hs : Stage s) (pc : ForwardPc) (hactivation : pc.activation = s.pc.activation)
    (hbefore : s.pc.Stored) (hafter : pc.Stored) {n : Nat} :
    Stage { s with pc, channels := n } := by
  cases hs with
  | unmade h1 h2 h3 h4 => exact .unmade h1 h2 h3 (hactivation.trans h4)
  | made k h1 _ _ _ | registered k h1 _ _ _ => exact absurd hbefore (by simp [h1, ForwardPc.Stored])
  | stored h1 h2 h3 h4 => exact .stored h1 (by rw [hactivation, h2]) h3 hafter

/-- A call that finds no sink makes the first and only one. -/
theorem of_opened (hs : Stage s) {k : Nat} (hpc : s.pc = .opened k) (h : s.blockSink = none) :
    s.sinks = [] ∧ s.subscribers = [] := by
  cases hs with
  | unmade _ hsinks hsub _ => exact ⟨hsinks, hsub⟩
  | made j hat _ _ _ | registered j hat _ _ _ => exact absurd (hpc.symm.trans hat) (by simp)
  | stored hsink _ _ _ => exact absurd (h.symm.trans hsink) (by simp)

theorem of_made (hs : Stage s) {k p : Nat} (hpc : s.pc = .made k p) :
    p = 0 ∧ s.blockSink = none ∧ s.sinks = [⟨some k, false⟩] ∧ s.subscribers = [] := by
  cases hs with
  | unmade _ _ _ hnone => exact absurd hnone (by simp [hpc, ForwardPc.activation])
  | made j hat hsink hsinks hsub =>
      obtain ⟨rfl, rfl⟩ := ForwardPc.made.inj (hpc.symm.trans hat)
      exact ⟨rfl, hsink, hsinks, hsub⟩
  | registered j hat _ _ _ => exact absurd (hpc.symm.trans hat) (by simp)
  | stored _ _ _ hstored => exact absurd hstored (by simp [hpc, ForwardPc.Stored])

theorem of_registered (hs : Stage s) {k p : Nat} (hpc : s.pc = .registered k p) :
    p = 0 ∧ s.sinks = [⟨some k, false⟩] ∧ s.subscribers = [0] := by
  cases hs with
  | unmade _ _ _ hnone => exact absurd hnone (by simp [hpc, ForwardPc.activation])
  | made j hat _ _ _ => exact absurd (hpc.symm.trans hat) (by simp)
  | registered j hat _ hsinks hsub =>
      obtain ⟨rfl, rfl⟩ := ForwardPc.registered.inj (hpc.symm.trans hat)
      exact ⟨rfl, hsinks, hsub⟩
  | stored _ _ _ hstored => exact absurd hstored (by simp [hpc, ForwardPc.Stored])

/-- A client that knows its sink has it registered, and no other. -/
theorem of_blockSink (hs : Stage s) {p : Nat} (h : s.blockSink = some p) :
    p = 0 ∧ s.sinks = [⟨s.pc.activation, false⟩] ∧ s.subscribers = [0] ∧ s.pc.Stored := by
  cases hs with
  | unmade hnone _ _ _ | made _ _ hnone _ _ | registered _ _ hnone _ _ =>
      exact absurd (h.symm.trans hnone) (by simp)
  | stored hsink hsinks hsub hstored =>
      exact ⟨Option.some.inj (h.symm.trans hsink), hsinks, hsub, hstored⟩

/-- From its attachment to the guard's drop the call uses the sink the client knows. -/
theorem of_attached (hs : Stage s) {k p : Nat}
    (hpc : s.pc = .attached k p ∨ s.pc = .guarded k p ∨ s.pc = .dropping k p) :
    p = 0 ∧ s.blockSink = some 0 ∧ s.sinks = [⟨some k, false⟩] ∧ s.subscribers = [0] := by
  cases hs with
  | unmade _ _ _ hnone =>
      rcases hpc with hpc | hpc | hpc <;> exact absurd hnone (by simp [hpc, ForwardPc.activation])
  | made j hat _ _ _ | registered j hat _ _ _ =>
      rcases hpc with hpc | hpc | hpc <;> exact absurd (hpc.symm.trans hat) (by simp)
  | stored hsink hsinks hsub hstored =>
      rcases hpc with hpc | hpc | hpc <;>
        exact ⟨(hpc ▸ hstored :), hsink, by rw [hsinks, hpc]; rfl, hsub⟩

/-- A living guard has the client's sink registered and holding its sender. -/
theorem guarded (hs : Stage s) {k : Nat} (hguard : s.pc.guard = some k) :
    ∃ p, s.blockSink = some p ∧ s.subscribers = [p] ∧ s.sinks[p]? = some ⟨some k, false⟩ := by
  obtain ⟨p, hpc⟩ := ForwardPc.guard_eq_some hguard
  obtain ⟨-, hsink, hsinks, hsub⟩ := hs.of_attached (.inr (.inl hpc))
  exact ⟨0, hsink, hsub, by rw [hsinks]; rfl⟩

end Stage

theorem stage_start : Stage start := .unmade rfl rfl rfl rfl

theorem stage_effect {s t : Forwarding} (hs : Stage s) (h : Effect s t) : Stage t := by
  cases h with
  | opened hpc =>
      exact hs.of_pc (.opened s.channels) (by rw [hpc]; rfl) (by rw [hpc]; trivial) trivial
  | made k hpc hsink =>
      obtain ⟨hsinks, hsub⟩ := hs.of_opened hpc hsink
      exact .made k (by rw [hsinks]; rfl) hsink (by rw [hsinks]; rfl) hsub
  | reattached k p sink sink' hpc hsink hat hattach =>
      obtain ⟨rfl, hsinks, hsub, -⟩ := hs.of_blockSink hsink
      obtain rfl : ⟨s.pc.activation, false⟩ = sink := by simpa [hsinks] using hat
      obtain rfl : ⟨some k, false⟩ = sink' := Option.some.inj hattach
      exact .stored hsink (by rw [hsinks]; rfl) hsub rfl
  | refused k p sink hpc hsink hat hattach =>
      -- nothing panics under the lock, so it is never poisoned
      obtain ⟨rfl, hsinks, -, -⟩ := hs.of_blockSink hsink
      obtain rfl : ⟨s.pc.activation, false⟩ = sink := by simpa [hsinks] using hat
      cases hattach
  | registered k p hpc =>
      obtain ⟨rfl, hsink, hsinks, hsub⟩ := hs.of_made hpc
      exact .registered k rfl hsink hsinks (by rw [hsub]; rfl)
  | stored k p hpc =>
      obtain ⟨rfl, hsinks, hsub⟩ := hs.of_registered hpc
      exact .stored rfl hsinks hsub rfl
  | guarded k p hpc =>
      obtain ⟨rfl, hsink, hsinks, hsub⟩ := hs.of_attached (.inl hpc)
      exact .stored hsink hsinks hsub rfl
  | dropping k p hpc =>
      obtain ⟨rfl, hsink, hsinks, hsub⟩ := hs.of_attached (.inr (.inl hpc))
      exact .stored hsink hsinks hsub rfl
  | released k p hpc =>
      obtain ⟨rfl, hsink, hsinks, hsub⟩ := hs.of_attached (.inr (.inr hpc))
      exact .stored hsink (by rw [hsinks]; rfl) hsub trivial
  | ended k hpc => exact hs.of_pc .idle (by rw [hpc]; rfl) (by rw [hpc]; trivial) trivial
  | notified block _ _ | locked p block rest _ _ | sent k block _ => exact hs.of_eq rfl rfl rfl rfl

/-- What a step of the call leaves of the blocks: all, and its receiver is the one
there was or that of a new channel. -/
structure CallStep (s t : Forwarding) : Prop where
  pending : t.pending = s.pending
  sending : t.sending = s.sending
  notified : t.notified = s.notified
  log : t.log = s.log
  sends : t.sends = s.sends
  subscribers : s.subscribers ⊆ t.subscribers
  channels : s.channels ≤ t.channels
  receiver : ∀ k, t.pc.receiver = some k →
    s.pc.receiver = some k ∨ s.channels ≤ k ∧ k < t.channels

theorem CallStep.of_sinks {s : Forwarding} (sinks : List BlockSink) (blockSink : Option Nat)
    (pc : ForwardPc) (hpc : ∀ k, pc.receiver = some k → s.pc.receiver = some k) :
    CallStep s { s with sinks, blockSink, pc } :=
  ⟨rfl, rfl, rfl, rfl, rfl, fun _ hp => hp, Nat.le_refl _, fun k hk => .inl (hpc k hk)⟩

theorem CallStep.opened (s : Forwarding) :
    CallStep s { s with pc := .opened s.channels, channels := s.channels + 1 } := by
  refine ⟨rfl, rfl, rfl, rfl, rfl, fun _ hp => hp, Nat.le_succ _, fun k hk => ?_⟩
  obtain rfl := Option.some.inj hk
  exact .inr ⟨Nat.le_refl _, Nat.lt_succ_self _⟩

theorem CallStep.registered {s : Forwarding} {k p : Nat} (hpc : s.pc = .made k p) :
    CallStep s { s with subscribers := s.subscribers ++ [p], pc := .registered k p } :=
  ⟨rfl, rfl, rfl, rfl, rfl, List.subset_append_left _ _, Nat.le_refl _,
    fun _ hj => .inl (by rw [hpc]; exact hj)⟩

/-- The sends and the block between its two steps account for every lock step. -/
structure Inv (s : Forwarding) : Prop where
  stage : Stage s
  pending : ∀ x ∈ s.pending, x.1 ∈ s.subscribers
  once : List.Sublist (s.log.map LockStep.block ++ s.pending.map Prod.snd) s.notified
  forwarded : ∀ k, s.sentTo k ++ s.inFlightTo k = s.lockedIn k
  receiver : ∀ k, s.pc.receiver = some k → k < s.channels
  locked : ∀ e ∈ s.log, ∀ k, e.activation = some k → k < s.channels
  put : ∀ x ∈ s.sends, x.put = false → s.pc.receiver ≠ some x.channel

theorem inv_start : Inv start where
  stage := stage_start
  pending := by simp [start]
  once := by simp [start]
  forwarded := fun _ => rfl
  receiver := by simp [start, ForwardPc.receiver]
  locked := by simp [start]
  put := by simp [start]

theorem mem_lockedIn {s : Forwarding} {k : Nat} {block : Block × Nat} :
    block ∈ s.lockedIn k ↔ ∃ e ∈ s.log, e.activation = some k ∧ e.block = block := by
  simp [lockedIn, and_assoc]

theorem Inv.sends_lt {s : Forwarding} (hs : Inv s) {x : BlockSend} (hx : x ∈ s.sends) :
    x.channel < s.channels := by
  have hsent : x.block ∈ s.sentTo x.channel :=
    List.mem_map.mpr ⟨x, List.mem_filter.mpr ⟨hx, by simp⟩, rfl⟩
  have hlocked : x.block ∈ s.lockedIn x.channel :=
    hs.forwarded x.channel ▸ List.mem_append_left _ hsent
  obtain ⟨e, he, hactivation, -⟩ := mem_lockedIn.mp hlocked
  exact hs.locked e he _ hactivation

theorem Inv.call {s t : Forwarding} (hs : Inv s) (hstage : Stage t) (hc : CallStep s t) :
    Inv t where
  stage := hstage
  pending := fun x hx => hc.subscribers (hs.pending x (hc.pending ▸ hx))
  once := by rw [hc.log, hc.pending, hc.notified]; exact hs.once
  forwarded := fun k => by
    simp only [sentTo, inFlightTo, lockedIn, hc.sends, hc.sending, hc.log]
    exact hs.forwarded k
  receiver := fun k hk => by
    rcases hc.receiver k hk with hsame | ⟨-, hlt⟩
    · exact Nat.lt_of_lt_of_le (hs.receiver k hsame) hc.channels
    · exact hlt
  locked := fun e he k hk =>
    Nat.lt_of_lt_of_le (hs.locked e (hc.log ▸ he) k hk) hc.channels
  put := fun x hx hlost hreceiver => by
    rw [hc.sends] at hx
    rcases hc.receiver x.channel hreceiver with hsame | ⟨hnew, -⟩
    · exact hs.put x hx hlost hsame
    · exact absurd (hs.sends_lt hx) (Nat.not_lt.mpr hnew)

theorem Inv.notify {s : Forwarding} (hs : Inv s) (hpending : s.pending = []) (block : Block × Nat)
    (hstage : Stage { s with
      pending := s.subscribers.map fun p => (p, block), notified := s.notified ++ [block] }) :
    Inv { s with
      pending := s.subscribers.map fun p => (p, block), notified := s.notified ++ [block] } where
  stage := hstage
  pending := by simp
  once := by
    have honce : List.Sublist (s.log.map LockStep.block) s.notified := by
      simpa [hpending] using hs.once
    have hcalls : List.Sublist ((s.subscribers.map fun p => (p, block)).map Prod.snd) [block] := by
      rcases hs.stage.subscribers_cases with hnone | hone
      · simp [hnone]
      · simp [hone]
    exact honce.append hcalls
  forwarded := hs.forwarded
  receiver := hs.receiver
  locked := hs.locked
  put := hs.put

/-- A call of `on_block` takes the lock: what it is to send goes to the activation
under way. -/
theorem Inv.lock {s : Forwarding} (hs : Inv s) {p : Nat} {block : Block × Nat}
    {rest : List (Nat × (Block × Nat))} (hpending : s.pending = (p, block) :: rest)
    (hsending : s.sending = none) (hstage : Stage (s.onBlockLock p block rest)) :
    Inv (s.onBlockLock p block rest) where
  stage := hstage
  pending := fun x hx => hs.pending x (by rw [hpending]; exact List.mem_cons_of_mem _ hx)
  once := by simpa [onBlockLock, hpending] using hs.once
  forwarded := fun k => by
    have hbefore : s.sentTo k = s.lockedIn k := by
      simpa [inFlightTo, hsending] using hs.forwarded k
    have hclone : s.sinks[p]?.bind BlockSink.cloneTx = s.pc.activation :=
      hs.stage.cloneTx_eq (hs.pending (p, block) (by simp [hpending]))
    have hnew : (s.onBlockLock p block rest).inFlightTo k =
        ([LockStep.mk block s.pc.activation].filter (·.activation = some k)).map
          LockStep.block := by
      simp only [inFlightTo, onBlockLock, hclone]
      cases s.pc.activation with
      | none => simp
      | some j => by_cases hj : j = k <;> simp [hj]
    rw [hnew]
    simp only [lockedIn, onBlockLock, List.filter_append, List.map_append]
    exact congrArg (· ++ _) hbefore
  receiver := hs.receiver
  locked := fun e he k hk => by
    rcases List.mem_append.mp he with hold | hnew
    · exact hs.locked e hold k hk
    · rw [List.mem_singleton.mp hnew] at hk
      exact hs.receiver k (ForwardPc.receiver_of_activation hk)
  put := hs.put

theorem Inv.send {s : Forwarding} (hs : Inv s) {k : Nat} {block : Block × Nat}
    (hsending : s.sending = some (k, block))
    (hstage : Stage { s with
      sending := none, sends := s.sends ++ [⟨k, block, s.pc.receiver = some k⟩] }) :
    Inv { s with
      sending := none, sends := s.sends ++ [⟨k, block, s.pc.receiver = some k⟩] } where
  stage := hstage
  pending := hs.pending
  once := hs.once
  forwarded := fun j => by
    have hbefore := hs.forwarded j
    by_cases hj : k = j
    · simpa [sentTo, inFlightTo, lockedIn, hsending, hj] using hbefore
    · simpa [sentTo, inFlightTo, lockedIn, hsending, hj] using hbefore
  receiver := hs.receiver
  locked := hs.locked
  put := fun x hx hlost => by
    rcases List.mem_append.mp hx with hold | hnew
    · exact hs.put x hold hlost
    · rw [List.mem_singleton.mp hnew] at hlost ⊢
      exact of_decide_eq_false hlost

theorem inv_step {s t : Forwarding} {a : ForwardStep} (hs : Inv s)
    (h : s.step a = some t) : Inv t := by
  have heffect := step_effect h
  have hstage := stage_effect hs.stage heffect
  cases heffect with
  | opened => exact hs.call hstage (.opened s)
  | made k hpc | reattached k p _ _ hpc | stored k p hpc | guarded k p hpc | dropping k p hpc
  | released k p hpc =>
      exact hs.call hstage (.of_sinks _ _ _ fun j hj => by rw [hpc]; exact hj)
  | refused | ended => exact hs.call hstage (.of_sinks _ _ _ fun j hj => by cases hj)
  | registered k p hpc => exact hs.call hstage (.registered hpc)
  | notified block hpending => exact hs.notify hpending block hstage
  | locked p block rest hpending hsending => exact hs.lock hpending hsending hstage
  | sent k block hsending => exact hs.send hsending hstage

/-- What holds in every state of every interleaving. -/
structure Forwards (s : Forwarding) : Prop where
  registered : s.subscribers.length ≤ 1
  /-- No sink has a sender that is not of the guard alive. -/
  held : ¬ s.pc.Inside → ∀ sink ∈ s.sinks, sink.blockTx = s.pc.guard
  /-- The guard alive has the registered sink of the client hold its sender. -/
  guarded : ∀ k, s.pc.guard = some k →
    ∃ p, s.blockSink = some p ∧ s.subscribers = [p] ∧ s.sinks[p]? = some ⟨some k, false⟩
  /-- No block has more than one lock step. -/
  once : List.Sublist (s.log.map LockStep.block) s.notified
  /-- The blocks of an activation go to its channel once each, in order, and no others. -/
  sent : ∀ k, s.sentTo k ++ s.inFlightTo k = s.lockedIn k
  /-- As long as a scan has its receiver, all that was sent to it is in its channel. -/
  put : ∀ k, s.pc.receiver = some k → s.putIn k = s.sentTo k
  /-- A channel has no block of another activation, nor one of none. -/
  onlyActive : ∀ k, List.Sublist (s.putIn k) (s.lockedIn k)

theorem Inv.putIn_eq {s : Forwarding} (hs : Inv s) {k : Nat} (hk : s.pc.receiver = some k) :
    s.putIn k = s.sentTo k := by
  refine congrArg (List.map BlockSend.block) (List.filter_congr fun x hx => ?_)
  cases hput : x.put with
  | true => simp
  | false =>
      have hother : x.channel ≠ k := fun heq => hs.put x hx hput (heq ▸ hk)
      simp [hother]

theorem Inv.putIn_sublist {s : Forwarding} (hs : Inv s) (k : Nat) :
    List.Sublist (s.putIn k) (s.lockedIn k) := by
  have hput : List.Sublist (s.putIn k) (s.sentTo k) := by
    refine List.Sublist.map _ (List.monotone_filter_right _ fun x hx => ?_)
    simp only [Bool.decide_and, Bool.and_eq_true] at hx
    exact hx.1
  exact hput.trans (hs.forwarded k ▸ List.sublist_append_left _ _)

/-- For every interleaving of the node's `on_block` calls with the scans of a client, each
from its channel to the drop of its receiver. -/
theorem blocks_forwarded {s : Forwarding} {steps : List ForwardStep}
    (h : exec step start steps = some s) : Forwards s := by
  have hs : Inv s := Runs.exec_invariant (fun _ _ _ => inv_step) inv_start h
  refine ⟨?_, fun hout sink hsink => ?_, fun k => hs.stage.guarded, ?_, hs.forwarded,
    fun k => hs.putIn_eq, hs.putIn_sublist⟩
  · rcases hs.stage.subscribers_cases with hnone | hone
    · simp [hnone]
    · simp [hone]
  · exact (hs.stage.blockTx_eq hsink).trans (ForwardPc.activation_eq_guard hout)
  · exact (List.sublist_append_left _ _).trans hs.once

section examples

/-- Two scans of one client. A block is locked in the first, whose guard and receiver
are dropped before the block is sent; the next falls between the scans. -/
def twoScans : List ForwardStep :=
  [.openChannel, .attachSink, .blockSubscriber, .notify ⟨11, 0, []⟩ 1, .onBlockLock,
    .onBlockSend, .storeSink, .newGuard, .notify ⟨12, 0, []⟩ 2, .onBlockLock, .leave,
    .dropGuard, .dropReceiver, .openChannel, .onBlockSend, .notify ⟨13, 0, []⟩ 3,
    .onBlockLock, .attachSink, .newGuard, .notify ⟨14, 0, []⟩ 4, .onBlockLock,
    .onBlockSend]

theorem blocks_forwarded_twoScans : ∃ s, exec step start twoScans = some s ∧ Forwards s ∧
    s.sentTo 0 = [(⟨11, 0, []⟩, 1), (⟨12, 0, []⟩, 2)] ∧ s.putIn 0 = [(⟨11, 0, []⟩, 1)] ∧
    s.putIn 1 = [(⟨14, 0, []⟩, 4)] :=
  ⟨_, rfl, blocks_forwarded (show exec step start twoScans = some _ from rfl), by decide,
    by decide, by decide⟩

end examples
end Forwarding
end BdkFloresta
