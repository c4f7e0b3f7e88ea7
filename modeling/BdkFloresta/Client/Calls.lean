import BdkFloresta.Client.Steps

/-!
The calls made on one client, in any number and however each of them ends, and
their invariant rule: a property that the operations of the two loops keep, that
a final checkpoint keeps and that closing events keep holds after any calls. A panic
ends them all, and leaves the property of the client before the block that it was at.
-/

namespace BdkFloresta

inductive Call where
  | scan (env : ScanEnv) (kind : ScanKind)
  | scanContinuous (env : ScanEnv) (kind : ScanKind) (deliveries : List Recv)

def Call.env : Call → ScanEnv
  | .scan env _ | .scanContinuous env _ _ => env

def ScanEvent.update? : ScanEvent → Option Update
  | .walletUpdate update => some update
  | .finished _ | .error _ => none

def updates (events : List ScanEvent) : List Update := events.filterMap ScanEvent.update?

theorem updates_update (events : List ScanEvent) (update : Update) :
    updates (events ++ [.walletUpdate update]) = updates events ++ [update] :=
  List.filterMap_append

theorem updates_closing {event : ScanEvent} (h : event.update? = none)
    (events : List ScanEvent) : updates (events ++ [event]) = updates events := by
  simp [updates, h]

namespace Client
variable {σ : Type} [BdkChain σ]

def run (call : Call) (c : Client σ) : Exit × Client σ :=
  match call with
  | .scan env kind => c.scan env kind
  | .scanContinuous env kind deliveries => c.scanContinuous env kind deliveries

/-- The calls, made one after another however each of them returned or was dropped. A
client whose call panics is unwound with its task, so that call is the last. -/
def makeCalls : List Call → Client σ → Exit × Client σ
  | [], c => (.ok, c)
  | call :: rest, c =>
      let r := c.run call
      if r.1 = .panicked then r else makeCalls rest r.2

def runCalls (calls : List Call) (c : Client σ) : Client σ := (makeCalls calls c).2

theorem runCalls_singleton (call : Call) (c : Client σ) :
    runCalls [call] c = (c.run call).2 := by
  simp only [runCalls, makeCalls]
  split <;> rfl

/-- The last call made panicked. -/
def Panics (calls : List Call) (c : Client σ) : Prop := (makeCalls calls c).1 = .panicked

instance (calls : List Call) (c : Client σ) : Decidable (Panics calls c) :=
  inferInstanceAs (Decidable (_ = _))

theorem closingEvent_update {keepGoing : Bool} {exit : Exit} {event : ScanEvent}
    (h : closingEvent keepGoing exit = some event) : event.update? = none := by
  cases exit with
  | ok => exact Option.some.inj h ▸ rfl
  | err e => exact Option.some.inj h ▸ rfl
  | parked | panicked => cases h

theorem notifiedScan_cases {env : ScanEnv} (h : Unpoisoned env.eventTx) (keepGoing : Bool)
    (kind : ScanKind) (c : Client σ) :
    c.notifiedScan env keepGoing kind = c.scanInner env kind ∨
    ∃ event, ScanEvent.update? event = none ∧ c.notifiedScan env keepGoing kind =
      ((c.scanInner env kind).1, ((c.scanInner env kind).2.sendEvent env.eventTx event).2) := by
  simp only [notifiedScan]
  split
  · exact .inl rfl
  next event hevent =>
    refine .inr ⟨event, closingEvent_update hevent, ?_⟩
    rw [andThen_of_ok (sendEvent_exit h event _)]

/-- A scan that does not get past its wait leaves the client untouched. -/
theorem scan_cases (env : ScanEnv) (kind : ScanKind) (c : Client σ) :
    (∃ exit, exit ≠ .ok ∧ c.scan env kind = (exit, c)) ∨
      c.scan env kind = c.notifiedScan env false kind := by
  simp only [scan]
  cases waitUntilReady env.ready with
  | ok => exact .inr rfl
  | err e => exact .inl ⟨.err e, nofun, rfl⟩
  | parked => exact .inl ⟨.parked, nofun, rfl⟩
  | panicked => exact .inl ⟨.panicked, nofun, rfl⟩

/-- What a successful scan leaves is what its filter scan leaves, up to the
closing event. -/
theorem scan_ok {env : ScanEnv} (h : Unpoisoned env.eventTx) {kind : ScanKind}
    {c c' : Client σ} (hscan : c.scan env kind = (.ok, c')) :
    ∃ d, c.scanInner env kind = (.ok, d) ∧ c'.checkpoint = d.checkpoint ∧
      c'.txGraph = d.txGraph ∧ c'.applied = d.applied ∧
      updates c'.passed = updates d.passed := by
  rcases scan_cases env kind c with ⟨exit, hexit, heq⟩ | heq
  · rw [heq] at hscan
    exact absurd (congrArg Prod.fst hscan) hexit
  · rw [heq] at hscan
    rcases notifiedScan_cases h false kind c with heq | ⟨event, hevent, heq⟩
    · exact ⟨c', heq.symm.trans hscan, rfl, rfl, rfl, rfl⟩
    · rw [heq, Prod.mk.injEq] at hscan
      obtain ⟨hok, rfl⟩ := hscan
      exact ⟨_, Prod.ext hok rfl, sendEvent_checkpoint .., sendEvent_txGraph ..,
        sendEvent_applied .., by rw [sendEvent_passed, updates_closing hevent]⟩

/-- A property kept by the operations of the calls under this event lock, as long as they
do not panic. A scan finishes above its checkpoint. -/
structure KeptBy (eventTx : Nat → EventSlot) (P : Client σ → Prop) : Prop where
  scanBlock : ∀ block height {c}, P c → (c.scanBlock eventTx block height).1 ≠ .panicked →
    P (c.scanBlock eventTx block height).2
  receiveBlock : ∀ block height {c}, P c → P (c.receiveBlock eventTx block height).2
  finishScan : ∀ block {c}, c.checkpoint.height < block.height → P c →
    P (c.emitUpdate eventTx block).2
  sendClosing : ∀ {event c}, event.update? = none → P c → P (c.sendEvent eventTx event).2

/-- How calls on a client with a kept property end: with the property again, or in a panic
on the block applied last. -/
inductive Leaves (P : Client σ → Prop) : Exit × Client σ → Prop where
  | kept {exit c} (hexit : exit ≠ .panicked) (hc : P c) : Leaves P (exit, c)
  | panicked {c block height} (hc : P c) (h : c.PanicsOn block height) :
      Leaves P (.panicked, (c.applyBlock block height).2)

namespace Leaves
variable {P : Client σ → Prop} {r : Exit × Client σ}

theorem ok {c : Client σ} (hc : P c) : Leaves P (.ok, c) := .kept (by simp) hc

theorem err (e : ClientError) {c : Client σ} (hc : P c) : Leaves P (.err e, c) :=
  .kept (by simp) hc

theorem parked {c : Client σ} (hc : P c) : Leaves P (.parked, c) := .kept (by simp) hc

theorem andThen_ok {next : Client σ → Exit × Client σ} (hr : Leaves P r)
    (hnext : r.1 = .ok → P r.2 → Leaves P (next r.2)) : Leaves P (andThen r next) := by
  cases hr with
  | @kept exit c hexit hc =>
      cases exit with
      | ok => exact hnext rfl hc
      | err e => exact .err e hc
      | parked => exact .parked hc
      | panicked => exact absurd rfl hexit
  | panicked hc h => exact .panicked hc h

theorem andThen {next : Client σ → Exit × Client σ} (hr : Leaves P r)
    (hnext : ∀ c, P c → Leaves P (next c)) : Leaves P (andThen r next) :=
  hr.andThen_ok fun _ => hnext r.2

theorem of_kept (hexit : r.1 ≠ .panicked) (hc : P r.2) : Leaves P r := .kept hexit hc

theorem of_ne (hr : Leaves P r) (hexit : r.1 ≠ .panicked) : P r.2 := by
  cases hr with
  | kept _ hc => exact hc
  | panicked hc h => exact absurd rfl hexit

/-- What the application of a block keeps too holds after a panic as well. -/
theorem always (hr : Leaves P r)
    (happly : ∀ {c : Client σ} block height, P c → P (c.applyBlock block height).2) : P r.2 := by
  cases hr with
  | kept _ hc => exact hc
  | panicked hc h => exact happly _ _ hc

/-- The closing event of a filter scan is sent after it, unless that has panicked. -/
theorem notifiedScan {env : ScanEnv} {kind : ScanKind} {c : Client σ}
    (hinner : Leaves P (c.scanInner env kind)) (keepGoing : Bool)
    (hclosing : ∀ {event d}, ScanEvent.update? event = none → P d →
      P (d.sendEvent env.eventTx event).2) : Leaves P (c.notifiedScan env keepGoing kind) := by
  simp only [Client.notifiedScan]
  split
  · exact hinner
  next event hevent =>
    have hexit : (c.scanInner env kind).1 ≠ .panicked := by
      intro hpanicked
      rw [hpanicked] at hevent
      cases hevent
    refine andThen ?_ fun _ hd => .kept hexit hd
    exact .of_kept (sendEvent_ne_panicked _ _ _)
      (hclosing (closingEvent_update hevent) (hinner.of_ne hexit))

end Leaves

omit [BdkChain σ] in
theorem andThen_ne_panicked {r : Exit × Client σ} {next : Client σ → Exit × Client σ}
    (hr : r.1 ≠ .panicked) (hnext : ∀ c, r.2 = c → (next c).1 ≠ .panicked) :
    (andThen r next).1 ≠ .panicked := by
  obtain ⟨exit, c⟩ := r
  cases exit with
  | ok => exact hnext c rfl
  | err e => nofun
  | parked => nofun
  | panicked => exact absurd rfl hr

theorem receiveLoop_ne_panicked [LawfulBdkChain σ] (eventTx : Nat → EventSlot)
    (deliveries : List Recv) (c : Client σ) :
    (c.receiveLoop eventTx deliveries).1 ≠ .panicked := by
  induction deliveries generalizing c with
  | nil => nofun
  | cons delivery rest ih =>
      cases delivery with
      | cancelled | closed => nofun
      | block block height =>
          exact andThen_ne_panicked (receiveBlock_ne_panicked _ _ _ c) fun d _ => ih d

section kept
variable [LawfulBdkChain σ] {P : Client σ → Prop} {env : ScanEnv}
  (kept : KeptBy env.eventTx P)
include kept

theorem leaves_scanBlocks (i : Nat) (blocks : List Block) {c : Client σ} (hc : P c) :
    Leaves P (c.scanBlocks env i blocks) := by
  induction blocks generalizing i c with
  | nil => exact .ok hc
  | cons block rest ih =>
      simp only [scanBlocks]
      split
      · exact .err _ hc
      · split
        · exact .err _ hc
        next height _ =>
          refine Leaves.andThen ?_ fun _ hd => ih (i + 1) hd
          by_cases hpanics : c.PanicsOn block height
          · rw [scanBlock_of_panicsOn hpanics]
            exact .panicked hc hpanics
          · have hexit : (c.scanBlock env.eventTx block height).1 ≠ .panicked :=
              mt scanBlock_panicked_iff.mp hpanics
            exact .of_kept hexit (kept.scanBlock block height hc hexit)

theorem leaves_scanInner (kind : ScanKind) {c : Client σ} (hc : P c) :
    Leaves P (c.scanInner env kind) := by
  simp only [scanInner]
  split
  next exit hfetch => exact .kept (fetchRelevant_exit hfetch).2 hc
  next stopHeight blocks _ =>
    refine (leaves_scanBlocks kept 0 blocks hc).andThen fun d hd => ?_
    rcases finishScan_cases env stopHeight d with
      ⟨-, heq⟩ | ⟨hlt, ⟨e, heq⟩ | ⟨stopHash, -, heq⟩⟩ <;> rw [heq]
    · exact .ok hd
    · exact .err e hd
    · have htakes : d.checkpoint.Takes ⟨stopHeight, stopHash⟩ := CheckPoint.takes_above hlt
      refine .of_kept ?_ (kept.finishScan ⟨stopHeight, stopHash⟩ hlt hd)
      rw [emitUpdate_of_takes htakes]
      exact sendEvent_ne_panicked _ _ _

theorem leaves_notifiedScan (keepGoing : Bool) (kind : ScanKind) {c : Client σ} (hc : P c) :
    Leaves P (c.notifiedScan env keepGoing kind) :=
  (leaves_scanInner kept kind hc).notifiedScan keepGoing kept.sendClosing

theorem leaves_receiveLoop (deliveries : List Recv) {c : Client σ} (hc : P c) :
    Leaves P (c.receiveLoop env.eventTx deliveries) := by
  induction deliveries generalizing c with
  | nil => exact .parked hc
  | cons delivery rest ih =>
      cases delivery with
      | cancelled | closed => exact .err _ hc
      | block block height =>
          refine Leaves.andThen ?_ fun _ hd => ih hd
          exact .of_kept (receiveBlock_ne_panicked _ block height c)
            (kept.receiveBlock block height hc)

end kept

section calls
variable [LawfulBdkChain σ] {P : Client σ → Prop}

/-- The invariant rule of one call. -/
theorem leaves_run {call : Call} (kept : KeptBy call.env.eventTx P) {c : Client σ}
    (hc : P c) : Leaves P (c.run call) := by
  have hready (ready : List (State × Wake)) : Leaves P (waitUntilReady ready, c) :=
    .kept (waitUntilReady_ne_panicked ready) hc
  cases call with
  | scan env kind => exact (hready _).andThen fun c hc => leaves_notifiedScan kept false kind hc
  | scanContinuous env kind deliveries =>
      refine (hready _).andThen fun c hc => ?_
      split
      · exact .err _ hc
      · exact (leaves_notifiedScan kept true kind hc).andThen
          fun c hc => leaves_receiveLoop kept deliveries hc

omit [LawfulBdkChain σ] in
/-- The invariant rule of a client's calls. -/
theorem leaves_makeCalls {calls : List Call}
    (hcalls : ∀ call ∈ calls, ∀ {c : Client σ}, P c → Leaves P (c.run call))
    {c : Client σ} (hc : P c) : Leaves P (makeCalls calls c) := by
  induction calls generalizing c with
  | nil => exact .ok hc
  | cons call rest ih =>
      obtain ⟨hcall, hrest⟩ := List.forall_mem_cons.mp hcalls
      simp only [makeCalls]
      split
      · exact hcall hc
      next hexit => exact ih hrest ((hcall hc).of_ne hexit)

/-- The calls leave the first block of the checkpoint in its place. -/
theorem base_kept (eventTx : Nat → EventSlot) (base : Nat × BlockHash) :
    KeptBy (σ := σ) eventTx fun c => c.checkpoint.base = base where
  scanBlock block height c hc hexit := (scanBlock_base hexit).trans hc
  receiveBlock block height c hc := by
    simp only [receiveBlock]
    split
    · exact hc
    next hlt =>
      have htakes : (c.applyBlock block height).2.checkpoint.Takes ⟨height, block.blockHash⟩ :=
        CheckPoint.takes_above (Nat.not_le.mp hlt)
      rw [emitUpdate_checkpoint htakes, CheckPoint.base_insertBlock htakes]
      exact hc
  finishScan block c hlt hc := by
    rw [emitUpdate_checkpoint (CheckPoint.takes_above hlt),
      CheckPoint.base_insertBlock (CheckPoint.takes_above hlt), hc]
  sendClosing _ hc := by rw [sendEvent_checkpoint, hc]

theorem run_base (call : Call) (c : Client σ) :
    (c.run call).2.checkpoint.base = c.checkpoint.base :=
  (leaves_run (base_kept call.env.eventTx c.checkpoint.base) rfl).always fun _ _ hc => hc

/-- A call panics only if its filter scan does. -/
theorem run_ne_panicked {call : Call} (hslot : Unpoisoned call.env.eventTx) {c : Client σ}
    (h : LocatesOnly (FromGenesis c.checkpoint.base) call.env) : (c.run call).1 ≠ .panicked := by
  have hscan (env : ScanEnv) (hslot : Unpoisoned env.eventTx)
      (h : LocatesOnly (FromGenesis c.checkpoint.base) env) (keepGoing : Bool) (kind : ScanKind) :
      (c.notifiedScan env keepGoing kind).1 ≠ .panicked := by
    rcases notifiedScan_cases hslot keepGoing kind c with heq | ⟨event, -, heq⟩ <;> rw [heq] <;>
      exact fun hexit => scanInner_panicked hslot hexit h
  have hready := waitUntilReady_ne_panicked call.env.ready
  cases call with
  | scan env kind =>
      refine andThen_ne_panicked hready fun d hd => ?_
      obtain rfl := hd
      exact hscan env hslot h false kind
  | scanContinuous env kind deliveries =>
      refine andThen_ne_panicked hready fun d hd => ?_
      obtain rfl := hd
      split
      · nofun
      · exact andThen_ne_panicked (hscan env hslot h true kind)
          fun d _ => receiveLoop_ne_panicked env.eventTx deliveries d

/-- Calls to which blocks are located from the wallet's first block on do not panic. -/
theorem not_panics {calls : List Call} {c : Client σ}
    (hslot : ∀ call ∈ calls, Unpoisoned call.env.eventTx)
    (h : ∀ call ∈ calls, LocatesOnly (FromGenesis c.checkpoint.base) call.env) :
    ¬ Panics calls c := by
  induction calls generalizing c with
  | nil => nofun
  | cons call rest ih =>
      obtain ⟨hslot, hslots⟩ := List.forall_mem_cons.mp hslot
      obtain ⟨hcall, hrest⟩ := List.forall_mem_cons.mp h
      rw [Panics, makeCalls, if_neg (run_ne_panicked hslot hcall)]
      exact ih hslots (by rwa [run_base])

theorem kept_runCalls {calls : List Call} (kept : ∀ call ∈ calls, KeptBy call.env.eventTx P)
    {c : Client σ} (hc : P c) (hreturned : ¬ Panics calls c) : P (runCalls calls c) :=
  (leaves_makeCalls (fun call hcall _ hc => leaves_run (kept call hcall) hc) hc).of_ne hreturned

end calls
end Client
end BdkFloresta
