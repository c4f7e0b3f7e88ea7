import BdkFloresta.Client.Steps
import BdkFloresta.Client.Wait

/-!
A spawned `scan_continuous` as one of several tasks. The statements between two awaits
are cut where the task looks at what others write: the node's state, its own token and,
with every event, the sender. What the node answers is left open, so every call of
`scan_continuous` is a run of the task that passes the same events.
-/

namespace BdkFloresta

/-- Where the task is. -/
inductive ScanPc where
  | spawned
  /-- `wait_until_ready` before a read, and at its `select`; with the version it has seen. -/
  | reading (seen : Nat)
  | parked (seen : Nat)
  /-- Before the filters are matched, up to the check after it. -/
  | matching
  | fetching
  /-- At the check of the block loop with these blocks left, and past it. -/
  | atBlock (rest : Nat)
  | inBlock (rest : Nat)
  /-- The filter scan is over, its last event not sent yet. -/
  | succeeded
  | failed
  | receiving
  /-- The call has returned, or has panicked. -/
  | returned
  deriving DecidableEq, Repr

inductive TaskStep where
  | subscribe
  | borrow
  | changed
  | matched (hashes : Bool)
  | fetched (blocks : Nat)
  | check
  | applyBlock (update : Option Update)
  /-- The block's insertion into the checkpoint panics. -/
  | panic
  | finish (update : Option Update)
  | notify (e : String)
  | receive (update : Option Update)
  /-- The `select` yields the cancelled token. -/
  | abort
  /-- The node answers with an error, or the channel is closed. -/
  | fail

namespace ScanPc
open Runs (enabled)

/-- One piece of the task, with the event it passes to `send_event`. -/
def step (node : Watch.Channel State) (cancelled : Bool) :
    ScanPc → TaskStep → Option (ScanPc × Option ScanEvent)
  | .spawned, .subscribe => some (.reading node.version, none)
  | .reading seen, .borrow =>
      match readyVerdict node.value with
      | none => some (.parked seen, none)
      | some .ok => some (.matching, none)
      | some _ => some (.returned, none)
  | .parked seen, .changed => enabled (seen ≠ node.version) (.reading node.version, none)
  | .parked _, .abort => enabled (cancelled = true) (.returned, none)
  | .parked _, .fail => enabled (node.closed = true) (.returned, none)
  | .matching, .matched hashes =>
      if cancelled then some (.failed, none)
      else some (if hashes then .fetching else .atBlock 0, none)
  | .fetching, .fetched blocks => some (.atBlock blocks, none)
  | .fetching, .abort => enabled (cancelled = true) (.failed, none)
  | .atBlock (rest + 1), .check =>
      if cancelled then some (.failed, none) else some (.inBlock rest, none)
  | .inBlock rest, .applyBlock update => some (.atBlock rest, update.map .walletUpdate)
  | .inBlock _, .panic => some (.returned, none)
  | .atBlock 0, .finish update => some (.succeeded, update.map .walletUpdate)
  | .matching, .fail | .fetching, .fail | .inBlock _, .fail | .atBlock 0, .fail =>
      some (.failed, none)
  | .succeeded, .notify _ => some (.receiving, some (.finished true))
  | .failed, .notify e => some (.returned, some (.error e))
  | .receiving, .receive update => some (.receiving, update.map .walletUpdate)
  | .receiving, .abort => enabled (cancelled = true) (.returned, none)
  | .receiving, .fail => some (.returned, none)
  | _, _ => none

end ScanPc

/-- The task by itself, under what it finds at each of its steps. -/
structure TaskRun where
  pc : ScanPc
  passed : List ScanEvent

namespace TaskRun

structure Label where
  node : Watch.Channel State
  cancelled : Bool
  step : TaskStep

def step (s : TaskRun) (a : Label) : Option TaskRun :=
  (s.pc.step a.node a.cancelled a.step).map fun (pc, event) =>
    ⟨pc, s.passed ++ event.toList⟩

/-- The task gets from one place to another and passes these events. -/
def Reaches (pc : ScanPc) (events : List ScanEvent) (pc' : ScanPc) : Prop :=
  ∀ passed, ∃ as, Runs.exec step ⟨pc, passed⟩ as = some ⟨pc', passed ++ events⟩

theorem Reaches.refl (pc : ScanPc) : Reaches pc [] pc := fun passed =>
  ⟨[], by simp [Runs.exec]⟩

theorem Reaches.trans {pc pc' pc'' : ScanPc} {events events' : List ScanEvent}
    (h : Reaches pc events pc') (h' : Reaches pc' events' pc'') :
    Reaches pc (events ++ events') pc'' := by
  intro passed
  obtain ⟨as, has⟩ := h passed
  obtain ⟨bs, hbs⟩ := h' (passed ++ events)
  exact ⟨as ++ bs, by rw [← List.append_assoc]; exact Runs.exec_append has hbs⟩

theorem Reaches.single {pc pc' : ScanPc} {event : Option ScanEvent} (a : Label)
    (h : pc.step a.node a.cancelled a.step = some (pc', event)) :
    Reaches pc event.toList pc' := fun passed =>
  ⟨[a], by simp [Runs.exec, step, h]⟩

theorem Reaches.silent {pc pc' : ScanPc} (a : Label)
    (h : pc.step a.node a.cancelled a.step = some (pc', none)) : Reaches pc [] pc' :=
  .single a h

theorem Reaches.sends {pc pc' : ScanPc} {event : ScanEvent} (a : Label)
    (h : pc.step a.node a.cancelled a.step = some (pc', some event)) :
    Reaches pc [event] pc' :=
  .single a h

end TaskRun

namespace Client
open TaskRun Fallible
variable {σ : Type} [BdkChain σ] [LawfulBdkChain σ] {env : ScanEnv}

/-- The channel as the task finds it where nothing depends on it. -/
def anyChannel : Watch.Channel State := ⟨.operational, 0, false⟩

theorem readyVerdict_ne_parked (state : State) : readyVerdict state ≠ some .parked := by
  cases state <;> simp [readyVerdict]

theorem readyVerdict_ne_panicked (state : State) : readyVerdict state ≠ some .panicked := by
  cases state <;> simp [readyVerdict]

theorem waitUntilReady_task (turns : List (State × Wake)) (seen : Nat) :
    ∃ pc, Reaches (.reading seen) [] pc ∧
      match waitUntilReady turns with
      | .ok => pc = .matching
      | .err _ => pc = .returned
      | .parked => pc ≠ .returned
      | .panicked => False := by
  induction turns generalizing seen with
  | nil => exact ⟨_, .refl _, by simp [waitUntilReady]⟩
  | cons turn rest ih =>
      obtain ⟨state, wake⟩ := turn
      cases hverdict : readyVerdict state with
      | some result =>
          rw [waitUntilReady_decided hverdict]
          cases result with
          | ok =>
              exact ⟨.matching, .silent ⟨⟨state, 0, false⟩, false, .borrow⟩
                (by simp [ScanPc.step, hverdict]), rfl⟩
          | err e =>
              exact ⟨.returned, .silent ⟨⟨state, 0, false⟩, false, .borrow⟩
                (by simp [ScanPc.step, hverdict]), rfl⟩
          | parked => exact absurd hverdict (readyVerdict_ne_parked state)
          | panicked => exact absurd hverdict (readyVerdict_ne_panicked state)
      | none =>
          rw [waitUntilReady_undecided hverdict]
          have hread : Reaches (.reading seen) [] (.parked seen) :=
            .silent ⟨⟨state, 0, false⟩, false, .borrow⟩ (by simp [ScanPc.step, hverdict])
          cases wake with
          | cancelled =>
              exact ⟨.returned, hread.trans (.silent ⟨anyChannel, true, .abort⟩ rfl), rfl⟩
          | senderGone =>
              exact ⟨.returned, hread.trans (.silent ⟨⟨state, 0, true⟩, false, .fail⟩ rfl), rfl⟩
          | changed =>
              obtain ⟨pc, hpc, hend⟩ := ih (seen + 1)
              have hwoken : Reaches (.parked seen) [] (.reading (seen + 1)) :=
                .silent ⟨⟨state, seen + 1, false⟩, false, .changed⟩ (by simp [ScanPc.step])
              exact ⟨pc, hread.trans (hwoken.trans hpc), hend⟩

/-- What the block loop passes, up to its end, to its failure or to a panic. -/
theorem scanBlocks_task (h : Unpoisoned env.eventTx) (i : Nat) (blocks : List Block)
    (c : Client σ) :
    ∃ events, (c.scanBlocks env i blocks).2.passed = c.passed ++ events ∧
      ((c.scanBlocks env i blocks).1 = .ok ∧ Reaches (.atBlock blocks.length) events (.atBlock 0) ∨
        (∃ e, (c.scanBlocks env i blocks).1 = .err e) ∧
          Reaches (.atBlock blocks.length) events .failed ∨
        (c.scanBlocks env i blocks).1 = .panicked ∧
          Reaches (.atBlock blocks.length) events .returned) := by
  induction blocks generalizing i c with
  | nil => exact ⟨[], (List.append_nil _).symm, .inl ⟨rfl, .refl _⟩⟩
  | cons block rest ih =>
      rw [List.length_cons]
      have hin : Reaches (.atBlock (rest.length + 1)) [] (.inBlock rest.length) :=
        .silent ⟨anyChannel, false, .check⟩ rfl
      simp only [scanBlocks]
      split
      · exact ⟨[], (List.append_nil _).symm,
          .inr (.inl ⟨⟨_, rfl⟩, .silent ⟨anyChannel, true, .check⟩ rfl⟩)⟩
      split
      · exact ⟨[], (List.append_nil _).symm,
          .inr (.inl ⟨⟨_, rfl⟩, hin.trans (.silent ⟨anyChannel, false, .fail⟩ rfl)⟩)⟩
      next height _ =>
        by_cases hpanics : c.PanicsOn block height
        · rw [scanBlock_of_panicsOn hpanics]
          exact ⟨[], (List.append_nil _).symm,
            .inr (.inr ⟨rfl, hin.trans (.silent ⟨anyChannel, false, .panic⟩ rfl)⟩)⟩
        have hexit : (c.scanBlock env.eventTx block height).1 ≠ .panicked :=
          mt scanBlock_panicked_iff.mp hpanics
        rw [andThen_of_ok (scanBlock_ok h hexit)]
        obtain ⟨events, hpassed, hreaches⟩ := ih (i + 1) (c.scanBlock env.eventTx block height).2
        have hblock : ∃ update : Option Update,
            (c.scanBlock env.eventTx block height).2.passed =
              c.passed ++ (update.map ScanEvent.walletUpdate).toList := by
          rcases scanBlock_cases env.eventTx block height c with ⟨-, heq⟩ | ⟨-, heq⟩ <;>
            rw [heq] at hexit ⊢
          · exact ⟨none, by simp [applyBlock_passed]⟩
          · exact ⟨some _, by
              rw [emitUpdate_passed (takes_of_emitUpdate hexit), applyBlock_passed]; rfl⟩
        obtain ⟨update, hupdate⟩ := hblock
        have happly : Reaches (.inBlock rest.length) (update.map ScanEvent.walletUpdate).toList
            (.atBlock rest.length) := .single ⟨anyChannel, false, .applyBlock update⟩ rfl
        have hstep := hin.trans happly
        refine ⟨_, by rw [hpassed, hupdate, List.append_assoc], ?_⟩
        exact hreaches.imp (fun h => ⟨h.1, hstep.trans h.2⟩)
          (Or.imp (fun h => ⟨h.1, hstep.trans h.2⟩) fun h => ⟨h.1, hstep.trans h.2⟩)

theorem finishScan_task (h : Unpoisoned env.eventTx) (stopHeight : Nat) (c : Client σ) :
    ∃ events pc, (c.finishScan env stopHeight).2.passed = c.passed ++ events ∧
      Reaches (.atBlock 0) events pc ∧
      match (c.finishScan env stopHeight).1 with
      | .ok => pc = .succeeded
      | .err _ => pc = .failed
      | .parked | .panicked => False := by
  rcases finishScan_cases env stopHeight c with
    ⟨-, heq⟩ | ⟨hlt, ⟨e, heq⟩ | ⟨stopHash, -, heq⟩⟩ <;> rw [heq]
  · exact ⟨[], .succeeded, (List.append_nil _).symm,
      .silent ⟨anyChannel, false, .finish none⟩ rfl, rfl⟩
  · exact ⟨[], .failed, (List.append_nil _).symm, .silent ⟨anyChannel, false, .fail⟩ rfl, rfl⟩
  · have htakes : c.checkpoint.Takes ⟨stopHeight, stopHash⟩ := CheckPoint.takes_above hlt
    rw [emitUpdate_exit htakes h, emitUpdate_passed htakes]
    exact ⟨_, .succeeded, rfl,
      .sends ⟨anyChannel, false, .finish (some (c.cutUpdate ⟨stopHeight, stopHash⟩))⟩ rfl, rfl⟩

/-- What the filter scan passes, up to its end, to its failure, to a dropped fetch or to a
panic. -/
theorem scanInner_task (h : Unpoisoned env.eventTx) (kind : ScanKind) (c : Client σ) :
    ∃ events pc, (c.scanInner env kind).2.passed = c.passed ++ events ∧
      Reaches .matching events pc ∧
      match (c.scanInner env kind).1 with
      | .ok => pc = .succeeded
      | .err _ => pc = .failed
      | .parked => pc = .fetching
      | .panicked => pc = .returned := by
  have hfail : Reaches .matching [] .failed := .silent ⟨anyChannel, false, .fail⟩ rfl
  have hfetch : Reaches .matching [] .fetching := .silent ⟨anyChannel, false, .matched true⟩ rfl
  simp only [scanInner]
  cases hfetched : c.fetchRelevant env kind with
  | error exit =>
      cases exit with
      | ok => exact absurd rfl (fetchRelevant_exit hfetched).1
      | panicked => exact absurd rfl (fetchRelevant_exit hfetched).2
      | err e => exact ⟨[], .failed, (List.append_nil _).symm, hfail, rfl⟩
      | parked => exact ⟨[], .fetching, (List.append_nil _).symm, hfetch, rfl⟩
  | ok answer =>
      obtain ⟨stopHeight, blocks⟩ := answer
      obtain ⟨events, hpassed, hend⟩ := scanBlocks_task h 0 blocks c
      have hanswer : Reaches .fetching [] (.atBlock blocks.length) :=
        .silent ⟨anyChannel, false, .fetched blocks.length⟩ rfl
      have hblocks := hfetch.trans hanswer
      rcases hend with ⟨hok, hreaches⟩ | ⟨⟨e, herr⟩, hreaches⟩ | ⟨hpanicked, hreaches⟩
      · obtain ⟨last, pc, hlast, hfinish, hplace⟩ :=
          finishScan_task h stopHeight (c.scanBlocks env 0 blocks).2
        simp only
        rw [andThen_of_ok hok, hlast, hpassed]
        refine ⟨events ++ last, pc, by rw [List.append_assoc],
          hblocks.trans (hreaches.trans hfinish), ?_⟩
        split at hplace
        · exact hplace
        · exact hplace
        · exact hplace.elim
        · exact hplace.elim
      · simp only
        rw [andThen_of_err herr]
        exact ⟨events, .failed, hpassed, hblocks.trans hreaches, rfl⟩
      · simp only
        rw [andThen_of_panicked hpanicked]
        exact ⟨events, .returned, hpassed, hblocks.trans hreaches, rfl⟩

theorem notifiedScan_task (h : Unpoisoned env.eventTx) (kind : ScanKind) (c : Client σ) :
    ∃ events pc, (c.notifiedScan env true kind).2.passed = c.passed ++ events ∧
      Reaches .matching events pc ∧
      match (c.notifiedScan env true kind).1 with
      | .ok => pc = .receiving
      | .err _ | .panicked => pc = .returned
      | .parked => pc = .fetching := by
  obtain ⟨events, pc, hpassed, hreaches, hplace⟩ := scanInner_task h kind c
  generalize hscan : c.scanInner env kind = r at hpassed hplace
  obtain ⟨exit, scanned⟩ := r
  have hsend (event : ScanEvent) : (scanned.sendEvent env.eventTx event).2.passed =
      c.passed ++ (events ++ [event]) := by
    rw [sendEvent_passed, hpassed, List.append_assoc]
  simp only [notifiedScan, hscan]
  cases exit with
  | ok =>
      obtain rfl := hplace
      simp only [closingEvent]
      rw [andThen_of_ok (sendEvent_exit h (.finished true) scanned)]
      exact ⟨_, .receiving, hsend _,
        hreaches.trans (.sends ⟨anyChannel, false, .notify ""⟩ rfl), rfl⟩
  | err e =>
      obtain rfl := hplace
      simp only [closingEvent]
      rw [andThen_of_ok (sendEvent_exit h (.error e.display) scanned)]
      exact ⟨_, .returned, hsend _,
        hreaches.trans (.sends ⟨anyChannel, false, .notify e.display⟩ rfl), rfl⟩
  | parked | panicked => exact ⟨events, pc, hpassed, hreaches, hplace⟩

theorem receiveBlock_task (eventTx : Nat → EventSlot) (block : Block) (height : Nat)
    (c : Client σ) : ∃ update : Option Update,
      (c.receiveBlock eventTx block height).2.passed =
        c.passed ++ (update.map ScanEvent.walletUpdate).toList := by
  simp only [receiveBlock]
  split
  · exact ⟨none, (List.append_nil _).symm⟩
  next h =>
    have htakes : (c.applyBlock block height).2.checkpoint.Takes ⟨height, block.blockHash⟩ :=
      CheckPoint.takes_above (Nat.not_le.mp h)
    exact ⟨some _, emitUpdate_passed htakes⟩

theorem receiveLoop_task (h : Unpoisoned env.eventTx) (deliveries : List Recv) (c : Client σ) :
    ∃ events pc, (c.receiveLoop env.eventTx deliveries).2.passed = c.passed ++ events ∧
      Reaches .receiving events pc ∧
      ((c.receiveLoop env.eventTx deliveries).1 ≠ .parked ↔ pc = .returned) := by
  induction deliveries generalizing c with
  | nil => exact ⟨[], _, (List.append_nil _).symm, .refl _, by simp [receiveLoop]⟩
  | cons delivery rest ih =>
      cases delivery with
      | cancelled =>
          exact ⟨[], .returned, (List.append_nil _).symm,
            .silent ⟨anyChannel, true, .abort⟩ rfl, by simp [receiveLoop]⟩
      | closed =>
          exact ⟨[], .returned, (List.append_nil _).symm,
            .silent ⟨anyChannel, false, .fail⟩ rfl, by simp [receiveLoop]⟩
      | block block height =>
          obtain ⟨update, hupdate⟩ := receiveBlock_task env.eventTx block height c
          obtain ⟨events, pc, hpassed, hreaches, hend⟩ :=
            ih (c.receiveBlock env.eventTx block height).2
          simp only [receiveLoop]
          rw [andThen_of_ok (receiveBlock_exit h block height c), hpassed, hupdate]
          have hreceive : Reaches .receiving (update.map ScanEvent.walletUpdate).toList
              .receiving := .single ⟨anyChannel, false, .receive update⟩ rfl
          exact ⟨_, pc, List.append_assoc .., hreceive.trans hreaches, hend⟩

/-- Whatever the node answers and whenever the token is cancelled, a call of
`scan_continuous` is a run of the task: it passes the same events, and the task is over
when the call has returned or panicked, and at an await where the call is dropped. -/
theorem scanContinuous_task (h : Unpoisoned env.eventTx) (hsink : env.sinkPoisoned = false)
    (kind : ScanKind) (deliveries : List Recv) (c : Client σ) :
    ∃ events pc, (c.scanContinuous env kind deliveries).2.passed = c.passed ++ events ∧
      Reaches .spawned events pc ∧
      ((c.scanContinuous env kind deliveries).1 ≠ .parked ↔ pc = .returned) := by
  have hstart : Reaches .spawned [] (.reading 0) := .silent ⟨anyChannel, false, .subscribe⟩ rfl
  obtain ⟨pc, hwaited, hplace⟩ := waitUntilReady_task env.ready 0
  simp only [scanContinuous, hsink, Bool.false_eq_true, if_false]
  cases hready : waitUntilReady env.ready with
  | err e =>
      rw [hready] at hplace
      exact ⟨[], pc, (List.append_nil _).symm, hstart.trans hwaited, by simp [hplace]⟩
  | parked =>
      rw [hready] at hplace
      exact ⟨[], pc, (List.append_nil _).symm, hstart.trans hwaited, by simp [hplace]⟩
  | panicked => exact absurd hready (waitUntilReady_ne_panicked env.ready)
  | ok =>
      rw [hready] at hplace
      obtain rfl : pc = .matching := hplace
      have hmatching := hstart.trans hwaited
      obtain ⟨events, pc, hpassed, hreaches, hscan⟩ := notifiedScan_task h kind c
      rw [andThen_ok]
      generalize c.notifiedScan env true kind = r at hpassed hscan
      obtain ⟨exit, scanned⟩ := r
      cases exit with
      | ok =>
          obtain rfl := hscan
          obtain ⟨later, pc, hlater, hloop, hend⟩ := receiveLoop_task h deliveries scanned
          rw [andThen_ok, hlater, hpassed]
          exact ⟨events ++ later, pc, List.append_assoc ..,
            hmatching.trans (hreaches.trans hloop), hend⟩
      | err e =>
          obtain rfl : pc = .returned := hscan
          exact ⟨events, .returned, hpassed, hmatching.trans hreaches, by simp⟩
      | panicked =>
          obtain rfl : pc = .returned := hscan
          exact ⟨events, .returned, hpassed, hmatching.trans hreaches, by simp⟩
      | parked =>
          obtain rfl : pc = .fetching := hscan
          exact ⟨events, .fetching, hpassed, hmatching.trans hreaches, by simp⟩

end Client
end BdkFloresta
