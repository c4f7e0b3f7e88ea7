import BdkFloresta.Client.Honest
import BdkFloresta.Chain.WalletIndex

/-!
The event stream of one call. What a call passes to `send_event` is a word: the
updates of its filter scan, the event that closes the scan, and for a continuous
scan the updates of the receive loop. A call that panics has passed updates only.
What the subscriber gets of the word is decided by the sender alone, so a sender taken
out in the middle leaves a prefix.
-/

namespace BdkFloresta

def walletUpdates (us : List Update) : List ScanEvent := us.map .walletUpdate

@[simp] theorem walletUpdates_append (us vs : List Update) :
    walletUpdates (us ++ vs) = walletUpdates us ++ walletUpdates vs := List.map_append

/-- The tip heights of the updates' chains strictly increase. -/
def Rising (us : List Update) : Prop :=
  us.Pairwise fun u v => ∃ chain chain', u.chain = some chain ∧ v.chain = some chain' ∧
    chain.height < chain'.height

/-- What a call of `scan` emits, by how it ends. -/
inductive ScanWord : Exit → List ScanEvent → Prop where
  | finished (us : List Update) : ScanWord .ok (walletUpdates us ++ [.finished false])
  | failed (us : List Update) (e : ClientError) :
      ScanWord (.err e) (walletUpdates us ++ [.error e.display])
  | fetching : ScanWord .parked []

/-- What a call of `scan_continuous` emits; it never returns `Ok`. -/
inductive ContinuousWord : Exit → List ScanEvent → Prop where
  | failed (us : List Update) (e : ClientError) :
      ContinuousWord (.err e) (walletUpdates us ++ [.error e.display])
  | watching (us watched : List Update) (exit : Exit) : exit ≠ .ok → Rising watched →
      ContinuousWord exit (walletUpdates us ++ .finished true :: walletUpdates watched)
  | fetching : ContinuousWord .parked []

/-- The sender is taken out of the channel once `n` events have been passed. -/
def emptiedAt (n : Nat) : Nat → EventSlot := fun i => if i < n then .sender else .taken

/-- Of the events passed from the `i`-th on, those that reach the channel. -/
def reaching (eventTx : Nat → EventSlot) : Nat → List ScanEvent → List ScanEvent
  | _, [] => []
  | i, event :: rest =>
      if eventTx i = .sender then event :: reaching eventTx (i + 1) rest
      else reaching eventTx (i + 1) rest

theorem reaching_append (eventTx : Nat → EventSlot) (i : Nat) (es fs : List ScanEvent) :
    reaching eventTx i (es ++ fs) =
      reaching eventTx i es ++ reaching eventTx (i + es.length) fs := by
  induction es generalizing i with
  | nil => rfl
  | cons event rest ih =>
      have hlength : i + (rest.length + 1) = i + 1 + rest.length := by omega
      simp only [List.cons_append, reaching, ih, List.length_cons, hlength]
      split <;> rfl

theorem reaching_open {eventTx : Nat → EventSlot} (h : ∀ i, eventTx i = .sender) (i : Nat)
    (events : List ScanEvent) : reaching eventTx i events = events := by
  induction events generalizing i with
  | nil => rfl
  | cons event rest ih => rw [reaching, if_pos (h i), ih]

/-- Of a word, an emptied channel has received the events before its emptying. -/
theorem reaching_emptiedAt (n i : Nat) (events : List ScanEvent) :
    reaching (emptiedAt n) i events = events.take (n - i) := by
  induction events generalizing i with
  | nil => rw [reaching, List.take_nil]
  | cons event rest ih =>
      rw [reaching, ih]
      by_cases h : i < n
      · obtain ⟨m, hm⟩ : ∃ m, n - i = m + 1 := ⟨n - i - 1, by omega⟩
        have hm' : n - (i + 1) = m := by omega
        rw [hm, hm', List.take_succ_cons, if_pos (by simp [emptiedAt, h])]
      · have hi : n - i = 0 := by omega
        have hi' : n - (i + 1) = 0 := by omega
        rw [hi, hi', if_neg (by simp [emptiedAt, h])]
        rfl

theorem emptiedAt_unpoisoned (n : Nat) : Unpoisoned (emptiedAt n) := by
  intro i
  simp only [emptiedAt]
  split <;> nofun

namespace Client
variable {σ : Type}

/-- From `c` to `d` the events were passed, and those that found a sender are in
the channel. -/
structure Emits (eventTx : Nat → EventSlot) (c d : Client σ) (events : List ScanEvent) :
    Prop where
  passed : d.passed = c.passed ++ events
  channel : d.channel = c.channel ++ reaching eventTx c.passed.length events

section emits
variable {eventTx : Nat → EventSlot}

theorem Emits.refl (c : Client σ) : Emits eventTx c c [] :=
  ⟨(List.append_nil _).symm, (List.append_nil _).symm⟩

theorem Emits.trans {b c d : Client σ} {es fs : List ScanEvent} (h : Emits eventTx b c es)
    (k : Emits eventTx c d fs) : Emits eventTx b d (es ++ fs) where
  passed := by rw [k.passed, h.passed, List.append_assoc]
  channel := by
    rw [k.channel, h.channel, h.passed, List.length_append, reaching_append,
      List.append_assoc]

theorem sendEvent_emits (eventTx : Nat → EventSlot) (event : ScanEvent) (c : Client σ) :
    Emits eventTx c (c.sendEvent eventTx event).2 [event] := by
  refine ⟨sendEvent_passed .., ?_⟩
  simp only [sendEvent, reaching]
  split
  next hslot => simp [hslot]
  next hslot => simp [hslot]
  next hslot => simp [hslot]

variable [BdkChain σ]

/-- One update, unless the insertion panics. -/
theorem emitUpdate_emits (eventTx : Nat → EventSlot) (block : BlockId) (c : Client σ) :
    ∃ us, Emits eventTx c (c.emitUpdate eventTx block).2 (walletUpdates us) := by
  rcases emitUpdate_cases eventTx block c with ⟨checkpoint, -, heq⟩ | ⟨-, heq⟩ <;> rw [heq]
  · exact ⟨[_], sendEvent_passed .., (sendEvent_emits _ _ _).channel⟩
  · exact ⟨[], .refl c⟩

theorem Emits.of_applied {c d : Client σ} {block : Block} {height : Nat}
    {events : List ScanEvent} (h : Emits eventTx (c.applyBlock block height).2 d events) :
    Emits eventTx c d events :=
  ⟨h.passed, h.channel⟩

theorem scanBlock_emits (eventTx : Nat → EventSlot) (block : Block) (height : Nat)
    (c : Client σ) :
    ∃ us, Emits eventTx c (c.scanBlock eventTx block height).2 (walletUpdates us) := by
  rcases scanBlock_cases eventTx block height c with ⟨-, heq⟩ | ⟨-, heq⟩ <;> rw [heq]
  · exact ⟨[], .of_applied (.refl _)⟩
  · obtain ⟨us, hus⟩ := emitUpdate_emits eventTx ⟨height, block.blockHash⟩
      (c.applyBlock block height).2
    exact ⟨us, .of_applied hus⟩

theorem scanned_emits (eventTx : Nat → EventSlot) (blocks : List (Block × Nat))
    (c : Client σ) :
    ∃ us, Emits eventTx c (scanned eventTx blocks c) (walletUpdates us) := by
  induction blocks generalizing c with
  | nil => exact ⟨[], .refl c⟩
  | cons p rest ih =>
      obtain ⟨us, hus⟩ := scanBlock_emits eventTx p.1 p.2 c
      obtain ⟨vs, hvs⟩ := ih (c.scanBlock eventTx p.1 p.2).2
      exact ⟨us ++ vs, by rw [walletUpdates_append]; exact hus.trans hvs⟩

theorem receiveBlock_emits [LawfulBdkChain σ] (eventTx : Nat → EventSlot) (block : Block)
    (height : Nat) (c : Client σ) :
    (c.receiveBlock eventTx block height).2 = c ∨
    ∃ update chain, update.chain = some chain ∧ c.checkpoint.height < chain.height ∧
      (c.receiveBlock eventTx block height).2.checkpoint = chain ∧
      Emits eventTx c (c.receiveBlock eventTx block height).2 (walletUpdates [update]) := by
  simp only [receiveBlock]
  split
  · exact .inl rfl
  next h =>
    have hlt : c.checkpoint.height < height := Nat.not_le.mp h
    have htip := SparseChain.tip_insert_of_le block.blockHash (Nat.le_of_lt hlt)
    have htakes : (c.applyBlock block height).2.checkpoint.Takes ⟨height, block.blockHash⟩ :=
      CheckPoint.takes_above hlt
    rw [emitUpdate_of_takes htakes]
    refine .inr ⟨_, c.checkpoint.insertBlock ⟨height, block.blockHash⟩, rfl, ?_,
      sendEvent_checkpoint .., sendEvent_passed .., (sendEvent_emits _ _ _).channel⟩
    exact Nat.lt_of_lt_of_eq hlt (congrArg Prod.fst htip).symm

end emits

section calls
variable {eventTx : Nat → EventSlot} [BdkChain σ] [LawfulBdkChain σ]

/-- The receive loop emits updates whose chains rise from the checkpoint on. -/
theorem receiveLoop_emits (h : Unpoisoned eventTx) (deliveries : List Recv) (c : Client σ) :
    ∃ watched, Emits eventTx c (c.receiveLoop eventTx deliveries).2 (walletUpdates watched) ∧
      Rising watched ∧
      ∀ u ∈ watched, ∃ chain, u.chain = some chain ∧ c.checkpoint.height < chain.height := by
  induction deliveries generalizing c with
  | nil => exact ⟨[], .refl c, .nil, nofun⟩
  | cons delivery rest ih =>
      cases delivery with
      | cancelled | closed => exact ⟨[], .refl c, .nil, nofun⟩
      | block block height =>
          simp only [receiveLoop]
          rw [andThen_of_ok (receiveBlock_exit h block height c)]
          obtain ⟨watched, hemits, hrising, habove⟩ :=
            ih (c.receiveBlock eventTx block height).2
          rcases receiveBlock_emits eventTx block height c with
            hsame | ⟨update, chain, hchain, hlt, hcheckpoint, hupdate⟩
          · rw [hsame] at hemits habove ⊢
            exact ⟨watched, hemits, hrising, habove⟩
          · rw [hcheckpoint] at habove
            refine ⟨update :: watched, hupdate.trans hemits, ?_, ?_⟩
            · refine List.pairwise_cons.mpr ⟨fun v hv => ?_, hrising⟩
              obtain ⟨chain', hchain', hlt'⟩ := habove v hv
              exact ⟨chain, chain', hchain, hchain', hlt'⟩
            · intro u hu
              rcases List.mem_cons.mp hu with rfl | hu
              · exact ⟨chain, hchain, hlt⟩
              · obtain ⟨chain', hchain', hlt'⟩ := habove u hu
                exact ⟨chain', hchain', hlt.trans hlt'⟩

theorem receiveLoop_ne_ok (h : Unpoisoned eventTx) (deliveries : List Recv) (c : Client σ) :
    (c.receiveLoop eventTx deliveries).1 ≠ .ok := by
  induction deliveries generalizing c with
  | nil => nofun
  | cons delivery rest ih =>
      cases delivery with
      | cancelled | closed => nofun
      | block block height =>
          simp only [receiveLoop]
          rw [andThen_of_ok (receiveBlock_exit h block height c)]
          exact ih _

variable {env : ScanEnv} (h : Unpoisoned env.eventTx) (kind : ScanKind) (c : Client σ)
include h

/-- A filter scan emits updates; one that stays at its await has emitted none. -/
theorem scanInner_emits :
    ∃ us, Emits env.eventTx c (c.scanInner env kind).2 (walletUpdates us) ∧
      ((c.scanInner env kind).1 = .parked → us = []) := by
  rcases scanInner_cases h kind c with
    ⟨exit, -, heq⟩ | ⟨_, _, done, _, -, -, -, -, hcases⟩
  · rw [heq]
    exact ⟨[], .refl c, fun _ => rfl⟩
  obtain ⟨us, hus⟩ := scanned_emits env.eventTx done c
  rcases hcases with ⟨e, heq⟩ | ⟨block, height, -, -, -, -, heq⟩ | ⟨-, -, heq⟩ |
    ⟨-, hlt, stopHash, -, heq⟩ <;> rw [heq]
  · exact ⟨us, hus, nofun⟩
  · exact ⟨us, ⟨hus.passed, hus.channel⟩, nofun⟩
  · exact ⟨us, hus, nofun⟩
  · obtain ⟨vs, hvs⟩ := emitUpdate_emits env.eventTx ⟨_, stopHash⟩ (scanned env.eventTx done c)
    refine ⟨us ++ vs, by rw [walletUpdates_append]; exact hus.trans hvs, ?_⟩
    rw [emitUpdate_exit (CheckPoint.takes_above hlt) h]
    nofun

/-- With its closing event the filter scan emits its updates, then the event its
exit calls for. -/
theorem notifiedScan_emits (keepGoing : Bool) :
    (c.notifiedScan env keepGoing kind).1 = (c.scanInner env kind).1 ∧
    ∃ us, Emits env.eventTx c (c.notifiedScan env keepGoing kind).2
        (walletUpdates us ++ (closingEvent keepGoing (c.scanInner env kind).1).toList) ∧
      ((c.scanInner env kind).1 = .parked → us = []) := by
  obtain ⟨us, hus, hparked⟩ := scanInner_emits h kind c
  simp only [notifiedScan]
  split
  next hnone =>
    rw [hnone]
    exact ⟨rfl, us, by rw [Option.toList_none, List.append_nil]; exact hus, hparked⟩
  next event hevent =>
    rw [hevent, andThen_of_ok (sendEvent_exit h event _)]
    exact ⟨rfl, us, hus.trans (sendEvent_emits _ event _), hparked⟩

theorem notifiedScan_word : ∃ events,
    Emits env.eventTx c (c.notifiedScan env false kind).2 events ∧
      ((c.notifiedScan env false kind).1 ≠ .panicked →
        ScanWord (c.notifiedScan env false kind).1 events) ∧
      ((c.notifiedScan env false kind).1 = .panicked → ∃ us, events = walletUpdates us) := by
  obtain ⟨hexit, us, hemits, hparked⟩ := notifiedScan_emits h kind c false
  rw [hexit]
  refine ⟨_, hemits, ?_⟩
  cases hinner : (c.scanInner env kind).1 with
  | ok => exact ⟨fun _ => .finished us, nofun⟩
  | err e => exact ⟨fun _ => .failed us e, nofun⟩
  | parked =>
      rw [hparked hinner]
      exact ⟨fun _ => .fetching, nofun⟩
  | panicked => exact ⟨fun hne => absurd rfl hne, fun _ => ⟨us, List.append_nil _⟩⟩

/-- A continuous scan past its wait: its filter scan fails, stays at its await, panics, or
succeeds and hands over to the receive loop. -/
theorem continuous_cases (deliveries : List Recv) :
    let d := (c.notifiedScan env true kind).2
    let r := andThen (c.notifiedScan env true kind) (receiveLoop env.eventTx deliveries)
    (∃ e us, (c.scanInner env kind).1 = .err e ∧ r.1 = .err e ∧
      Emits env.eventTx c r.2 (walletUpdates us ++ [.error e.display])) ∨
    ((c.scanInner env kind).1 = .parked ∧ r.1 = .parked ∧ Emits env.eventTx c r.2 []) ∨
    (∃ us, (c.scanInner env kind).1 = .panicked ∧ r.1 = .panicked ∧
      Emits env.eventTx c r.2 (walletUpdates us)) ∨
    ∃ us watched, (c.scanInner env kind).1 = .ok ∧
      r.1 = (d.receiveLoop env.eventTx deliveries).1 ∧ Rising watched ∧
      Emits env.eventTx c r.2
        (walletUpdates us ++ .finished true :: walletUpdates watched) := by
  intro d r
  obtain ⟨hexit, us, hemits, hparked⟩ := notifiedScan_emits h kind c true
  cases hinner : (c.scanInner env kind).1 with
  | ok =>
      have hr : r = d.receiveLoop env.eventTx deliveries := andThen_of_ok (hexit.trans hinner) _
      obtain ⟨watched, hwatched, hrising, -⟩ := receiveLoop_emits h deliveries d
      have hword := hemits.trans hwatched
      rw [hinner, closingEvent, Option.toList_some, List.append_assoc] at hword
      exact .inr (.inr (.inr
        ⟨us, watched, rfl, congrArg Prod.fst hr, hrising, by rw [hr]; exact hword⟩))
  | err e =>
      have hr : r = (.err e, d) := andThen_of_err (hexit.trans hinner) _
      rw [hinner] at hemits
      exact .inl ⟨e, us, rfl, congrArg Prod.fst hr, by rw [hr]; exact hemits⟩
  | parked =>
      have hr : r = (.parked, d) := andThen_of_parked (hexit.trans hinner) _
      rw [hinner, hparked hinner] at hemits
      exact .inr (.inl ⟨rfl, congrArg Prod.fst hr, by rw [hr]; exact hemits⟩)
  | panicked =>
      have hr : r = (.panicked, d) := andThen_of_panicked (hexit.trans hinner) _
      rw [hinner, closingEvent, Option.toList_none, List.append_nil] at hemits
      exact .inr (.inr (.inl ⟨us, rfl, congrArg Prod.fst hr, by rw [hr]; exact hemits⟩))

theorem continuous_word (deliveries : List Recv) :
    let r := andThen (c.notifiedScan env true kind) (receiveLoop env.eventTx deliveries)
    ∃ events, Emits env.eventTx c r.2 events ∧
      (r.1 ≠ .panicked → ContinuousWord r.1 events) ∧
      (r.1 = .panicked → ∃ us, events = walletUpdates us) := by
  intro r
  rcases continuous_cases h kind c deliveries with
    ⟨e, us, -, hexit, hemits⟩ | ⟨-, hexit, hemits⟩ | ⟨us, -, hexit, hemits⟩ |
    ⟨us, watched, -, hexit, hrising, hemits⟩
  · exact ⟨_, hemits, fun _ => hexit ▸ .failed us e,
      fun hpanicked => nomatch hexit.symm.trans hpanicked⟩
  · exact ⟨_, hemits, fun _ => hexit ▸ .fetching,
      fun hpanicked => nomatch hexit.symm.trans hpanicked⟩
  · exact ⟨_, hemits, fun hne => absurd hexit hne, fun _ => ⟨us, rfl⟩⟩
  · have hne := receiveLoop_ne_panicked env.eventTx deliveries (c.notifiedScan env true kind).2
    refine ⟨_, hemits, fun _ => ?_, fun hpanicked => absurd (hexit.symm.trans hpanicked) hne⟩
    rw [hexit]
    exact .watching us watched _ (receiveLoop_ne_ok h deliveries _) hrising

end calls

/-- The call gets past its wait and, if continuous, past the block sink's lock. -/
def Started : Call → Prop
  | .scan env _ => waitUntilReady env.ready = .ok
  | .scanContinuous env _ _ => waitUntilReady env.ready = .ok ∧ env.sinkPoisoned = false

/-- The language of a call's events. -/
def Word : Call → Exit → List ScanEvent → Prop
  | .scan .. => ScanWord
  | .scanContinuous .. => ContinuousWord

section run
variable [BdkChain σ]

theorem run_word [LawfulBdkChain σ] {call : Call} (hstarted : Started call)
    (h : Unpoisoned call.env.eventTx) (c : Client σ) :
    ∃ events, Emits call.env.eventTx c (c.run call).2 events ∧
      ((c.run call).1 ≠ .panicked → Word call (c.run call).1 events) ∧
      ((c.run call).1 = .panicked → ∃ us, events = walletUpdates us) := by
  cases call with
  | scan env kind =>
      have hrun : c.run (.scan env kind) = c.notifiedScan env false kind := by
        simp only [run, scan, show waitUntilReady env.ready = .ok from hstarted, andThen_ok]
      rw [hrun]
      exact notifiedScan_word h kind c
  | scanContinuous env kind deliveries =>
      obtain ⟨hready, hsink⟩ := hstarted
      have hrun : c.run (.scanContinuous env kind deliveries) =
          andThen (c.notifiedScan env true kind) (receiveLoop env.eventTx deliveries) := by
        simp [run, scanContinuous, hready, hsink]
      rw [hrun]
      exact continuous_word h kind c deliveries

theorem run_of_not_started {call : Call} (h : ¬ Started call) (c : Client σ) :
    (c.run call).2 = c := by
  cases call with
  | scan env kind =>
      rcases scan_cases env kind c with ⟨exit, -, heq⟩ | heq
      · exact congrArg Prod.snd heq
      · cases hready : waitUntilReady env.ready with
        | ok => exact absurd hready h
        | err e | parked | panicked => simp only [run, scan, hready]; rfl
  | scanContinuous env kind deliveries =>
      simp only [run, scanContinuous]
      cases hready : waitUntilReady env.ready with
      | err e | parked | panicked => rfl
      | ok =>
          have hsink : env.sinkPoisoned = true :=
            Bool.eq_true_of_not_eq_false fun hsink => h ⟨hready, hsink⟩
          rw [andThen_ok, if_pos hsink]

section every
variable {eventTx : Nat → EventSlot}

omit [BdkChain σ] in
theorem andThen_emits {c : Client σ} {r : Exit × Client σ} {next : Client σ → Exit × Client σ}
    (hr : ∃ es, Emits eventTx c r.2 es) (hnext : ∀ d, ∃ es, Emits eventTx d (next d).2 es) :
    ∃ es, Emits eventTx c (andThen r next).2 es := by
  obtain ⟨exit, d⟩ := r
  obtain ⟨es, hes⟩ := hr
  cases exit with
  | ok =>
      obtain ⟨fs, hfs⟩ := hnext d
      exact ⟨es ++ fs, hes.trans hfs⟩
  | err e | parked | panicked => exact ⟨es, hes⟩

/-- Whatever a filter scan passes on finds the sender or not. -/
theorem scanInner_passes (env : ScanEnv) (kind : ScanKind) (c : Client σ) :
    ∃ es, Emits env.eventTx c (c.scanInner env kind).2 es := by
  have hblocks (i : Nat) (blocks : List Block) (c : Client σ) :
      ∃ es, Emits env.eventTx c (c.scanBlocks env i blocks).2 es := by
    induction blocks generalizing i c with
    | nil => exact ⟨[], .refl c⟩
    | cons block rest ih =>
        simp only [scanBlocks]
        split
        · exact ⟨[], .refl c⟩
        · split
          · exact ⟨[], .refl c⟩
          next height _ =>
            obtain ⟨us, hus⟩ := scanBlock_emits env.eventTx block height c
            exact andThen_emits ⟨_, hus⟩ (ih (i + 1))
  simp only [scanInner]
  split
  · exact ⟨[], .refl c⟩
  next stopHeight blocks _ =>
    refine andThen_emits (hblocks 0 blocks c) fun d => ?_
    rcases finishScan_cases env stopHeight d with
      ⟨-, heq⟩ | ⟨-, ⟨e, heq⟩ | ⟨stopHash, -, heq⟩⟩ <;> rw [heq]
    · exact ⟨[], .refl d⟩
    · exact ⟨[], .refl d⟩
    · obtain ⟨us, hus⟩ := emitUpdate_emits env.eventTx ⟨stopHeight, stopHash⟩ d
      exact ⟨_, hus⟩

theorem notifiedScan_passes (env : ScanEnv) (keepGoing : Bool) (kind : ScanKind)
    (c : Client σ) : ∃ es, Emits env.eventTx c (c.notifiedScan env keepGoing kind).2 es := by
  obtain ⟨es, hes⟩ := scanInner_passes env kind c
  simp only [notifiedScan]
  split
  · exact ⟨es, hes⟩
  next event _ =>
    exact andThen_emits ⟨_, hes.trans (sendEvent_emits env.eventTx event _)⟩
      fun d => ⟨[], .refl d⟩

theorem receiveLoop_passes (deliveries : List Recv) (c : Client σ) :
    ∃ es, Emits eventTx c (c.receiveLoop eventTx deliveries).2 es := by
  induction deliveries generalizing c with
  | nil => exact ⟨[], .refl c⟩
  | cons delivery rest ih =>
      cases delivery with
      | cancelled | closed => exact ⟨[], .refl c⟩
      | block block height =>
          refine andThen_emits ?_ ih
          simp only [receiveBlock]
          split
          · exact ⟨[], .refl c⟩
          · obtain ⟨us, hus⟩ := emitUpdate_emits eventTx ⟨height, block.blockHash⟩
              (c.applyBlock block height).2
            exact ⟨_, .of_applied hus⟩

theorem run_emits (call : Call) (c : Client σ) :
    ∃ events, Emits call.env.eventTx c (c.run call).2 events := by
  cases call with
  | scan env kind => exact andThen_emits ⟨[], .refl c⟩ (notifiedScan_passes env false kind)
  | scanContinuous env kind deliveries =>
      refine andThen_emits ⟨[], .refl c⟩ fun d => ?_
      split
      · exact ⟨[], .refl d⟩
      · exact andThen_emits (notifiedScan_passes env true kind d) (receiveLoop_passes deliveries)

end every

/-- Once the channel is emptied no further call puts anything into it. -/
theorem runCalls_emptied {n : Nat} {later : List Call}
    (hlater : ∀ call ∈ later, call.env.eventTx = emptiedAt n) {c : Client σ}
    (hn : n ≤ c.passed.length) : (runCalls later c).channel = c.channel := by
  induction later generalizing c with
  | nil => rfl
  | cons call rest ih =>
      have hcall := hlater call (List.mem_cons_self ..)
      obtain ⟨events, hemits⟩ := run_emits call c
      have hchannel := hemits.channel
      rw [hcall, reaching_emptiedAt, Nat.sub_eq_zero_of_le hn, List.take_zero,
        List.append_nil] at hchannel
      have hlength : n ≤ (c.run call).2.passed.length := by
        rw [hemits.passed, List.length_append]
        exact Nat.le_add_right_of_le hn
      simp only [runCalls, makeCalls]
      split
      · exact hchannel
      · exact (ih (fun call' hmem => hlater call' (List.mem_cons_of_mem _ hmem)) hlength).trans
          hchannel

/-- The protocol of the event stream. A call past its wait emits a word of its
language, unless it panics: then it emits updates only, and the node's answers place a block
below the wallet's first one or another one at its height. An open channel receives the
whole word, and one that is emptied in the middle the events before that, and nothing from
this call or a later one after. -/
theorem run_protocol [LawfulBdkChain σ] (call : Call) (hstarted : Started call)
    (h : Unpoisoned call.env.eventTx) (c : Client σ) :
    ∃ events, ((c.run call).1 ≠ .panicked → Word call (c.run call).1 events) ∧
      ((c.run call).1 = .panicked → (∃ us, events = walletUpdates us) ∧
        ¬ LocatesOnly (FromGenesis c.checkpoint.base) call.env) ∧
      (c.run call).2.passed = c.passed ++ events ∧
      ((∀ i, call.env.eventTx i = .sender) →
        (c.run call).2.channel = c.channel ++ events) ∧
      ∀ n, call.env.eventTx = emptiedAt n →
        (c.run call).2.channel = c.channel ++ events.take (n - c.passed.length) ∧
        ∀ later, (∀ call' ∈ later, call'.env.eventTx = emptiedAt n) →
          n ≤ (c.run call).2.passed.length →
          (runCalls later (c.run call).2).channel = (c.run call).2.channel := by
  obtain ⟨events, hemits, hword, hpanicked⟩ := run_word hstarted h c
  refine ⟨events, hword, fun hexit => ⟨hpanicked hexit, fun hlocates => ?_⟩, hemits.passed,
    fun hopen => ?_, fun n hn => ⟨?_, ?_⟩⟩
  · exact run_ne_panicked h hlocates hexit
  · rw [hemits.channel, reaching_open hopen]
  · rw [hemits.channel, hn, reaching_emptiedAt]
  · intro later hlater hlength
    exact runCalls_emptied hlater hlength

end run

section examples

/-- A continuous scan of one block with the final checkpoint at its height and one
block delivered; the node's shutdown empties the channel after two events. -/
def emptiedCall : Call :=
  let chain : BestChain := ⟨[⟨10, 0, []⟩, ⟨11, 5, [⟨1, [], [4]⟩]⟩], by decide⟩
  .scanContinuous { honestEnv chain chain.exactFilter 1 with eventTx := emptiedAt 2 } .sync
    [.block ⟨12, 2, []⟩ 2]

def emptiedClient : Client WalletIndex := ofWallet (WalletIndex.fresh 5) (.single 0 10)

example : ((emptiedClient.run emptiedCall).2.passed.length,
    (emptiedClient.run emptiedCall).2.channel.length) = (3, 2) := by decide

theorem run_protocol_emptied : ∃ events,
    ((emptiedClient.run emptiedCall).1 ≠ .panicked →
      Word emptiedCall (emptiedClient.run emptiedCall).1 events) ∧
      (emptiedClient.run emptiedCall).2.channel = events.take 2 := by
  obtain ⟨events, hword, -, -, -, hemptied⟩ :=
    run_protocol emptiedCall ⟨rfl, rfl⟩ (emptiedAt_unpoisoned 2) emptiedClient
  exact ⟨events, hword, (hemptied 2 rfl).1⟩

/-- A scan of the same wallet on a node of another genesis block, which pays it. -/
def foreignCall : Call :=
  let chain : BestChain := ⟨[⟨20, 0, [⟨1, [], [4]⟩]⟩], by decide⟩
  .scan (honestEnv chain chain.exactFilter 0) .sync

/-- The block's insertion panics: an open channel gets nothing, which is no word of a call
that was not left at its fetch. -/
theorem foreign_genesis_panics :
    Started foreignCall ∧ (∀ i, foreignCall.env.eventTx i = .sender) ∧
      (emptiedClient.run foreignCall).1 = .panicked ∧
      (emptiedClient.run foreignCall).2.channel = [] ∧
      ∀ exit, exit ≠ .parked → ¬ Word foreignCall exit [] := by
  refine ⟨rfl, fun _ => rfl, by decide, ?_, fun exit hexit hword => ?_⟩
  · exact List.eq_nil_of_length_eq_zero (by decide)
  · generalize hnone : ([] : List ScanEvent) = events at hword
    cases hword with
    | finished us => exact absurd hnone (by simp)
    | failed us e => exact absurd hnone (by simp)
    | fetching => exact hexit rfl

end examples
end Client
end BdkFloresta
