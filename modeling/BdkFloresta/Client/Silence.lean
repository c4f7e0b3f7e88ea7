import BdkFloresta.Client.Protocol

/-!
Which failing calls reach the subscriber. Only the filter scan's result is turned
into an event; the waits before it and the receive loop after it return their
errors to the caller alone.
-/

namespace BdkFloresta

/-- One `Error`, and it is the last event. -/
def EndsWithError (events : List ScanEvent) : Prop :=
  ∃ before text, events = before ++ [.error text] ∧ ∀ e, .error e ∉ before

theorem not_endsWithError_nil : ¬ EndsWithError [] := by
  rintro ⟨before, text, heq, -⟩
  exact absurd heq.symm (List.append_ne_nil_of_right_ne_nil _ (List.cons_ne_nil _ _))

theorem error_not_mem_walletUpdates (us : List Update) (e : String) :
    .error e ∉ walletUpdates us := by
  simp [walletUpdates]

theorem endsWithError_failed (us : List Update) (text : String) :
    EndsWithError (walletUpdates us ++ [.error text]) :=
  ⟨_, text, rfl, error_not_mem_walletUpdates us⟩

/-- Once the subscriber is told that the scan keeps going it gets updates only. -/
theorem not_endsWithError_watching (us watched : List Update) :
    ¬ EndsWithError (walletUpdates us ++ .finished true :: walletUpdates watched) := by
  rintro ⟨before, text, heq, -⟩
  have hmem : ScanEvent.error text ∈
      walletUpdates us ++ .finished true :: walletUpdates watched := by
    rw [heq]
    exact List.mem_append_right _ (List.mem_singleton_self _)
  simp [walletUpdates] at hmem

/-- This delivery makes the receive loop return its error. -/
def Recv.Ends : Recv → Prop
  | .cancelled | .closed => True
  | .block .. => False

namespace Client
variable {σ : Type} [BdkChain σ]

/-- If the call returns an error, the subscriber is told so, once and at the end. -/
def Reported (c : Client σ) (call : Call) : Prop :=
  ∀ e, (c.run call).1 = .err e →
    ∃ events, (c.run call).2.channel = c.channel ++ events ∧ EndsWithError events

/-- The wait for the node does not fail, and a continuous scan neither finds the
block sink's lock poisoned nor ends its receive loop. -/
def Audible (c : Client σ) : Call → Prop
  | .scan env _ => ∀ e, waitUntilReady env.ready ≠ .err e
  | .scanContinuous env kind deliveries =>
      (∀ e, waitUntilReady env.ready ≠ .err e) ∧
        (waitUntilReady env.ready = .ok → env.sinkPoisoned = false ∧
          ((c.scanInner env kind).1 = .ok → ∀ delivery ∈ deliveries, ¬ delivery.Ends))

theorem receiveLoop_err_iff [LawfulBdkChain σ] {eventTx : Nat → EventSlot} (h : Unpoisoned eventTx)
    (deliveries : List Recv) (c : Client σ) :
    (∃ e, (c.receiveLoop eventTx deliveries).1 = .err e) ↔
      ∃ delivery ∈ deliveries, delivery.Ends := by
  induction deliveries generalizing c with
  | nil => exact ⟨nofun, nofun⟩
  | cons delivery rest ih =>
      cases delivery with
      | cancelled | closed => exact iff_of_true ⟨_, rfl⟩ ⟨_, List.mem_cons_self .., trivial⟩
      | block block height =>
          simp only [receiveLoop]
          rw [andThen_of_ok (receiveBlock_exit h block height c), ih]
          simp [Recv.Ends]

variable {c : Client σ} {call : Call}

theorem reported_of_not_err (h : ∀ e, (c.run call).1 ≠ .err e) : Reported c call :=
  fun e he => absurd he (h e)

theorem not_reported_of_silent {e : ClientError} (hrun : c.run call = (.err e, c)) :
    ¬ Reported c call := by
  intro h
  obtain ⟨events, hchannel, herror⟩ := h e (congrArg Prod.fst hrun)
  rw [hrun] at hchannel
  obtain rfl := List.append_right_eq_self.mp hchannel.symm
  exact not_endsWithError_nil herror

/-- What an open channel got of a call decides whether its failure is reported. -/
theorem reported_iff_of_emits {eventTx : Nat → EventSlot} (hopen : ∀ i, eventTx i = .sender)
    {events : List ScanEvent} (h : Emits eventTx c (c.run call).2 events) :
    Reported c call ↔ ∀ e, (c.run call).1 = .err e → EndsWithError events := by
  have hchannel : (c.run call).2.channel = c.channel ++ events := by
    rw [h.channel, reaching_open hopen]
  refine forall_congr' fun e => imp_congr_right fun _ => ?_
  constructor
  · rintro ⟨events', hevents', herror⟩
    obtain rfl := List.append_cancel_left (hevents'.symm.trans hchannel)
    exact herror
  · exact fun herror => ⟨events, hchannel, herror⟩

variable [LawfulBdkChain σ]

theorem scan_reported_iff {env : ScanEnv} (hopen : ∀ i, env.eventTx i = .sender)
    (kind : ScanKind) : Reported c (.scan env kind) ↔ Audible c (.scan env kind) := by
  cases hready : waitUntilReady env.ready with
  | ok =>
      have hrun : c.run (.scan env kind) = c.notifiedScan env false kind := by
        simp only [run, scan, hready, andThen_ok]
      obtain ⟨events, hemits, hword⟩ := notifiedScan_word (unpoisoned_of_open hopen) kind c
      rw [← hrun] at hemits hword
      refine iff_of_true ((reported_iff_of_emits hopen hemits).mpr fun e he => ?_) ?_
      · have hword := hword.1 (by simp [he])
        rw [he] at hword
        cases hword
        exact endsWithError_failed _ _
      · simp [Audible, hready]
  | err e =>
      have hrun : c.run (.scan env kind) = (.err e, c) := by
        simp only [run, scan, hready, andThen_err]
      exact iff_of_false (not_reported_of_silent hrun) fun h => h e hready
  | parked =>
      have hrun : c.run (.scan env kind) = (.parked, c) := by
        simp only [run, scan, hready, andThen_parked]
      exact iff_of_true (reported_of_not_err (by simp [hrun])) (by simp [Audible, hready])
  | panicked => exact absurd hready (waitUntilReady_ne_panicked env.ready)

/-- Past the wait and the sink's lock it is the filter scan or the receive loop that
fails, and only the former is reported. -/
theorem started_reported_iff {env : ScanEnv} (hopen : ∀ i, env.eventTx i = .sender)
    (kind : ScanKind) (deliveries : List Recv) (hready : waitUntilReady env.ready = .ok)
    (hsink : env.sinkPoisoned = false) :
    Reported c (.scanContinuous env kind deliveries) ↔
      ((c.scanInner env kind).1 = .ok → ∀ delivery ∈ deliveries, ¬ delivery.Ends) := by
  have hunpoisoned := unpoisoned_of_open hopen
  have hrun : c.run (.scanContinuous env kind deliveries) =
      andThen (c.notifiedScan env true kind) (receiveLoop env.eventTx deliveries) := by
    simp [run, scanContinuous, hready, hsink]
  rcases continuous_cases hunpoisoned kind c deliveries with
    ⟨e, us, hinner, hexit, hemits⟩ | ⟨hinner, hexit, hemits⟩ | ⟨us, hinner, hexit, -⟩ |
    ⟨us, watched, hinner, hexit, -, hemits⟩
  · rw [← hrun] at hexit hemits
    exact iff_of_true ((reported_iff_of_emits hopen hemits).mpr fun _ _ =>
      endsWithError_failed us _) (by simp [hinner])
  · rw [← hrun] at hexit
    exact iff_of_true (reported_of_not_err (by simp [hexit])) (by simp [hinner])
  · rw [← hrun] at hexit
    exact iff_of_true (reported_of_not_err (by simp [hexit])) (by simp [hinner])
  · -- the loop's own error comes after `Finished` and its updates
    rw [← hrun] at hexit hemits
    rw [reported_iff_of_emits hopen hemits, hexit]
    have hloop := receiveLoop_err_iff hunpoisoned deliveries (c.notifiedScan env true kind).2
    constructor
    · intro h _ delivery hmem hends
      obtain ⟨e, he⟩ := hloop.mpr ⟨delivery, hmem, hends⟩
      exact not_endsWithError_watching us watched (h e he)
    · intro h e he
      obtain ⟨delivery, hmem, hends⟩ := hloop.mp ⟨e, he⟩
      exact absurd hends (h hinner delivery hmem)

theorem scanContinuous_reported_iff {env : ScanEnv} (hopen : ∀ i, env.eventTx i = .sender)
    (kind : ScanKind) (deliveries : List Recv) :
    Reported c (.scanContinuous env kind deliveries) ↔
      Audible c (.scanContinuous env kind deliveries) := by
  cases hready : waitUntilReady env.ready with
  | err e =>
      have hrun : c.run (.scanContinuous env kind deliveries) = (.err e, c) := by
        simp only [run, scanContinuous, hready, andThen_err]
      exact iff_of_false (not_reported_of_silent hrun) fun h => h.1 e hready
  | parked =>
      have hrun : c.run (.scanContinuous env kind deliveries) = (.parked, c) := by
        simp only [run, scanContinuous, hready, andThen_parked]
      exact iff_of_true (reported_of_not_err (by simp [hrun])) (by simp [Audible, hready])
  | panicked => exact absurd hready (waitUntilReady_ne_panicked env.ready)
  | ok =>
      cases hsink : env.sinkPoisoned with
      | true =>
          have hrun : c.run (.scanContinuous env kind deliveries) = (.err .poisonedLock, c) := by
            simp [run, scanContinuous, hready, hsink]
          refine iff_of_false (not_reported_of_silent hrun) fun h => ?_
          exact Bool.false_ne_true ((h.2 hready).1.symm.trans hsink)
      | false =>
          rw [started_reported_iff hopen kind deliveries hready hsink]
          simp [Audible, hready, hsink]

/-- With the event channel open, a failing call is reported to the subscriber
exactly if it is audible. -/
theorem reported_iff_audible (c : Client σ) (call : Call)
    (hopen : ∀ i, call.env.eventTx i = .sender) : Reported c call ↔ Audible c call := by
  cases call with
  | scan env kind => exact scan_reported_iff hopen kind
  | scanContinuous env kind deliveries =>
      exact scanContinuous_reported_iff hopen kind deliveries

section examples

def newClient : Client WalletIndex := ofWallet (WalletIndex.fresh 5) (.single 0 10)

/-- A scan asked for while the node shuts down. -/
def scanAtShutdown : Call :=
  .scan { honestEnv ⟨[⟨10, 0, []⟩], by decide⟩ (fun _ _ => false) 0 with
    ready := [(.shuttingDown, .changed)] } .sync

/-- A continuous scan that is cancelled while it waits for blocks. -/
def cancelledWatch : Call :=
  .scanContinuous (honestEnv ⟨[⟨10, 0, []⟩], by decide⟩ (fun _ _ => false) 0) .sync
    [.cancelled]

theorem reported_iff_audible_watch :
    Reported newClient cancelledWatch ↔ Audible newClient cancelledWatch :=
  reported_iff_audible newClient cancelledWatch fun _ => rfl

/-- Neither failure reaches the subscriber, though the channel is open. -/
theorem scans_fail_silently :
    ((∀ i, scanAtShutdown.env.eventTx i = .sender) ∧ ¬ Reported newClient scanAtShutdown) ∧
      (∀ i, cancelledWatch.env.eventTx i = .sender) ∧ ¬ Reported newClient cancelledWatch := by
  refine ⟨⟨fun _ => rfl, not_reported_of_silent (e := .unresponsiveNode) rfl⟩,
    fun _ => rfl, fun h => ?_⟩
  have haudible := (scanContinuous_reported_iff (fun _ => rfl) .sync _).mp h
  obtain ⟨-, hloop⟩ := haudible.2 rfl
  exact hloop (by decide) .cancelled (List.mem_singleton_self _) trivial

end examples
end Client
end BdkFloresta
