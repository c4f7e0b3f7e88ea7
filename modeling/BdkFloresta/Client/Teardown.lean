import BdkFloresta.Client.Signet

/-!
The end of the application. A signal, the node's own shutdown and the end of the scan each
cancel the client's token, by the next step of `main`, of the watcher or of the drop. From
then on the scan goes nowhere but to its end, the drop closes the channel, the wallet's
task reads what is left or breaks at an `Error`, which is the last event of all, and the
node lets the one call of `shutdown` through.
-/

namespace BdkFloresta

/-- The steps the scan's task still takes once the token is cancelled; one that passes an
event counts twice, since the wallet's task has then to read it. -/
def ScanPc.remaining : ScanPc → Nat
  | .spawned => 13
  | .reading _ => 12
  | .parked _ => 11
  | .matching | .fetching => 10
  | .inBlock _ => 9
  | .atBlock _ => 7
  | .succeeded => 5
  | .failed => 3
  | .receiving => 1
  | .returned => 0

/-- What the drop of the client still has to do, from before it begins. -/
def DropPc.owing : DropPc → Nat
  | .alive => 3
  | .cancelled => 2
  | .aborted => 1
  | .dropped => 0

def MainPc.remaining : MainPc → Nat
  | .selecting => 3
  | .stopping => 2
  | .joining => 1
  | .shuttingDown | .done => 0

/-- The turn at the mutex that the call has not had. -/
def CallerPc.owing : CallerPc → Nat
  | .idle | .locking => 1
  | .awaiting | .returned | .dropped => 0

/-- A step with which the tasks come to their end by themselves. The scan's is no further
block, and no wake-up by the node. -/
def SignetStep.Winds : SignetStep → Prop
  | .scan (.fetched _) | .scan (.receive _) | .scan .changed | .scan .fail => False
  | .scan _ | .life _ | .joined | .stopped | .shutdown => True
  | .node _ | .interrupted | .returned => False

instance : DecidablePred SignetStep.Winds := fun a => by
  unfold SignetStep.Winds
  split <;> infer_instance

/-- A step the application takes by itself: no signal, and no news from the network. -/
def SignetStep.Own : SignetStep → Prop
  | .node a => a.Works ∨ a = .callLock 0
  | .returned => True
  | a => a.Winds

instance : DecidablePred SignetStep.Own := fun a => by
  unfold SignetStep.Own
  split <;> infer_instance

/-- News from the network that the scan takes up: a block, or a state of the node. -/
def SignetStep.News : SignetStep → Prop
  | .scan (.receive _) | .scan .changed => True
  | _ => False

instance : DecidablePred SignetStep.News := fun a => by
  unfold SignetStep.News
  split <;> infer_instance

theorem SignetStep.Winds.own {a : SignetStep} (h : a.Winds) : a.Own := by
  cases a with
  | node a | returned => exact h.elim
  | _ => exact h

theorem NodeStep.Works.ofNode {a : NodeStep} (h : a.Works) : a.OfNode := by
  cases a with
  | callCancel i | callDrop i => exact h.elim
  | _ => trivial

namespace ClientSignet
variable {ov : Overflow} {s t : ClientSignet}

/-- What stands between `main` and its call of `shutdown`. -/
def ahead (s : ClientSignet) : Nat :=
  s.scan.remaining + s.life.queue.length + s.life.watcher.remaining + s.life.client.owing +
    (if s.life.subscriber = .listening then 1 else 0) + s.main.remaining

theorem ahead_le (s : ClientSignet) : s.ahead ≤ s.life.queue.length + 22 := by
  have hscan : s.scan.remaining ≤ 13 := by cases s.scan <;> simp [ScanPc.remaining]
  have hwatcher : s.life.watcher.remaining ≤ 2 := by cases s.life.watcher <;> decide
  have hclient : s.life.client.owing ≤ 3 := by cases s.life.client <;> decide
  have hmain : s.main.remaining ≤ 3 := by cases s.main <;> decide
  unfold ahead
  split <;> omega

theorem token_kept {life life' : ClientLife} {a : LifeStep}
    (htoken : life.cancellationToken = true) (h : life.step a = some life') :
    life'.cancellationToken = true := by
  cases a with
  | nodeCancel | tokenCancel =>
      obtain rfl := Option.some.inj h
      first | exact htoken | rfl
  | send event =>
      obtain ⟨-, rfl⟩ := Runs.enabled_eq_some.mp h
      unfold ClientLife.sendEvent
      split <;> exact htoken
  | recv =>
      simp only [ClientLife.step] at h
      split at h
      · cases h
      · obtain ⟨-, rfl⟩ := Runs.enabled_eq_some.mp h
        exact htoken
  | _ =>
      obtain ⟨-, rfl⟩ := Runs.enabled_eq_some.mp h
      first | exact htoken | rfl

theorem token_step {a : SignetStep} (hs : Sound s) (htoken : s.life.cancellationToken = true)
    (h : s.step ov a = some t) : t.life.cancellationToken = true := by
  obtain ⟨as, has⟩ := life_moves hs.ordered.dropping h
  exact Runs.exec_invariant (I := fun life => life.cancellationToken = true)
    (fun _ _ _ => token_kept) htoken has

/-- A cancelled scan goes nowhere but towards its end. -/
theorem remaining_step {pc pc' : ScanPc} {node : Watch.Channel State} {a : TaskStep}
    {event : Option ScanEvent} (hwinds : SignetStep.Winds (.scan a))
    (h : pc.step node true a = some (pc', event)) :
    pc'.remaining + event.toList.length < pc.remaining := by
  have hupdate (update : Option Update) :
      (update.map ScanEvent.walletUpdate).toList.length ≤ 1 := by cases update <;> simp
  unfold ScanPc.step at h
  split at h <;>
    grind [ScanPc.remaining, SignetStep.Winds, Runs.enabled, Option.toList, Option.map]

/-- The others' steps too, but for the news that it takes up. -/
theorem remaining_raised {pc pc' : ScanPc} {node : Watch.Channel State} {a : TaskStep}
    {event : Option ScanEvent} (h : pc.step node true a = some (pc', event)) :
    pc'.remaining + event.toList.length ≤
      pc.remaining + if SignetStep.News (.scan a) then 1 else 0 := by
  by_cases hwinds : SignetStep.Winds (.scan a)
  · exact (remaining_step hwinds h).le.trans (Nat.le_add_right _ _)
  have hupdate (update : Option Update) :
      (update.map ScanEvent.walletUpdate).toList.length ≤ 1 := by cases update <;> simp
  unfold ScanPc.step at h
  split at h <;>
    grind [ScanPc.remaining, SignetStep.Winds, SignetStep.News, Runs.enabled, Option.toList,
      Option.map]

theorem queue_sendEvent (life : ClientLife) (event : Option ScanEvent) :
    (event.toList.foldl ClientLife.sendEvent life).queue.length ≤
      life.queue.length + event.toList.length ∧
    (event.toList.foldl ClientLife.sendEvent life).watcher = life.watcher ∧
    (event.toList.foldl ClientLife.sendEvent life).client = life.client ∧
    (event.toList.foldl ClientLife.sendEvent life).subscriber = life.subscriber := by
  cases event with
  | none => simp
  | some event =>
      simp only [Option.toList_some, List.foldl_cons, List.foldl_nil, ClientLife.sendEvent]
      split <;> simp

theorem ahead_life {a : LifeStep} (hallows : s.Allows a) {life : ClientLife}
    (h : s.life.step a = some life) : ahead { s with life := life } < s.ahead := by
  cases a with
  | watcherCancel =>
      obtain ⟨⟨hpc, -⟩, rfl⟩ := Runs.enabled_eq_some.mp h
      simp [ahead, hpc, WatcherPc.remaining]
  | watcherTake =>
      obtain ⟨hpc, rfl⟩ := Runs.enabled_eq_some.mp h
      simp [ahead, hpc, WatcherPc.remaining]
  | dropCancel | dropTake =>
      obtain ⟨hpc, rfl⟩ := Runs.enabled_eq_some.mp h
      simp [ahead, hpc, DropPc.owing]
  | dropAbort =>
      obtain ⟨hpc, rfl⟩ := Runs.enabled_eq_some.mp h
      by_cases hwatcher : s.life.watcher = .watching <;>
        simp [ahead, hpc, hwatcher, DropPc.owing, WatcherPc.remaining]
  | recv =>
      simp only [ClientLife.step] at h
      split at h
      · cases h
      next event rest hqueue =>
        obtain ⟨-, rfl⟩ := Runs.enabled_eq_some.mp h
        simp [ahead, hqueue]
  | recvNone =>
      obtain ⟨⟨hpc, -⟩, rfl⟩ := Runs.enabled_eq_some.mp h
      simp [ahead, hpc]
  | subscriberDrop =>
      obtain ⟨hpc, rfl⟩ := Runs.enabled_eq_some.mp h
      simp only [ahead, hpc, List.length_nil, reduceCtorEq, if_true, if_false]
      omega
  | nodeCancel | tokenCancel | send event => exact hallows.elim

theorem ahead_spends {a : SignetStep} (htoken : s.life.cancellationToken = true)
    (hwinds : a.Winds) (h : s.step ov a = some t) : t.ahead < s.ahead := by
  cases a with
  | scan a =>
      obtain ⟨⟨scan, event⟩, hscan, rfl⟩ := Option.map_eq_some_iff.mp h
      rw [htoken] at hscan
      have hlt := remaining_step hwinds hscan
      obtain ⟨hqueue, hwatcher, hclient, hsubscriber⟩ := queue_sendEvent s.life event
      simp only [ahead, hwatcher, hclient, hsubscriber]
      omega
  | life a =>
      simp only [step] at h
      split at h
      next hallows =>
        obtain ⟨life, hlife, rfl⟩ := Option.map_eq_some_iff.mp h
        exact ahead_life hallows hlife
      · cases h
  | joined | stopped =>
      obtain ⟨⟨hpc, -⟩, rfl⟩ := Runs.enabled_eq_some.mp h
      simp [ahead, hpc, MainPc.remaining]
  | shutdown =>
      simp only [step] at h
      split at h
      next hjoining =>
        obtain ⟨node, -, rfl⟩ := Option.map_eq_some_iff.mp h
        simp [ahead, withNode, hjoining.1, MainPc.remaining]
      · cases h
  | node a | interrupted | returned => exact hwinds.elim

/-- Nothing but news gets in the way of `main`'s call. -/
theorem ahead_raised {a : SignetStep} (htoken : s.life.cancellationToken = true)
    (h : s.step ov a = some t) : t.ahead ≤ s.ahead + if a.News then 1 else 0 := by
  by_cases hwinds : a.Winds
  · exact (ahead_spends htoken hwinds h).le.trans (Nat.le_add_right _ _)
  cases a with
  | node a =>
      simp only [step] at h
      split at h
      · obtain ⟨node, -, rfl⟩ := Option.map_eq_some_iff.mp h
        exact Nat.le_add_right _ _
      · cases h
  | scan a =>
      obtain ⟨⟨scan, event⟩, hscan, rfl⟩ := Option.map_eq_some_iff.mp h
      rw [htoken] at hscan
      have hle := remaining_raised hscan
      obtain ⟨hqueue, hwatcher, hclient, hsubscriber⟩ := queue_sendEvent s.life event
      simp only [ahead, hwatcher, hclient, hsubscriber]
      omega
  | interrupted =>
      obtain ⟨hpc, rfl⟩ := Runs.enabled_eq_some.mp h
      simp only [ahead, hpc, MainPc.remaining]
      omega
  | returned =>
      obtain ⟨⟨hpc, -⟩, rfl⟩ := Runs.enabled_eq_some.mp h
      simp only [ahead, hpc, MainPc.remaining]
      exact Nat.le_add_right _ _
  | life a | joined | stopped | shutdown => exact absurd trivial hwinds

end ClientSignet

namespace NodeRun

/-- What stands between a call of `shutdown` and its return, where there is no other. -/
def serving (s : NodeRun) (i : Nat) : Nat := s.working + (s.callers i).owing

theorem serving_step {ov : Overflow} {s t : NodeRun} {a : NodeStep} (i : Nat) (hs : Queued s)
    (h : s.step ov a = some t) : t.serving i ≤ s.serving i ∧
      (a.Works ∨ a = .callLock i → t.serving i < s.serving i) := by
  obtain ⟨hle, hlt⟩ := working_step hs h
  have hmove := call_moves i h
  unfold serving
  generalize s.callers i = pc at hmove ⊢
  generalize t.callers i = pc' at hmove ⊢
  cases hmove with
  | stays hlock hdrop =>
      exact ⟨by omega, fun hown => by have := hlt (hown.resolve_right hlock); omega⟩
  | cancel ha =>
      subst ha
      exact ⟨Nat.add_le_add_right hle _, fun hown => absurd hown (by simp [NodeStep.Works])⟩
  | lock ha hpc => rcases hpc with rfl | rfl <;> simp only [CallerPc.owing] <;> omega
  | join ha =>
      subst ha
      have := hlt trivial
      simp only [CallerPc.owing]
      omega
  | drop ha hpc =>
      subst ha
      simp only [CallerPc.owing]
      exact ⟨by omega, fun hown => absurd hown (by simp [NodeStep.Works])⟩

end NodeRun

namespace ClientSignet
variable {ov : Overflow} {s t : ClientSignet}

/-- What stands between `main` and its end. -/
def left (s : ClientSignet) : Nat :=
  s.ahead + s.node.serving 0 + if s.main = .done then 0 else 1

theorem left_le (hs : Sound s) : s.left ≤ s.life.queue.length + 34 := by
  have hahead := s.ahead_le
  have hworking := hs.queued.working_le
  have howing : (s.node.callers 0).owing ≤ 1 := by cases s.node.callers 0 <;> decide
  unfold left NodeRun.serving
  split <;> omega

/-- A step that leaves the node where it is. -/
theorem left_aside {a : SignetStep} (htoken : s.life.cancellationToken = true)
    (hown : a.Own → a.Winds) (hnode : t.node = s.node) (hmain : s.main ≠ .done)
    (h : s.step ov a = some t) :
    t.left ≤ s.left + (if a.News then 1 else 0) ∧ (a.Own → t.left < s.left) := by
  have hraised := ahead_raised htoken h
  simp only [left, hnode, if_neg hmain]
  refine ⟨by split <;> omega, fun ha => ?_⟩
  have hspent := ahead_spends htoken (hown ha) h
  split <;> omega

theorem left_step {a : SignetStep} (hs : Sound s) (htoken : s.life.cancellationToken = true)
    (hmain : s.main ≠ .done) (h : s.step ov a = some t) :
    t.left ≤ s.left + (if a.News then 1 else 0) ∧ (a.Own → t.left < s.left) := by
  cases a with
  | node a =>
      simp only [step] at h
      split at h
      next hof =>
        obtain ⟨node, hnode, rfl⟩ := Option.map_eq_some_iff.mp h
        obtain ⟨hle, hlt⟩ := NodeRun.serving_step 0 hs.queued hnode
        have hleft : (s.withNode node).left =
            s.ahead + node.serving 0 + if s.main = .done then 0 else 1 := rfl
        rw [hleft, left]
        exact ⟨by omega, fun hown => by have := hlt hown; omega⟩
      · cases h
  | life a =>
      refine left_aside htoken id ?_ hmain h
      simp only [step] at h
      split at h
      · obtain ⟨life, -, rfl⟩ := Option.map_eq_some_iff.mp h
        rfl
      · cases h
  | scan a =>
      refine left_aside htoken id ?_ hmain h
      obtain ⟨⟨scan, event⟩, -, rfl⟩ := Option.map_eq_some_iff.mp h
      rfl
  | interrupted | joined | stopped =>
      refine left_aside htoken id ?_ hmain h
      obtain ⟨-, rfl⟩ := Runs.enabled_eq_some.mp h
      rfl
  | shutdown =>
      have hspent := ahead_spends (a := .shutdown) htoken trivial h
      simp only [step] at h
      split at h
      · obtain ⟨node, hnode, rfl⟩ := Option.map_eq_some_iff.mp h
        obtain ⟨hle, -⟩ := NodeRun.serving_step 0 hs.queued hnode
        have hnews : ¬ SignetStep.News .shutdown := id
        simp only [left, withNode, if_neg hmain, reduceCtorEq, if_false, if_neg hnews] at *
        exact ⟨by omega, fun _ => by omega⟩
      · cases h
  | returned =>
      have hraised := ahead_raised htoken h
      obtain ⟨-, rfl⟩ := Runs.enabled_eq_some.mp h
      have hnews : ¬ SignetStep.News .returned := id
      simp only [left, if_neg hmain, if_true, if_neg hnews] at *
      exact ⟨by omega, fun _ => by omega⟩

/-- A cancelled scan that has not returned has a next step of its own. -/
theorem scan_enabled {pc : ScanPc} (hrunning : pc ≠ .returned) (node : Watch.Channel State) :
    ∃ a r, SignetStep.Winds (.scan a) ∧ pc.step node true a = some r := by
  cases pc with
  | spawned => exact ⟨.subscribe, _, trivial, rfl⟩
  | reading seen =>
      cases hverdict : readyVerdict node.value with
      | none => exact ⟨.borrow, (.parked seen, none), trivial, by simp [ScanPc.step, hverdict]⟩
      | some result =>
          cases result with
          | ok => exact ⟨.borrow, (.matching, none), trivial, by simp [ScanPc.step, hverdict]⟩
          | err e =>
              exact ⟨.borrow, (.returned, none), trivial, by simp [ScanPc.step, hverdict]⟩
          | parked | panicked =>
              exact ⟨.borrow, (.returned, none), trivial, by simp [ScanPc.step, hverdict]⟩
  | parked seen => exact ⟨.abort, _, trivial, rfl⟩
  | matching => exact ⟨.matched true, _, trivial, rfl⟩
  | fetching => exact ⟨.abort, _, trivial, rfl⟩
  | atBlock rest =>
      cases rest with
      | zero => exact ⟨.finish none, _, trivial, rfl⟩
      | succ rest => exact ⟨.check, _, trivial, rfl⟩
  | inBlock rest => exact ⟨.applyBlock none, _, trivial, rfl⟩
  | succeeded => exact ⟨.notify "", _, trivial, rfl⟩
  | failed => exact ⟨.notify "", _, trivial, rfl⟩
  | receiving => exact ⟨.abort, _, trivial, rfl⟩
  | returned => exact absurd rfl hrunning

theorem life_enabled {a : LifeStep} (hallows : s.Allows a) {life : ClientLife}
    (h : s.life.step a = some life) : s.step ov (.life a) = some { s with life := life } := by
  simp [step, hallows, h]

/-- Once the scan's task has ended the wallet's task and `main` go on by themselves. -/
theorem main_enabled (hs : Sound s) (hended : s.TaskEnded) (hunjoined : ¬ s.main.Joined) :
    ∃ a t, a.Winds ∧ s.step ov a = some t := by
  cases hpc : s.main with
  | selecting =>
      exact ⟨.joined, _, trivial, Runs.enabled_eq_some.mpr ⟨⟨hpc, hended⟩, rfl⟩⟩
  | stopping =>
      exact ⟨.stopped, _, trivial, Runs.enabled_eq_some.mpr ⟨⟨hpc, hended⟩, rfl⟩⟩
  | joining =>
      by_cases hlistening : s.life.subscriber = .listening
      · by_cases hbroken : s.Broken
        · exact ⟨.life .subscriberDrop, _, trivial,
            life_enabled (show s.Allows .subscriberDrop from hbroken)
              (Runs.enabled_eq_some.mpr ⟨hlistening, rfl⟩)⟩
        cases hqueue : s.life.queue with
        | nil =>
            have htaken := hs.ordered.closed.taken.mpr (.inr hended.2)
            exact ⟨.life .recvNone, _, trivial,
              life_enabled (show s.Allows .recvNone from hbroken)
                (Runs.enabled_eq_some.mpr ⟨⟨hlistening, hqueue, htaken⟩, rfl⟩)⟩
        | cons event rest =>
            have hrecv : s.life.step .recv =
                some { s.life with received := s.life.received ++ [event], queue := rest } := by
              simp [ClientLife.step, hqueue, Runs.enabled, hlistening]
            exact ⟨.life .recv, _, trivial,
              life_enabled (show s.Allows .recv from hbroken) hrecv⟩
      · have hidle : s.node.callers 0 = .idle := by
          by_contra hcalled
          exact hunjoined (hs.called.mpr hcalled)
        have hcall : s.node.step ov (.callCancel 0) =
            some { s.node.setCaller 0 .locking with cancellationToken := true } :=
          Runs.enabled_eq_some.mpr ⟨hidle, rfl⟩
        have hshutdown : ∃ t, s.step ov .shutdown = some t := by
          rw [step, if_pos ⟨hpc, hlistening⟩, hcall]
          exact ⟨_, rfl⟩
        exact ⟨.shutdown, hshutdown.choose, trivial, hshutdown.choose_spec⟩
  | shuttingDown | done => exact absurd (by rw [hpc]; trivial) hunjoined

/-- The parts that wind down have a next step until `main` has called `shutdown`. -/
theorem winds_enabled (hs : Sound s) (htoken : s.life.cancellationToken = true)
    (hunjoined : ¬ s.main.Joined) : ∃ a t, a.Winds ∧ s.step ov a = some t := by
  by_cases hscan : s.scan = .returned
  · cases hclient : s.life.client with
    | dropped => exact main_enabled hs ⟨hscan, hclient⟩ hunjoined
    | alive =>
        exact ⟨.life .dropCancel, _, trivial, life_enabled (show s.Allows .dropCancel from hscan)
          (Runs.enabled_eq_some.mpr ⟨hclient, rfl⟩)⟩
    | cancelled =>
        exact ⟨.life .dropAbort, _, trivial, life_enabled (show s.Allows .dropAbort from hscan)
          (Runs.enabled_eq_some.mpr ⟨hclient, rfl⟩)⟩
    | aborted =>
        exact ⟨.life .dropTake, _, trivial, life_enabled (show s.Allows .dropTake from hscan)
          (Runs.enabled_eq_some.mpr ⟨hclient, rfl⟩)⟩
  · obtain ⟨a, r, hwinds, hr⟩ := scan_enabled hscan s.node.stateChannel
    rw [← htoken] at hr
    exact ⟨.scan a, _, hwinds, Option.map_eq_some_iff.mpr ⟨r, hr, rfl⟩⟩

/-- The one call of `shutdown` is let through by the node alone. -/
theorem call_enabled (ov : Overflow) (hs : Sound s) (hpc : s.main = .shuttingDown) :
    ∃ a t, a.Own ∧ s.step ov a = some t := by
  have hnode {a : NodeStep} {node : NodeRun} (hown : SignetStep.Own (.node a)) (hof : a.OfNode)
      (h : s.node.step ov a = some node) : ∃ a t, a.Own ∧ s.step ov a = some t :=
    ⟨.node a, s.withNode node, hown, by rw [step, if_pos hof, h]; rfl⟩
  cases hlock : s.node.shutdownLock with
  | some i =>
      obtain ⟨a, node, hworks, ha⟩ := hs.queued.works ov hlock
      exact hnode (.inl hworks) hworks.ofNode ha
  | none =>
      cases hcall : s.node.callers 0 with
      | idle => exact absurd hcall (hs.called.mp (by rw [hpc]; trivial))
      | locking =>
          exact hnode (.inr rfl) trivial (Runs.enabled_eq_some.mpr ⟨⟨hcall, hlock⟩, rfl⟩)
      | awaiting =>
          have hheld := (hs.queued.holder 0).mpr hcall
          simp [hlock] at hheld
      | returned => exact ⟨.returned, _, trivial, Runs.enabled_eq_some.mpr ⟨⟨hpc, hcall⟩, rfl⟩⟩
      | dropped => exact absurd hcall hs.alone.undropped

/-- The application winds down by itself. -/
theorem own_drains (ov : Overflow) : Runs.Drains (step ov) SignetStep.Own
    (fun s => Sound s ∧ s.life.cancellationToken = true) (fun s => s.main = .done) left where
  keeps _ _ _ hs h := ⟨sound_step hs.1 h, token_step hs.1 hs.2 h⟩
  spends _ _ _ hs hmain hown h := (left_step hs.1 hs.2 hmain h).2 hown
  enabled s hs hmain := by
    by_cases hjoined : s.main.Joined
    · have hpc : s.main = .shuttingDown := by
        cases hpc : s.main with
        | shuttingDown => rfl
        | done => exact absurd hpc hmain
        | selecting | stopping | joining =>
            rw [hpc] at hjoined
            exact hjoined.elim
      exact call_enabled ov hs.1 hpc
    · obtain ⟨a, t, hwinds, h⟩ := winds_enabled hs.1 hs.2 hjoined
      exact ⟨a, t, hwinds.own, h⟩

/-- `main` takes no step once it has returned. -/
theorem done_stays {a : SignetStep} (hdone : s.main = .done) (h : s.step ov a = some t) :
    t.main = .done := by
  cases a with
  | node a | life a =>
      simp only [step] at h
      split at h
      · obtain ⟨r, -, rfl⟩ := Option.map_eq_some_iff.mp h
        exact hdone
      · cases h
  | scan a =>
      obtain ⟨r, -, rfl⟩ := Option.map_eq_some_iff.mp h
      exact hdone
  | interrupted =>
      obtain ⟨hpc, -⟩ := Runs.enabled_eq_some.mp h
      cases hdone.symm.trans hpc
  | joined | stopped | returned =>
      obtain ⟨⟨hpc, -⟩, -⟩ := Runs.enabled_eq_some.mp h
      cases hdone.symm.trans hpc
  | shutdown =>
      simp only [step] at h
      split at h
      next hjoining => cases hdone.symm.trans hjoining.1
      · cases h

/-- `main` has been asked to stop, or the node is shutting down, with its token cancelled, or
the scan has ended. -/
def Stopping (s : ClientSignet) : Prop :=
  s.main ≠ .selecting ∨ s.life.nodeToken = true ∨ s.scan = .returned

/-- Whoever stops the scan, its token is cancelled at once or by the next step of the
watcher or of the task's drop. -/
theorem token_cancelled (ov : Overflow) (hs : Sound s) (hstopping : s.Stopping) : ∃ bs t,
    (∀ b ∈ bs, b.Winds) ∧ bs.length ≤ 1 ∧ Runs.exec (step ov) s bs = some t ∧
      t.life.cancellationToken = true ∧ t.life.queue = s.life.queue := by
  by_cases htoken : s.life.cancellationToken = true
  · exact ⟨[], s, nofun, Nat.zero_le _, rfl, htoken, rfl⟩
  have hone {a : LifeStep} {life : ClientLife} (hallows : s.Allows a)
      (h : s.life.step a = some life) (hcancels : life.cancellationToken = true)
      (hqueue : life.queue = s.life.queue) : ∃ bs t, (∀ b ∈ bs, b.Winds) ∧ bs.length ≤ 1 ∧
        Runs.exec (step ov) s bs = some t ∧ t.life.cancellationToken = true ∧
          t.life.queue = s.life.queue := by
    refine ⟨[.life a], { s with life := life }, fun b hb => ?_, le_refl _, ?_, hcancels, hqueue⟩
    · rw [List.mem_singleton.mp hb]
      trivial
    · rw [Runs.exec, life_enabled hallows h]
      rfl
  have halive : s.life.client = .alive := by
    by_contra hdropping
    exact htoken (hs.ordered.closed.client hdropping)
  rcases hstopping with hmain | hnode | hscan
  · exact absurd (hs.ordered.stopping hmain) htoken
  · cases hwatcher : s.life.watcher with
    | watching =>
        exact hone (a := .watcherCancel) trivial
          (Runs.enabled_eq_some.mpr ⟨⟨hwatcher, hnode⟩, rfl⟩) rfl rfl
    | cancelled => exact absurd (hs.ordered.closed.watcher (.inl hwatcher)).2 htoken
    | finished => exact absurd (hs.ordered.closed.watcher (.inr hwatcher)).2 htoken
    | aborted =>
        have haborted := hs.ordered.closed.aborted hwatcher
        simp [halive] at haborted
  · exact hone (a := .dropCancel) hscan (Runs.enabled_eq_some.mpr ⟨halive, rfl⟩) rfl rfl

/-- From every state a run of the application can reach: once the signal is there, or the
node's token is cancelled, or the scan has ended, the tasks by themselves bring `main` to
its end, with nothing more from the network and in a number of steps bounded by the events
that are left to read. From when the client's token is cancelled, no run in which `main` has
not come to its end takes more of these steps, but for one with each further block or state
of the node that the scan takes up. -/
theorem main_returns {node : NodeRun} (hnode : node.Started ov) (as : List SignetStep)
    (h : Runs.exec (step ov) (start node) as = some s) :
    (s.Stopping → ∃ bs t, (∀ b ∈ bs, b.Own) ∧ bs.length ≤ s.life.queue.length + 35 ∧
      Runs.exec (step ov) s bs = some t ∧ t.main = .done) ∧
    (s.life.cancellationToken = true → ∀ bs t, Runs.exec (step ov) s bs = some t →
      t.main ≠ .done →
        bs.countP SignetStep.Own ≤ s.life.queue.length + 34 + bs.countP SignetStep.News) := by
  have hs : Sound s := Runs.exec_invariant (fun _ _ _ hs => sound_step hs) (start_sound hnode) h
  constructor
  · intro hstopping
    obtain ⟨first, u, hfirst, hone, hu, htoken, hqueue⟩ := token_cancelled ov hs hstopping
    have hsu : Sound u := Runs.exec_invariant (fun _ _ _ hs => sound_step hs) hs hu
    obtain ⟨rest, t, hrest, hlength, ht, hdone⟩ := (own_drains ov).reaches ⟨hsu, htoken⟩
    refine ⟨first ++ rest, t, fun b hb => ?_, ?_, Runs.exec_append hu ht, hdone⟩
    · rcases List.mem_append.mp hb with hb | hb
      · exact (hfirst b hb).own
      · exact hrest b hb
    · have hleft := left_le hsu
      rw [hqueue] at hleft
      rw [List.length_append]
      omega
  · intro htoken bs t ht hmain
    have hcount := (own_drains ov).countP_le (fun _ _ _ _ => done_stays)
      (fun _ _ _ hs hmain h => (left_step hs.1 hs.2 hmain h).1) ⟨hs, htoken⟩ ht hmain
    have hleft := left_le hs
    omega

/-- The state the shutdown task ends with stays. -/
theorem ended_inactive {node : NodeRun} (hnode : node.Started ov)
    (hbefore : ¬ node.shutdown.Ended) {as : List SignetStep}
    (h : Runs.exec (step ov) (start node) as = some s) :
    s.node.shutdown.Ended → s.node.state = .inactive := by
  have hkeeps (u : ClientSignet) (a : SignetStep) (v : ClientSignet)
      (hu : Sound u ∧ (u.node.shutdown.Ended → u.node.state = .inactive))
      (hv : u.step ov a = some v) :
      Sound v ∧ (v.node.shutdown.Ended → v.node.state = .inactive) := by
    refine ⟨sound_step hu.1 hv, ?_⟩
    rcases node_moves hv with hsame | ⟨b, -, hb⟩
    · rw [hsame]
      exact hu.2
    · exact NodeRun.ended_step hu.1.channel hu.1.alone.run hu.2 hb
  exact (Runs.exec_invariant hkeeps
    ⟨start_sound hnode, fun hended => absurd hended hbefore⟩ h).2

/-- Where `main` leaves everything: the scan has returned and its client is dropped, the
wallet's task has read all that the channel was given, which is all that was passed unless
the node's shutdown took the sender, and the node is killed, flushed and inactive. -/
theorem main_leaves {node : NodeRun} (hnode : node.Started ov) (as : List SignetStep)
    (h : Runs.exec (step ov) (start node) as = some s) (hdone : s.main = .done) :
    s.TaskEnded ∧ s.life.cancellationToken = true ∧ s.life.subscriber ≠ .listening ∧
      s.life.received = s.life.channel ∧
      (s.life.watcher ≠ .finished → s.life.received = s.life.passed) ∧
      s.node.shutdown = .finished ∧ s.node.killSignal = true ∧ s.node.flushAttempted = true ∧
      (¬ node.shutdown.Ended → s.node.state = .inactive) := by
  have hs : Sound s := Runs.exec_invariant (fun _ _ _ hs => sound_step hs) (start_sound hnode) h
  obtain ⟨hordered, -, -, hswept, halone, -, hreturned⟩ := hs
  have hended := halone.returned (hreturned hdone)
  obtain ⟨hkilled, -, hflushed⟩ := hended.past
  have hread := hordered.read (by rw [hdone]; trivial)
  have hreceived : s.life.received = s.life.channel := by
    by_cases hgone : s.life.subscriber = .gone
    · have hall := (hordered.broken (hordered.gone hgone)).1
      refine hordered.delivers.received.eq_of_length_le ?_
      rw [hall]
      exact hordered.delivers.sent.length_le
    · have hrest := hordered.delivers.read hgone
      have hstopped : s.life.subscriber = .ended := by
        cases hpc : s.life.subscriber with
        | ended => rfl
        | listening => exact absurd hpc hread
        | gone => exact absurd hpc hgone
      rwa [(hordered.delivers.ended hstopped).1, List.append_nil] at hrest
  refine ⟨hordered.ended (by rw [hdone]; trivial), hordered.stopping (by rw [hdone]; decide),
    hread, hreceived, fun hwatcher => hreceived.trans (hordered.lost hwatcher), ?_,
    hswept.killed hkilled, hswept.flushed hflushed,
    fun hbefore => ended_inactive hnode hbefore h hended⟩
  cases hpc : s.node.shutdown with
  | finished => rfl
  | _ =>
      rw [hpc] at hended
      exact hended.elim

section examples

def nodeStarts : List NodeStep :=
  [.runTakeInner, .runSetStartedAt, .runSpawnNode, .runSpawnPoll, .runSpawnShutdown,
    .runStoreHandle, .runPublishActive]

def startedNode : NodeRun :=
  { NodeRun.built with
    inner := false
    startedAt := true
    state := .active
    published := [⟨.run, .active⟩]
    shutdownTask := true
    run := .returned
    shutdown := .listening
    poll := .selecting }

theorem startedNode_started : startedNode.Started .wraps :=
  ⟨⟨nodeStarts, rfl⟩, rfl, fun _ => rfl⟩

/-- A scan that has reached its receive loop when the signal comes. -/
def signalled : List SignetStep :=
  [.node .pollWake, .node (.pollPublish true 5 5 5), .scan .subscribe, .scan .borrow,
    .scan (.matched true), .scan (.fetched 1), .scan .check, .scan (.applyBlock none),
    .scan (.finish none), .scan (.notify ""), .interrupted]

/-- What is left to do then; the node's task hears of the signal only through `main`. -/
def woundUp : List SignetStep :=
  [.scan .abort, .life .dropCancel, .life .dropAbort, .life .recv, .life .dropTake, .stopped,
    .life .recvNone, .shutdown, .node (.callLock 0), .node .shutdownRequested,
    .node .shutdownKill, .node .shutdownAnnounce, .node .shutdownCancel,
    .node .shutdownNodeStopped, .node .shutdownJoinNode, .node .shutdownJoinPoll,
    .node .shutdownFlush, .node .shutdownFinish, .node (.callJoin 0), .returned]

theorem main_returns_signalled : ∃ s,
    Runs.exec (step .wraps) (start startedNode) signalled = some s ∧ s.main = .stopping ∧
      ∃ bs t, (∀ b ∈ bs, b.Own) ∧ bs.length ≤ s.life.queue.length + 35 ∧
        Runs.exec (step .wraps) s bs = some t ∧ t.main = .done := by
  have hrun : (Runs.exec (step .wraps) (start startedNode) signalled).any
      (fun s => s.main = .stopping) = true := by decide +kernel
  obtain ⟨s, hs, hmain⟩ := (Option.any_eq_true _ _).mp hrun
  have hstopping := of_decide_eq_true hmain
  exact ⟨s, hs, hstopping,
    (main_returns startedNode_started signalled hs).1 (.inl (by simp [hstopping]))⟩

theorem main_leaves_signalled : ∃ s,
    Runs.exec (step .wraps) (start startedNode) (signalled ++ woundUp) = some s ∧
      s.main = .done ∧ s.life.received = s.life.channel ∧
      s.node.flushAttempted = true ∧ s.node.state = .inactive := by
  have hrun : (Runs.exec (step .wraps) (start startedNode) (signalled ++ woundUp)).any
      (fun s => s.main = .done) = true := by decide +kernel
  obtain ⟨s, hs, hmain⟩ := (Option.any_eq_true _ _).mp hrun
  have hdone := of_decide_eq_true hmain
  obtain ⟨-, -, -, hreceived, -, -, -, hflushed, hinactive⟩ :=
    main_leaves startedNode_started (signalled ++ woundUp) hs hdone
  exact ⟨s, hs, hdone, hreceived, hflushed, hinactive id⟩

end examples
end ClientSignet
end BdkFloresta
