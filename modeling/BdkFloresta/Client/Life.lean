import BdkFloresta.Client.Protocol
import BdkFloresta.Library.Progress

/-!
A client from `new` to the end of its drop, with the task that watches the node's
token, the tokens and the subscriber's end of the event channel. The watcher and the
drop each cancel the client's token before they take the sender, so an event is lost to
the subscriber only after the token was cancelled. Once the node is shutting down, or
the client is being dropped, nothing keeps the subscriber from the end of the stream,
and what it has read by then is everything the channel was given.
-/

namespace BdkFloresta

/-- How far the task that watches the node's token has come. -/
inductive WatcherPc where
  | watching
  | cancelled
  | finished
  | aborted
  deriving DecidableEq, Repr

/-- How far `drop` has come. -/
inductive DropPc where
  | alive
  | cancelled
  | aborted
  | dropped
  deriving DecidableEq, Repr

/-- The loop over `recv` at the other end of the channel. -/
inductive SubscriberPc where
  | listening
  | ended
  | gone
  deriving DecidableEq, Repr

structure ClientLife where
  nodeToken : Bool
  cancellationToken : Bool
  /-- `event_tx` holds the sender. -/
  eventTx : Bool
  /-- Every event passed to `send_event`. -/
  passed : List ScanEvent
  /-- The events put into the channel. -/
  channel : List ScanEvent
  queue : List ScanEvent
  received : List ScanEvent
  watcher : WatcherPc
  client : DropPc
  subscriber : SubscriberPc

inductive LifeStep where
  | nodeCancel
  | tokenCancel
  | watcherCancel
  | watcherTake
  | send (event : ScanEvent)
  | dropCancel
  | dropAbort
  | dropTake
  | recv
  | recvNone
  | subscriberDrop

namespace ClientLife
open Runs (enabled)

/-- `Client::new` on a node that may be shutting down already. -/
def new (nodeToken : Bool) : ClientLife where
  nodeToken := nodeToken
  cancellationToken := false
  eventTx := true
  passed := []
  channel := []
  queue := []
  received := []
  watcher := .watching
  client := .alive
  subscriber := .listening

/-- `send_event`; a channel without a receiver refuses the event, which is ignored. -/
def sendEvent (s : ClientLife) (event : ScanEvent) : ClientLife :=
  if s.eventTx = true ∧ s.subscriber ≠ .gone then
    { s with
      passed := s.passed ++ [event]
      channel := s.channel ++ [event]
      queue := s.queue ++ [event] }
  else { s with passed := s.passed ++ [event] }

def step (s : ClientLife) : LifeStep → Option ClientLife
  | .nodeCancel => some { s with nodeToken := true }
  | .tokenCancel => some { s with cancellationToken := true }
  -- `shutdown_watcher`
  | .watcherCancel =>
      enabled (s.watcher = .watching ∧ s.nodeToken = true)
        { s with watcher := .cancelled, cancellationToken := true }
  | .watcherTake =>
      enabled (s.watcher = .cancelled) { s with watcher := .finished, eventTx := false }
  -- the calls borrow the client, so none is left once its drop begins
  | .send event => enabled (s.client = .alive) (s.sendEvent event)
  -- `drop`; the watcher has one await, an abort finds it there or not at all
  | .dropCancel =>
      enabled (s.client = .alive) { s with client := .cancelled, cancellationToken := true }
  | .dropAbort =>
      enabled (s.client = .cancelled)
        { s with
          client := .aborted
          watcher := if s.watcher = .watching then .aborted else s.watcher }
  | .dropTake => enabled (s.client = .aborted) { s with client := .dropped, eventTx := false }
  | .recv =>
      match s.queue with
      | [] => none
      | event :: rest =>
          enabled (s.subscriber = .listening)
            { s with received := s.received ++ [event], queue := rest }
  | .recvNone =>
      enabled (s.subscriber = .listening ∧ s.queue = [] ∧ s.eventTx = false)
        { s with subscriber := .ended }
  | .subscriberDrop =>
      enabled (s.subscriber = .listening) { s with subscriber := .gone, queue := [] }

/-- Where the events are. -/
structure Delivers (s : ClientLife) : Prop where
  sent : s.channel <+: s.passed
  whole : s.eventTx = true → s.subscriber ≠ .gone → s.channel = s.passed
  read : s.subscriber ≠ .gone → s.received ++ s.queue = s.channel
  received : s.received <+: s.channel
  ended : s.subscriber = .ended → s.queue = [] ∧ s.eventTx = false

/-- Who took the sender, and what that took. -/
structure Closed (s : ClientLife) : Prop where
  taken : s.eventTx = false ↔ s.watcher = .finished ∨ s.client = .dropped
  watcher : s.watcher = .cancelled ∨ s.watcher = .finished →
    s.nodeToken = true ∧ s.cancellationToken = true
  client : s.client ≠ .alive → s.cancellationToken = true
  aborted : s.watcher = .aborted → s.client = .aborted ∨ s.client = .dropped

theorem new_delivers (nodeToken : Bool) : Delivers (new nodeToken) :=
  ⟨List.prefix_rfl, fun _ _ => rfl, fun _ => rfl, List.prefix_rfl, by simp [new]⟩

theorem new_closed (nodeToken : Bool) : Closed (new nodeToken) := by
  constructor <;> simp [new]

theorem closed_step {s t : ClientLife} {a : LifeStep} (hs : Closed s)
    (h : s.step a = some t) : Closed t := by
  cases a with
  | nodeCancel =>
      obtain rfl := Option.some.inj h
      exact ⟨hs.taken, fun hpc => ⟨rfl, (hs.watcher hpc).2⟩, hs.client, hs.aborted⟩
  | tokenCancel =>
      obtain rfl := Option.some.inj h
      exact ⟨hs.taken, fun hpc => ⟨(hs.watcher hpc).1, rfl⟩, fun _ => rfl, hs.aborted⟩
  | watcherCancel =>
      obtain ⟨⟨hpc, hnode⟩, rfl⟩ := Runs.enabled_eq_some.mp h
      refine ⟨?_, fun _ => ⟨hnode, rfl⟩, fun _ => rfl, by simp⟩
      simpa [hpc] using hs.taken
  | watcherTake =>
      obtain ⟨hpc, rfl⟩ := Runs.enabled_eq_some.mp h
      exact ⟨by simp, fun _ => hs.watcher (.inl hpc), hs.client, by simp⟩
  | send event =>
      obtain ⟨-, rfl⟩ := Runs.enabled_eq_some.mp h
      unfold sendEvent
      split <;> exact ⟨hs.taken, hs.watcher, hs.client, hs.aborted⟩
  | dropCancel =>
      obtain ⟨hpc, rfl⟩ := Runs.enabled_eq_some.mp h
      refine ⟨?_, fun h => ⟨(hs.watcher h).1, rfl⟩, fun _ => rfl, fun haborted => ?_⟩
      · simpa [hpc] using hs.taken
      · simpa [hpc] using hs.aborted haborted
  | dropAbort =>
      obtain ⟨hpc, rfl⟩ := Runs.enabled_eq_some.mp h
      have hcancelled := hs.client (by rw [hpc]; decide)
      have htaken := hs.taken
      refine ⟨?_, fun h => ?_, fun _ => hcancelled, fun _ => .inl rfl⟩
      · rw [hpc] at htaken
        by_cases hw : s.watcher = .watching <;> simpa [hw] using htaken
      · by_cases hw : s.watcher = .watching
        · simp [hw] at h
        · exact hs.watcher (by simpa [hw] using h)
  | dropTake =>
      obtain ⟨hpc, rfl⟩ := Runs.enabled_eq_some.mp h
      exact ⟨by simp, hs.watcher, fun _ => hs.client (by rw [hpc]; decide), fun _ => .inr rfl⟩
  | recv =>
      simp only [step] at h
      split at h
      · cases h
      · obtain ⟨-, rfl⟩ := Runs.enabled_eq_some.mp h
        exact ⟨hs.taken, hs.watcher, hs.client, hs.aborted⟩
  | recvNone | subscriberDrop =>
      obtain ⟨-, rfl⟩ := Runs.enabled_eq_some.mp h
      exact ⟨hs.taken, hs.watcher, hs.client, hs.aborted⟩

theorem delivers_step {s t : ClientLife} {a : LifeStep} (hs : Delivers s)
    (h : s.step a = some t) : Delivers t := by
  cases a with
  | nodeCancel | tokenCancel =>
      obtain rfl := Option.some.inj h
      exact ⟨hs.sent, hs.whole, hs.read, hs.received, hs.ended⟩
  | watcherCancel | dropCancel | dropAbort =>
      obtain ⟨-, rfl⟩ := Runs.enabled_eq_some.mp h
      exact ⟨hs.sent, hs.whole, hs.read, hs.received, hs.ended⟩
  | watcherTake | dropTake =>
      obtain ⟨-, rfl⟩ := Runs.enabled_eq_some.mp h
      exact ⟨hs.sent, by simp, hs.read, hs.received, fun h => ⟨(hs.ended h).1, rfl⟩⟩
  | send event =>
      obtain ⟨-, rfl⟩ := Runs.enabled_eq_some.mp h
      unfold sendEvent
      split
      next hopen =>
        have hwhole := hs.whole hopen.1 hopen.2
        refine ⟨?_, fun _ _ => ?_, fun _ => ?_, ?_, fun h => ?_⟩
        · rw [hwhole]
        · rw [hwhole]
        · rw [← hs.read hopen.2, List.append_assoc]
        · exact hs.received.trans (List.prefix_append ..)
        · rw [(hs.ended h).2] at hopen
          exact absurd hopen.1 (by decide)
      next hclosed =>
        exact ⟨hs.sent.trans (List.prefix_append ..), fun h h' => absurd ⟨h, h'⟩ hclosed, hs.read,
          hs.received, hs.ended⟩
  | recv =>
      simp only [step] at h
      split at h
      · cases h
      next event rest hqueue =>
        obtain ⟨hpc, rfl⟩ := Runs.enabled_eq_some.mp h
        have hgone : s.subscriber ≠ .gone := by rw [hpc]; decide
        have hread := hs.read hgone
        rw [hqueue, List.append_cons] at hread
        exact ⟨hs.sent, hs.whole, fun _ => hread, ⟨rest, hread⟩, by simp [hpc]⟩
  | recvNone =>
      obtain ⟨⟨hpc, hqueue, hclosed⟩, rfl⟩ := Runs.enabled_eq_some.mp h
      exact ⟨hs.sent, by simp [hclosed], fun _ => hs.read (by rw [hpc]; decide), hs.received,
        fun _ => ⟨hqueue, hclosed⟩⟩
  | subscriberDrop =>
      obtain ⟨-, rfl⟩ := Runs.enabled_eq_some.mp h
      exact ⟨hs.sent, by simp, by simp, hs.received, by simp⟩

theorem reached {nodeToken : Bool} {s : ClientLife} {as : List LifeStep}
    (h : Runs.exec step (new nodeToken) as = some s) : Delivers s ∧ Closed s :=
  ⟨Runs.exec_invariant (fun _ _ _ hs => delivers_step hs) (new_delivers nodeToken) h,
    Runs.exec_invariant (fun _ _ _ hs => closed_step hs) (new_closed nodeToken) h⟩

end ClientLife

/-- A step towards the end of the stream: the watcher's, a drop's once it has begun, or a
read of the subscriber's. -/
def LifeStep.Closes : LifeStep → Prop
  | .watcherCancel | .watcherTake | .dropAbort | .dropTake | .recv | .recvNone => True
  | .nodeCancel | .tokenCancel | .send _ | .dropCancel | .subscriberDrop => False

def WatcherPc.remaining : WatcherPc → Nat
  | .watching => 2
  | .cancelled => 1
  | .finished | .aborted => 0

def DropPc.remaining : DropPc → Nat
  | .cancelled => 2
  | .aborted => 1
  | .alive | .dropped => 0

namespace ClientLife

/-- The node's token is cancelled, or the client's drop has begun. -/
def Closing (s : ClientLife) : Prop := s.nodeToken = true ∨ s.client ≠ .alive

theorem closing_step {s t : ClientLife} {a : LifeStep} (hs : s.Closing)
    (h : s.step a = some t) : t.Closing := by
  cases a with
  | nodeCancel =>
      obtain rfl := Option.some.inj h
      exact .inl rfl
  | tokenCancel =>
      obtain rfl := Option.some.inj h
      exact hs
  | send event =>
      obtain ⟨-, rfl⟩ := Runs.enabled_eq_some.mp h
      unfold sendEvent
      split <;> exact hs
  | recv =>
      simp only [step] at h
      split at h
      · cases h
      · obtain ⟨-, rfl⟩ := Runs.enabled_eq_some.mp h
        exact hs
  | dropCancel | dropAbort | dropTake =>
      obtain ⟨-, rfl⟩ := Runs.enabled_eq_some.mp h
      exact .inr (by simp)
  | watcherCancel | watcherTake | recvNone | subscriberDrop =>
      obtain ⟨-, rfl⟩ := Runs.enabled_eq_some.mp h
      exact hs

/-- What stands between the subscriber and the end of the stream. -/
def ahead (s : ClientLife) : Nat :=
  s.queue.length + s.watcher.remaining + s.client.remaining +
    if s.subscriber = .listening then 1 else 0

theorem ahead_le (s : ClientLife) : s.ahead ≤ s.queue.length + 5 := by
  have hwatcher : s.watcher.remaining ≤ 2 := by cases s.watcher <;> decide
  have hclient : s.client.remaining ≤ 2 := by cases s.client <;> decide
  unfold ahead
  split <;> omega

theorem ahead_spends {s t : ClientLife} {a : LifeStep} (hcloses : a.Closes)
    (h : s.step a = some t) : t.ahead < s.ahead := by
  cases a with
  | watcherCancel =>
      obtain ⟨⟨hpc, -⟩, rfl⟩ := Runs.enabled_eq_some.mp h
      simp [ahead, hpc, WatcherPc.remaining]
  | watcherTake | dropTake =>
      obtain ⟨hpc, rfl⟩ := Runs.enabled_eq_some.mp h
      simp [ahead, hpc, WatcherPc.remaining, DropPc.remaining]
  | dropAbort =>
      obtain ⟨hpc, rfl⟩ := Runs.enabled_eq_some.mp h
      by_cases hw : s.watcher = .watching <;>
        simp [ahead, hpc, hw, WatcherPc.remaining, DropPc.remaining]
  | recv =>
      simp only [step] at h
      split at h
      · cases h
      next event rest hqueue =>
        obtain ⟨-, rfl⟩ := Runs.enabled_eq_some.mp h
        simp [ahead, hqueue]
  | recvNone =>
      obtain ⟨⟨hpc, -⟩, rfl⟩ := Runs.enabled_eq_some.mp h
      simp [ahead, hpc]
  | nodeCancel | tokenCancel | send event | dropCancel | subscriberDrop => exact hcloses.elim

/-- As long as the subscriber listens, the one whose turn it is can move. -/
theorem closes_drains : Runs.Drains step LifeStep.Closes
    (fun s => Delivers s ∧ Closed s ∧ s.Closing) (fun s => s.subscriber ≠ .listening)
    ahead where
  keeps _ _ _ hs h :=
    ⟨delivers_step hs.1 h, closed_step hs.2.1 h, closing_step hs.2.2 h⟩
  spends _ _ _ _ _ hcloses h := ahead_spends hcloses h
  enabled s hs hgoal := by
    obtain ⟨-, hclosed, hclosing⟩ := hs
    have hlistening : s.subscriber = .listening := not_not.mp hgoal
    cases hqueue : s.queue with
    | cons event rest =>
        refine ⟨.recv, { s with received := s.received ++ [event], queue := rest }, trivial, ?_⟩
        simp [step, hqueue, hlistening, Runs.enabled]
    | nil =>
        by_cases htx : s.eventTx = false
        · exact ⟨.recvNone, _, trivial,
            Runs.enabled_eq_some.mpr ⟨⟨hlistening, hqueue, htx⟩, rfl⟩⟩
        -- the sender is there: neither the watcher nor the drop has come to its end
        obtain ⟨hunfinished, hundropped⟩ := not_or.mp fun h => htx (hclosed.taken.mpr h)
        have htake : s.client = .aborted → ∃ a t, a.Closes ∧ s.step a = some t := fun hpc =>
          ⟨.dropTake, _, trivial, Runs.enabled_eq_some.mpr ⟨hpc, rfl⟩⟩
        cases hclient : s.client with
        | cancelled => exact ⟨.dropAbort, _, trivial, Runs.enabled_eq_some.mpr ⟨hclient, rfl⟩⟩
        | aborted => exact htake hclient
        | dropped => exact absurd hclient hundropped
        | alive =>
            have hnode := hclosing.resolve_right fun h => h hclient
            cases hwatcher : s.watcher with
            | watching =>
                exact ⟨.watcherCancel, _, trivial,
                  Runs.enabled_eq_some.mpr ⟨⟨hwatcher, hnode⟩, rfl⟩⟩
            | cancelled =>
                exact ⟨.watcherTake, _, trivial, Runs.enabled_eq_some.mpr ⟨hwatcher, rfl⟩⟩
            | finished => exact absurd hwatcher hunfinished
            | aborted =>
                have haborted := hclosed.aborted hwatcher
                simp [hclient] at haborted

/-- The closing steps add nothing to the channel, do not send the subscriber away and do
not begin the closing. -/
theorem closes_frame {s t : ClientLife} {a : LifeStep} (hcloses : a.Closes)
    (h : s.step a = some t) : t.passed = s.passed ∧ t.channel = s.channel ∧
      (s.subscriber ≠ .gone → t.subscriber ≠ .gone) ∧ (t.Closing → s.Closing) := by
  cases a with
  | recv =>
      simp only [step] at h
      split at h
      · cases h
      · obtain ⟨-, rfl⟩ := Runs.enabled_eq_some.mp h
        exact ⟨rfl, rfl, id, id⟩
  | recvNone =>
      obtain ⟨-, rfl⟩ := Runs.enabled_eq_some.mp h
      exact ⟨rfl, rfl, fun _ => by simp, id⟩
  | watcherCancel | watcherTake =>
      obtain ⟨-, rfl⟩ := Runs.enabled_eq_some.mp h
      exact ⟨rfl, rfl, id, id⟩
  | dropAbort | dropTake =>
      obtain ⟨hpc, rfl⟩ := Runs.enabled_eq_some.mp h
      exact ⟨rfl, rfl, id, fun _ => .inr (by rw [hpc]; decide)⟩
  | nodeCancel | tokenCancel | send event | dropCancel | subscriberDrop => exact hcloses.elim

/-- The end of the stream comes from the node or from the drop, after the token. -/
theorem Closed.of_ended {s : ClientLife} (hclosed : Closed s) (hdelivers : Delivers s)
    (h : s.subscriber = .ended) : s.cancellationToken = true ∧ s.Closing := by
  rcases hclosed.taken.mp (hdelivers.ended h).2 with hpc | hpc
  · exact ⟨(hclosed.watcher (.inr hpc)).2, .inl (hclosed.watcher (.inr hpc)).1⟩
  · have hdropping : s.client ≠ .alive := by rw [hpc]; decide
    exact ⟨hclosed.client hdropping, .inr hdropping⟩

/-- Whatever has happened to a client, its subscriber can be brought to the end of the
stream without anyone's help exactly when the node is shutting down or the client is being
dropped, and it has then read all that the channel was given. -/
theorem stream_ends_iff (nodeToken : Bool) (as : List LifeStep) {s : ClientLife}
    (h : Runs.exec step (new nodeToken) as = some s) (hlistening : s.subscriber = .listening) :
    (∃ bs t, (∀ b ∈ bs, b.Closes) ∧ bs.length ≤ s.queue.length + 5 ∧
      Runs.exec step s bs = some t ∧ t.subscriber = .ended ∧ t.received = s.channel ∧
      t.passed = s.passed) ↔ s.Closing := by
  obtain ⟨hdelivers, hclosed⟩ := reached h
  constructor
  · rintro ⟨bs, t, hcloses, -, ht, hended, -, -⟩
    have hlater : Delivers t ∧ Closed t :=
      ⟨Runs.exec_invariant (fun _ _ _ hs => delivers_step hs) hdelivers ht,
        Runs.exec_invariant (fun _ _ _ hs => closed_step hs) hclosed ht⟩
    have hback : ∀ u b v, (u.Closing → s.Closing) → b.Closes → step u b = some v →
        v.Closing → s.Closing := fun _ _ _ hu hb hv hclosing =>
      hu ((closes_frame hb hv).2.2.2 hclosing)
    exact Runs.exec_own hback id hcloses ht (hlater.2.of_ended hlater.1 hended).2
  · intro hclosing
    obtain ⟨bs, t, hcloses, hlength, ht, hunlistening⟩ :=
      closes_drains.reaches ⟨hdelivers, hclosed, hclosing⟩
    have hkeeps : ∀ u b v, u.passed = s.passed ∧ u.channel = s.channel ∧ u.subscriber ≠ .gone →
        b.Closes → step u b = some v →
        v.passed = s.passed ∧ v.channel = s.channel ∧ v.subscriber ≠ .gone := by
      rintro u b v ⟨hpassed, hchannel, hgone⟩ hb hv
      obtain ⟨hp, hc, hg, -⟩ := closes_frame hb hv
      exact ⟨hp.trans hpassed, hc.trans hchannel, hg hgone⟩
    obtain ⟨hpassed, hchannel, hgone⟩ :=
      Runs.exec_own hkeeps ⟨rfl, rfl, by rw [hlistening]; decide⟩ hcloses ht
    have hended : t.subscriber = .ended := by
      cases hpc : t.subscriber with
      | ended => rfl
      | listening => exact absurd hpc hunlistening
      | gone => exact absurd hpc hgone
    have hdelivers' : Delivers t :=
      Runs.exec_invariant (fun _ _ _ hs => delivers_step hs) hdelivers ht
    have hread := hdelivers'.read hgone
    rw [(hdelivers'.ended hended).1, List.append_nil, hchannel] at hread
    exact ⟨bs, t, hcloses, hlength.trans s.ahead_le, ht, hended, hread, hpassed⟩

end ClientLife

namespace Client
variable {σ : Type} [BdkChain σ]

/-- The channel of a client whose sender goes after `n` events holds the first `n`. -/
theorem runCalls_emptiedAt {n : Nat} {calls : List Call}
    (h : ∀ call ∈ calls, call.env.eventTx = emptiedAt n) {c : Client σ}
    (hc : c.channel = c.passed.take n) :
    (runCalls calls c).channel = (runCalls calls c).passed.take n := by
  induction calls generalizing c with
  | nil => exact hc
  | cons call rest ih =>
      obtain ⟨hcall, hrest⟩ := List.forall_mem_cons.mp h
      obtain ⟨events, hemits⟩ := run_emits call c
      have hrun : (c.run call).2.channel = (c.run call).2.passed.take n := by
        rw [hemits.channel, hemits.passed, hcall, reaching_emptiedAt, hc, List.take_append]
      simp only [runCalls, makeCalls]
      split
      · exact hrun
      · exact ih hrest hrun

end Client

namespace ClientLife

/-- What the subscriber gets of all that a client ever passes to `send_event`: a prefix,
which is what the calls put into a channel emptied at one moment. An event is missing only
if the token was cancelled or the subscriber is gone, and a subscriber at the end of the
stream has the whole prefix and finds the token cancelled. -/
theorem stream_of_life (nodeToken : Bool) (as : List LifeStep) {s : ClientLife}
    (h : Runs.exec step (new nodeToken) as = some s) :
    (∃ n, s.channel = s.passed.take n ∧
      ∀ (σ : Type) [BdkChain σ] (index : σ) (checkpoint : CheckPoint)
        (calls : List Call), (∀ call ∈ calls, call.env.eventTx = emptiedAt n) →
        (Client.runCalls calls (.ofWallet index checkpoint)).passed = s.passed →
        (Client.runCalls calls (.ofWallet index checkpoint)).channel = s.channel) ∧
    s.received <+: s.channel ∧
    (s.channel ≠ s.passed → s.cancellationToken = true ∨ s.subscriber = .gone) ∧
    (s.subscriber = .ended →
      s.received = s.channel ∧ s.cancellationToken = true ∧ s.Closing) := by
  obtain ⟨hdelivers, hclosed⟩ := reached h
  have hchannel : s.channel = s.passed.take s.channel.length :=
    List.prefix_iff_eq_take.mp hdelivers.sent
  refine ⟨⟨s.channel.length, hchannel, fun σ _ index checkpoint calls hcalls hpassed => ?_⟩,
    hdelivers.received, fun hlost => ?_, fun hended => ⟨?_, hclosed.of_ended hdelivers hended⟩⟩
  · rw [Client.runCalls_emptiedAt hcalls List.take_nil.symm, hpassed]
    exact hchannel.symm
  · by_contra hopen
    obtain ⟨htoken, hgone⟩ := not_or.mp hopen
    refine hlost (hdelivers.whole ?_ hgone)
    by_contra htaken
    rcases hclosed.taken.mp (Bool.eq_false_iff.mpr htaken) with hpc | hpc
    · exact htoken (hclosed.watcher (.inr hpc)).2
    · exact htoken (hclosed.client (by rw [hpc]; decide))
  · have hread := hdelivers.read (by rw [hended]; decide)
    rwa [(hdelivers.ended hended).1, List.append_nil] at hread

section examples

/-- The node shuts down while a scan is at work: its `Error` finds the channel emptied, and
the drop that follows aborts a watcher that has finished. -/
def interruptedLife : List LifeStep :=
  [.send (.finished true), .recv, .send (.finished true), .nodeCancel, .watcherCancel,
    .watcherTake, .send (.error "aborted"), .dropCancel, .dropAbort]

theorem stream_of_life_interrupted : ∃ s,
    Runs.exec step (new false) interruptedLife = some s ∧ s.passed.length = 3 ∧
      s.received <+: s.channel ∧
      (s.channel ≠ s.passed → s.cancellationToken = true ∨ s.subscriber = .gone) :=
  ⟨_, rfl, rfl, (stream_of_life false interruptedLife rfl).2.1,
    (stream_of_life false interruptedLife rfl).2.2.1⟩

theorem stream_ends_iff_interrupted : ∃ s,
    Runs.exec step (new false) interruptedLife = some s ∧
      ((∃ bs t, (∀ b ∈ bs, b.Closes) ∧ bs.length ≤ s.queue.length + 5 ∧
        Runs.exec step s bs = some t ∧ t.subscriber = .ended ∧ t.received = s.channel ∧
        t.passed = s.passed) ↔ s.Closing) :=
  ⟨_, rfl, stream_ends_iff false interruptedLife rfl rfl⟩

end examples
end ClientLife
end BdkFloresta
