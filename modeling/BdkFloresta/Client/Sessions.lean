import BdkFloresta.Client.Carried
import BdkFloresta.Client.Consumer

/-!
A wallet over many clients, one after another: each is made from the wallet as the last
one left it, its calls end as they may, its channel is emptied at some moment and the loop
reads some of its events. What all the loops have read is one safe log, so the wallet's
checkpoint never passes a transaction that concerns the wallet and that it does not hold.
One scan that succeeds and is read makes up for all that was lost before.
-/

namespace BdkFloresta

/-- One client of the wallet: its calls, how many events were passed before its channel was
emptied, and how many of those the loop has read. -/
structure Session where
  calls : List Call
  emptied : Nat
  read : Nat

def Call.kind : Call → ScanKind
  | .scan _ kind | .scanContinuous _ kind _ => kind

def Call.keepGoing : Call → Bool
  | .scan .. => false
  | .scanContinuous .. => true

theorem Call.Resumes.kind {chain : BestChain} {lookahead bound : Nat} {call : Call}
    (h : call.Resumes chain lookahead bound) : call.kind.Resumes lookahead bound := by
  cases call with
  | scan env kind => exact h
  | scanContinuous env kind deliveries => exact h.1

theorem finished_not_mem_walletUpdates (us : List Update) (keepGoing : Bool) :
    .finished keepGoing ∉ walletUpdates us := by
  simp [walletUpdates]

namespace Client
variable {σ : Type} [BdkChain σ] [LawfulBdkChain σ]

/-- A call ends with its filter scan, unless that has succeeded and the loop goes on. -/
theorem run_started {call : Call} (hslot : Unpoisoned call.env.eventTx) (h : Started call)
    (c : Client σ) :
    (c.run call).2 = (c.notifiedScan call.env call.keepGoing call.kind).2 ∨
      (c.notifiedScan call.env call.keepGoing call.kind).1 = .ok ∧
        (c.notifiedScan call.env call.keepGoing call.kind).2.passed <+: (c.run call).2.passed := by
  cases call with
  | scan env kind =>
      refine .inl (congrArg Prod.snd ?_)
      simp only [run, scan, show waitUntilReady env.ready = .ok from h, andThen_ok]
      rfl
  | scanContinuous env kind deliveries =>
      obtain ⟨hready, hsink⟩ := h
      have hrun : c.run (.scanContinuous env kind deliveries) =
          andThen (c.notifiedScan env true kind) (receiveLoop env.eventTx deliveries) := by
        simp [run, scanContinuous, hready, hsink]
      rw [hrun]
      cases hend : (c.notifiedScan env true kind).1 with
      | err e =>
          rw [andThen_of_err hend]
          exact .inl rfl
      | parked =>
          rw [andThen_of_parked hend]
          exact .inl rfl
      | panicked =>
          rw [andThen_of_panicked hend]
          exact .inl rfl
      | ok =>
          rw [andThen_of_ok hend]
          obtain ⟨watched, hwatched, -⟩ :=
            receiveLoop_emits hslot deliveries (c.notifiedScan env true kind).2
          exact .inr ⟨hend, _, hwatched.passed.symm⟩

/-- A first call that passes `Finished` does so right after a filter scan that succeeded. -/
theorem run_finished {call : Call} (hslot : Unpoisoned call.env.eventTx) {c : Client σ}
    (hc : c.passed = []) {keepGoing : Bool}
    (h : .finished keepGoing ∈ (c.run call).2.passed) :
    (c.notifiedScan call.env call.keepGoing call.kind).1 = .ok ∧
    (∃ us, (c.notifiedScan call.env call.keepGoing call.kind).2.passed =
      walletUpdates us ++ [.finished call.keepGoing]) ∧
    (c.notifiedScan call.env call.keepGoing call.kind).2.passed <+: (c.run call).2.passed := by
  by_cases hstarted : Started call
  · obtain ⟨hexit, us, hemits, -⟩ := notifiedScan_emits hslot call.kind c call.keepGoing
    have hpassed := hemits.passed
    rw [hc, List.nil_append, ← hexit] at hpassed
    rcases run_started hslot hstarted c with hsame | ⟨hok, hprefix⟩
    · rw [hsame, hpassed] at h
      cases hend : (c.notifiedScan call.env call.keepGoing call.kind).1 with
      | ok =>
          rw [hend] at hpassed
          exact ⟨rfl, ⟨us, hpassed⟩, by rw [hsame]⟩
      | err e | parked | panicked =>
          rw [hend] at h
          simp [closingEvent, walletUpdates] at h
    · rw [hok] at hpassed
      exact ⟨hok, ⟨us, hpassed⟩, hprefix⟩
  · rw [run_of_not_started hstarted, hc] at h
    cases h

end Client

/-- The node answers from the chain, and the calls resume. -/
structure Session.Honest (chain : BestChain) (filter : BlockFilter) (lookahead bound : Nat)
    (s : Session) : Prop where
  emptied : ∀ call ∈ s.calls, call.env.eventTx = emptiedAt s.emptied
  answers : ∀ call ∈ s.calls, Answers chain filter call.env
  resumes : ∀ call ∈ s.calls, call.Resumes chain lookahead bound

theorem Session.Honest.unpoisoned {chain : BestChain} {filter : BlockFilter} {s : Session}
    {lookahead bound : Nat} (hs : s.Honest chain filter lookahead bound) :
    ∀ call ∈ s.calls, Unpoisoned call.env.eventTx := by
  intro call hcall
  rw [hs.emptied call hcall]
  exact emptiedAt_unpoisoned s.emptied

theorem last_events {events : List ScanEvent} (h : ∀ u ∈ updates events, u.chain.isSome)
    (checkpoint : CheckPoint) :
    eventCursor.last checkpoint.height events = (lastChain checkpoint events).height := by
  induction events using List.reverseRecOn with
  | nil => rfl
  | append_singleton events event ih =>
      cases event with
      | finished keepGoing | error e =>
          rw [Cursor.last_other (eventCursor_closing rfl), lastChain, updates_closing rfl]
          rw [updates_closing rfl] at h
          exact ih h
      | walletUpdate u =>
          rw [updates_update] at h
          obtain ⟨chain, hchain⟩ := Option.isSome_iff_exists.mp
            (h u (List.mem_append_right _ (List.mem_singleton_self _)))
          rw [Cursor.last_cursor (eventCursor_update hchain), lastChain_update _ hchain]

theorem brought_emitted {events : List ScanEvent} {i : Mined} (h : eventCursor.Brought events i) :
    i.tx ∈ (emitted events).txs ∧
      (i.block.anchor i.height, i.tx.txid) ∈ (emitted events).anchors := by
  obtain ⟨event, hevent, u, rfl, htx, hanchor⟩ := h
  have hu : u ∈ updates events := List.mem_filterMap.mpr ⟨_, hevent, rfl⟩
  obtain ⟨htxs, hanchors⟩ := txUpdate_subset_emitted hu
  exact ⟨htxs htx, hanchors hanchor⟩

section wallet
variable {ω σ : Type} [BdkChain σ] [Wallet ω σ]

namespace Session

/-- The events of the session's client that the loop acts on. -/
def events (s : Session) (w : ω) : List ScanEvent :=
  heard ((clientAfter s.calls w).channel.take s.read)

def wallet (s : Session) (w : ω) : ω :=
  (consume ((clientAfter s.calls w).channel.take s.read) w).wallet

end Session

def restart (sessions : List Session) (w : ω) : ω :=
  sessions.foldl (fun w s => s.wallet w) w

/-- The wallet holds the transaction with its anchor. -/
def Holds (w : ω) (i : Mined) : Prop :=
  i.tx ∈ (Wallet.txGraph w).txs ∧
    (i.block.anchor i.height, i.tx.txid) ∈ (Wallet.txGraph w).anchors

/-- The wallet has read a safe log, and holds what it brought. -/
structure Logged (chain : BestChain) (genesis : Block) (first : σ) (spks : List ScriptBuf)
    (bound : Nat) (w : ω) : Prop where
  base : (latestCheckpoint w).base = (0, genesis.blockHash)
  widened : Widens first (spkIndex w)
  log : ∃ log, eventCursor.Safe (Watched chain first spks bound) bound log ∧
    eventCursor.last bound log = (latestCheckpoint w).height ∧
    ∀ i, eventCursor.Brought log i → Holds w i

variable {chain : BestChain} {filter : BlockFilter} {genesis : Block} {first : σ}
  {spks : List ScriptBuf} {bound : Nat}

theorem Logged.holds {w : ω} (h : Logged chain genesis first spks bound w) {i : Mined}
    (hi : Watched chain first spks bound i) (hle : i.height ≤ (latestCheckpoint w).height) :
    Holds w i := by
  obtain ⟨log, hsafe, hlast, hholds⟩ := h.log
  exact hholds i (hsafe.brought hi hi.above (hlast ▸ hle))

theorem logged_created {w : ω} (hbase : (latestCheckpoint w).base = (0, genesis.blockHash)) :
    Logged chain genesis (spkIndex w) spks (latestCheckpoint w).height w :=
  ⟨hbase, .refl _, [], Cursor.safe_nil, rfl, fun _ ⟨_, hmem, _⟩ => nomatch hmem⟩

theorem Follows.holds {w w' : ω} {events : List ScanEvent} (h : Follows w (updates events) w')
    {i : Mined} (hi : Holds w i ∨ eventCursor.Brought events i) : Holds w' i := by
  rw [Holds, h.emitted, TxGraph.union_txs, TxGraph.union_anchors]
  rcases hi with ⟨htx, hanchor⟩ | hbrought
  · exact ⟨Finset.mem_union_left _ htx, Finset.mem_union_left _ hanchor⟩
  · obtain ⟨htx, hanchor⟩ := brought_emitted hbrought
    exact ⟨Finset.mem_union_right _ htx, Finset.mem_union_right _ hanchor⟩

variable [LawfulBdkChain σ] [KeepsOutputs σ]

omit [KeepsOutputs σ] in
/-- The calls of a session do not panic: the wallet's first block is the chain's. -/
theorem Session.Honest.not_panics {s : Session} {lookahead : Nat}
    (hs : s.Honest chain filter lookahead bound) (hgenesis : chain.blockAt 0 = some genesis)
    {c : Client σ} (hbase : c.checkpoint.base = (0, genesis.blockHash)) :
    ¬ Client.Panics s.calls c := by
  refine Client.not_panics hs.unpoisoned fun call hcall => ?_
  rw [hbase]
  exact (hs.answers call hcall).fromGenesis hgenesis

/-- What a session's client passes on is safe from the wallet's checkpoint on. -/
theorem Logged.carried {w : ω} (h : Logged chain genesis first spks bound w)
    (hgenesis : chain.blockAt 0 = some genesis)
    (hspks : deriveSpks first = .ok spks) (hfilter : chain.NoFalseNegatives filter) {s : Session}
    (hs : s.Honest chain filter (lookahead first) bound) :
    Client.Carried chain first spks bound (latestCheckpoint w).height (clientAfter s.calls w) :=
  Client.Carried.runCalls hspks hfilter hs.answers hs.unpoisoned hs.resumes
    (Client.ofWallet_carried h.widened _) (hs.not_panics hgenesis h.base)

variable [LawfulWallet ω σ]

omit [KeepsOutputs σ] in
/-- A session's loop takes what it reads, and the wallet keeps what it held. -/
theorem Session.Honest.follows {w : ω} {s : Session} {lookahead : Nat}
    (hs : s.Honest chain filter lookahead bound) :
    Follows w (updates (s.events w)) (s.wallet w) :=
  (clientAfter_follows hs.emptied s.read).2.2

/-- One session, wherever its events end. -/
theorem Logged.session {w : ω} (h : Logged chain genesis first spks bound w)
    (hgenesis : chain.blockAt 0 = some genesis) (hspks : deriveSpks first = .ok spks)
    (hfilter : chain.NoFalseNegatives filter) {s : Session}
    (hs : s.Honest chain filter (lookahead first) bound) :
    Logged chain genesis first spks bound (s.wallet w) := by
  obtain ⟨hread, hchained, hreplaced⟩ := clientAfter_heard (w := w) hs.emptied s.read
  have hfollows : Follows w (updates (s.events w)) (s.wallet w) := hs.follows
  have hcarried := h.carried hgenesis hspks hfilter hs
  obtain ⟨log, hsafe, hlast, hholds⟩ := h.log
  refine ⟨?_, h.widened.trans ⟨hfollows.index, hfollows.kept⟩, log ++ s.events w, ?_, ?_, ?_⟩
  · exact (congrArg SparseChain.base hfollows.chain).trans
      ((SparseChain.base_getLastD hreplaced).trans h.base)
  · exact hsafe.append (hlast ▸ hcarried.safe.read hread)
  · rw [Cursor.last_append, hlast, hfollows.lastChain hchained]
    exact last_events hchained _
  · rintro i ⟨event, hmem, hbrings⟩
    refine hfollows.holds ?_
    exact (List.mem_append.mp hmem).imp (fun hold => hholds i ⟨event, hold, hbrings⟩)
      fun hnew => ⟨event, hnew, hbrings⟩

theorem Logged.restart {w : ω} (h : Logged chain genesis first spks bound w)
    (hgenesis : chain.blockAt 0 = some genesis) (hspks : deriveSpks first = .ok spks)
    (hfilter : chain.NoFalseNegatives filter) {sessions : List Session}
    (hs : ∀ s ∈ sessions, s.Honest chain filter (lookahead first) bound) :
    Logged chain genesis first spks bound (BdkFloresta.restart sessions w) := by
  induction sessions generalizing w with
  | nil => exact h
  | cons s rest ih =>
      obtain ⟨hone, hrest⟩ := List.forall_mem_cons.mp hs
      exact ih (h.session hgenesis hspks hfilter hone) hrest

/-- What is read up to and with the first `Finished` of a log. -/
theorem read_finished {us : List Update} {keepGoing keepGoing' : Bool}
    {read passed : List ScanEvent}
    (hread : read <+: passed) (hpassed : walletUpdates us ++ [.finished keepGoing] <+: passed)
    (hfinished : .finished keepGoing' ∈ read) :
    walletUpdates us ++ [.finished keepGoing] <+: read := by
  rcases List.prefix_or_prefix_of_prefix hpassed hread with hle | hlt
  · exact hle
  rcases List.prefix_concat_iff.mp hlt with rfl | hlt
  · exact List.prefix_rfl
  · exact absurd (hlt.subset hfinished) (finished_not_mem_walletUpdates us keepGoing')

end wallet

section examples

theorem unpaid_nodup : (([⟨10, 0, []⟩] : List Block).map Block.blockHash).Nodup :=
  List.nodup_singleton _

/-- The chain of the payment before it has grown to it. -/
def unpaidChain : BestChain := ⟨[⟨10, 0, []⟩], unpaid_nodup⟩

/-- A scan before the payment, one whose events are all lost, and one that is cancelled at
its block. -/
def lostSessions : List Session :=
  [⟨[.scan { honestEnv unpaidChain payingChain.exactFilter 0 with eventTx := emptiedAt 9 } .sync],
      9, 9⟩,
    ⟨[.scan { honestEnv payingChain payingChain.exactFilter 1 with eventTx := emptiedAt 0 } .sync],
      0, 0⟩,
    ⟨[.scan { honestEnv payingChain payingChain.exactFilter 1 with
      eventTx := emptiedAt 9, cancelled := fun p => p = .block 0 } .sync], 9, 9⟩]

/-- A continuous scan that is delivered the block above its filter height. -/
def watchingCall : Call :=
  .scanContinuous { honestEnv payingChain payingChain.exactFilter 1 with eventTx := emptiedAt 9 }
    (.fullScan (some 5)) [.block ⟨12, 9, []⟩ 2]

theorem payingChain_genesis : payingChain.blockAt 0 = some ⟨10, 0, []⟩ := rfl

theorem payingChain_answers {env : ScanEnv}
    (h : ∀ point, env.node point = honestNode payingChain payingChain.exactFilter 1) :
    Answers payingChain payingChain.exactFilter env := honestNode_answers (by decide) h

theorem lostSessions_honest : ∀ s ∈ lostSessions,
    s.Honest payingChain payingChain.exactFilter 5 0 := by
  intro s hs
  simp only [lostSessions, List.mem_cons, List.not_mem_nil, or_false] at hs
  rcases hs with rfl | rfl | rfl <;>
    constructor <;> intro call hcall <;> obtain rfl := List.mem_singleton.mp hcall
  · rfl
  · exact honestNode_answers_later (unpaidChain.blocks.prefix_append
      [⟨11, 5, [⟨1, [], [4, 7]⟩]⟩, ⟨12, 9, []⟩]) (by decide) fun _ => rfl
  · trivial
  · rfl
  · exact payingChain_answers fun _ => rfl
  · trivial
  · rfl
  · exact payingChain_answers fun _ => rfl
  · trivial

theorem watchingCall_honest (read : Nat) :
    Session.Honest payingChain payingChain.exactFilter 5 0 ⟨[watchingCall], 9, read⟩ := by
  constructor <;> intro call hcall <;> obtain rfl := List.mem_singleton.mp hcall
  · rfl
  · exact payingChain_answers fun _ => rfl
  · refine ⟨Nat.le_refl 5, 1, ⟨rfl, rfl, trivial⟩, fun stopHeight hstop => ?_⟩
    exact (Except.ok.inj hstop).le

/-- The payment of the chain's second block. -/
def payment : Mined := ⟨⟨11, 5, [⟨1, [], [4, 7]⟩]⟩, 1, ⟨1, [], [4, 7]⟩⟩

theorem payment_watched :
    Watched payingChain (spkIndex createdWallet) [0, 2, 4, 6, 8, 1, 3, 5, 7, 9] 0 payment :=
  ⟨rfl, List.mem_singleton_self _, .inl ⟨4, by decide, by decide⟩, by decide⟩

end examples
end BdkFloresta
