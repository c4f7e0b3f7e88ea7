import BdkFloresta.Client.Coverage
import BdkFloresta.Client.Sessions
import BdkFloresta.Client.Stepwise

/-!
From the node to the wallet: a node validates blocks, syncs filters and publishes its state,
a continuous scan runs beside it, and the wallet's loop reads the events. The scan is the
call on the last chain, its deliveries follow on the subscription one by one, and so a
wallet all of whose scans resume misses nothing up to the blocks that still wait in the
channel, as long as the filters had caught up with the subscription.
-/

namespace BdkFloresta

/-- The blocks above a height follow on it one by one. -/
theorem contiguous_of_above {chain : BestChain} {below : Nat} {taken : List Taken}
    {queue : List (Block × Nat)}
    (h : taken.map Taken.delivery ++ queue = chain.above below) :
    Contiguous chain below (taken.map fun t => .block t.block t.height) := by
  induction taken generalizing below with
  | nil => trivial
  | cons t rest ih =>
      obtain ⟨hblock, hheight, hrest⟩ := BestChain.above_cons h.symm
      refine ⟨hheight, hblock, ih ?_⟩
      rw [← hheight] at hrest
      exact hrest

/-- The loop is at the last of them. -/
theorem Client.received_reaches {σ : Type} [BdkChain σ] [LawfulBdkChain σ] {chain : BestChain}
    {below : Nat} {blocks queue : List (Block × Nat)} (h : blocks ++ queue = chain.above below)
    {c : Client σ} (hbelow : below ≤ c.checkpoint.height) (eventTx : Nat → EventSlot) :
    below + blocks.length ≤ (received eventTx blocks c).checkpoint.height := by
  induction blocks generalizing below c with
  | nil => exact hbelow
  | cons p rest ih =>
      obtain ⟨-, hheight, hrest⟩ := BestChain.above_cons h.symm
      have hnext : below + 1 ≤ (c.receiveBlock eventTx p.1 p.2).2.checkpoint.height := by
        rcases Nat.lt_or_ge c.checkpoint.height p.2 with hlt | hge
        · have htakes : c.checkpoint.Takes ⟨p.2, p.1.blockHash⟩ := CheckPoint.takes_above hlt
          rw [receiveBlock_of_lt hlt,
            emitUpdate_checkpoint (c := (c.applyBlock p.1 p.2).2) htakes, ← hheight]
          exact (congrArg Prod.fst (SparseChain.tip_insert_of_le p.1.blockHash hlt.le)).ge
        · rw [receiveBlock_of_le hge, ← hheight]
          exact hge
      have hrun := ih hrest hnext
      rw [List.length_cons, received_cons]
      omega

theorem heard_of_audible {events : List ScanEvent} (h : ∀ e, .error e ∉ events) :
    heard events = events := by
  induction events with
  | nil => rfl
  | cons event rest ih =>
      have hrest := ih fun e he => h e (List.mem_cons_of_mem _ he)
      cases event with
      | error e => exact absurd (List.mem_cons_self ..) (h e)
      | walletUpdate update | finished keepGoing => exact congrArg (List.cons _) hrest

namespace Handover

/-- The scan beside the node as a client of the wallet, the only one to be read. -/
def session {σ : Type} (g : Setting) (s : Handover σ) (stopHeight emptied read : Nat) : Session :=
  ⟨[.scanContinuous (g.still s.tips.chain stopHeight) g.kind s.deliveries], emptied, read⟩

section session
variable {σ : Type} {g : Setting} {emptied : Nat} {s : Handover σ}
  {startHeight stopHeight : Nat}
  (hopen : g.eventTx = emptiedAt emptied) (hs : s.Inv)
  (hphase : s.phase = .looping startHeight stopHeight)
include hopen hs hphase

theorem session_honest (hcaught : s.enabledAt ≤ stopHeight)
    (hlt : stopHeight < s.tips.chain.blocks.length) {lookahead bound : Nat}
    (hkind : g.kind.Resumes lookahead bound) (read : Nat) :
    (session g s stopHeight emptied read).Honest s.tips.chain g.filter lookahead bound := by
  constructor <;> intro call hcall <;> obtain rfl := List.mem_singleton.mp hcall
  · exact hopen
  · exact g.still_answers hlt
  · have hdelivered := (hs.forwards (hphase ▸ trivial)).2.2
    refine ⟨hkind, s.enabledAt, contiguous_of_above hdelivered, fun stop hstop => ?_⟩
    exact hcaught.trans_eq (Except.ok.inj hstop)

end session

section client
variable {σ : Type} [BdkChain σ] [LawfulBdkChain σ] {g : Setting} {first : Client σ}
  {s : Handover σ}
  {startHeight stopHeight : Nat}

/-- As far as the loop has come, the checkpoint is. -/
theorem loop_reaches (hunpoisoned : Unpoisoned g.eventTx) (hs : s.Inv)
    (honchain : OnChain g first s) (hphase : s.phase = .looping startHeight stopHeight)
    (hcaught : s.enabledAt ≤ stopHeight) :
    s.tips.chain.height ≤ s.client.checkpoint.height + s.queue.length := by
  obtain ⟨-, hle, hdelivered⟩ := hs.forwards (hphase ▸ trivial)
  simp only [OnChain, hphase] at honchain
  obtain ⟨spks, hranged, hunbroken, hclient⟩ := honchain
  have hscan := hranged.notifiedScan_still hunpoisoned hunbroken
  obtain ⟨stop, hstop, hreach⟩ := Client.notifiedScan_reaches
    (g.still_answers hranged.stop_lt) hunpoisoned (congrArg Prod.fst hscan)
  obtain rfl : stopHeight = stop := Except.ok.inj hstop
  rw [hscan] at hreach
  have hreceived := Client.received_reaches hdelivered (hcaught.trans hreach) g.eventTx
  rw [← hclient] at hreceived
  have hlength := congrArg List.length hdelivered
  rw [BestChain.above_eq, List.length_zipIdx, List.length_drop, List.length_append,
    BestChain.blocks_length s.tips.nonempty] at hlength
  omega

/-- What a client has passed on by its loop holds no error, so a wallet's loop reads it all
if the channel was not emptied before. -/
theorem loop_heard {emptied read : Nat} (hopen : g.eventTx = emptiedAt emptied)
    (honchain : OnChain g first s) (hphase : s.phase = .looping startHeight stopHeight)
    (hpassed : first.passed = []) (hchannel : first.channel = [])
    (hemptied : s.client.passed.length ≤ emptied) (hread : s.client.passed.length ≤ read) :
    heard (s.client.channel.take read) = s.client.passed := by
  have hunpoisoned : Unpoisoned g.eventTx := hopen ▸ emptiedAt_unpoisoned emptied
  simp only [OnChain, hphase] at honchain
  obtain ⟨spks, hranged, hunbroken, hclient⟩ := honchain
  have hscan := hranged.notifiedScan_still hunpoisoned hunbroken
  have hslot : Unpoisoned (g.still s.tips.chain stopHeight).eventTx := hunpoisoned
  obtain ⟨hexit, us, hscanned, -⟩ := Client.notifiedScan_emits hslot g.kind first true
  obtain ⟨watched, hwatched, -⟩ := Client.receiveLoop_emits hunpoisoned
    ((s.taken.map Taken.delivery).map fun p => .block p.1 p.2)
    (Client.finished g s.tips.chain startHeight stopHeight spks first)
  rw [Client.receiveLoop_blocks hunpoisoned, ← hclient] at hwatched
  rw [← hexit, hscan] at hscanned
  have hemits := hscanned.trans hwatched
  have hchannel' : s.client.channel = s.client.passed.take emptied := by
    rw [hemits.channel, hemits.passed, hpassed, hchannel]
    exact (congrArg _ (congrFun (congrFun (congrArg reaching hopen) 0) _)).trans
      (reaching_emptiedAt emptied 0 _)
  rw [hchannel', List.take_of_length_le hemptied, List.take_of_length_le hread]
  refine heard_of_audible fun e he => ?_
  rw [hemits.passed, hpassed] at he
  simp [walletUpdates, Client.closingEvent] at he

omit [LawfulBdkChain σ] in
theorem reached_inv {tips : Tips} {published : State} {client : Client σ}
    {steps : List HandoverStep}
    (h : Runs.exec (step g) (start tips published client) steps = some s) : s.Inv := by
  have hstart : Inv (start tips published client) :=
    ⟨False.elim, fun _ => rfl, by simp [start, Phase.range]⟩
  exact Runs.exec_invariant (fun _ _ _ hs hstep => inv_step hs hstep) hstart h

/-- A call that has reached its receive loop, whatever the node did in between, is at the
await of `scan_continuous` on the last chain, with the filters at the height it read; taken
or still queued are the blocks validated since the subscription. -/
theorem loop_is_scanContinuous (hunpoisoned : Unpoisoned g.eventTx) (tips : Tips)
    (published : State) (client : Client σ) (steps : List HandoverStep)
    (h : Runs.exec (step g) (start tips published client) steps = some s)
    (hphase : s.phase = .looping startHeight stopHeight) :
    Answers s.tips.chain g.filter (g.still s.tips.chain stopHeight) ∧
      client.scanContinuous (g.still s.tips.chain stopHeight) g.kind s.deliveries =
        (.parked, s.client) ∧
      s.taken.map Taken.delivery ++ s.queue = s.tips.chain.above s.enabledAt := by
  obtain ⟨hlt, hcall⟩ := (reached_onChain hunpoisoned h).scanContinuous hunpoisoned hphase
  exact ⟨g.still_answers hlt, hcall, ((reached_inv h).forwards (hphase ▸ trivial)).2.2⟩

end client

end Handover

section wallet
variable {ω σ : Type} [BdkChain σ] [Wallet ω σ] [LawfulBdkChain σ]
  [KeepsOutputs σ] [LawfulWallet ω σ]

/-- A loop that has read all its client passed on leaves the wallet where the client is. -/
theorem Logged.caughtUp {chain : BestChain} {filter : BlockFilter} {genesis : Block}
    {first : σ} {spks : List ScriptBuf} {bound : Nat} {w : ω}
    (h : Logged chain genesis first spks bound w) (hgenesis : chain.blockAt 0 = some genesis)
    (hspks : deriveSpks first = .ok spks) (hfilter : chain.NoFalseNegatives filter)
    {s : Session} (hs : s.Honest chain filter (lookahead first) bound)
    (hread : s.events w = (clientAfter s.calls w).passed) :
    (latestCheckpoint (s.wallet w)).height = (clientAfter s.calls w).checkpoint.height := by
  obtain ⟨-, hchained, -⟩ := clientAfter_heard (w := w) hs.emptied s.read
  have hfollows : Follows w (updates (s.events w)) (s.wallet w) := hs.follows
  have hwallet : latestCheckpoint (s.wallet w) = lastChain (latestCheckpoint w) (s.events w) :=
    hfollows.lastChain hchained
  rw [(h.carried hgenesis hspks hfilter hs).tip, ← hread, hwallet]
  exact (last_events hchained _).symm

namespace Handover

section loop
variable (w : ω) (sessions : List Session) {g : Setting} {emptied : Nat}
  (hopen : g.eventTx = emptiedAt emptied) {s : Handover σ} {startHeight stopHeight : Nat}
  (hphase : s.phase = .looping startHeight stopHeight) (hcaught : s.enabledAt ≤ stopHeight)
  {genesis : Block} (hgenesis : s.tips.chain.blockAt 0 = some genesis)
  (hbase : (latestCheckpoint w).base = (0, genesis.blockHash)) {spks : List ScriptBuf}
  (hspks : deriveSpks (spkIndex w) = .ok spks)
  (hfilter : s.tips.chain.NoFalseNegatives g.filter)
  (hsessions : ∀ session ∈ sessions, session.Honest s.tips.chain g.filter
    (lookahead (spkIndex w)) (latestCheckpoint w).height)
  (hkind : g.kind.Resumes (lookahead (spkIndex w)) (latestCheckpoint w).height)
include hopen hphase hcaught hgenesis hbase hspks hfilter hsessions hkind

/-- What a wallet's loop has read of the events of a watching client. -/
theorem loop_holds (hs : s.Inv)
    (honchain : OnChain g (.ofWallet (spkIndex (restart sessions w))
      (latestCheckpoint (restart sessions w))) s) (read : Nat) :
    let v := (consume (s.client.channel.take read) (restart sessions w)).wallet
    (∀ i, Watched s.tips.chain (spkIndex w) spks (latestCheckpoint w).height i →
      i.height ≤ (latestCheckpoint v).height → Holds v i) ∧
    (heard (s.client.channel.take read) = s.client.passed →
      s.tips.chain.height ≤ (latestCheckpoint v).height + s.queue.length) := by
  intro v
  have hunpoisoned : Unpoisoned g.eventTx := hopen ▸ emptiedAt_unpoisoned emptied
  obtain ⟨hlt, hcall⟩ := honchain.scanContinuous hunpoisoned hphase
  have hhonest := session_honest hopen hs hphase hcaught hlt hkind read
  have hbefore : Logged s.tips.chain genesis (spkIndex w) spks (latestCheckpoint w).height
      (restart sessions w) := (logged_created hbase).restart hgenesis hspks hfilter hsessions
  have hclient : clientAfter (session g s stopHeight emptied read).calls (restart sessions w) =
      s.client := (Client.runCalls_singleton _ _).trans (congrArg Prod.snd hcall)
  have hwallet : (session g s stopHeight emptied read).wallet (restart sessions w) = v := by
    simp only [Session.wallet, hclient]
    rfl
  refine ⟨fun i hi hle => ?_, fun hread => ?_⟩
  · exact hwallet ▸ (hbefore.session hgenesis hspks hfilter hhonest).holds hi (hwallet ▸ hle)
  · have hcaughtUp := hbefore.caughtUp hgenesis hspks hfilter hhonest
      (by simp only [Session.events, hclient]; exact hread)
    rw [hwallet, hclient] at hcaughtUp
    rw [hcaughtUp]
    exact loop_reaches hunpoisoned hs honchain hphase hcaught

end loop
end Handover
end wallet

namespace Handover
section examples

/-- The wallet's chain up to the payment, with all filters. -/
def payingTips : Tips where
  chain := ⟨[⟨10, 0, []⟩, ⟨11, 5, [⟨1, [], [4, 7]⟩]⟩], by decide⟩
  chainHeight := 1
  filterHeight := 1
  nonempty := by decide
  validated_le := by decide
  filter_le := by decide

def payingSetting : Setting := ⟨.wraps, payingChain.exactFilter, emptiedAt 9, .sync⟩

/-- The last block is validated between the subscription and the scan. -/
def payingSteps : List HandoverStep :=
  [.poll true, .waitUntilReady, .enableBlockForwarding, .header, .validate ⟨12, 9, []⟩,
    .getFilterHeight, .matchFilters, .fetchBlocks, .scanBlock, .finishScan, .receive]

theorem loop_is_scanContinuous_paying : ∃ s,
    Runs.exec (step payingSetting) (start payingTips .active
      (Client.ofWallet (WalletIndex.fresh 5) (.single 0 10))) payingSteps = some s ∧
    s.phase = .looping 0 1 ∧ s.queue = [] ∧
    (Client.ofWallet (WalletIndex.fresh 5) (.single 0 10)).scanContinuous
      (payingSetting.still s.tips.chain 1) .sync s.deliveries = (.parked, s.client) :=
  ⟨_, rfl, rfl, rfl,
    (loop_is_scanContinuous (g := payingSetting) (emptiedAt_unpoisoned 9) payingTips .active
      (.ofWallet (WalletIndex.fresh 5) (.single 0 10)) payingSteps rfl rfl).2.1⟩

end examples
end Handover
end BdkFloresta
