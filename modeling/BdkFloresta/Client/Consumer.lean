import BdkFloresta.Client.Connect
import BdkFloresta.Client.Life
import BdkFloresta.Client.PlainWallet

/-!
The wallet's side of the event channel, as the example programs have it: a loop over
`recv` that gives every update to the wallet, reports one that fails, goes on after
`Finished` and breaks at an `Error`. However the client's calls ended and however many of
their events the loop has read, no update fails, and the wallet is where the last one it
read left the client.
-/

namespace BdkFloresta

/-- The events the loop acts on: those before the first `Error`. -/
def heard : List ScanEvent → List ScanEvent
  | [] => []
  | .error _ :: _ => []
  | event :: rest => event :: heard rest

theorem heard_isPrefix (events : List ScanEvent) : heard events <+: events := by
  induction events with
  | nil => exact List.prefix_rfl
  | cons event rest ih =>
      cases event with
      | error e => exact List.nil_prefix
      | walletUpdate update | finished keepGoing => exact List.cons_prefix_cons.mpr ⟨rfl, ih⟩

section consume
variable {ω σ : Type} [Wallet ω σ]

/-- What the loop has done with the events so far. -/
structure Consumed (ω : Type) where
  wallet : ω
  /-- The updates that could not be applied. -/
  failed : List Update
  /-- An `Error` has ended the loop. -/
  broken : Bool

/-- The loop over the events it receives, one after another. -/
def consume : List ScanEvent → ω → Consumed ω
  | [], w => ⟨w, [], false⟩
  | .walletUpdate update :: rest, w =>
      match applyUpdate w update with
      | some w => consume rest w
      | none =>
          let consumed := consume rest w
          { consumed with failed := update :: consumed.failed }
  | .finished _ :: rest, w => consume rest w
  | .error _ :: _, w => ⟨w, [], true⟩

end consume

/-- No transaction comes twice, in the updates or before them. -/
def DeliveredOnce (graph : TxGraph) (us : List Update) : Prop :=
  (∀ u ∈ us, Disjoint graph.txs u.txUpdate.txs) ∧
    us.Pairwise fun u v => Disjoint u.txUpdate.txs v.txUpdate.txs

/-- The update has an output that pays one of the index's scripts and was used by then. -/
def Update.Announces {σ : Type} [BdkChain σ] (index : σ) (u : Update)
    (op : OutPoint) (keychain : KeychainKind) (n : Nat) : Prop :=
  ∃ tx ∈ u.txUpdate.txs, ∃ it, tx.PaysAt index op keychain n it ∧
    IndexLe (some n) (u.lastActiveIndices keychain)

section follows
variable {ω σ : Type} [BdkChain σ] [Wallet ω σ]

/-- The wallet has taken all the updates. -/
structure Follows (w : ω) (us : List Update) (w' : ω) : Prop where
  chain : latestCheckpoint w' = (us.filterMap Update.chain).getLastD (latestCheckpoint w)
  graph : Wallet.txGraph w' = (us.map Update.txUpdate).foldl TxGraph.union (Wallet.txGraph w)
  index : Later (spkIndex w) (spkIndex w')
  kept : ∀ op, outpoints (spkIndex w) op = true → outpoints (spkIndex w') op = true
  revealed : ∀ u ∈ us, ∀ op keychain n, u.Announces (spkIndex w) op keychain n →
    IndexLe (some n) (lastRevealedIndices (spkIndex w') keychain)
  paid : DeliveredOnce (Wallet.txGraph w) us → ∀ u ∈ us, ∀ op keychain n,
    u.Announces (spkIndex w) op keychain n → outpoints (spkIndex w') op = true

theorem Follows.refl (w : ω) : Follows w [] w where
  chain := rfl
  graph := rfl
  index := .refl _
  kept _ h := h
  revealed := nofun
  paid := nofun

theorem Update.Announces.later {a b : σ} (h : Later a b) {u : Update} {op : OutPoint}
    {keychain : KeychainKind} {n : Nat} (hu : u.Announces a op keychain n) :
    u.Announces b op keychain n := by
  obtain ⟨tx, htx, it, hpays, hused⟩ := hu
  exact ⟨tx, htx, it, (Transaction.PaysAt.of_later h).mpr hpays, hused⟩

theorem Follows.cons {w v w' : ω} {u : Update} {us : List Update} {chain : CheckPoint}
    (hchain : u.chain = some chain) (hu : Takes w u chain v) (hv : latestCheckpoint v = chain)
    (h : Follows v us w') : Follows w (u :: us) w' where
  chain := by
    rw [h.chain, hv, List.filterMap_cons_some hchain, List.getLastD_cons]
  graph := by
    rw [h.graph, hu.graph]
    rfl
  index := hu.index.trans h.index
  kept op hop := h.kept op (hu.kept op hop)
  revealed u' hmem op keychain n hannounces := by
    rcases List.mem_cons.mp hmem with rfl | hmem
    · obtain ⟨tx, htx, it, hpays, hused⟩ := hannounces
      exact (hu.revealed keychain n it hpays.derived.1 hpays.derived.2 hused).trans
        (h.index.lastRevealed keychain)
    · exact h.revealed u' hmem op keychain n (hannounces.later hu.index)
  paid := by
    rintro ⟨hfresh, hapart⟩ u' hmem op keychain n hannounces
    obtain ⟨hu_fresh, hus_fresh⟩ := List.forall_mem_cons.mp hfresh
    obtain ⟨hu_apart, hus_apart⟩ := List.pairwise_cons.mp hapart
    rcases List.mem_cons.mp hmem with rfl | hmem
    · obtain ⟨tx, htx, it, hpays, hused⟩ := hannounces
      refine h.kept op (hu.paid tx htx (fun hold => ?_) op keychain n it hpays hused)
      exact Finset.disjoint_left.mp hu_fresh hold htx
    · refine h.paid ⟨fun u'' hu'' => ?_, hus_apart⟩ u' hmem op keychain n
        (hannounces.later hu.index)
      rw [hu.graph, TxGraph.union_txs, Finset.disjoint_union_left]
      exact ⟨hus_fresh u'' hu'', hu_apart u'' hu''⟩

/-- Updates whose chains replace one another from the wallet's own on are all taken. -/
theorem consume_follows [LawfulWallet ω σ] (events : List ScanEvent) (w : ω)
    (hchained : ∀ u ∈ updates (heard events), u.chain.isSome)
    (hreplaced : (latestCheckpoint w :: chains (heard events)).IsChain SparseChain.Replaces) :
    (consume events w).failed = [] ∧
      Follows w (updates (heard events)) (consume events w).wallet := by
  induction events generalizing w with
  | nil => exact ⟨rfl, .refl w⟩
  | cons event rest ih =>
      cases event with
      | error e => exact ⟨rfl, .refl w⟩
      | finished keepGoing => exact ih w hchained hreplaced
      | walletUpdate u =>
          obtain ⟨hu, hrest⟩ := List.forall_mem_cons.mp hchained
          obtain ⟨chain, hchain⟩ := Option.isSome_iff_exists.mp hu
          have hchains : chains (heard (.walletUpdate u :: rest)) =
              chain :: chains (heard rest) := List.filterMap_cons_some hchain
          rw [hchains, List.isChain_cons_cons] at hreplaced
          obtain ⟨v, hv, htakes, hcheckpoint⟩ := applyUpdate_replaces hchain hreplaced.1
          have hlater := ih v hrest (hcheckpoint ▸ hreplaced.2)
          simp only [consume, hv]
          exact ⟨hlater.1, hlater.2.cons hchain htakes hcheckpoint⟩

end follows

namespace Client
variable {σ : Type} [BdkChain σ]

/-- What the client's index has found since `first` was announced by an update. -/
structure Announced (first : σ) (c : Client σ) : Prop where
  index : Later first c.txGraph.index
  announced : ∀ op, outpoints c.txGraph.index op = true → outpoints first op = true ∨
    ∃ u ∈ updates c.passed, ∃ keychain n, u.Announces first op keychain n

theorem ofWallet_announced (index : σ) (checkpoint : CheckPoint) :
    Announced index (ofWallet index checkpoint) :=
  ⟨.refl _, fun _ h => .inl h⟩

section laws
variable [LawfulBdkChain σ]

theorem Announced.emitUpdate {first : σ} {c : Client σ} (h : Announced first c)
    (eventTx : Nat → EventSlot) {block : BlockId} (htakes : c.checkpoint.Takes block) :
    Announced first (c.emitUpdate eventTx block).2 := by
  constructor
  · rw [emitUpdate_txGraph htakes]
    exact h.index
  · rw [emitUpdate_txGraph htakes, emitUpdate_passed htakes, updates_update]
    intro op hop
    refine (h.announced op hop).imp_right ?_
    rintro ⟨u, hu, hannounces⟩
    exact ⟨u, List.mem_append_left _ hu, hannounces⟩

variable [IndexesOutputs σ]

/-- A block's update announces what the block adds to the index. -/
theorem Announced.emitApplied {first : σ} {c : Client σ} (h : Announced first c)
    (hgraph : c.txGraph.graph = .empty) (eventTx : Nat → EventSlot) (block : Block)
    (height : Nat) {cut : BlockId} (htakes : c.checkpoint.Takes cut) :
    Announced first ((c.applyBlock block height).2.emitUpdate eventTx cut).2 := by
  have hlater : Later first (block.indexed c.txGraph.index) :=
    h.index.trans (later_indexTxs block.txdata c.txGraph.index)
  have happlied : (c.applyBlock block height).2.checkpoint.Takes cut := htakes
  constructor
  · rw [emitUpdate_txGraph happlied, applyBlock_txGraph _ _ hgraph]
    exact hlater
  · rw [emitUpdate_txGraph happlied, emitUpdate_passed happlied, updates_update,
      applyBlock_txGraph _ _ hgraph, applyBlock_passed]
    intro op hop
    rcases outpoints_indexTxs block.txdata c.txGraph.index hop with
      hop | ⟨tx, htx, keychain, n, it, hpays, hused⟩
    · refine (h.announced op hop).imp_right ?_
      rintro ⟨u, hu, hannounces⟩
      exact ⟨u, List.mem_append_left _ hu, hannounces⟩
    · refine .inr ⟨_, List.mem_append_right _ (List.mem_singleton_self _), keychain, n, tx, ?_,
        it, (Transaction.PaysAt.of_later h.index).mp hpays, ?_⟩
      · rw [cutUpdate, applyBlock_txGraph _ _ hgraph]
        exact List.mem_toFinset.mpr htx
      · rw [cutUpdate, applyBlock_txGraph _ _ hgraph]
        exact hused

theorem announced_kept (first : σ) (checkpoint : CheckPoint) (eventTx : Nat → EventSlot) :
    KeptBy eventTx fun c : Client σ => Settled first checkpoint c ∧ Announced first c where
  scanBlock block height c h hexit := by
    refine ⟨(settled_kept first checkpoint eventTx).scanBlock block height h.1 hexit, ?_⟩
    rcases scanBlock_cases eventTx block height c with ⟨hempty, heq⟩ | ⟨-, heq⟩ <;>
      rw [heq] at hexit ⊢
    · have hgraph := applyBlock_of_irrelevant height h.1.graph_empty
        ((applyBlock_isEmpty_iff block height h.1.graph_empty).mp hempty)
      exact ⟨hgraph ▸ h.2.index, by rw [hgraph]; exact h.2.announced⟩
    · have htakes : c.checkpoint.Takes ⟨height, block.blockHash⟩ :=
        takes_of_emitUpdate (c := (c.applyBlock block height).2) hexit
      exact h.2.emitApplied h.1.graph_empty eventTx block height htakes
  receiveBlock block height c h := by
    refine ⟨(settled_kept first checkpoint eventTx).receiveBlock block height h.1, ?_⟩
    simp only [receiveBlock]
    split
    · exact h.2
    next hlt =>
      exact h.2.emitApplied h.1.graph_empty eventTx block height
        (CheckPoint.takes_above (Nat.not_le.mp hlt))
  finishScan block c hlt h :=
    ⟨(settled_kept first checkpoint eventTx).finishScan block hlt h.1,
      h.2.emitUpdate eventTx (CheckPoint.takes_above hlt)⟩
  sendClosing hevent h := by
    refine ⟨(settled_kept first checkpoint eventTx).sendClosing hevent h.1, ?_, ?_⟩
    · rw [sendEvent_txGraph]
      exact h.2.index
    · rw [sendEvent_txGraph, sendEvent_passed, updates_closing hevent]
      exact h.2.announced

end laws
end Client

theorem lastChain_eq {events : List ScanEvent} (h : ∀ u ∈ updates events, u.chain.isSome)
    (checkpoint : CheckPoint) :
    lastChain checkpoint events = (chains events).getLastD checkpoint := by
  unfold lastChain chains
  induction hus : updates events using List.reverseRecOn with
  | nil => rfl
  | append_singleton us u _ =>
      obtain ⟨chain, hchain⟩ := Option.isSome_iff_exists.mp (h u (by simp [hus]))
      simp [hchain]

theorem foldl_union (graphs : List TxGraph) (g : TxGraph) :
    graphs.foldl TxGraph.union g = g.union (graphs.foldl TxGraph.union .empty) := by
  induction graphs generalizing g with
  | nil => exact (TxGraph.union_empty g).symm
  | cons h rest ih =>
      rw [List.foldl_cons, List.foldl_cons, ih, ih (TxGraph.empty.union h), TxGraph.empty_union,
        TxGraph.union_assoc]

theorem txUpdate_subset_emitted {events : List ScanEvent} {u : Update}
    (hu : u ∈ updates events) : u.txUpdate.txs ⊆ (emitted events).txs ∧
      u.txUpdate.anchors ⊆ (emitted events).anchors := by
  unfold emitted
  generalize updates events = us at hu
  induction us with
  | nil => cases hu
  | cons v us ih =>
      rw [List.map_cons, List.foldl_cons, TxGraph.empty_union, foldl_union, TxGraph.union_txs,
        TxGraph.union_anchors]
      rcases List.mem_cons.mp hu with rfl | hu
      · exact ⟨Finset.subset_union_left, Finset.subset_union_left⟩
      · exact ⟨(ih hu).1.trans Finset.subset_union_right, (ih hu).2.trans Finset.subset_union_right⟩

section wallet
variable {ω σ : Type} [BdkChain σ] [Wallet ω σ]

theorem Follows.lastChain {w w' : ω} {events : List ScanEvent} (h : Follows w (updates events) w')
    (hchained : ∀ u ∈ updates events, u.chain.isSome) :
    latestCheckpoint w' = BdkFloresta.lastChain (latestCheckpoint w) events := by
  rw [lastChain_eq hchained]
  exact h.chain

theorem Follows.emitted {w w' : ω} {events : List ScanEvent}
    (h : Follows w (updates events) w') :
    Wallet.txGraph w' = (Wallet.txGraph w).union (BdkFloresta.emitted events) := by
  rw [h.graph, foldl_union]
  rfl

/-- The client of the wallet after the calls. -/
abbrev clientAfter (calls : List Call) (w : ω) : Client σ :=
  Client.runCalls calls (.ofWallet (spkIndex w) (latestCheckpoint w))

section laws
variable [LawfulBdkChain σ]

/-- The updates the loop acts on carry chains that replace one another. -/
theorem clientAfter_heard {w : ω} {calls : List Call} {n : Nat}
    (hopen : ∀ call ∈ calls, call.env.eventTx = emptiedAt n) (m : Nat) :
    heard ((clientAfter calls w).channel.take m) <+: (clientAfter calls w).passed ∧
    (∀ u ∈ updates (heard ((clientAfter calls w).channel.take m)), u.chain.isSome) ∧
    (latestCheckpoint w :: chains (heard ((clientAfter calls w).channel.take m))).IsChain
      SparseChain.Replaces := by
  have hlinked : Client.Linked (latestCheckpoint w) (clientAfter calls w) :=
    Client.runCalls_linked (spkIndex w) (latestCheckpoint w) calls
  have hchannel := Client.runCalls_emptiedAt hopen
    (c := .ofWallet (spkIndex w) (latestCheckpoint w)) List.take_nil.symm
  have hheard : heard ((clientAfter calls w).channel.take m) <+: (clientAfter calls w).passed := by
    refine (heard_isPrefix _).trans ((List.take_prefix m _).trans ?_)
    rw [hchannel]
    exact List.take_prefix n _
  have hupdates : updates (heard ((clientAfter calls w).channel.take m)) <+:
      updates (clientAfter calls w).passed := hheard.filterMap _
  refine ⟨hheard, fun u hu => hlinked.chained u (hupdates.subset hu), ?_⟩
  exact List.IsChain.prefix hlinked.replaced
    (List.cons_prefix_cons.mpr ⟨rfl, hupdates.filterMap Update.chain⟩)

variable [LawfulWallet ω σ]

theorem clientAfter_follows {w : ω} {calls : List Call} {n : Nat}
    (hopen : ∀ call ∈ calls, call.env.eventTx = emptiedAt n) (m : Nat) :
    (∀ u ∈ updates (heard ((clientAfter calls w).channel.take m)), u.chain.isSome) ∧
    (consume ((clientAfter calls w).channel.take m) w).failed = [] ∧
    Follows w (updates (heard ((clientAfter calls w).channel.take m)))
      (consume ((clientAfter calls w).channel.take m) w).wallet := by
  obtain ⟨-, hchained, hreplaced⟩ := clientAfter_heard (w := w) hopen m
  exact ⟨hchained, consume_follows _ w hchained hreplaced⟩

/-- Whatever calls were made, however they ended and whenever the channel was emptied: at
every moment of the loop no update has failed, the wallet's chain is that of the last
update the loop has read and its graph holds what all of them brought. -/
theorem wallet_follows (w : ω) (calls : List Call) (n : Nat)
    (hopen : ∀ call ∈ calls, call.env.eventTx = emptiedAt n) (m : Nat) :
    let events := heard ((clientAfter calls w).channel.take m)
    let consumed := consume ((clientAfter calls w).channel.take m) w
    consumed.failed = [] ∧
    latestCheckpoint consumed.wallet = lastChain (latestCheckpoint w) events ∧
    Wallet.txGraph consumed.wallet = (Wallet.txGraph w).union (emitted events) := by
  intro events consumed
  obtain ⟨hchained, hfailed, hfollows⟩ := clientAfter_follows (w := w) hopen m
  exact ⟨hfailed, hfollows.lastChain hchained, hfollows.emitted⟩

end laws
end wallet

section examples

def createdWallet : PlainWallet := ⟨.single 0 10, .empty, .fresh 5⟩

def payingChain : BestChain :=
  ⟨[⟨10, 0, []⟩, ⟨11, 5, [⟨1, [], [4, 7]⟩]⟩, ⟨12, 9, []⟩], by decide⟩

/-- A filter scan that finds a payment, and a block delivered to the loop after it; the
channel is emptied after `n` events. -/
def payingCalls (n : Nat) : List Call :=
  [.scanContinuous { honestEnv payingChain payingChain.exactFilter 1 with eventTx := emptiedAt n }
    .sync [.block ⟨12, 9, []⟩ 2]]

theorem payingCalls_open (n : Nat) : ∀ call ∈ payingCalls n, call.env.eventTx = emptiedAt n := by
  simp [payingCalls, Call.env]

/-- The channel is emptied before the delivered block's update. -/
theorem wallet_follows_paying :
    let events := heard ((clientAfter (payingCalls 2) createdWallet).channel.take 5)
    let consumed := consume ((clientAfter (payingCalls 2) createdWallet).channel.take 5)
      createdWallet
    latestCheckpoint consumed.wallet = lastChain (.single 0 10) events ∧ events.length = 2 :=
  ⟨(wallet_follows createdWallet (payingCalls 2) 2 (payingCalls_open 2) 5).2.1, by decide⟩

/-- Another scan after that, which fails: its `Error` is the last event. -/
def payingThenFailing : List Call :=
  payingCalls 9 ++ [.scan { honestEnv payingChain payingChain.exactFilter 2 with
    eventTx := emptiedAt 9
    cancelled := fun p => p = .beforeMatch } .sync]

end examples
end BdkFloresta
