import BdkFloresta.Client.Honest
import BdkFloresta.Chain.WalletIndex

/-!
What the updates of a client add up to. Whatever the calls were and however they
ended, the emitted updates together hold what each applied block adds alone, and the
client's index has seen them all. The reference is one transaction graph that is never
reset, to which the same blocks were applied in the same order. It holds no less, and
the same exactly as long as it keeps of no block more than an empty graph would: what
double-spends a transaction that was cut off with an update before is missed.
-/

namespace BdkFloresta

/-- The transactions and anchors of all updates. -/
def emitted (events : List ScanEvent) : TxGraph :=
  ((updates events).map Update.txUpdate).foldl TxGraph.union .empty

/-- The chain of the last update, or the wallet's checkpoint. -/
def lastChain (checkpoint : CheckPoint) (events : List ScanEvent) : CheckPoint :=
  ((updates events).getLast?.bind Update.chain).getD checkpoint

/-- No keychain's last active index is smaller in `b` than in `a`. -/
def ActiveLe (a b : KeychainKind → Option Nat) : Prop :=
  ∀ keychain, IndexLe (a keychain) (b keychain)

theorem emitted_update (events : List ScanEvent) (update : Update) :
    emitted (events ++ [.walletUpdate update]) = (emitted events).union update.txUpdate := by
  simp only [emitted, updates_update, List.map_append, List.foldl_append]
  rfl

theorem lastChain_update (checkpoint : CheckPoint) {chain : CheckPoint} {update : Update}
    (h : update.chain = some chain) (events : List ScanEvent) :
    lastChain checkpoint (events ++ [.walletUpdate update]) = chain := by
  simp [lastChain, updates_update, h]

variable {σ : Type} [BdkChain σ]

/-- The graph that is never reset. -/
def accumulated (index : σ) (applied : List Application) : IndexedTxGraph σ :=
  applied.foldl (fun g a => (applyBlockRelevant g a.block a.height).1) (.new index)

/-- What each block adds alone, under the index that its predecessors leave. -/
def addedAlone (index : σ) (applied : List Application) : IndexedTxGraph σ :=
  applied.foldl
    (fun g a => ⟨g.graph.union (a.block.delta a.height g.index), a.block.indexed g.index⟩)
    (.new index)

theorem accumulated_append (index : σ) (applied : List Application) (a : Application) :
    accumulated index (applied ++ [a]) =
      (applyBlockRelevant (accumulated index applied) a.block a.height).1 := by
  simp only [accumulated, List.foldl_append, List.foldl_cons, List.foldl_nil]

theorem addedAlone_append (index : σ) (applied : List Application) (a : Application) :
    addedAlone index (applied ++ [a]) =
      ⟨(addedAlone index applied).graph.union
          (a.block.delta a.height (addedAlone index applied).index),
        a.block.indexed (addedAlone index applied).index⟩ := by
  simp only [addedAlone, List.foldl_append, List.foldl_cons, List.foldl_nil]

/-- Of none of the blocks does the graph that is never reset keep more than an empty one. -/
def KeepsAlone (index : σ) (applied : List Application) : Prop :=
  ∀ before a, before ++ [a] <+: applied →
    (accumulated index (before ++ [a])).graph = (accumulated index before).graph.union
      (a.block.delta a.height (accumulated index before).index)

/-- No block double-spends a transaction that an earlier one has added. -/
def NoDoubleSpend (index : σ) (applied : List Application) : Prop :=
  ∀ before a, before ++ [a] <+: applied → ∀ tx ∈ a.block.txdata,
    ∀ other ∈ (addedAlone index before).graph.txs, ¬ tx.DoubleSpends other

section accumulated
variable [LawfulBdkChain σ]

theorem accumulated_index (index : σ) (applied : List Application) :
    (accumulated index applied).index = (addedAlone index applied).index := by
  induction applied using List.reverseRecOn with
  | nil => rfl
  | append_singleton before a ih =>
      rw [accumulated_append, addedAlone_append, applyBlockRelevant_index, ih]

/-- What the blocks add alone is in the graph that is never reset. -/
theorem addedAlone_within (index : σ) (applied : List Application) :
    (addedAlone index applied).graph.Within (accumulated index applied).graph := by
  induction applied using List.reverseRecOn with
  | nil => exact .refl _
  | append_singleton before a ih =>
      obtain ⟨kept, hrelevant, -, hgraph⟩ := LawfulBdkChain.applyBlockRelevant_graph
        (accumulated index before) a.block a.height
      rw [accumulated_append, addedAlone_append, hgraph]
      refine ih.union ?_
      rw [Block.delta, ← accumulated_index]
      exact TxGraph.anchored_within _ hrelevant

/-- The two agree throughout exactly if the graph that is never reset keeps no more. -/
theorem addedAlone_eq_iff (index : σ) (applied : List Application) :
    (∀ before, before <+: applied →
      (addedAlone index before).graph = (accumulated index before).graph) ↔
        KeepsAlone index applied := by
  constructor
  · intro h before a hprefix
    rw [← h _ hprefix, addedAlone_append, accumulated_index,
      h before ((List.prefix_append _ _).trans hprefix)]
  · intro h before
    induction before using List.reverseRecOn with
    | nil => exact fun _ => rfl
    | append_singleton before a ih =>
        intro hprefix
        rw [h before a hprefix, addedAlone_append, accumulated_index,
          ih ((List.prefix_append _ _).trans hprefix)]

theorem keepsAlone_of_noDoubleSpend {index : σ} {applied : List Application}
    (h : NoDoubleSpend index applied) : KeepsAlone index applied := by
  refine (addedAlone_eq_iff index applied).mp fun before => ?_
  induction before using List.reverseRecOn with
  | nil => exact fun _ => rfl
  | append_singleton before a ih =>
      intro hprefix
      have hbefore := ih ((List.prefix_append _ _).trans hprefix)
      have hunspent := h before a hprefix
      rw [hbefore] at hunspent
      rw [accumulated_append, applyBlockRelevant_of_unspent hunspent, addedAlone_append,
        accumulated_index, hbefore]

end accumulated

namespace Client

/-- The emitted updates and the graph at hand make up what the blocks add. -/
structure Accounted (index : σ) (c : Client σ) : Prop where
  content : (emitted c.passed).union c.txGraph.graph = (addedAlone index c.applied).graph
  index : c.txGraph.index = (addedAlone index c.applied).index
  ordered : (updates c.passed).Pairwise fun u v =>
    ActiveLe u.lastActiveIndices v.lastActiveIndices
  reached : ∀ u ∈ updates c.passed,
    ActiveLe u.lastActiveIndices (lastUsedIndices c.txGraph.index)

/-- Nothing is held back: the graph is empty and the checkpoint was sent. -/
structure Settled (index : σ) (checkpoint : CheckPoint) (c : Client σ) : Prop
    extends Accounted index c where
  graph_empty : c.txGraph.graph = .empty
  sent : c.checkpoint = lastChain checkpoint c.passed

theorem ofWallet_settled (index : σ) (checkpoint : CheckPoint) :
    Settled index checkpoint (ofWallet index checkpoint) where
  content := TxGraph.empty_union _
  index := rfl
  ordered := .nil
  reached := nofun
  graph_empty := rfl
  sent := rfl

theorem sendClosing_settled {index : σ} {checkpoint : CheckPoint} {c : Client σ}
    {event : ScanEvent} (hevent : event.update? = none) (h : Settled index checkpoint c)
    (eventTx : Nat → EventSlot) : Settled index checkpoint (c.sendEvent eventTx event).2 := by
  have hupdates := updates_closing hevent c.passed
  constructor
  · constructor <;>
      simp only [sendEvent_passed, sendEvent_txGraph, sendEvent_applied, emitted, hupdates]
    · exact h.content
    · exact h.index
    · exact h.ordered
    · exact h.reached
  · rw [sendEvent_txGraph]
    exact h.graph_empty
  · simp only [sendEvent_checkpoint, sendEvent_passed, lastChain, hupdates]
    exact h.sent

section laws
variable [LawfulBdkChain σ]

theorem emitUpdate_settled {index : σ} {checkpoint : CheckPoint} {c : Client σ}
    (h : Accounted index c) {block : BlockId} (htakes : c.checkpoint.Takes block)
    (eventTx : Nat → EventSlot) :
    Settled index checkpoint (c.emitUpdate eventTx block).2 where
  content := by
    rw [emitUpdate_passed htakes, emitUpdate_txGraph htakes, emitUpdate_applied, emitted_update,
      ← h.content]
    exact TxGraph.union_empty _
  index := by
    rw [emitUpdate_txGraph htakes, emitUpdate_applied]
    exact h.index
  ordered := by
    rw [emitUpdate_passed htakes, updates_update]
    refine List.pairwise_append.mpr ⟨h.ordered, List.pairwise_singleton .., ?_⟩
    intro u hu v hv
    obtain rfl := List.mem_singleton.mp hv
    exact h.reached u hu
  reached := by
    rw [emitUpdate_passed htakes, emitUpdate_txGraph htakes, updates_update]
    intro u hu
    rcases List.mem_append.mp hu with hu | hu
    · exact h.reached u hu
    · obtain rfl := List.mem_singleton.mp hu
      exact fun _ => .refl _
  graph_empty := by
    rw [emitUpdate_txGraph htakes]
    rfl
  sent := by
    rw [emitUpdate_checkpoint htakes, emitUpdate_passed htakes]
    exact (lastChain_update checkpoint rfl _).symm

theorem applyBlock_accounted {index : σ} {checkpoint : CheckPoint} {c : Client σ}
    (h : Settled index checkpoint c) (block : Block) (height : Nat) :
    Accounted index (c.applyBlock block height).2 where
  content := by
    have hcontent := h.content
    rw [h.graph_empty, TxGraph.union_empty] at hcontent
    rw [applyBlock_passed, applyBlock_txGraph _ _ h.graph_empty, applyBlock_applied,
      addedAlone_append, ← hcontent, ← h.index]
  index := by
    rw [applyBlock_index, applyBlock_applied, addedAlone_append, ← h.index]
  ordered := h.ordered
  reached u hu keychain := by
    rw [applyBlock_index]
    exact (h.reached u hu keychain).trans
      ((later_indexTxs block.txdata c.txGraph.index).lastUsed keychain)

theorem settled_kept (index : σ) (checkpoint : CheckPoint) (eventTx : Nat → EventSlot) :
    KeptBy eventTx (Settled index checkpoint) where
  scanBlock block height c h hexit := by
    have happlied := applyBlock_accounted h block height
    rcases scanBlock_cases eventTx block height c with ⟨hempty, heq⟩ | ⟨-, heq⟩ <;>
      rw [heq] at hexit ⊢
    · have hgraph := applyBlock_of_irrelevant height h.graph_empty
        ((applyBlock_isEmpty_iff block height h.graph_empty).mp hempty)
      exact ⟨happlied, by rw [hgraph, h.graph_empty], h.sent⟩
    · exact emitUpdate_settled happlied (takes_of_emitUpdate hexit) eventTx
  receiveBlock block height c h := by
    simp only [receiveBlock]
    split
    · exact h
    next hlt =>
      exact emitUpdate_settled (applyBlock_accounted h block height)
        (CheckPoint.takes_above (Nat.not_le.mp hlt)) eventTx
  finishScan block c hlt h := emitUpdate_settled h.toAccounted (CheckPoint.takes_above hlt) eventTx
  sendClosing hevent h := sendClosing_settled hevent h eventTx

/-- After one scan of a client as its wallet left it that has not panicked, the checkpoint
is the last one sent. -/
theorem scan_sent (index : σ) (checkpoint : CheckPoint) {env : ScanEnv} {kind : ScanKind}
    (hexit : ((ofWallet index checkpoint).scan env kind).1 ≠ .panicked) :
    ((ofWallet index checkpoint).scan env kind).2.checkpoint =
      lastChain checkpoint ((ofWallet index checkpoint).scan env kind).2.passed := by
  have hkept : KeptBy (Call.scan env kind).env.eventTx (Settled index checkpoint) :=
    settled_kept index checkpoint env.eventTx
  exact ((leaves_run hkept (ofWallet_settled index checkpoint)).of_ne hexit).sent

/-- After any calls, however they ended and at whichever await they stopped, the
graph is empty, the checkpoint is the last one sent, the emitted updates add up to what
the applied blocks add alone, the index is that of the graph that was never reset, and the
last active indices never decrease. That graph holds all that was emitted, and with every
block applied so far just that exactly if it has kept of none of them more than the block
adds alone, as is so where no block double-spends a transaction emitted before. -/
theorem updates_account (index : σ) (checkpoint : CheckPoint) (calls : List Call)
    (hreturned : ¬ Panics calls (ofWallet index checkpoint)) :
    let client := runCalls calls (ofWallet index checkpoint)
    client.txGraph.graph = .empty ∧
    client.checkpoint = lastChain checkpoint client.passed ∧
    emitted client.passed = (addedAlone index client.applied).graph ∧
    (emitted client.passed).Within (accumulated index client.applied).graph ∧
    ((∀ applied, applied <+: client.applied →
      (addedAlone index applied).graph = (accumulated index applied).graph) ↔
        KeepsAlone index client.applied) ∧
    (NoDoubleSpend index client.applied →
      emitted client.passed = (accumulated index client.applied).graph) ∧
    client.txGraph.index = (accumulated index client.applied).index ∧
    (updates client.passed).Pairwise fun u v =>
      ActiveLe u.lastActiveIndices v.lastActiveIndices := by
  intro client
  have hsettled : Settled index checkpoint client :=
    kept_runCalls (fun call _ => settled_kept index checkpoint call.env.eventTx)
      (ofWallet_settled index checkpoint) hreturned
  have hemitted : emitted client.passed = (addedAlone index client.applied).graph := by
    rw [← hsettled.content, hsettled.graph_empty, TxGraph.union_empty]
  refine ⟨hsettled.graph_empty, hsettled.sent, hemitted, ?_, addedAlone_eq_iff _ _, fun h => ?_,
    ?_, hsettled.ordered⟩
  · rw [hemitted]
    exact addedAlone_within _ _
  · rw [hemitted]
    exact (addedAlone_eq_iff _ _).mpr (keepsAlone_of_noDoubleSpend h) _ List.prefix_rfl
  · rw [hsettled.index, accumulated_index]

end laws

section examples

/-- A payment to the wallet found by a scan, found again by a second one and
spent by a block delivered afterwards. -/
def paidAndSpent : List Call :=
  let chain : BestChain :=
    ⟨[⟨10, 0, []⟩, ⟨11, 1, [⟨1, [], [0]⟩]⟩, ⟨12, 2, [⟨2, [⟨1, 0⟩], [101]⟩]⟩], by decide⟩
  [.scan (honestEnv chain chain.exactFilter 1) .sync,
    .scanContinuous (honestEnv chain chain.exactFilter 1) .sync
      [.block ⟨12, 2, [⟨2, [⟨1, 0⟩], [101]⟩]⟩ 2]]

example : (updates (runCalls paidAndSpent
    (ofWallet (WalletIndex.fresh 5) (.single 0 10))).passed).map
      (fun update => update.chain.map CheckPoint.height) = [some 1, some 1, some 2] := by
  decide

theorem updates_account_paidAndSpent :
    let client := runCalls paidAndSpent (ofWallet (WalletIndex.fresh 5) (.single 0 10))
    emitted client.passed = (addedAlone (WalletIndex.fresh 5) client.applied).graph :=
  (updates_account (WalletIndex.fresh 5) (.single 0 10) paidAndSpent (by decide)).2.2.1

/-- A payment to the wallet in a block that a reorganisation then replaces. The new branch
double-spends it to someone else. -/
def paidAndReplaced : List Call :=
  let chain : BestChain := ⟨[⟨10, 0, []⟩, ⟨11, 1, [⟨1, [⟨99, 0⟩], [0]⟩]⟩], by decide⟩
  [.scanContinuous (honestEnv chain chain.exactFilter 1) .sync
    [.block ⟨21, 2, []⟩ 1, .block ⟨22, 3, [⟨2, [⟨99, 0⟩], [101]⟩]⟩ 2]]

/-- The graph that was never reset holds the double spend, and no update does. -/
theorem updates_miss_double_spend :
    let client := runCalls paidAndReplaced (ofWallet (WalletIndex.fresh 5) (.single 0 10))
    (⟨2, [⟨99, 0⟩], [101]⟩ : Transaction) ∈
        (accumulated (WalletIndex.fresh 5) client.applied).graph.txs ∧
      (⟨2, [⟨99, 0⟩], [101]⟩ : Transaction) ∉ (emitted client.passed).txs := by
  decide

end examples
end Client
end BdkFloresta
