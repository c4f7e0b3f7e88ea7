import BdkFloresta.Client.Answers
import BdkFloresta.Client.Calls
import Mathlib.Data.Set.Basic

/-!
What a successful scan delivers. Any content of a graph that is empty for the
empty graph, such as its transactions or its anchored pairs, is delivered block
by block: each block of the range that matches contributes what its relevant
transactions make at its turn, under the index its predecessors leave.
-/

namespace BdkFloresta

/-- A transaction with one of its anchors. -/
abbrev AnchoredTx := Transaction × ConfirmationBlockTime

def TxGraph.pairs (g : TxGraph) : Set AnchoredTx :=
  {x | x.1 ∈ g.txs ∧ (x.2, x.1.txid) ∈ g.anchors}

theorem TxGraph.pairs_empty : TxGraph.pairs .empty = ∅ := by
  ext x
  simp [TxGraph.pairs, TxGraph.empty]

/-- The content of all updates. -/
def delivered {α : Type} (content : TxGraph → Set α) (events : List ScanEvent) : Set α :=
  {x | ∃ update ∈ updates events, x ∈ content update.txUpdate}

section updates
variable {α : Type} (content : TxGraph → Set α)

theorem delivered_nil : delivered content [] = ∅ := by
  ext x
  simp [delivered, updates]

theorem delivered_update (events : List ScanEvent) (update : Update) :
    delivered content (events ++ [.walletUpdate update]) =
      delivered content events ∪ content update.txUpdate := by
  ext x
  simp [delivered, updates_update, or_and_right, exists_or]

end updates

variable {σ : Type} [BdkChain σ] {α : Type}

theorem Block.mem_delta_pairs {block : Block} {height : Nat} {index : σ} {x : AnchoredTx} :
    x ∈ (block.delta height index).pairs ↔
      x.1 ∈ block.relevant index ∧ x.2 = block.anchor height := by
  simp only [TxGraph.pairs, Block.delta, TxGraph.anchored, Set.mem_ofPred_eq,
    List.mem_toFinset, List.mem_map, Prod.mk.injEq]
  constructor
  · rintro ⟨hmem, tx, -, hanchor, -⟩
    exact ⟨hmem, hanchor.symm⟩
  · rintro ⟨hmem, hanchor⟩
    exact ⟨hmem, x.1, hmem, hanchor.symm, rfl⟩

/-- The content of the blocks, each under the index its predecessors leave. -/
def blockContent (content : TxGraph → Set α) : List (Block × Nat) → σ → Set α
  | [], _ => ∅
  | p :: rest, index =>
      content (p.1.delta p.2 index) ∪ blockContent content rest (p.1.indexed index)

def indexedBlocks : List (Block × Nat) → σ → σ
  | [], index => index
  | p :: rest, index => indexedBlocks rest (p.1.indexed index)

namespace Client

/-- Apply every block and send its update, as the continuous loop does. The checkpoint has
no part in what is sent and stays as it is. -/
def applyAll (eventTx : Nat → EventSlot) (blocks : List (Block × Nat)) (c : Client σ) :
    Client σ :=
  blocks.foldl (fun c p =>
    let (update, c) := (c.applyBlock p.1 p.2).2.finishUpdate
    (c.sendEvent eventTx (.walletUpdate update)).2) c

section content
variable [LawfulBdkChain σ] (content : TxGraph → Set α)

theorem emitUpdate_delivered {block : BlockId} {c : Client σ} (h : c.checkpoint.Takes block)
    (eventTx : Nat → EventSlot) :
    delivered content (c.emitUpdate eventTx block).2.passed =
      delivered content c.passed ∪ content c.txGraph.graph := by
  rw [emitUpdate_passed h, delivered_update]
  rfl

theorem applyBlock_emit_delivered {c : Client σ} (hgraph : c.txGraph.graph = .empty)
    (eventTx : Nat → EventSlot) (p : Block × Nat) {block : BlockId}
    (h : c.checkpoint.Takes block) :
    delivered content ((c.applyBlock p.1 p.2).2.emitUpdate eventTx block).2.passed =
      delivered content c.passed ∪ content (p.1.delta p.2 c.txGraph.index) := by
  rw [emitUpdate_delivered (c := (c.applyBlock p.1 p.2).2) content h,
    applyBlock_txGraph _ _ hgraph, applyBlock_passed]

theorem applyAll_spec (eventTx : Nat → EventSlot) (blocks : List (Block × Nat)) {c : Client σ}
    (hgraph : c.txGraph.graph = .empty) :
    delivered content (applyAll eventTx blocks c).passed =
        delivered content c.passed ∪ blockContent content blocks c.txGraph.index ∧
      (applyAll eventTx blocks c).txGraph.index = indexedBlocks blocks c.txGraph.index := by
  induction blocks generalizing c with
  | nil => exact ⟨(Set.union_empty _).symm, rfl⟩
  | cons p rest ih =>
      let applied := (c.applyBlock p.1 p.2).2
      let sent := (applied.finishUpdate.2.sendEvent eventTx
        (.walletUpdate applied.finishUpdate.1)).2
      have happlied : applied.txGraph =
          ⟨p.1.delta p.2 c.txGraph.index, p.1.indexed c.txGraph.index⟩ :=
        applyBlock_txGraph _ _ hgraph
      have hstep : sent.txGraph = .new (p.1.indexed c.txGraph.index) := by
        rw [sendEvent_txGraph]
        exact congrArg (fun g => IndexedTxGraph.new g.index) happlied
      have hsent : delivered content sent.passed =
          delivered content c.passed ∪ content (p.1.delta p.2 c.txGraph.index) := by
        rw [sendEvent_passed, delivered_update]
        exact congrArg (fun g => delivered content c.passed ∪ content g.graph) happlied
      obtain ⟨hcontent, hindex⟩ := ih (congrArg IndexedTxGraph.graph hstep)
      rw [hstep, hsent, Set.union_assoc] at hcontent
      rw [hstep] at hindex
      exact ⟨hcontent, hindex⟩

variable {content} (hempty : content .empty = ∅)
include hempty

theorem scanBlock_delivered {c : Client σ} (hgraph : c.txGraph.graph = .empty)
    {eventTx : Nat → EventSlot} {p : Block × Nat}
    (hexit : (c.scanBlock eventTx p.1 p.2).1 ≠ .panicked) :
    delivered content (c.scanBlock eventTx p.1 p.2).2.passed =
      delivered content c.passed ∪ content (p.1.delta p.2 c.txGraph.index) := by
  by_cases h : p.1.relevant c.txGraph.index = []
  · rw [scanBlock_of_irrelevant hgraph h, Block.delta_of_irrelevant h, hempty, Set.union_empty]
  · rw [scanBlock_of_relevant hgraph h, applyBlock_emit_delivered content hgraph]
    exact takes_of_scanBlock hgraph hexit h

theorem scanned_spec {eventTx : Nat → EventSlot} {blocks : List (Block × Nat)} {c : Client σ}
    (hgraph : c.txGraph.graph = .empty) (hunbroken : Unbroken eventTx blocks c) :
    delivered content (scanned eventTx blocks c).passed =
        delivered content c.passed ∪ blockContent content blocks c.txGraph.index ∧
      (scanned eventTx blocks c).txGraph = .new (indexedBlocks blocks c.txGraph.index) := by
  induction blocks generalizing c with
  | nil => exact ⟨(Set.union_empty _).symm, congrArg (IndexedTxGraph.mk · _) hgraph⟩
  | cons p rest ih =>
      obtain ⟨hexit, hrest⟩ := hunbroken
      have hstep := scanBlock_txGraph hgraph hexit
      obtain ⟨hcontent, hindex⟩ := ih (congrArg IndexedTxGraph.graph hstep) hrest
      rw [hstep, scanBlock_delivered hempty hgraph hexit, Set.union_assoc] at hcontent
      rw [hstep] at hindex
      exact ⟨hcontent, hindex⟩

/-- A successful scan delivers the blocks that match, in their order, and leaves
the index they lead to. -/
theorem scan_ok_spec {chain : BestChain} {filter : BlockFilter} {env : ScanEnv}
    (hanswers : Answers chain filter env) (hunpoisoned : Unpoisoned env.eventTx)
    {kind : ScanKind} {c c' : Client σ} (hgraph : c.txGraph.graph = .empty)
    (hscan : c.scan env kind = (.ok, c')) {startHeight stopHeight : Nat}
    {spks : List ScriptBuf} (hstart : c.scanStart kind = .ok (startHeight, spks))
    (hstop : (env.node .filterHeight).getFilterHeight = .ok stopHeight) :
    delivered content c'.passed = delivered content c.passed ∪
        blockContent content (chain.matching filter spks startHeight stopHeight)
          c.txGraph.index ∧
      c'.txGraph.index =
        indexedBlocks (chain.matching filter spks startHeight stopHeight)
          c.txGraph.index := by
  obtain ⟨d, hinner, -, hgraph', -, hupdates⟩ := scan_ok hunpoisoned hscan
  obtain ⟨scanning, hend⟩ := scanInner_ok hanswers hunpoisoned hinner hstart hstop
  obtain ⟨hcontent, htxGraph⟩ := scanned_spec hempty hgraph scanning.unbroken
  have hdelivered : delivered content c'.passed = delivered content d.passed := by
    simp only [delivered, hupdates]
  rw [hdelivered, hgraph']
  rcases hend with ⟨-, rfl⟩ | ⟨hlt, stopBlock, -, rfl⟩
  · exact ⟨hcontent, by rw [htxGraph]; rfl⟩
  · -- the final update is empty
    rw [emitUpdate_delivered content (CheckPoint.takes_above hlt),
      emitUpdate_txGraph (CheckPoint.takes_above hlt), htxGraph, hcontent]
    exact ⟨(congrArg _ hempty).trans (Set.union_empty _), rfl⟩

end content
end Client
end BdkFloresta
