import BdkFloresta.Chain.TxGraph
import BdkFloresta.Library.Connecting

/-!
The operations on the transaction graph and on the checkpoint. They are code of the crate
the keychain index comes from, so they enter as a class beside the index's, with the
documented behaviour that results rely on as a class of laws. A graph that is not empty
keeps more of a block than an empty one: what conflicts with a transaction in it is kept
as well, whether the index knows it or not. An insertion into a checkpoint may panic.
-/

namespace BdkFloresta

/-- bdk's `CheckPoint`: the tip first, down to the wallet's first block. -/
abbrev CheckPoint := SparseChain Nat BlockHash

namespace CheckPoint

def height (checkpoint : CheckPoint) : Nat := checkpoint.tip.1

/-- The checkpoint with the block in it, if it takes it. -/
def insertBlock (checkpoint : CheckPoint) (block : BlockId) : CheckPoint :=
  checkpoint.insert block.height block.hash

/-- The block is above the first one of the checkpoint, or in it already. -/
def Takes (checkpoint : CheckPoint) (block : BlockId) : Prop :=
  checkpoint.base.1 < block.height ∨ (block.height, block.hash) ∈ checkpoint.entries

instance (checkpoint : CheckPoint) (block : BlockId) : Decidable (checkpoint.Takes block) :=
  inferInstanceAs (Decidable (_ ∨ _))

theorem takes_above {checkpoint : CheckPoint} {block : BlockId}
    (h : checkpoint.height < block.height) : checkpoint.Takes block :=
  .inl (Nat.lt_of_le_of_lt (checkpoint.base_le checkpoint.tip_mem) h)

theorem insertBlock_of_mem {checkpoint : CheckPoint} {block : BlockId}
    (h : (block.height, block.hash) ∈ checkpoint.entries) :
    checkpoint.insertBlock block = checkpoint := by
  simp only [insertBlock, SparseChain.insert, if_pos h]

/-- A block that is taken leaves the first one in its place. -/
theorem base_insertBlock {checkpoint : CheckPoint} {block : BlockId}
    (h : checkpoint.Takes block) : (checkpoint.insertBlock block).base = checkpoint.base := by
  rcases h with hlt | hmem
  · exact SparseChain.base_insert (.inl hlt)
  · rw [insertBlock_of_mem hmem]

/-- A checkpoint is replaced by what it is with a block that it takes. -/
theorem replaces_insertBlock {checkpoint : CheckPoint} {block : BlockId}
    (h : checkpoint.Takes block) : checkpoint.Replaces (checkpoint.insertBlock block) := by
  rcases h with hlt | hmem
  · exact SparseChain.insert_replaces (.inl hlt)
  · rw [insertBlock_of_mem hmem]
    exact .refl checkpoint

end CheckPoint

/-- The operations of `IndexedTxGraph` and `CheckPoint` the client uses. -/
class BdkChain (σ : Type) extends KeychainTxOutIndex σ where
  applyBlockRelevant : IndexedTxGraph σ → Block → Nat → IndexedTxGraph σ × ChangeSet
  /-- `CheckPoint::insert`; `none` is a panic. -/
  insert : CheckPoint → BlockId → Option CheckPoint

export BdkChain (applyBlockRelevant)

/-- The documented behaviour of the operations. -/
class LawfulBdkChain (σ : Type) [BdkChain σ] : Prop extends LawfulKeychainTxOutIndex σ where
  /-- The index sees every transaction of the block, whatever the graph holds. -/
  applyBlockRelevant_index : ∀ (g : IndexedTxGraph σ) (block : Block) (height : Nat),
    (applyBlockRelevant g block height).1.index = block.indexed g.index
  /-- The graph keeps transactions of the block with its anchor: the relevant ones, and
  beyond these only what double-spends a transaction it holds. A block spends no output
  twice, so this is said of the graph before the block. -/
  applyBlockRelevant_graph : ∀ (g : IndexedTxGraph σ) (block : Block) (height : Nat),
    ∃ kept : List Transaction, block.relevant g.index ⊆ kept ∧
      (∀ tx ∈ kept, tx ∈ block.relevant g.index ∨
        tx ∈ block.txdata ∧ ∃ other ∈ g.graph.txs, tx.DoubleSpends other) ∧
      (applyBlockRelevant g block height).1.graph =
        g.graph.union (.anchored (block.anchor height) kept)
  /-- The change set of an empty graph reports its content. -/
  changeset_content : ∀ (index : σ) (block : Block) (height : Nat),
    let (g, changeset) := applyBlockRelevant (.new index) block height
    g.graph = ⟨changeset.txs, changeset.anchors⟩
  /-- A change set is empty only if nothing changed, and then it is. -/
  changeset_isEmpty : ∀ (index : σ) (block : Block) (height : Nat),
    (applyBlockRelevant (.new index) block height).2.isEmpty = true ↔
      (applyBlockRelevant (.new index) block height).1 = .new index
  insert_above : ∀ {checkpoint : CheckPoint} {block : BlockId},
    checkpoint.base.1 < block.height →
      BdkChain.insert (σ := σ) checkpoint block = some (checkpoint.insertBlock block)
  insert_same : ∀ {checkpoint : CheckPoint} {block : BlockId},
    (block.height, block.hash) ∈ checkpoint.entries →
      BdkChain.insert (σ := σ) checkpoint block = some checkpoint
  insert_panics : ∀ {checkpoint : CheckPoint} {block : BlockId}, ¬ checkpoint.Takes block →
    BdkChain.insert (σ := σ) checkpoint block = none

export LawfulBdkChain (applyBlockRelevant_index)

variable {σ : Type} [BdkChain σ] [LawfulBdkChain σ]

theorem insert_of_takes {checkpoint : CheckPoint} {block : BlockId}
    (h : checkpoint.Takes block) :
    BdkChain.insert (σ := σ) checkpoint block = some (checkpoint.insertBlock block) := by
  rcases h with hlt | hmem
  · exact LawfulBdkChain.insert_above hlt
  · rw [CheckPoint.insertBlock_of_mem hmem]
    exact LawfulBdkChain.insert_same hmem

/-- A graph without a double-spent transaction keeps what an empty one would keep. -/
theorem applyBlockRelevant_of_unspent {g : IndexedTxGraph σ} {block : Block}
    (h : ∀ tx ∈ block.txdata, ∀ other ∈ g.graph.txs, ¬ tx.DoubleSpends other)
    (height : Nat) : (applyBlockRelevant g block height).1 =
      ⟨g.graph.union (block.delta height g.index), block.indexed g.index⟩ := by
  obtain ⟨kept, hrelevant, hkept, hgraph⟩ :=
    LawfulBdkChain.applyBlockRelevant_graph g block height
  have hsame : ∀ tx, tx ∈ kept ↔ tx ∈ block.relevant g.index := by
    refine fun tx => ⟨fun htx => ?_, fun htx => hrelevant htx⟩
    rcases hkept tx htx with hin | ⟨hin, other, hother, hspends⟩
    · exact hin
    · exact absurd hspends (h tx hin other hother)
  have hdelta : (applyBlockRelevant g block height).1.graph =
      g.graph.union (block.delta height g.index) := by
    rw [hgraph, Block.delta, TxGraph.anchored_congr _ hsame]
  rw [← hdelta, ← applyBlockRelevant_index g block height]

theorem applyBlockRelevant_new (index : σ) (block : Block) (height : Nat) :
    (applyBlockRelevant (.new index) block height).1 =
      ⟨block.delta height index, block.indexed index⟩ := by
  have hunspent : ∀ tx ∈ block.txdata, ∀ other ∈ (IndexedTxGraph.new index).graph.txs,
      ¬ tx.DoubleSpends other := by
    simp [IndexedTxGraph.new, TxGraph.empty]
  have h := applyBlockRelevant_of_unspent hunspent height
  rwa [IndexedTxGraph.new, TxGraph.empty_union] at h

/-- On an empty graph a change set is empty exactly when no transaction of the block was
relevant. -/
theorem changeset_isEmpty_iff (index : σ) (block : Block) (height : Nat) :
    (applyBlockRelevant (.new index) block height).2.isEmpty = true ↔
      block.relevant index = [] := by
  rw [LawfulBdkChain.changeset_isEmpty, applyBlockRelevant_new]
  constructor
  · exact fun h => Block.delta_eq_empty_iff.mp (congrArg IndexedTxGraph.graph h)
  · intro h
    rw [Block.delta_of_irrelevant h, Block.indexed_of_irrelevant h, IndexedTxGraph.new]

end BdkFloresta
