import BdkFloresta.Chain.KeychainIndex

/-!
The transaction graph: a set of transactions and anchors, kept beside a keychain
index. What a block adds to an empty graph are its transactions that the index
finds relevant, each at its turn, with the block's anchor.
-/

namespace BdkFloresta

variable {σ : Type} [KeychainTxOutIndex σ]

/-- The graph: a set of transactions and a set of anchors. -/
structure TxGraph where
  txs : Finset Transaction
  anchors : Finset (ConfirmationBlockTime × Txid)
  deriving DecidableEq

namespace TxGraph

@[ext] theorem ext {g h : TxGraph} (txs : g.txs = h.txs) (anchors : g.anchors = h.anchors) :
    g = h := by
  cases g
  cases h
  cases txs
  cases anchors
  rfl

def empty : TxGraph := ⟨∅, ∅⟩

def union (g h : TxGraph) : TxGraph := ⟨g.txs ∪ h.txs, g.anchors ∪ h.anchors⟩

@[simp] theorem union_txs (g h : TxGraph) : (g.union h).txs = g.txs ∪ h.txs := rfl
@[simp] theorem union_anchors (g h : TxGraph) :
    (g.union h).anchors = g.anchors ∪ h.anchors := rfl

@[simp] theorem empty_union (g : TxGraph) : empty.union g = g := by
  ext <;> simp [empty]

@[simp] theorem union_empty (g : TxGraph) : g.union empty = g := by
  ext <;> simp [empty]

theorem union_assoc (g h k : TxGraph) : (g.union h).union k = g.union (h.union k) := by
  ext <;> simp

/-- What inserting the transactions with one anchor adds. -/
def anchored (anchor : ConfirmationBlockTime) (txs : List Transaction) : TxGraph :=
  ⟨txs.toFinset, (txs.map fun tx => (anchor, tx.txid)).toFinset⟩

/-- The order in which the transactions are inserted, and how often, does not matter. -/
theorem anchored_congr (anchor : ConfirmationBlockTime) {txs txs' : List Transaction}
    (h : ∀ tx, tx ∈ txs ↔ tx ∈ txs') : anchored anchor txs = anchored anchor txs' := by
  ext x <;> simp [anchored, h]

/-- The graph is part of the other one. -/
structure Within (g h : TxGraph) : Prop where
  txs : g.txs ⊆ h.txs
  anchors : g.anchors ⊆ h.anchors

theorem Within.refl (g : TxGraph) : g.Within g := ⟨Finset.Subset.refl _, Finset.Subset.refl _⟩

theorem Within.union {g g' h h' : TxGraph} (hg : g.Within h) (hg' : g'.Within h') :
    (g.union g').Within (h.union h') :=
  ⟨Finset.union_subset_union hg.txs hg'.txs, Finset.union_subset_union hg.anchors hg'.anchors⟩

theorem anchored_within (anchor : ConfirmationBlockTime) {txs txs' : List Transaction}
    (h : txs ⊆ txs') : (anchored anchor txs).Within (anchored anchor txs') := by
  refine ⟨fun tx htx => ?_, fun x hx => ?_⟩
  · exact List.mem_toFinset.mpr (h (List.mem_toFinset.mp htx))
  · obtain ⟨tx, htx, rfl⟩ := List.mem_map.mp (List.mem_toFinset.mp hx)
    exact List.mem_toFinset.mpr (List.mem_map_of_mem (h htx))

end TxGraph

/-- What an application changed. -/
structure ChangeSet where
  txs : Finset Transaction
  anchors : Finset (ConfirmationBlockTime × Txid)
  indexer : IndexChangeSet
  deriving DecidableEq

def ChangeSet.isEmpty (a : ChangeSet) : Bool := a.txs = ∅ ∧ a.anchors = ∅ ∧ a.indexer = []

/-- `IndexedTxGraph`. -/
structure IndexedTxGraph (σ : Type) where
  graph : TxGraph
  index : σ

def IndexedTxGraph.new (index : σ) : IndexedTxGraph σ := ⟨.empty, index⟩

/-- The two are different transactions that spend one output. -/
def Transaction.DoubleSpends (tx other : Transaction) : Prop :=
  tx ≠ other ∧ ∃ op ∈ tx.input, op ∈ other.input

instance (tx other : Transaction) : Decidable (tx.DoubleSpends other) :=
  inferInstanceAs (Decidable (tx ≠ other ∧ ∃ op ∈ tx.input, op ∈ other.input))

def Block.relevant (block : Block) (index : σ) : List Transaction :=
  relevantTxs block.txdata index

def Block.indexed (block : Block) (index : σ) : σ := indexTxs block.txdata index

/-- What applying the block adds to an empty graph. -/
def Block.delta (block : Block) (height : Nat) (index : σ) : TxGraph :=
  .anchored (block.anchor height) (block.relevant index)

theorem Block.delta_of_irrelevant {block : Block} {index : σ}
    (h : block.relevant index = []) (height : Nat) : block.delta height index = .empty := by
  simp [Block.delta, h, TxGraph.anchored, TxGraph.empty]

theorem Block.delta_eq_empty_iff {block : Block} {index : σ} {height : Nat} :
    block.delta height index = .empty ↔ block.relevant index = [] := by
  refine ⟨fun h => ?_, fun h => delta_of_irrelevant h height⟩
  simpa [Block.delta, TxGraph.anchored, TxGraph.empty] using congrArg TxGraph.txs h

theorem Block.indexed_of_irrelevant [LawfulKeychainTxOutIndex σ] {block : Block} {index : σ}
    (h : block.relevant index = []) : block.indexed index = index :=
  indexTxs_of_irrelevant h

end BdkFloresta
