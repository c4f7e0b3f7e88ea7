import BdkFloresta.Client.Updates
import BdkFloresta.Library.Connecting

/-!
The wallet that the updates are for. Like the keychain index it is code of another
crate: a class of what the client is made from and what its updates are given to, and
a second class of the documented behaviour of `apply_update`. An update is taken as a
whole or, where its chain does not connect, not at all; its scripts are revealed before
its transactions are indexed, and only those new to the wallet are.
-/

namespace BdkFloresta

/-- The part of `Wallet` that `Client::new` reads and that takes the updates. -/
class Wallet (ω : Type) (σ : outParam Type) where
  latestCheckpoint : ω → CheckPoint
  txGraph : ω → TxGraph
  spkIndex : ω → σ
  /-- `None` is the error that the update's chain does not connect. -/
  applyUpdate : ω → Update → Option ω

export Wallet (latestCheckpoint spkIndex applyUpdate)

/-- The output `op` of the transaction pays the keychain's script `n`. -/
structure Transaction.PaysAt {σ : Type} [BdkChain σ] (index : σ) (tx : Transaction)
    (op : OutPoint) (keychain : KeychainKind) (n : Nat) (it : SpkIter) : Prop where
  txid : tx.txid = op.txid
  derived : unboundedSpkIter index keychain = some it ∧ n < it.range
  output : tx.output[op.vout]? = some (it.spk n)

/-- An output the index did not know before pays a stored script, which is used then. -/
class IndexesOutputs (σ : Type) [BdkChain σ] : Prop where
  outpoints_indexTx : ∀ (index : σ) (tx : Transaction) (op : OutPoint),
    outpoints (indexTx index tx).1 op = true → outpoints index op = true ∨
      ∃ keychain n it, tx.PaysAt index op keychain n it ∧
        Stored (indexTx index tx).1 (it.spk n) ∧
        IndexLe (some n) (lastUsedIndices (indexTx index tx).1 keychain)

export IndexesOutputs (outpoints_indexTx)

/-- Indexing a transaction forgets no output. -/
class KeepsOutputs (σ : Type) [BdkChain σ] : Prop where
  outpoints_kept : ∀ (index : σ) (tx : Transaction) (op : OutPoint),
    outpoints index op = true → outpoints (indexTx index tx).1 op = true

export KeepsOutputs (outpoints_kept)

section wallet
variable {ω σ : Type} [BdkChain σ] [Wallet ω σ]

/-- What an update whose chain connects makes of the wallet. -/
structure Takes (w : ω) (update : Update) (chain : CheckPoint) (w' : ω) : Prop where
  chain : ∀ e, e ∈ (latestCheckpoint w').entries ↔ e ∈ chain.entries ∨
    e ∈ (latestCheckpoint w).entries ∧ ¬ (latestCheckpoint w).Invalidated chain e
  graph : Wallet.txGraph w' = (Wallet.txGraph w).union update.txUpdate
  index : Later (spkIndex w) (spkIndex w')
  kept : ∀ op, outpoints (spkIndex w) op = true → outpoints (spkIndex w') op = true
  revealed : ∀ keychain n it, unboundedSpkIter (spkIndex w) keychain = some it →
    n < it.range → IndexLe (some n) (update.lastActiveIndices keychain) →
      IndexLe (some n) (lastRevealedIndices (spkIndex w') keychain)
  paid : ∀ tx ∈ update.txUpdate.txs, tx ∉ (Wallet.txGraph w).txs →
    ∀ op keychain n it, tx.PaysAt (spkIndex w) op keychain n it →
      IndexLe (some n) (update.lastActiveIndices keychain) →
        outpoints (spkIndex w') op = true

/-- The documented behaviour of `apply_update`. -/
class LawfulWallet (ω : Type) (σ : outParam Type) [BdkChain σ] [Wallet ω σ] :
    Prop where
  applyUpdate_connects : ∀ (w : ω) (update : Update) (chain : CheckPoint),
    update.chain = some chain → (latestCheckpoint w).Connects chain →
      ∃ w', applyUpdate w update = some w' ∧ Takes w update chain w'

export LawfulWallet (applyUpdate_connects)

/-- A chain that replaces the wallet's own becomes the wallet's. -/
theorem applyUpdate_replaces [LawfulWallet ω σ] {w : ω} {update : Update} {chain : CheckPoint}
    (hchain : update.chain = some chain) (h : (latestCheckpoint w).Replaces chain) :
    ∃ w', applyUpdate w update = some w' ∧ Takes w update chain w' ∧
      latestCheckpoint w' = chain := by
  obtain ⟨w', hw', htakes⟩ := applyUpdate_connects w update chain hchain h.connects
  exact ⟨w', hw', htakes, h.merged htakes.chain⟩

end wallet

section blocks
variable {σ : Type} [BdkChain σ]

theorem Transaction.PaysAt.of_later {a b : σ} (h : Later a b) {tx : Transaction} {op : OutPoint}
    {keychain : KeychainKind} {n : Nat} {it : SpkIter} :
    tx.PaysAt b op keychain n it ↔ tx.PaysAt a op keychain n it := by
  constructor <;> rintro ⟨htxid, ⟨hit, hrange⟩, houtput⟩
  · exact ⟨htxid, ⟨(h.unboundedSpkIter keychain).symm.trans hit, hrange⟩, houtput⟩
  · exact ⟨htxid, ⟨(h.unboundedSpkIter keychain).trans hit, hrange⟩, houtput⟩

/-- What a block adds to the outpoints are payments of its relevant transactions. -/
theorem outpoints_indexTxs [LawfulBdkChain σ] [IndexesOutputs σ]
    (txs : List Transaction) (index : σ) {op : OutPoint}
    (h : outpoints (indexTxs txs index) op = true) :
    outpoints index op = true ∨ ∃ tx ∈ relevantTxs txs index, ∃ keychain n it,
      tx.PaysAt index op keychain n it ∧
      IndexLe (some n) (lastUsedIndices (indexTxs txs index) keychain) := by
  induction txs generalizing index with
  | nil => exact .inl h
  | cons tx rest ih =>
      have hlater := later_indexTx index tx
      have hrest := later_indexTxs rest (indexTx index tx).1
      rcases ih (indexTx index tx).1 h with hop | ⟨tx', hmem, keychain, n, it, hpays, hused⟩
      · rcases outpoints_indexTx index tx op hop with
          hop | ⟨keychain, n, it, hpays, hstored, hused⟩
        · exact .inl hop
        · have houtput : it.spk n ∈ tx.output := List.mem_of_getElem? hpays.output
          have hrelevant : isTxRelevant (indexTx index tx).1 tx = true :=
            (isTxRelevant_iff _ _).mpr (.inl ⟨_, houtput, hstored⟩)
          refine .inr ⟨tx, ?_, keychain, n, it, hpays, hused.trans (hrest.lastUsed keychain)⟩
          simp [relevantTxs, hrelevant]
      · refine .inr ⟨tx', ?_, keychain, n, it, (Transaction.PaysAt.of_later hlater).mp hpays, hused⟩
        simp only [relevantTxs]
        split
        · exact List.mem_cons_of_mem _ hmem
        · exact hmem

end blocks

end BdkFloresta
