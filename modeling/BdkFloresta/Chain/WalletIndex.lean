import BdkFloresta.Chain.BdkChain
import Mathlib.Logic.Function.Basic

/-!
A keychain index that computes: the scripts of the external keychain are the
even numbers and those of the internal one the odd numbers. It obeys every law
of its class, and so do the graph and the checkpoint over it, so results over
any lawful index say something.
-/

namespace BdkFloresta

structure WalletIndex where
  /-- How many scripts each keychain's descriptor derives, if there is one. -/
  range : KeychainKind → Option Nat
  lookahead : Nat
  lastRevealed : KeychainKind → Option Nat
  /-- The indexed outputs, the newest first. -/
  used : List (OutPoint × KeychainKind × Nat)

namespace WalletIndex

def fresh (lookahead : Nat) : WalletIndex :=
  ⟨fun _ => some 2147483648, lookahead, fun _ => none, []⟩

def spk : KeychainKind → Nat → Nat
  | .external, n => 2 * n
  | .internal, n => 2 * n + 1

theorem spk_inj {k l : KeychainKind} {n m : Nat} (h : spk k n = spk l m) :
    k = l ∧ n = m := by
  cases k <;> cases l <;> simp only [spk] at h <;> simp only [true_and, reduceCtorEq] <;> omega

/-- The keychain and index of a script, stored or not. -/
def owner (script : Nat) : KeychainKind × Nat :=
  (if script % 2 = 0 then .external else .internal, script / 2)

theorem owner_spk (k : KeychainKind) (n : Nat) : owner (spk k n) = (k, n) := by
  cases k <;> simp only [owner, spk]
  · simp
  · simp only [Nat.mul_add_mod_self_left, Prod.mk.injEq]
    exact ⟨by decide, by omega⟩

theorem spk_owner (script : Nat) : spk (owner script).1 (owner script).2 = script := by
  simp only [owner]
  split <;> simp only [spk] <;> omega

def inWindow (w : WalletIndex) (k : KeychainKind) (n : Nat) : Bool :=
  match w.range k with
  | none => false
  | some r => n < r ∧ n < nextIndex (w.lastRevealed k) + w.lookahead

def stores (w : WalletIndex) (script : ScriptBuf) : Bool :=
  w.inWindow (owner script).1 (owner script).2

def indexTxout (w : WalletIndex) (op : OutPoint) (script : ScriptBuf) :
    WalletIndex × IndexChangeSet :=
  if w.stores script then
    let (k, n) := owner script
    let used := (op, k, n) :: w.used
    if nextIndex (w.lastRevealed k) ≤ n then
      ({ w with used, lastRevealed := Function.update w.lastRevealed k (some n) }, [(k, n)])
    else ({ w with used }, [])
  else (w, [])

def indexOutputs (txid : Txid) : Nat → List ScriptBuf → WalletIndex →
    WalletIndex × IndexChangeSet
  | _, [], w => (w, [])
  | vout, script :: rest, w =>
      let (w, changes) := w.indexTxout ⟨txid, vout⟩ script
      let (w, later) := indexOutputs txid (vout + 1) rest w
      (w, changes ++ later)

def usedUpTo (k : KeychainKind) : List (OutPoint × KeychainKind × Nat) → Option Nat
  | [] => none
  | (_, l, n) :: rest =>
      if l = k then some (max n ((usedUpTo k rest).getD 0)) else usedUpTo k rest

instance : KeychainTxOutIndex WalletIndex where
  indexTx w tx := indexOutputs tx.txid 0 tx.output w
  isTxRelevant w tx :=
    tx.output.any w.stores || tx.input.any fun op => w.used.any fun u => u.1 = op
  lookahead w := w.lookahead
  lastRevealedIndices w := w.lastRevealed
  lastUsedIndices w k := usedUpTo k w.used
  unboundedSpkIter w k := (w.range k).map fun r => ⟨r, spk k⟩
  outpoints w op := w.used.any fun u => u.1 = op

theorem stored_iff (w : WalletIndex) (script : ScriptBuf) :
    Stored w script ↔ w.stores script = true := by
  constructor
  · rintro ⟨k, n, it, hit, hn, hrange, rfl⟩
    obtain ⟨r, hr, rfl⟩ := Option.map_eq_some_iff.mp hit
    simp only [stores, owner_spk, inWindow, hr, decide_eq_true_eq]
    exact ⟨hrange, hn⟩
  · intro h
    simp only [stores, inWindow] at h
    split at h
    · cases h
    next r hr =>
      obtain ⟨hrange, hn⟩ := of_decide_eq_true h
      exact ⟨_, _, ⟨r, spk _⟩, Option.map_eq_some_iff.mpr ⟨r, hr, rfl⟩, hn, hrange,
        spk_owner script⟩

/-- Indexing outputs keeps the window's shape and only moves it forward. -/
structure Grows (w v : WalletIndex) : Prop where
  range : v.range = w.range
  lookahead : v.lookahead = w.lookahead
  lastRevealed : ∀ k, IndexLe (w.lastRevealed k) (v.lastRevealed k)
  used : ∀ k, IndexLe (usedUpTo k w.used) (usedUpTo k v.used)

theorem Grows.refl (w : WalletIndex) : Grows w w :=
  ⟨rfl, rfl, fun _ => .refl _, fun _ => .refl _⟩

theorem Grows.trans {u v w : WalletIndex} (h : Grows u v) (k : Grows v w) : Grows u w :=
  ⟨k.range.trans h.range, k.lookahead.trans h.lookahead,
    fun i => (h.lastRevealed i).trans (k.lastRevealed i), fun i => (h.used i).trans (k.used i)⟩

theorem usedUpTo_cons (k : KeychainKind) (u : OutPoint × KeychainKind × Nat)
    (rest : List (OutPoint × KeychainKind × Nat)) :
    IndexLe (usedUpTo k rest) (usedUpTo k (u :: rest)) := by
  obtain ⟨op, l, n⟩ := u
  simp only [usedUpTo]
  split
  · intro m hm
    exact ⟨_, rfl, by simp [hm]⟩
  · exact .refl _

theorem indexTxout_grows (w : WalletIndex) (op : OutPoint) (script : ScriptBuf) :
    Grows w (w.indexTxout op script).1 := by
  simp only [indexTxout]
  split
  · split
    next hle =>
      refine ⟨rfl, rfl, fun k => ?_, fun k => usedUpTo_cons k _ _⟩
      by_cases hk : k = (owner script).1
      · subst hk
        intro m hm
        refine ⟨_, Function.update_self .., ?_⟩
        rw [hm] at hle
        exact Nat.le_of_succ_le hle
      · simp only [Function.update_of_ne hk]
        exact .refl _
    · exact ⟨rfl, rfl, fun _ => .refl _, fun k => usedUpTo_cons k _ _⟩
  · exact .refl w

theorem indexOutputs_grows (txid : Txid) (vout : Nat) (scripts : List ScriptBuf)
    (w : WalletIndex) : Grows w (indexOutputs txid vout scripts w).1 := by
  induction scripts generalizing vout w with
  | nil => exact .refl w
  | cons script rest ih => exact (indexTxout_grows w _ script).trans (ih _ _)

theorem indexOutputs_of_unpaid (txid : Txid) (vout : Nat) {scripts : List ScriptBuf}
    {w : WalletIndex} (h : ∀ script ∈ scripts, w.stores script = false) :
    indexOutputs txid vout scripts w = (w, []) := by
  induction scripts generalizing vout with
  | nil => rfl
  | cons script rest ih =>
      have hscript := h script (List.mem_cons_self ..)
      have hrest := ih (vout + 1) fun s hs => h s (List.mem_cons_of_mem _ hs)
      simp [indexOutputs, indexTxout, hscript, hrest]

instance : LawfulKeychainTxOutIndex WalletIndex where
  isTxRelevant_iff w tx := by
    simp [isTxRelevant, outpoints, stored_iff]
  indexTx_of_unpaid w tx h :=
    indexOutputs_of_unpaid tx.txid 0 fun script hscript =>
      Bool.eq_false_iff.mpr fun hs => h script hscript ((stored_iff w script).mpr hs)
  lookahead_indexTx w tx := (indexOutputs_grows tx.txid 0 tx.output w).lookahead
  unboundedSpkIter_indexTx w tx k := by
    simp only [unboundedSpkIter, indexTx, (indexOutputs_grows tx.txid 0 tx.output w).range]
  lastRevealed_indexTx w tx := (indexOutputs_grows tx.txid 0 tx.output w).lastRevealed
  lastUsed_indexTx w tx := (indexOutputs_grows tx.txid 0 tx.output w).used
  spk_injective w k l it jt n m hit hjt _ _ h := by
    obtain ⟨r, -, rfl⟩ := Option.map_eq_some_iff.mp hit
    obtain ⟨q, -, rfl⟩ := Option.map_eq_some_iff.mp hjt
    exact spk_inj h

/-- The transactions a graph keeps of a block: the relevant ones and those that
double-spend a relevant one it holds. -/
def keptTxs (graph : TxGraph) : List Transaction → WalletIndex → List Transaction
  | [], _ => []
  | tx :: rest, w =>
      let next := (indexTx w tx).1
      let conflicts : Bool :=
        ∃ other ∈ graph.txs, tx.DoubleSpends other ∧ isTxRelevant next other = true
      if isTxRelevant next tx || conflicts then tx :: keptTxs graph rest next
      else keptTxs graph rest next

def indexChanges : List Transaction → WalletIndex → IndexChangeSet
  | [], _ => []
  | tx :: rest, w =>
      let (next, changes) := indexTx w tx
      changes ++ indexChanges rest next

theorem mem_keptTxs {graph : TxGraph} {txs : List Transaction} {w : WalletIndex}
    {tx : Transaction} (h : tx ∈ keptTxs graph txs w) : tx ∈ relevantTxs txs w ∨
      tx ∈ txs ∧ ∃ other ∈ graph.txs, tx.DoubleSpends other := by
  induction txs generalizing w with
  | nil => cases h
  | cons head rest ih =>
      have hrest (hmem : tx ∈ keptTxs graph rest (indexTx w head).1) :
          tx ∈ relevantTxs (head :: rest) w ∨
            tx ∈ head :: rest ∧ ∃ other ∈ graph.txs, tx.DoubleSpends other := by
        refine (ih hmem).imp (fun hin => ?_) fun ⟨hin, hspends⟩ =>
          ⟨List.mem_cons_of_mem _ hin, hspends⟩
        simp only [relevantTxs]
        split
        · exact List.mem_cons_of_mem _ hin
        · exact hin
      simp only [keptTxs] at h
      split at h
      next hkept =>
        rcases List.mem_cons.mp h with rfl | hmem
        · rcases Bool.or_eq_true_iff.mp hkept with hrelevant | hconflicts
          · exact .inl (by simp [relevantTxs, hrelevant])
          · obtain ⟨other, hother, hspends, -⟩ := of_decide_eq_true hconflicts
            exact .inr ⟨List.mem_cons_self .., other, hother, hspends⟩
        · exact hrest hmem
      · exact hrest h

theorem relevantTxs_subset_keptTxs (graph : TxGraph) (txs : List Transaction)
    (w : WalletIndex) : relevantTxs txs w ⊆ keptTxs graph txs w := by
  induction txs generalizing w with
  | nil => exact List.Subset.refl _
  | cons head rest ih =>
      intro tx htx
      simp only [relevantTxs] at htx
      simp only [keptTxs]
      split at htx
      next hrelevant =>
        rw [if_pos (by simp [hrelevant])]
        rcases List.mem_cons.mp htx with rfl | hmem
        · exact List.mem_cons_self ..
        · exact List.mem_cons_of_mem _ (ih _ hmem)
      · split
        · exact List.mem_cons_of_mem _ (ih _ htx)
        · exact ih _ htx

theorem indexChanges_of_irrelevant {txs : List Transaction} {w : WalletIndex}
    (h : relevantTxs txs w = []) : indexChanges txs w = [] := by
  induction txs with
  | nil => rfl
  | cons head rest ih =>
      simp only [relevantTxs] at h
      split at h
      · cases h
      next hirrelevant =>
        have hsame := indexTx_of_irrelevant (Bool.eq_false_iff.mpr hirrelevant)
        rw [hsame] at h
        simp only [indexChanges, hsame, ih h, List.append_nil]

instance : BdkChain WalletIndex where
  applyBlockRelevant g block height :=
    let added := TxGraph.anchored (block.anchor height) (keptTxs g.graph block.txdata g.index)
    (⟨g.graph.union added, block.indexed g.index⟩,
      ⟨added.txs \ g.graph.txs, added.anchors \ g.graph.anchors,
        indexChanges block.txdata g.index⟩)
  insert checkpoint block :=
    if checkpoint.Takes block then some (checkpoint.insertBlock block) else none

instance : LawfulBdkChain WalletIndex where
  applyBlockRelevant_index _ _ _ := rfl
  applyBlockRelevant_graph g block _ :=
    ⟨_, relevantTxs_subset_keptTxs g.graph block.txdata g.index, fun _ => mem_keptTxs, rfl⟩
  changeset_content index block height := by
    simp [applyBlockRelevant, IndexedTxGraph.new, TxGraph.empty, TxGraph.union]
  changeset_isEmpty index block height := by
    have hkept : ∀ tx, tx ∈ keptTxs .empty block.txdata index ↔ tx ∈ block.relevant index :=
      fun tx => ⟨fun h => (mem_keptTxs h).resolve_right (by simp [TxGraph.empty]),
        fun h => relevantTxs_subset_keptTxs _ _ _ h⟩
    have hadded := TxGraph.anchored_congr (block.anchor height) hkept
    simp only [applyBlockRelevant, IndexedTxGraph.new, TxGraph.empty_union, hadded]
    change _ ↔ (⟨block.delta height index, block.indexed index⟩ : IndexedTxGraph _) = _
    constructor
    · intro h
      have hnone : block.relevant index = [] := by
        simp only [ChangeSet.isEmpty, decide_eq_true_eq] at h
        simpa [TxGraph.anchored, TxGraph.empty] using h.1
      rw [Block.delta_of_irrelevant hnone, Block.indexed_of_irrelevant hnone]
    · intro h
      have hnone := Block.delta_eq_empty_iff.mp (congrArg IndexedTxGraph.graph h)
      simp [ChangeSet.isEmpty, hnone, TxGraph.anchored, indexChanges_of_irrelevant hnone]
  insert_above h := if_pos (.inl h)
  insert_same h := (if_pos (.inr h)).trans (congrArg some (CheckPoint.insertBlock_of_mem h))
  insert_panics h := if_neg h

end WalletIndex
end BdkFloresta
