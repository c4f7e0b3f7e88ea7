import BdkFloresta.Client.Wallet
import Mathlib.Data.Finset.Sort
import Mathlib.Data.Prod.Lex
import Mathlib.Data.List.Lex

/-!
A wallet that computes, over the computing index. It merges the update's chain, reveals
the scripts up to the last active ones and then indexes the transactions that are new to
it, one after another, so the laws of the class are met.
-/

namespace BdkFloresta

namespace WalletIndex

/-- `reveal_to_target`, as far as the descriptor derives. -/
def revealed (current range target : Option Nat) : Option Nat :=
  match range, target with
  | some r, some n => if r = 0 then current else some (max (current.getD 0) (min n (r - 1)))
  | _, _ => current

theorem revealed_grows (current range target : Option Nat) :
    IndexLe current (revealed current range target) := by
  unfold revealed
  split
  · split
    · exact .refl _
    · rintro n rfl
      exact ⟨_, rfl, Nat.le_max_left ..⟩
  · exact .refl _

theorem revealed_reaches (current : Option Nat) {target : Option Nat} {r n : Nat} (hn : n < r)
    (h : IndexLe (some n) target) : IndexLe (some n) (revealed current (some r) target) := by
  obtain ⟨m, rfl, hm⟩ := h n rfl
  rintro n' ⟨⟩
  refine ⟨_, if_neg (by omega), ?_⟩
  omega

/-- `reveal_to_target_multi`. -/
def revealTo (target : KeychainKind → Option Nat) (w : WalletIndex) : WalletIndex :=
  { w with lastRevealed := fun k => revealed (w.lastRevealed k) (w.range k) (target k) }

theorem revealTo_grows (target : KeychainKind → Option Nat) (w : WalletIndex) :
    Grows w (w.revealTo target) :=
  ⟨rfl, rfl, fun k => revealed_grows (w.lastRevealed k) (w.range k) (target k), fun _ => .refl _⟩

theorem Grows.later {w v : WalletIndex} (h : Grows w v) : Later w v where
  lookahead := h.lookahead
  unboundedSpkIter k := by simp only [unboundedSpkIter, h.range]
  lastRevealed := h.lastRevealed
  lastUsed := h.used

def indexAll (txs : List Transaction) (w : WalletIndex) : WalletIndex :=
  txs.foldl (fun w tx => (indexOutputs tx.txid 0 tx.output w).1) w

theorem indexAll_grows (txs : List Transaction) (w : WalletIndex) : Grows w (w.indexAll txs) := by
  induction txs generalizing w with
  | nil => exact .refl w
  | cons tx rest ih => exact (indexOutputs_grows ..).trans (ih _)

/-- The outpoint is one of the index's. -/
def Knows (w : WalletIndex) (op : OutPoint) : Prop := ∃ u ∈ w.used, u.1 = op

theorem outpoints_iff (w : WalletIndex) (op : OutPoint) :
    outpoints w op = true ↔ w.Knows op := by
  simp [outpoints, Knows]

theorem indexTxout_keeps {w : WalletIndex} {op : OutPoint} (h : w.Knows op) (at' : OutPoint)
    (script : ScriptBuf) : (w.indexTxout at' script).1.Knows op := by
  obtain ⟨u, hu, hop⟩ := h
  simp only [indexTxout]
  split
  · split <;> exact ⟨u, List.mem_cons_of_mem _ hu, hop⟩
  · exact ⟨u, hu, hop⟩

theorem indexTxout_knows {w : WalletIndex} {script : ScriptBuf} (hs : w.stores script = true)
    (op : OutPoint) : (w.indexTxout op script).1.Knows op := by
  simp only [indexTxout, hs, if_true]
  split <;> exact ⟨_, List.mem_cons_self .., rfl⟩

theorem indexOutputs_keeps {w : WalletIndex} {op : OutPoint} (h : w.Knows op) (txid : Txid)
    (vout : Nat) (scripts : List ScriptBuf) :
    (indexOutputs txid vout scripts w).1.Knows op := by
  induction scripts generalizing vout w with
  | nil => exact h
  | cons script rest ih => exact ih (indexTxout_keeps h _ script) (vout + 1)

theorem indexAll_keeps {w : WalletIndex} {op : OutPoint} (h : w.Knows op)
    (txs : List Transaction) : (w.indexAll txs).Knows op := by
  induction txs generalizing w with
  | nil => exact h
  | cons tx rest ih => exact ih (indexOutputs_keeps h tx.txid 0 tx.output)

theorem Grows.stores {w v : WalletIndex} (h : Grows w v) {script : ScriptBuf}
    (hs : w.stores script = true) : v.stores script = true :=
  (stored_iff v script).mp (h.later.stored ((stored_iff w script).mpr hs))

/-- A stored script at an output makes the output known. -/
theorem indexOutputs_knows (txid : Txid) {scripts : List ScriptBuf} {i : Nat}
    {script : ScriptBuf} (hi : scripts[i]? = some script) {w : WalletIndex}
    (hs : w.stores script = true) (vout : Nat) :
    (indexOutputs txid vout scripts w).1.Knows ⟨txid, vout + i⟩ := by
  induction scripts generalizing i vout w with
  | nil => cases hi
  | cons first rest ih =>
      cases i with
      | zero =>
          obtain rfl := Option.some.inj hi
          exact indexOutputs_keeps (indexTxout_knows hs ⟨txid, vout⟩) txid (vout + 1) rest
      | succ i =>
          have hrest := ih hi ((indexTxout_grows w ⟨txid, vout⟩ first).stores hs) (vout + 1)
          rwa [show vout + 1 + i = vout + (i + 1) by omega] at hrest

theorem indexAll_knows {txs : List Transaction} {tx : Transaction} (htx : tx ∈ txs)
    {vout : Nat} {script : ScriptBuf} (hout : tx.output[vout]? = some script) {w : WalletIndex}
    (hs : w.stores script = true) : (w.indexAll txs).Knows ⟨tx.txid, vout⟩ := by
  induction txs generalizing w with
  | nil => cases htx
  | cons first rest ih =>
      rcases List.mem_cons.mp htx with rfl | htx
      · have hknows := indexOutputs_knows tx.txid hout hs 0
        rw [Nat.zero_add] at hknows
        exact indexAll_keeps hknows rest
      · exact ih htx ((indexOutputs_grows first.txid 0 first.output w).stores hs)

theorem usedUpTo_mem {used : List (OutPoint × KeychainKind × Nat)} {op : OutPoint}
    {k : KeychainKind} {n : Nat} (h : (op, k, n) ∈ used) :
    IndexLe (some n) (usedUpTo k used) := by
  induction used with
  | nil => cases h
  | cons u rest ih =>
      rcases List.mem_cons.mp h with rfl | h
      · rintro n' ⟨⟩
        exact ⟨_, if_pos rfl, Nat.le_max_left ..⟩
      · exact (ih h).trans (usedUpTo_cons k u rest)

/-- What one output adds pays a stored script, its own. -/
theorem indexTxout_adds {w : WalletIndex} {op at' : OutPoint} {script : ScriptBuf}
    (h : (w.indexTxout at' script).1.Knows op) : w.Knows op ∨ op = at' ∧
      w.stores script = true ∧
      ((op, owner script) ∈ (w.indexTxout at' script).1.used) := by
  simp only [indexTxout] at h ⊢
  split at h
  next hs =>
    rw [if_pos hs]
    split at h <;> rename_i hle
    · rw [if_pos hle]
      obtain ⟨u, hu, rfl⟩ := h
      rcases List.mem_cons.mp hu with rfl | hu
      · exact .inr ⟨rfl, hs, List.mem_cons_self ..⟩
      · exact .inl ⟨u, hu, rfl⟩
    · rw [if_neg hle]
      obtain ⟨u, hu, rfl⟩ := h
      rcases List.mem_cons.mp hu with rfl | hu
      · exact .inr ⟨rfl, hs, List.mem_cons_self ..⟩
      · exact .inl ⟨u, hu, rfl⟩
  · exact .inl h

theorem indexTxout_used {w : WalletIndex} {u : OutPoint × KeychainKind × Nat} (h : u ∈ w.used)
    (at' : OutPoint) (script : ScriptBuf) : u ∈ (w.indexTxout at' script).1.used := by
  simp only [indexTxout]
  split
  · split <;> exact List.mem_cons_of_mem _ h
  · exact h

theorem indexOutputs_used {w : WalletIndex} {u : OutPoint × KeychainKind × Nat} (h : u ∈ w.used)
    (txid : Txid) (vout : Nat) (scripts : List ScriptBuf) :
    u ∈ (indexOutputs txid vout scripts w).1.used := by
  induction scripts generalizing vout w with
  | nil => exact h
  | cons script rest ih => exact ih (indexTxout_used h _ script) (vout + 1)

/-- What a transaction adds are its outputs that pay stored scripts. -/
theorem indexOutputs_adds {txid : Txid} {scripts : List ScriptBuf} {w : WalletIndex}
    {vout : Nat} {op : OutPoint} (h : (indexOutputs txid vout scripts w).1.Knows op) :
    w.Knows op ∨ ∃ i script, scripts[i]? = some script ∧ op = ⟨txid, vout + i⟩ ∧
      (indexOutputs txid vout scripts w).1.stores script = true ∧
      (op, owner script) ∈ (indexOutputs txid vout scripts w).1.used := by
  induction scripts generalizing vout w with
  | nil => exact .inl h
  | cons first rest ih =>
      rcases ih h with hop | ⟨i, script, hi, hop, hstores, hused⟩
      · refine (indexTxout_adds hop).imp_right ?_
        rintro ⟨hop, hstores, hused⟩
        have hgrows := (indexTxout_grows w ⟨txid, vout⟩ first).trans
          (indexOutputs_grows txid (vout + 1) rest _)
        exact ⟨0, first, rfl, hop, hgrows.stores hstores, indexOutputs_used hused ..⟩
      · refine .inr ⟨i + 1, script, hi, ?_, hstores, hused⟩
        rw [hop, Nat.add_assoc, Nat.add_comm 1]

instance : IndexesOutputs WalletIndex where
  outpoints_indexTx w tx op h := by
    rw [outpoints_iff] at h ⊢
    refine (indexOutputs_adds h).imp_right ?_
    rintro ⟨i, script, hi, rfl, hstores, hused⟩
    have hstored := (stored_iff _ script).mpr hstores
    obtain ⟨k, n, it, hit, -, hrange, rfl⟩ := id hstored
    rw [(indexOutputs_grows tx.txid 0 tx.output w).later.unboundedSpkIter] at hit
    obtain ⟨r, hr, rfl⟩ := Option.map_eq_some_iff.mp (id hit)
    rw [owner_spk] at hused
    exact ⟨k, n, _, ⟨rfl, ⟨hit, hrange⟩, by rw [Nat.zero_add]; exact hi⟩, hstored,
      usedUpTo_mem hused⟩

instance : KeepsOutputs WalletIndex where
  outpoints_kept w tx op h := by
    rw [outpoints_iff] at h ⊢
    exact indexOutputs_keeps h tx.txid 0 tx.output

end WalletIndex

/-- A transaction's fields, compared one after another. -/
def Transaction.key (tx : Transaction) : Nat ×ₗ List (Nat ×ₗ Nat) ×ₗ List Nat :=
  toLex (tx.txid, toLex (tx.input.map fun op => toLex (op.txid, op.vout), tx.output))

theorem Transaction.key_injective : Function.Injective Transaction.key := by
  rintro ⟨txid, input, output⟩ ⟨txid', input', output'⟩ h
  simp only [Transaction.key, toLex_inj, Prod.mk.injEq] at h
  obtain ⟨rfl, hinput, rfl⟩ := h
  have hop : Function.Injective fun op : OutPoint => toLex (op.txid, op.vout) := by
    rintro ⟨a, b⟩ ⟨c, d⟩ h
    simp only [toLex_inj, Prod.mk.injEq] at h
    rw [h.1, h.2]
  rw [List.map_injective_iff.mpr hop hinput]

instance : LinearOrder Transaction := LinearOrder.lift' Transaction.key Transaction.key_injective

structure PlainWallet where
  chain : CheckPoint
  graph : TxGraph
  index : WalletIndex

namespace PlainWallet

/-- The rest of `apply_update`, once the chain is merged. -/
def take (w : PlainWallet) (update : Update) (chain : CheckPoint) : PlainWallet where
  chain := chain
  graph := w.graph.union update.txUpdate
  index := (w.index.revealTo update.lastActiveIndices).indexAll
    (update.txUpdate.txs \ w.graph.txs).sort

instance : Wallet PlainWallet WalletIndex where
  latestCheckpoint w := w.chain
  txGraph w := w.graph
  spkIndex w := w.index
  applyUpdate w update :=
    match update.chain with
    | none => some (w.take update w.chain)
    | some chain => (w.chain.merge chain).map (w.take update)

theorem revealTo_reaches {w : WalletIndex} {target : KeychainKind → Option Nat}
    {k : KeychainKind} {n : Nat} {it : SpkIter} (hit : unboundedSpkIter w k = some it)
    (hn : n < it.range) (h : IndexLe (some n) (target k)) :
    IndexLe (some n) (lastRevealedIndices (w.revealTo target) k) := by
  obtain ⟨r, hr, rfl⟩ := Option.map_eq_some_iff.mp hit
  have hreached := WalletIndex.revealed_reaches (w.lastRevealed k) hn h
  rwa [← hr] at hreached

instance : LawfulWallet PlainWallet WalletIndex where
  applyUpdate_connects w update chain hchain hconnects := by
    obtain ⟨m, hm, hentries⟩ := SparseChain.merge_merges w.chain chain hconnects
    refine ⟨w.take update m, ?_, ?_⟩
    · simp [applyUpdate, hchain, hm]
    let shown := w.index.revealTo update.lastActiveIndices
    let txs := (update.txUpdate.txs \ w.graph.txs).sort
    have hreveal : WalletIndex.Grows w.index shown := WalletIndex.revealTo_grows ..
    have hindex : WalletIndex.Grows shown (shown.indexAll txs) := WalletIndex.indexAll_grows ..
    refine ⟨hentries, rfl, (hreveal.trans hindex).later, fun op hop => ?_, ?_, ?_⟩
    · rw [WalletIndex.outpoints_iff] at hop ⊢
      have hshown : shown.Knows op := hop
      exact WalletIndex.indexAll_keeps hshown txs
    · intro k n it hit hn hused
      exact (revealTo_reaches hit hn hused).trans (hindex.lastRevealed k)
    · intro tx htx hnew op k n it hpays hused
      obtain ⟨hit, hn⟩ := hpays.derived
      have hshown := nextIndex_mono (revealTo_reaches hit hn hused)
      have hstored : Stored shown (it.spk n) :=
        ⟨k, n, it, hit, Nat.lt_of_lt_of_le hshown (Nat.le_add_right ..), hn, rfl⟩
      have hmem : tx ∈ txs := by
        rw [Finset.mem_sort]
        exact Finset.mem_sdiff.mpr ⟨htx, hnew⟩
      have hknows := WalletIndex.indexAll_knows hmem hpays.output
        ((WalletIndex.stored_iff _ _).mp hstored)
      rw [hpays.txid] at hknows
      exact (WalletIndex.outpoints_iff _ op).mpr hknows

end PlainWallet
end BdkFloresta
