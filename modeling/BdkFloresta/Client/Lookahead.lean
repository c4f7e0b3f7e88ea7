import BdkFloresta.Client.Delivered
import BdkFloresta.Client.Honest
import BdkFloresta.Chain.WalletIndex

/-!
Two windows decide whether a payment found by a scan with its own lookahead is
delivered: the scripts derived for the filters, and the scripts the wallet's
index stores. The second one is not widened, so such a scan delivers on every
chain exactly when the index stores all that was derived.
-/

namespace BdkFloresta

def TxGraph.txSet (g : TxGraph) : Set Transaction := {tx | tx ∈ g.txs}

theorem TxGraph.txSet_empty : TxGraph.txSet .empty = ∅ := by
  ext x
  simp [TxGraph.txSet, TxGraph.empty]

/-- The lookahead a scan kind derives scripts with, if not the index's own. -/
def ScanKind.ownLookahead : ScanKind → Option Nat
  | .sync => none
  | .fullScan customLookahead => some (customLookahead.getD fullScanLookahead)
  | .custom _ customLookahead => some customLookahead

/-- Where a scan with its own lookahead starts. -/
def ScanKind.fixedStart : ScanKind → Nat
  | .sync | .fullScan _ => 0
  | .custom startHeight _ => startHeight

def Transaction.Pays (tx : Transaction) (spks : List ScriptBuf) : Prop :=
  ∃ spk ∈ tx.output, spk ∈ spks

/-- Every transaction of the range that pays one of the scripts is delivered. -/
def PaidDelivered (chain : BestChain) (spks : List ScriptBuf) (a b : Nat)
    (events : List ScanEvent) : Prop :=
  ∀ p ∈ chain.segment a b, ∀ tx ∈ p.1.txdata, tx.Pays spks →
    tx ∈ delivered TxGraph.txSet events

variable {σ : Type} [BdkChain σ]

/-- The index stores every script derived with this lookahead. -/
def WindowCovers (index : σ) (customLookahead : Nat) : Prop :=
  ∀ keychain it, unboundedSpkIter index keychain = some it →
    min (saturatingAdd ((lastRevealedIndices index keychain).getD 0) customLookahead)
        it.range ≤
      nextIndex (lastRevealedIndices index keychain) + lookahead index

/-- The transactions of the blocks that are relevant at their turn. -/
def relevantInTurn : List (Block × Nat) → σ → List Transaction
  | [], _ => []
  | p :: rest, index => p.1.relevant index ++ relevantInTurn rest (p.1.indexed index)

theorem mem_blockContent_txSet {blocks : List (Block × Nat)} {index : σ} {tx : Transaction} :
    tx ∈ blockContent TxGraph.txSet blocks index ↔ tx ∈ relevantInTurn blocks index := by
  induction blocks generalizing index with
  | nil => exact iff_of_false (Set.notMem_empty _) List.not_mem_nil
  | cons p rest ih =>
      rw [blockContent, Set.mem_union, ih, relevantInTurn, List.mem_append]
      simp [TxGraph.txSet, Block.delta, TxGraph.anchored]

section laws
variable [LawfulBdkChain σ]

theorem mem_relevantTxs_of_stored {txs : List Transaction} {index : σ} {tx : Transaction}
    (htx : tx ∈ txs) {spk : ScriptBuf} (hspk : spk ∈ tx.output) (h : Stored index spk) :
    tx ∈ relevantTxs txs index := by
  induction txs generalizing index with
  | nil => cases htx
  | cons first rest ih =>
      have hnext := (later_indexTx index first).stored h
      simp only [relevantTxs]
      rcases List.mem_cons.mp htx with rfl | htx
      · rw [if_pos ((isTxRelevant_iff _ tx).mpr (.inl ⟨spk, hspk, hnext⟩))]
        exact List.mem_cons_self ..
      · split
        · exact List.mem_cons_of_mem _ (ih htx hnext)
        · exact ih htx hnext

theorem mem_relevantInTurn_of_stored {blocks : List (Block × Nat)} {index : σ}
    {p : Block × Nat} (hp : p ∈ blocks) {tx : Transaction} (htx : tx ∈ p.1.txdata)
    {spk : ScriptBuf} (hspk : spk ∈ tx.output) (h : Stored index spk) :
    tx ∈ relevantInTurn blocks index := by
  induction blocks generalizing index with
  | nil => cases hp
  | cons first rest ih =>
      rw [relevantInTurn, List.mem_append]
      rcases List.mem_cons.mp hp with rfl | hp
      · exact .inl (mem_relevantTxs_of_stored htx hspk h)
      · exact .inr (ih hp ((later_indexTxs first.1.txdata index).stored h))

theorem relevantInTurn_of_irrelevant {blocks : List (Block × Nat)} {index : σ}
    (h : ∀ p ∈ blocks, p.1.relevant index = []) : relevantInTurn blocks index = [] := by
  induction blocks generalizing index with
  | nil => rfl
  | cons p rest ih =>
      have hp := h p (List.mem_cons_self ..)
      rw [relevantInTurn, hp, Block.indexed_of_irrelevant hp]
      exact ih fun q hq => h q (List.mem_cons_of_mem _ hq)

/-- A payment to a script that is not stored, spending nothing of the wallet, is
not relevant. -/
theorem relevantTxs_of_unstored {index : σ} {spk : ScriptBuf} (h : ¬ Stored index spk) :
    relevantTxs [⟨0, [], [spk]⟩] index = [] := by
  have hsame : indexTx index ⟨0, [], [spk]⟩ = (index, []) :=
    indexTx_of_unpaid index _ fun s hs => List.mem_singleton.mp hs ▸ h
  have hirrelevant : ¬ isTxRelevant index ⟨0, [], [spk]⟩ = true := by
    rw [isTxRelevant_iff]
    rintro (⟨s, hs, hstored⟩ | ⟨op, hop, -⟩)
    · exact h (List.mem_singleton.mp hs ▸ hstored)
    · cases hop
  simp only [relevantTxs, hsame, hirrelevant, if_false, Bool.false_eq_true]

theorem windowCovers_iff {index : σ} {customLookahead : Nat} :
    WindowCovers index customLookahead ↔
      ∀ keychain n spk, DerivedAt index customLookahead keychain n spk → Stored index spk := by
  constructor
  · rintro h keychain n spk ⟨it, hit, hn, hrange, rfl⟩
    have := h keychain it hit
    exact ⟨keychain, n, it, hit, by omega, hrange, rfl⟩
  · intro h keychain it hit
    by_contra hlt
    have hlt := Nat.not_le.mp hlt
    obtain ⟨other, m, jt, hjt, hm, hmrange, hspk⟩ :=
      h keychain (nextIndex (lastRevealedIndices index keychain) + lookahead index) _
        ⟨it, hit, by omega, by omega, rfl⟩
    obtain ⟨rfl, rfl⟩ := spk_injective index hjt hit hmrange (by omega) hspk
    omega

/-- The chain whose block at this height pays one script, all others empty. -/
def payAt (height : Nat) (spk : ScriptBuf) : BestChain where
  blocks := (List.range (height + 1)).map fun i =>
    ⟨i, 0, if i = height then [⟨0, [], [spk]⟩] else []⟩
  distinct := by
    rw [List.map_map]
    exact List.nodup_range.map_on fun i _ j _ h => h

theorem payAt_blockAt {height i : Nat} {spk : ScriptBuf} {block : Block}
    (h : (payAt height spk).blockAt i = some block) :
    i ≤ height ∧ block.txdata = if i = height then [⟨0, [], [spk]⟩] else [] := by
  obtain ⟨hi, rfl⟩ := List.getElem?_eq_some_iff.mp h
  simp only [payAt, List.length_map, List.length_range] at hi
  refine ⟨Nat.lt_succ_iff.mp hi, ?_⟩
  simp [payAt]

theorem payAt_self (height : Nat) (spk : ScriptBuf) :
    (payAt height spk).blockAt height = some ⟨height, 0, [⟨0, [], [spk]⟩]⟩ := by
  simp [payAt, BestChain.blockAt]

end laws

namespace Client

theorem scanStart_of_ownLookahead {kind : ScanKind} {customLookahead : Nat}
    (hkind : kind.ownLookahead = some customLookahead) {c : Client σ} {spks : List ScriptBuf}
    (hspks : deriveSpksWithCustomLookahead c.txGraph.index customLookahead = .ok spks) :
    c.scanStart kind = .ok (kind.fixedStart, spks) := by
  cases kind with
  | sync => cases hkind
  | fullScan l | custom s l =>
      obtain rfl := Option.some.inj hkind
      simp only [scanStart, hspks]
      rfl

section laws
variable [LawfulBdkChain σ] {index : σ} {checkpoint : CheckPoint}
  {kind : ScanKind} {customLookahead : Nat} {spks : List ScriptBuf}

/-- What a successful scan over the chain has delivered, by its block loop. -/
theorem delivered_txSet_iff (hkind : kind.ownLookahead = some customLookahead)
    (hspks : deriveSpksWithCustomLookahead index customLookahead = .ok spks)
    {chain : BestChain} {filter : BlockFilter} {env : ScanEnv} {c' : Client σ}
    {stopHeight : Nat} (hanswers : Answers chain filter env)
    (hunpoisoned : Unpoisoned env.eventTx)
    (hscan : (ofWallet index checkpoint).scan env kind = (.ok, c'))
    (hstop : (env.node .filterHeight).getFilterHeight = .ok stopHeight) (tx : Transaction) :
    tx ∈ delivered TxGraph.txSet c'.passed ↔
      tx ∈ relevantInTurn (chain.matching filter spks kind.fixedStart stopHeight) index := by
  have hstart := scanStart_of_ownLookahead (c := ofWallet index checkpoint) hkind hspks
  rw [(scan_ok_spec TxGraph.txSet_empty hanswers hunpoisoned rfl hscan hstart hstop).1]
  simp only [ofWallet, delivered_nil, Set.empty_union, IndexedTxGraph.new]
  exact mem_blockContent_txSet

/-- Where the index stores all that was derived, every payment is delivered. -/
theorem paidDelivered_of_windowCovers (hkind : kind.ownLookahead = some customLookahead)
    (hspks : deriveSpksWithCustomLookahead index customLookahead = .ok spks)
    (hcovers : WindowCovers index customLookahead)
    {chain : BestChain} {filter : BlockFilter} {env : ScanEnv} {c' : Client σ}
    {stopHeight : Nat} (hfilter : chain.NoFalseNegatives filter)
    (hanswers : Answers chain filter env) (hunpoisoned : Unpoisoned env.eventTx)
    (hscan : (ofWallet index checkpoint).scan env kind = (.ok, c'))
    (hstop : (env.node .filterHeight).getFilterHeight = .ok stopHeight) :
    PaidDelivered chain spks kind.fixedStart stopHeight c'.passed := by
  rintro p hp tx htx ⟨spk, hspk, hderived⟩
  rw [delivered_txSet_iff hkind hspks hanswers hunpoisoned hscan hstop]
  obtain ⟨keychain, n, hn⟩ := (mem_deriveSpks hspks).mp hderived
  have hmatch : filter p.1 spks = true := by
    have hmem : p.1 ∈ chain.blocks := List.mem_of_getElem? (BestChain.mem_segment.mp hp).1
    refine hfilter p.1 hmem spks ⟨spk, ?_, hderived⟩
    exact List.mem_append_left _ (List.mem_flatMap.mpr ⟨tx, htx, hspk⟩)
  exact mem_relevantInTurn_of_stored (List.mem_filter.mpr ⟨hp, hmatch⟩) htx hspk
    (windowCovers_iff.mp hcovers keychain n spk hn)

/-- A derived script that is not stored is paid in vain on some chain. -/
theorem windowCovers_of_paidDelivered (hkind : kind.ownLookahead = some customLookahead)
    (hspks : deriveSpksWithCustomLookahead index customLookahead = .ok spks)
    (h : ∀ {chain filter env c' stopHeight}, chain.NoFalseNegatives filter →
      Answers chain filter env → Unpoisoned env.eventTx →
      (ofWallet index checkpoint).scan env kind = (.ok, c') →
      (env.node .filterHeight).getFilterHeight = .ok stopHeight →
      PaidDelivered chain spks kind.fixedStart stopHeight c'.passed) :
    WindowCovers index customLookahead := by
  refine windowCovers_iff.mpr fun keychain n spk hderived => ?_
  by_contra hunstored
  let chain := payAt kind.fixedStart spk
  have hlt : kind.fixedStart < chain.blocks.length := by simp [chain, payAt]
  have hstart := scanStart_of_ownLookahead (c := ofWallet index checkpoint) hkind hspks
  have hanswers : Answers chain chain.exactFilter
      (honestEnv chain chain.exactFilter kind.fixedStart) :=
    honestNode_answers hlt fun _ => rfl
  have hunpoisoned := honestEnv_unpoisoned chain chain.exactFilter kind.fixedStart
  -- no block of the chain is relevant, so the scan does not panic either
  have hirrelevant : ∀ p ∈ chain.matching chain.exactFilter spks kind.fixedStart kind.fixedStart,
      p.1.relevant index = [] := by
    intro p hp
    have htxdata := (payAt_blockAt (BestChain.mem_matching.mp hp).1.1).2
    rw [Block.relevant, htxdata]
    split
    · exact relevantTxs_of_unstored hunstored
    · rfl
  obtain ⟨c', hscan⟩ := honest_scan_ok chain.exactFilter hstart (le_refl _) hlt
    (unbroken_of_irrelevant rfl hirrelevant)
  have hpaid := h chain.exactFilter_noFalseNegatives hanswers hunpoisoned hscan rfl
    (⟨kind.fixedStart, 0, [⟨0, [], [spk]⟩]⟩, kind.fixedStart)
    (BestChain.mem_segment.mpr ⟨payAt_self _ _, le_refl _, le_refl _⟩) ⟨0, [], [spk]⟩
    (List.mem_singleton_self _)
    ⟨spk, List.mem_singleton_self _, (mem_deriveSpks hspks).mpr ⟨keychain, n, hderived⟩⟩
  rw [delivered_txSet_iff hkind hspks hanswers hunpoisoned hscan rfl] at hpaid
  rw [relevantInTurn_of_irrelevant hirrelevant] at hpaid
  cases hpaid

/-- A successful scan with its own lookahead delivers every payment to a script
it derived, on a given chain, exactly when each paying transaction is relevant
to the index at the turn of some matching block; and it does so on every chain
exactly when the index stores every derived script from the start. -/
theorem own_lookahead_iff (index : σ) (checkpoint : CheckPoint) (kind : ScanKind)
    (hkind : kind.ownLookahead = some customLookahead)
    (hspks : deriveSpksWithCustomLookahead index customLookahead = .ok spks) :
    (∀ {chain filter env c' stopHeight}, Answers chain filter env →
      Unpoisoned env.eventTx → (ofWallet index checkpoint).scan env kind = (.ok, c') →
      (env.node .filterHeight).getFilterHeight = .ok stopHeight →
      (PaidDelivered chain spks kind.fixedStart stopHeight c'.passed ↔
        ∀ p ∈ chain.segment kind.fixedStart stopHeight, ∀ tx ∈ p.1.txdata, tx.Pays spks →
          tx ∈ relevantInTurn (chain.matching filter spks kind.fixedStart stopHeight)
            index)) ∧
    ((∀ {chain filter env c' stopHeight}, chain.NoFalseNegatives filter →
      Answers chain filter env → Unpoisoned env.eventTx →
      (ofWallet index checkpoint).scan env kind = (.ok, c') →
      (env.node .filterHeight).getFilterHeight = .ok stopHeight →
      PaidDelivered chain spks kind.fixedStart stopHeight c'.passed) ↔
        WindowCovers index customLookahead) := by
  refine ⟨fun hanswers hunpoisoned hscan hstop => ?_,
    windowCovers_of_paidDelivered hkind hspks, fun hcovers _ _ _ _ _ =>
      paidDelivered_of_windowCovers hkind hspks hcovers⟩
  simp only [PaidDelivered, delivered_txSet_iff hkind hspks hanswers hunpoisoned hscan hstop]

end laws

section examples

/-- A payment to the wallet's external script of index three. -/
def thirdPaid : BestChain := ⟨[⟨10, 0, []⟩, ⟨11, 1, [⟨1, [], [6]⟩]⟩], by decide⟩

def thirdPaidEnv : ScanEnv := honestEnv thirdPaid thirdPaid.exactFilter 1

/-- The scripts a new wallet derives with a lookahead of five. -/
def firstFive : List ScriptBuf := [0, 2, 4, 6, 8, 1, 3, 5, 7, 9]

def thirdPaidScan : Exit × Client WalletIndex :=
  (ofWallet (WalletIndex.fresh 1) (.single 0 10)).scan thirdPaidEnv (.fullScan (some 5))

theorem own_lookahead_iff_thirdPaid :
    PaidDelivered thirdPaid firstFive 0 1 thirdPaidScan.2.passed ↔
      ∀ p ∈ thirdPaid.segment 0 1, ∀ tx ∈ p.1.txdata, tx.Pays firstFive →
        tx ∈ relevantInTurn (thirdPaid.matching thirdPaid.exactFilter firstFive 0 1)
          (WalletIndex.fresh 1) :=
  (own_lookahead_iff (WalletIndex.fresh 1) (.single 0 10) (.fullScan (some 5)) rfl rfl).1
    (honestNode_answers (by decide) fun _ => rfl)
    (honestEnv_unpoisoned thirdPaid thirdPaid.exactFilter 1) rfl rfl

/-- A full scan with a lookahead of five derives the paid script and matches its
block; the index, with a lookahead of one, drops it as a false positive. -/
theorem fullScan_drops_derived_payment :
    thirdPaid.NoFalseNegatives thirdPaid.exactFilter ∧
    deriveSpksWithCustomLookahead (WalletIndex.fresh 1) 5 = .ok firstFive ∧
    thirdPaidScan.1 = .ok ∧ ¬ PaidDelivered thirdPaid firstFive 0 1 thirdPaidScan.2.passed := by
  refine ⟨thirdPaid.exactFilter_noFalseNegatives, rfl, rfl, fun h => ?_⟩
  have hpaid : (⟨1, [], [6]⟩ : Transaction).Pays firstFive := ⟨6, by decide, by decide⟩
  obtain ⟨update, hupdate, htx⟩ := h (⟨11, 1, [⟨1, [], [6]⟩]⟩, 1) (by decide) _
    (List.mem_singleton_self _) hpaid
  have hempty : ∀ update ∈ updates thirdPaidScan.2.passed, update.txUpdate.txs = ∅ := by
    decide
  have hmem : ⟨1, [], [6]⟩ ∈ update.txUpdate.txs := htx
  rw [hempty update hupdate] at hmem
  exact absurd hmem (Finset.notMem_empty _)

end examples
end Client
end BdkFloresta
