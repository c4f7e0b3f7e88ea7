import BdkFloresta.Client.Delivered
import BdkFloresta.Client.Honest
import BdkFloresta.Chain.WalletIndex

/-!
The filter path against the plain path, which applies every block as the
continuous loop does. The scripts asked for are fixed when a scan starts, while
the index's window moves as blocks are applied, so the two agree exactly where
every block that the moving index finds relevant matches the fixed list.
-/

namespace BdkFloresta

variable {σ : Type} [BdkChain σ]

theorem Block.delta_pairs_of_irrelevant {block : Block} {index : σ}
    (h : block.relevant index = []) (height : Nat) : (block.delta height index).pairs = ∅ := by
  rw [Block.delta_of_irrelevant h, TxGraph.pairs_empty]

/-- The pairs of the blocks, each under the index its predecessors leave. -/
abbrev blockPairs (blocks : List (Block × Nat)) (index : σ) : Set AnchoredTx :=
  blockContent TxGraph.pairs blocks index

/-- Every block that is relevant at its turn, to the index that has seen all the
blocks before it, is kept. -/
def RelevantKept (keep : Block × Nat → Bool) : List (Block × Nat) → σ → Prop
  | [], _ => True
  | p :: rest, index =>
      (p.1.relevant index ≠ [] → keep p = true) ∧
        RelevantKept keep rest (p.1.indexed index)

theorem height_of_mem_blockPairs {blocks : List (Block × Nat)} {index : σ} {x : AnchoredTx}
    (h : x ∈ blockPairs blocks index) : ∃ p ∈ blocks, x.2.blockId.height = p.2 := by
  induction blocks generalizing index with
  | nil => exact h.elim
  | cons p rest ih =>
      rcases h with h | h
      · exact ⟨p, List.mem_cons_self .., by rw [(Block.mem_delta_pairs.mp h).2]; rfl⟩
      · obtain ⟨q, hq, heq⟩ := ih h
        exact ⟨q, List.mem_cons_of_mem _ hq, heq⟩

section filtered
variable [LawfulBdkChain σ] {keep : Block × Nat → Bool}

/-- Leaving out blocks that are not kept changes nothing if they are irrelevant
at their turn. -/
theorem filtered_of_relevantKept {blocks : List (Block × Nat)}
    {index : σ} (h : RelevantKept keep blocks index) :
    blockPairs (blocks.filter keep) index = blockPairs blocks index ∧
      indexedBlocks (blocks.filter keep) index =
        indexedBlocks blocks index := by
  induction blocks generalizing index with
  | nil => exact ⟨rfl, rfl⟩
  | cons p rest ih =>
      obtain ⟨hpairs, hindex⟩ := ih h.2
      by_cases hp : keep p = true
      · rw [List.filter_cons_of_pos hp]
        exact ⟨congrArg _ hpairs, hindex⟩
      · have hirrelevant : p.1.relevant index = [] := by
          by_contra hne
          exact hp (h.1 hne)
        rw [List.filter_cons_of_neg hp]
        simp only [blockContent, indexedBlocks,
          Block.delta_pairs_of_irrelevant hirrelevant, Set.empty_union]
        rw [Block.indexed_of_irrelevant hirrelevant] at hpairs hindex ⊢
        exact ⟨hpairs, hindex⟩

omit [LawfulBdkChain σ] in
/-- The pairs of a block are not those of blocks above it. -/
theorem delta_inter_blockPairs {p : Block × Nat} {index later : σ} {blocks : List (Block × Nat)}
    (h : ∀ q ∈ blocks, p.2 < q.2) :
    (p.1.delta p.2 index).pairs ∩ blockPairs blocks later ⊆ ∅ := by
  rintro x ⟨hown, hlater⟩
  obtain ⟨q, hq, hheight⟩ := height_of_mem_blockPairs hlater
  rw [(Block.mem_delta_pairs.mp hown).2] at hheight
  exact absurd (h q hq) (by simp [← hheight, Block.anchor])

/-- Conversely a relevant block left out is missed: no other block has its
height. -/
theorem relevantKept_of_pairs {blocks : List (Block × Nat)}
    (hascending : blocks.Pairwise fun p q => p.2 < q.2) {index : σ}
    (h : blockPairs (blocks.filter keep) index = blockPairs blocks index) :
    RelevantKept keep blocks index := by
  induction blocks generalizing index with
  | nil => trivial
  | cons p rest ih =>
      obtain ⟨hbefore, hrest⟩ := List.pairwise_cons.mp hascending
      have hkept : ∀ q ∈ rest.filter keep, p.2 < q.2 :=
        fun q hq => hbefore q (List.mem_of_mem_filter hq)
      by_cases hp : keep p = true
      · rw [List.filter_cons_of_pos hp] at h
        have htail := congrArg (· \ (p.1.delta p.2 index).pairs) h
        simp only [blockContent] at htail
        rw [Set.union_sdiff_cancel_left (delta_inter_blockPairs hkept),
          Set.union_sdiff_cancel_left (delta_inter_blockPairs hbefore)] at htail
        exact ⟨fun _ => hp, ih hrest htail⟩
      · rw [List.filter_cons_of_neg hp] at h
        have hirrelevant : p.1.relevant index = [] := by
          by_contra hne
          obtain ⟨tx, htx⟩ := List.exists_mem_of_ne_nil _ hne
          have hown : (tx, p.1.anchor p.2) ∈ (p.1.delta p.2 index).pairs :=
            Block.mem_delta_pairs.mpr ⟨htx, rfl⟩
          have hmissed : (tx, p.1.anchor p.2) ∈ blockPairs (rest.filter keep) index :=
            h ▸ .inl hown
          exact delta_inter_blockPairs hkept ⟨hown, hmissed⟩
        refine ⟨fun hne => absurd hirrelevant hne, ?_⟩
        simp only [blockContent, Block.delta_pairs_of_irrelevant hirrelevant,
          Set.empty_union] at h
        rw [Block.indexed_of_irrelevant hirrelevant] at h ⊢
        exact ih hrest h

end filtered

namespace Client

section laws
variable [LawfulBdkChain σ]

/-- Once a keychain has revealed a script, the last script its index stores is
not among those a `Sync` scan derives: the index counts the lookahead from the
next index, the scan from the last revealed one. -/
theorem last_stored_not_derived {index : σ} {spks : List ScriptBuf}
    (hspks : deriveSpks index = .ok spks) {keychain : KeychainKind} {it : SpkIter}
    (hit : unboundedSpkIter index keychain = some it) {last : Nat}
    (hlast : lastRevealedIndices index keychain = some last)
    (hrange : last + lookahead index < it.range) :
    Stored index (it.spk (last + lookahead index)) ∧
      it.spk (last + lookahead index) ∉ spks := by
  constructor
  · refine ⟨keychain, _, it, hit, ?_, hrange, rfl⟩
    rw [hlast, nextIndex]
    omega
  · intro hmem
    obtain ⟨other, n, jt, hjt, hn, hnrange, hspk⟩ := (mem_deriveSpks hspks).mp hmem
    obtain ⟨rfl, rfl⟩ := spk_injective index hjt hit hnrange hrange hspk
    rw [hlast, saturatingAdd] at hn
    exact absurd hn (by simp)

/-- A successful `Sync` scan delivers the same pairs and leaves the same index as
applying every block from the checkpoint to the stop height, exactly when every
block of the range that is relevant to the index at its turn matches the scripts
derived at the start of the scan. -/
theorem sync_agrees_iff {chain : BestChain} {filter : BlockFilter} {env : ScanEnv}
    (hanswers : Answers chain filter env) (hunpoisoned : Unpoisoned env.eventTx) (index : σ)
    (checkpoint : CheckPoint) {c' : Client σ}
    (hscan : (ofWallet index checkpoint).scan env .sync = (.ok, c'))
    {spks : List ScriptBuf} (hspks : deriveSpks index = .ok spks) {stopHeight : Nat}
    (hstop : (env.node .filterHeight).getFilterHeight = .ok stopHeight) :
    let blocks := chain.segment checkpoint.height stopHeight
    let plain := applyAll env.eventTx blocks (ofWallet index checkpoint)
    (delivered TxGraph.pairs c'.passed = delivered TxGraph.pairs plain.passed ∧
        c'.txGraph.index = plain.txGraph.index) ↔
      RelevantKept (fun p => filter p.1 spks) blocks index := by
  intro blocks plain
  have hstart : (ofWallet index checkpoint).scanStart .sync =
      .ok (checkpoint.height, spks) := scanStart_sync.mpr ⟨rfl, hspks⟩
  obtain ⟨hpairs, hindex⟩ :=
    scan_ok_spec TxGraph.pairs_empty hanswers hunpoisoned rfl hscan hstart hstop
  obtain ⟨hplain, hplainIndex⟩ := applyAll_spec TxGraph.pairs env.eventTx blocks
    (c := ofWallet index checkpoint) rfl
  rw [hpairs, hindex, hplain, hplainIndex]
  simp only [ofWallet, delivered_nil, Set.empty_union, IndexedTxGraph.new]
  constructor
  · rintro ⟨hsame, -⟩
    exact relevantKept_of_pairs (chain.segment_ascending _ _) hsame
  · exact filtered_of_relevantKept

end laws

section examples

/-- A payment to the last stored script of a wallet that has revealed one. -/
def lastStoredPaid : BestChain := ⟨[⟨10, 0, []⟩, ⟨11, 1, [⟨1, [], [2]⟩]⟩], by decide⟩

/-- A wallet with one revealed external script and a lookahead of one. -/
def oneRevealed : WalletIndex :=
  { WalletIndex.fresh 1 with lastRevealed := fun k => if k = .external then some 0 else none }

def lastStoredEnv : ScanEnv := honestEnv lastStoredPaid lastStoredPaid.exactFilter 1

theorem sync_agrees_iff_lastStored :
    let blocks := lastStoredPaid.segment 0 1
    let scan := (ofWallet oneRevealed (.single 0 10)).scan lastStoredEnv .sync
    let plain := applyAll lastStoredEnv.eventTx blocks (ofWallet oneRevealed (.single 0 10))
    (delivered TxGraph.pairs scan.2.passed = delivered TxGraph.pairs plain.passed ∧
        scan.2.txGraph.index = plain.txGraph.index) ↔
      RelevantKept (fun p => lastStoredPaid.exactFilter p.1 [0, 1]) blocks oneRevealed :=
  sync_agrees_iff (honestNode_answers (by decide) fun _ => rfl)
    (honestEnv_unpoisoned lastStoredPaid lastStoredPaid.exactFilter 1) oneRevealed
    (.single 0 10) rfl rfl rfl

/-- The script at the last revealed index plus the lookahead is stored but not
derived, so a filter without false negatives does not match its payment. -/
theorem sync_misses_last_stored :
    lastStoredPaid.NoFalseNegatives lastStoredPaid.exactFilter ∧
    ∃ c', (ofWallet oneRevealed (.single 0 10)).scan lastStoredEnv .sync = (.ok, c') ∧
      delivered TxGraph.pairs c'.passed ≠ delivered TxGraph.pairs (applyAll lastStoredEnv.eventTx
        (lastStoredPaid.segment 0 1) (ofWallet oneRevealed (.single 0 10))).passed := by
  refine ⟨lastStoredPaid.exactFilter_noFalseNegatives, _, rfl, fun h => ?_⟩
  have hplain : (⟨1, [], [2]⟩, ⟨⟨1, 11⟩, 1⟩) ∈ delivered TxGraph.pairs
      (applyAll lastStoredEnv.eventTx (lastStoredPaid.segment 0 1)
        (ofWallet oneRevealed (.single 0 10))).passed := by
    rw [(applyAll_spec _ _ _ rfl).1]
    refine .inr (.inr (.inl (Block.mem_delta_pairs.mpr ⟨?_, rfl⟩)))
    decide
  rw [← h] at hplain
  obtain ⟨update, hupdate, htx, -⟩ := hplain
  have hempty : ∀ update ∈ updates ((ofWallet oneRevealed (.single 0 10)).scan
      lastStoredEnv .sync).2.passed, update.txUpdate.txs = ∅ := by
    decide
  rw [hempty update hupdate] at htx
  exact absurd htx (Finset.notMem_empty _)

end examples
end Client
end BdkFloresta
