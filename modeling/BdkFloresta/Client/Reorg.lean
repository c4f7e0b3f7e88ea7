import BdkFloresta.Client.Updates

/-!
A `Sync` scan after the chain reorganised. It starts at the checkpoint's height
whatever block the checkpoint holds there, so blocks between the fork and the
checkpoint are not looked at, and a stale tip leaves the checkpoint only when the
best chain's block at its height is itself inserted.
-/

namespace BdkFloresta

/-- The entry is a block of the chain. -/
def BestChain.Holds (chain : BestChain) (e : Nat × BlockHash) : Prop :=
  ∃ block, chain.blockAt e.1 = some block ∧ block.blockHash = e.2

/-- The greatest height at which the checkpoint holds a block of the chain. -/
def ForkHeight (chain : BestChain) (checkpoint : CheckPoint) (height : Nat) : Prop :=
  (∃ e ∈ checkpoint.entries, e.1 = height ∧ chain.Holds e) ∧
    ∀ e ∈ checkpoint.entries, chain.Holds e → e.1 ≤ height

namespace Client
variable {σ : Type} [BdkChain σ] {chain : BestChain}

theorem applied_subset_scanned (eventTx : Nat → EventSlot) (blocks : List (Block × Nat))
    (c : Client σ) : c.applied ⊆ (scanned eventTx blocks c).applied := by
  induction blocks generalizing c with
  | nil => exact List.Subset.refl _
  | cons p rest ih =>
      refine List.Subset.trans ?_ (ih _)
      rw [scanBlock_applied]
      exact List.subset_append_left ..

theorem mem_scanned_applied (eventTx : Nat → EventSlot) {blocks : List (Block × Nat)}
    {p : Block × Nat} (hp : p ∈ blocks) (c : Client σ) :
    ∃ a ∈ (scanned eventTx blocks c).applied, a.block = p.1 ∧ a.height = p.2 := by
  induction blocks generalizing c with
  | nil => cases hp
  | cons q rest ih =>
      rcases List.mem_cons.mp hp with rfl | hp
      · refine ⟨⟨p.1, p.2, (c.applyBlock p.1 p.2).1⟩,
          applied_subset_scanned eventTx rest _ ?_, rfl, rfl⟩
        rw [scanBlock_applied]
        exact List.mem_append_right _ (List.mem_singleton_self _)
      · exact ih hp _

/-- Inserting a block of the chain above the tip keeps a checkpoint on the chain,
and off it. -/
theorem insertBlock_holds_iff {checkpoint : CheckPoint} {block : Block} {height : Nat}
    (habove : checkpoint.height < height) (hblock : chain.blockAt height = some block) :
    (∀ e ∈ (checkpoint.insertBlock ⟨height, block.blockHash⟩).entries, chain.Holds e) ↔
      ∀ e ∈ checkpoint.entries, chain.Holds e := by
  constructor
  · exact fun h e he => h e ((SparseChain.mem_insert_above habove).mpr (.inr he))
  · intro h e he
    rcases (SparseChain.mem_insert_above habove).mp he with rfl | he
    · exact ⟨block, hblock, rfl⟩
    · exact h e he

section laws
variable [LawfulBdkChain σ]

/-- Blocks of the chain above the checkpoint keep it on the chain, and off it. -/
theorem scanned_holds_iff (chain : BestChain) {eventTx : Nat → EventSlot}
    {blocks : List (Block × Nat)} (hascending : blocks.Pairwise fun p q => p.2 < q.2)
    {c : Client σ} (hgraph : c.txGraph.graph = .empty) (hunbroken : Unbroken eventTx blocks c)
    (habove : ∀ p ∈ blocks, c.checkpoint.height < p.2)
    (hchain : ∀ p ∈ blocks, chain.blockAt p.2 = some p.1) :
    (∀ e ∈ (scanned eventTx blocks c).checkpoint.entries, chain.Holds e) ↔
      ∀ e ∈ c.checkpoint.entries, chain.Holds e := by
  induction blocks generalizing c with
  | nil => exact Iff.rfl
  | cons p rest ih =>
      obtain ⟨hbefore, hrest⟩ := List.pairwise_cons.mp hascending
      obtain ⟨hexit, hunbroken⟩ := hunbroken
      have hp := habove p (List.mem_cons_self ..)
      have hcheckpoint := scanBlock_checkpoint hgraph hexit
      have hstep : (∀ e ∈ (c.scanBlock eventTx p.1 p.2).2.checkpoint.entries, chain.Holds e) ↔
          ∀ e ∈ c.checkpoint.entries, chain.Holds e := by
        rw [hcheckpoint]
        split
        · exact Iff.rfl
        · exact insertBlock_holds_iff hp (hchain p (List.mem_cons_self ..))
      have hheight : (c.scanBlock eventTx p.1 p.2).2.checkpoint.height ≤ p.2 := by
        rw [hcheckpoint]
        split
        · exact hp.le
        · exact (SparseChain.tip_insert_le ..).trans (max_le hp.le (le_refl _))
      have hempty := congrArg IndexedTxGraph.graph (scanBlock_txGraph hgraph hexit)
      refine (ih hrest hempty hunbroken (fun q hq => ?_) ?_).trans hstep
      · exact Nat.lt_of_le_of_lt hheight (hbefore q hq)
      · exact fun q hq => hchain q (List.mem_cons_of_mem _ hq)

end laws

/-- The best chain's block at the checkpoint's height matches and is relevant,
so the scan inserts it. -/
def TipReplaced (chain : BestChain) (filter : BlockFilter) (spks : List ScriptBuf) (index : σ)
    (height : Nat) : Prop :=
  ∃ block, chain.blockAt height = some block ∧ filter block spks = true ∧
    block.relevant index ≠ []

/-- No matching block lies strictly between the heights. -/
def NoMatchBetween (chain : BestChain) (filter : BlockFilter) (spks : List ScriptBuf)
    (a b : Nat) : Prop :=
  ∀ height block, a < height → height < b → chain.blockAt height = some block →
    filter block spks = false

/-- Every matching block above the fork was asked for and applied, and the
checkpoint is on the chain, as is the last one sent. -/
def SyncSound (chain : BestChain) (filter : BlockFilter) (spks : List ScriptBuf)
    (fork startHeight stopHeight : Nat) (c : Client σ) : Prop :=
  (∀ height block, fork < height → height ≤ stopHeight →
    chain.blockAt height = some block → filter block spks = true →
      startHeight ≤ height ∧ ∃ a ∈ c.applied, a.block = block ∧ a.height = height) ∧
  (∀ e ∈ c.checkpoint.entries, chain.Holds e) ∧
  ∀ checkpoint, (updates c.passed).getLast?.bind Update.chain = some checkpoint →
    ∀ e ∈ checkpoint.entries, chain.Holds e

/-- A checkpoint is on the chain if its tip and all that is below are. -/
theorem entries_hold_iff {checkpoint : CheckPoint} :
    (∀ e ∈ checkpoint.entries, chain.Holds e) ↔
      (∀ e ∈ checkpoint.entries, e.1 < checkpoint.height → chain.Holds e) ∧
        chain.Holds checkpoint.tip := by
  constructor
  · exact fun h => ⟨fun e he _ => h e he, h _ checkpoint.tip_mem⟩
  · rintro ⟨hbelow, htip⟩ e he
    rcases Nat.lt_or_ge e.1 checkpoint.height with hlt | hge
    · exact hbelow e he hlt
    · have : e = checkpoint.tip := checkpoint.entry_unique he checkpoint.tip_mem
        (Nat.le_antisymm (checkpoint.key_le_tip he) hge)
      exact this ▸ htip

/-- Inserting the chain's block at the tip's height replaces the tip and keeps
what is below. -/
theorem insertBlock_tip_holds_iff {checkpoint : CheckPoint} {block : Block}
    (hblock : chain.blockAt checkpoint.height = some block) :
    (∀ e ∈ (checkpoint.insertBlock ⟨checkpoint.height, block.blockHash⟩).entries,
        chain.Holds e) ↔
      ∀ e ∈ checkpoint.entries, e.1 < checkpoint.height → chain.Holds e := by
  constructor
  · exact fun h e he hlt => h e (SparseChain.mem_insert_tip.mpr (.inr ⟨he, hlt⟩))
  · intro h e he
    rcases SparseChain.mem_insert_tip.mp he with rfl | ⟨he, hlt⟩
    · exact ⟨block, hblock, rfl⟩
    · exact h e he hlt

section laws
variable [LawfulBdkChain σ] {filter : BlockFilter} {spks : List ScriptBuf}

theorem scanBlock_height_of_tip {c : Client σ} (hgraph : c.txGraph.graph = .empty)
    {eventTx : Nat → EventSlot} {block : Block}
    (hexit : (c.scanBlock eventTx block c.checkpoint.height).1 ≠ .panicked) :
    (c.scanBlock eventTx block c.checkpoint.height).2.checkpoint.height =
      c.checkpoint.height := by
  rw [scanBlock_checkpoint hgraph hexit]
  split
  · rfl
  · have htip := SparseChain.tip_insert_of_le block.blockHash (le_refl c.checkpoint.tip.1)
    have hkey := congrArg Prod.fst htip
    exact hkey

/-- A block loop that begins with the chain's block at the tip's height puts that block
in the tip's place exactly if it is relevant. -/
theorem scanned_tip_holds_iff (chain : BestChain) {eventTx : Nat → EventSlot} {c : Client σ}
    (hgraph : c.txGraph.graph = .empty) {block : Block}
    (hblock : chain.blockAt c.checkpoint.height = some block) {rest : List (Block × Nat)}
    (hunbroken : Unbroken eventTx ((block, c.checkpoint.height) :: rest) c)
    (hrest : rest.Pairwise fun p q => p.2 < q.2)
    (habove : ∀ p ∈ rest, c.checkpoint.height < p.2)
    (hchain : ∀ p ∈ rest, chain.blockAt p.2 = some p.1) :
    (∀ e ∈ (scanned eventTx ((block, c.checkpoint.height) :: rest) c).checkpoint.entries,
        chain.Holds e) ↔
      (∀ e ∈ c.checkpoint.entries, e.1 < c.checkpoint.height → chain.Holds e) ∧
        (chain.Holds c.checkpoint.tip ∨ block.relevant c.txGraph.index ≠ []) := by
  obtain ⟨hexit, hunbroken⟩ := hunbroken
  have hheight := scanBlock_height_of_tip hgraph hexit
  have hloop := scanned_holds_iff chain hrest
    (congrArg IndexedTxGraph.graph (scanBlock_txGraph hgraph hexit)) hunbroken
    (fun p hp => by rw [hheight]; exact habove p hp) hchain
  rw [scanned_cons, hloop, scanBlock_checkpoint hgraph hexit]
  by_cases hrelevant : block.relevant c.txGraph.index = []
  · rw [if_pos hrelevant, entries_hold_iff, or_iff_left (not_not_intro hrelevant)]
  · rw [if_neg hrelevant, insertBlock_tip_holds_iff hblock, and_iff_left (.inr hrelevant)]

omit [LawfulBdkChain σ] in
theorem tipReplaced_iff {chain : BestChain} {index : σ} {height : Nat} {block : Block}
    (hblock : chain.blockAt height = some block) (hmatch : filter block spks = true) :
    TipReplaced chain filter spks index height ↔ block.relevant index ≠ [] := by
  constructor
  · rintro ⟨other, hother, -, hne⟩
    obtain rfl := Option.some.inj (hother.symm.trans hblock)
    exact hne
  · exact fun hne => ⟨block, hblock, hmatch, hne⟩

/-- The block loop leaves the checkpoint on the chain exactly when all below its
tip was, and the tip was or is replaced. -/
theorem scanned_matching_holds_iff (chain : BestChain) (filter : BlockFilter)
    (spks : List ScriptBuf) {eventTx : Nat → EventSlot} {c : Client σ}
    (hgraph : c.txGraph.graph = .empty) {stopHeight : Nat}
    (hstop : c.checkpoint.height ≤ stopHeight) (hunbroken : Unbroken eventTx
      (chain.matching filter spks c.checkpoint.height stopHeight) c) :
    (∀ e ∈ (scanned eventTx (chain.matching filter spks c.checkpoint.height stopHeight)
        c).checkpoint.entries, chain.Holds e) ↔
      (∀ e ∈ c.checkpoint.entries, e.1 < c.checkpoint.height → chain.Holds e) ∧
        (chain.Holds c.checkpoint.tip ∨
          TipReplaced chain filter spks c.txGraph.index c.checkpoint.height) := by
  have hascending := chain.matching_ascending filter spks c.checkpoint.height stopHeight
  have hmatching : ∀ p, p ∈ chain.matching filter spks c.checkpoint.height stopHeight ↔ _ :=
    fun p => BestChain.mem_matching
  have hhead : ∀ {block}, chain.blockAt c.checkpoint.height = some block →
      filter block spks = true → ∃ rest,
        chain.matching filter spks c.checkpoint.height stopHeight =
          (block, c.checkpoint.height) :: rest :=
    BestChain.matching_cons hstop
  generalize chain.matching filter spks c.checkpoint.height stopHeight = blocks
    at hascending hmatching hhead hunbroken
  have hchain : ∀ p ∈ blocks, chain.blockAt p.2 = some p.1 :=
    fun p hp => ((hmatching p).mp hp).1.1
  by_cases hfirst : ∃ block, chain.blockAt c.checkpoint.height = some block ∧
      filter block spks = true
  · obtain ⟨block, hblock, hmatch⟩ := hfirst
    obtain ⟨rest, rfl⟩ := hhead hblock hmatch
    obtain ⟨hbefore, hrest⟩ := List.pairwise_cons.mp hascending
    rw [tipReplaced_iff hblock hmatch]
    exact scanned_tip_holds_iff chain hgraph hblock hunbroken hrest hbefore
      fun p hp => hchain p (List.mem_cons_of_mem _ hp)
  · have habove : ∀ p ∈ blocks, c.checkpoint.height < p.2 := by
      intro p hp
      obtain ⟨⟨hblock, hle, -⟩, hmatch⟩ := (hmatching p).mp hp
      refine lt_of_le_of_ne hle fun heq => hfirst ⟨p.1, heq ▸ hblock, hmatch⟩
    have hnone : ¬ TipReplaced chain filter spks c.txGraph.index c.checkpoint.height := by
      rintro ⟨block, hblock, hmatch, -⟩
      exact hfirst ⟨block, hblock, hmatch⟩
    rw [scanned_holds_iff chain hascending hgraph hunbroken habove hchain, entries_hold_iff,
      or_iff_left hnone]

/-- A scan that applies all that matches in its range misses, above the fork,
exactly what matches below the range. -/
theorem covered_iff_noMatchBetween {fork startHeight stopHeight : Nat}
    (hrange : startHeight ≤ stopHeight) {applied : List Application}
    (happlied : ∀ p ∈ chain.matching filter spks startHeight stopHeight,
      ∃ a ∈ applied, a.block = p.1 ∧ a.height = p.2) :
    (∀ height block, fork < height → height ≤ stopHeight →
      chain.blockAt height = some block → filter block spks = true →
        startHeight ≤ height ∧ ∃ a ∈ applied, a.block = block ∧ a.height = height) ↔
      NoMatchBetween chain filter spks fork startHeight := by
  constructor
  · intro h height block hlow hhigh hblock
    by_contra hmatch
    have := (h height block hlow (hhigh.le.trans hrange) hblock
      (Bool.not_eq_false _ ▸ hmatch)).1
    omega
  · intro h height block hlow hhigh hblock hmatch
    have hge : startHeight ≤ height := by
      by_contra hlt
      exact absurd (h height block hlow (Nat.not_le.mp hlt) hblock) (by simp [hmatch])
    exact ⟨hge, happlied (block, height)
      (BestChain.mem_matching.mpr ⟨⟨hblock, hge, hhigh⟩, hmatch⟩)⟩

/-- A tip on the chain is itself the fork. -/
theorem noMatchBetween_of_tip {checkpoint : CheckPoint} {fork : Nat}
    (hfork : ForkHeight chain checkpoint fork) (h : chain.Holds checkpoint.tip) :
    NoMatchBetween chain filter spks fork checkpoint.height := by
  intro height block hlow hhigh
  have : checkpoint.height ≤ fork := hfork.2 _ checkpoint.tip_mem h
  omega

/-- When a `Sync` scan succeeds, it was sound exactly when all below the
checkpoint's tip was on the chain, and either the tip was too, or the best
chain's block at the tip's height replaces it and no matching block lies between
the fork and the tip. -/
theorem sync_sound_iff {env : ScanEnv} (hanswers : Answers chain filter env)
    (hunpoisoned : Unpoisoned env.eventTx) (index : σ) {checkpoint : CheckPoint}
    {fork : Nat} (hfork : ForkHeight chain checkpoint fork) {c' : Client σ}
    (hscan : (ofWallet index checkpoint).scan env .sync = (.ok, c'))
    (hspks : deriveSpks index = .ok spks) {stopHeight : Nat}
    (hstop : (env.node .filterHeight).getFilterHeight = .ok stopHeight) :
    SyncSound chain filter spks fork checkpoint.height stopHeight c' ↔
      (∀ e ∈ checkpoint.entries, e.1 < checkpoint.height → chain.Holds e) ∧
        (chain.Holds checkpoint.tip ∨
          TipReplaced chain filter spks index checkpoint.height ∧
            NoMatchBetween chain filter spks fork checkpoint.height) := by
  have hstart : (ofWallet index checkpoint).scanStart .sync = .ok (checkpoint.height, spks) :=
    scanStart_sync.mpr ⟨rfl, hspks⟩
  obtain ⟨d, hinner, hcheckpoint, -, happlied, -⟩ := scan_ok hunpoisoned hscan
  obtain ⟨scanning, hend⟩ := scanInner_ok hanswers hunpoisoned hinner hstart hstop
  have hloop := scanned_matching_holds_iff chain filter spks
    (c := ofWallet index checkpoint) rfl scanning.start_le scanning.unbroken
  have hrange : ∀ p ∈ chain.matching filter spks checkpoint.height stopHeight,
      ∃ a ∈ c'.applied, a.block = p.1 ∧ a.height = p.2 := by
    intro p hp
    have hp := mem_scanned_applied env.eventTx hp (ofWallet index checkpoint)
    rw [happlied]
    rcases hend with ⟨-, rfl⟩ | ⟨-, stopBlock, -, rfl⟩
    · exact hp
    · rwa [emitUpdate_applied]
  have hholds : (∀ e ∈ c'.checkpoint.entries, chain.Holds e) ↔
      (∀ e ∈ checkpoint.entries, e.1 < checkpoint.height → chain.Holds e) ∧
        (chain.Holds checkpoint.tip ∨
          TipReplaced chain filter spks index checkpoint.height) := by
    rw [hcheckpoint]
    refine Iff.trans ?_ hloop
    rcases hend with ⟨-, rfl⟩ | ⟨hlt, stopBlock, hblock, rfl⟩
    · exact Iff.rfl
    · rw [emitUpdate_checkpoint (CheckPoint.takes_above hlt)]
      exact insertBlock_holds_iff hlt hblock
  have hsent : (∀ e ∈ c'.checkpoint.entries, chain.Holds e) → ∀ sent,
      (updates c'.passed).getLast?.bind Update.chain = some sent →
        ∀ e ∈ sent.entries, chain.Holds e := by
    intro h sent hlast
    have hexit : ((ofWallet index checkpoint).scan env .sync).1 ≠ .panicked := by
      rw [hscan]
      nofun
    have hlastChain := scan_sent index checkpoint hexit
    rw [hscan, lastChain, hlast] at hlastChain
    have hsame : c'.checkpoint = sent := hlastChain
    exact hsame ▸ h
  rw [SyncSound, covered_iff_noMatchBetween scanning.start_le hrange,
    and_iff_left_of_imp hsent, hholds]
  constructor
  · rintro ⟨hbetween, hbelow, hhere | hreplaced⟩
    · exact ⟨hbelow, .inl hhere⟩
    · exact ⟨hbelow, .inr ⟨hreplaced, hbetween⟩⟩
  · rintro ⟨hbelow, hhere | ⟨hreplaced, hbetween⟩⟩
    · exact ⟨noMatchBetween_of_tip hfork hhere, hbelow, .inl hhere⟩
    · exact ⟨hbetween, hbelow, .inr hreplaced⟩

end laws

section examples

/-- A best chain that pays the wallet at height one. -/
def newBranch : BestChain :=
  ⟨[⟨10, 0, []⟩, ⟨11, 1, [⟨1, [], [0]⟩]⟩, ⟨12, 2, []⟩, ⟨13, 3, []⟩], by decide⟩

/-- A checkpoint from before the reorganisation, two blocks above genesis. -/
def oldBranch : CheckPoint := (SparseChain.single 0 10).insert 2 99

def newBranchScan : Exit × Client WalletIndex :=
  (ofWallet (WalletIndex.fresh 1) oldBranch).scan
    (honestEnv newBranch newBranch.exactFilter 3) .sync

theorem oldBranch_fork : ForkHeight newBranch oldBranch 0 := by
  refine ⟨⟨(0, 10), by decide, rfl, ⟨10, 0, []⟩, rfl, rfl⟩, fun e he => ?_⟩
  rintro ⟨block, hblock, hhash⟩
  have hentries : oldBranch.entries = [(2, 99), (0, 10)] := by decide
  rw [hentries] at he
  simp only [List.mem_cons, List.not_mem_nil, or_false] at he
  rcases he with rfl | rfl
  · cases hblock
    cases hhash
  · exact le_refl 0

theorem sync_sound_iff_newBranch :
    SyncSound newBranch newBranch.exactFilter [0, 1] 0 2 3 newBranchScan.2 ↔
      (∀ e ∈ oldBranch.entries, e.1 < oldBranch.height → newBranch.Holds e) ∧
        (newBranch.Holds oldBranch.tip ∨
          TipReplaced newBranch newBranch.exactFilter [0, 1] (WalletIndex.fresh 1)
            oldBranch.height ∧
          NoMatchBetween newBranch newBranch.exactFilter [0, 1] 0 oldBranch.height) :=
  sync_sound_iff (honestNode_answers (by decide) fun _ => rfl)
    (honestEnv_unpoisoned newBranch newBranch.exactFilter 3) (WalletIndex.fresh 1)
    oldBranch_fork rfl rfl rfl

/-- The scan starts above the payment and succeeds without it. -/
theorem sync_skips_reorganised_payment :
    ForkHeight newBranch oldBranch 0 ∧ newBranchScan.1 = .ok ∧
      ¬ SyncSound newBranch newBranch.exactFilter [0, 1] 0 2 3 newBranchScan.2 := by
  refine ⟨oldBranch_fork, rfl, fun h => ?_⟩
  have hrange := (h.1 1 ⟨11, 1, [⟨1, [], [0]⟩]⟩ (by decide) (by decide) rfl rfl).1
  exact absurd hrange (by decide)

end examples
end Client
end BdkFloresta
