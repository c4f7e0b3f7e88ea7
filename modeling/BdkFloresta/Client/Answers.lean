import BdkFloresta.Chain.BestChain
import BdkFloresta.Client.Steps

/-!
Scans over one best chain. The node may fail at every call, but what it does
answer is right for the chain; of a range it is asked to match this is said only up
to its filters' height at that moment. So a node whose chain is still shorter answers
rightly for the chain it will have, and one chain stands for a growing one.
-/

namespace BdkFloresta

/-- Whatever the node answers without an error is right for the chain. -/
structure Answers (chain : BestChain) (filter : BlockFilter) (env : ScanEnv) : Prop where
  filterHeight : ∀ {point height}, (env.node point).filterHeight = .ok height →
    height < chain.blocks.length
  matchAny : ∀ {point spks a b hashes filterTip}, (env.node point).filterHeight = .ok filterTip →
    b ≤ filterTip → (env.node point).matchAny spks a b = .ok hashes →
    hashes = (chain.matching filter spks a b).map fun p => p.1.blockHash
  getBlock : ∀ {point hash block}, (env.node point).getBlock hash = .ok (some block) →
    block ∈ chain.blocks ∧ block.blockHash = hash
  blockHeight : ∀ {point hash height}, (env.node point).blockHeight hash = .ok (some height) →
    ∃ block, chain.blockAt height = some block ∧ block.blockHash = hash
  blockHash : ∀ {point height hash}, (env.node point).blockHash height = .ok hash →
    ∃ block, chain.blockAt height = some block ∧ block.blockHash = hash

/-- The blocks of the chain are from its genesis on. -/
theorem Client.fromGenesis_blockAt {chain : BestChain} {genesis block : Block} {height : Nat}
    (hgenesis : chain.blockAt 0 = some genesis) (h : chain.blockAt height = some block) :
    FromGenesis (0, genesis.blockHash) block height := by
  rcases Nat.eq_zero_or_pos height with rfl | hpos
  · obtain rfl := Option.some.inj (hgenesis.symm.trans h)
    exact .inr rfl
  · exact .inl hpos

namespace Answers
variable {chain : BestChain} {filter : BlockFilter} {env : ScanEnv}

theorem stopHeight_lt (h : Answers chain filter env) {point : NodePoint} {stopHeight : Nat}
    (heq : (env.node point).getFilterHeight = .ok stopHeight) :
    stopHeight < chain.blocks.length :=
  h.filterHeight (Fallible.mapError_eq_ok.mp heq)

theorem matched (h : Answers chain filter env) {point : NodePoint} {spks : List ScriptBuf}
    {a b : Nat} {hashes : List BlockHash}
    (heq : (env.node point).matchFilters spks a b = .ok hashes) :
    hashes = (chain.matching filter spks a b).map fun p => p.1.blockHash := by
  simp only [NodeView.matchFilters] at heq
  split at heq
  · cases heq
  · split at heq
    · cases heq
    next filterTip hfilterTip =>
      split at heq
      · cases heq
      next hle =>
        exact h.matchAny hfilterTip (Nat.not_lt.mp hle) (Fallible.mapError_eq_ok.mp heq)

theorem located (h : Answers chain filter env) {point : NodePoint} {block : Block}
    {height i : Nat} (hblock : chain.blockAt i = some block)
    (heq : (env.node point).getBlockHeight block.blockHash = .ok height) : height = i := by
  simp only [NodeView.getBlockHeight] at heq
  split at heq
  · cases heq
  · cases heq
  next found hfound =>
    obtain rfl := Except.ok.inj heq
    obtain ⟨other, hother, hhash⟩ := h.blockHeight hfound
    exact (BestChain.height_unique hother hblock hhash).1

theorem stopHash (h : Answers chain filter env) {point : NodePoint} {height : Nat}
    {hash : BlockHash} (heq : (env.node point).getBlockHash height = .ok hash) :
    ∃ block, chain.blockAt height = some block ∧ block.blockHash = hash :=
  h.blockHash (Fallible.mapError_eq_ok.mp heq)

theorem fetchedBlock (h : Answers chain filter env) {point : NodePoint} {p : Block × Nat}
    (hp : chain.blockAt p.2 = some p.1) {block : Block}
    (heq : (env.node point).fetchBlock p.1.blockHash = .ok block) : block = p.1 := by
  simp only [NodeView.fetchBlock] at heq
  split at heq
  · cases heq
  · cases heq
  next found hfound =>
    obtain rfl := Except.ok.inj heq
    obtain ⟨hmem, hhash⟩ := h.getBlock hfound
    obtain ⟨height, hheight⟩ := BestChain.exists_blockAt hmem
    exact (BestChain.height_unique hheight hp hhash).2

theorem fetched (h : Answers chain filter env) {point : NodePoint}
    {located : List (Block × Nat)} (hlocated : ∀ p ∈ located, chain.blockAt p.2 = some p.1)
    {blocks : List Block}
    (heq : (env.node point).fetchBlocks (located.map fun p => p.1.blockHash) = .ok blocks) :
    blocks = located.map Prod.fst := by
  simp only [NodeView.fetchBlocks] at heq
  induction located generalizing blocks with
  | nil => exact (Except.ok.inj heq).symm
  | cons p rest ih =>
      simp only [List.map_cons, List.mapM_cons, Fallible.bind_eq_ok] at heq
      obtain ⟨block, hblock, later, hlater, hcons⟩ := heq
      obtain rfl := Except.ok.inj hcons
      rw [h.fetchedBlock (hlocated p (List.mem_cons_self ..)) hblock,
        ih (fun q hq => hlocated q (List.mem_cons_of_mem _ hq)) hlater]
      rfl

/-- A block loop over blocks of the chain scans them at their own heights. -/
theorem done_split (h : Answers chain filter env) {i : Nat} {done located : List (Block × Nat)}
    {rest : List Block} (hlocated : ∀ p ∈ located, chain.blockAt p.2 = some p.1)
    (hdone : Client.Located env i done)
    (hsplit : located.map Prod.fst = done.map Prod.fst ++ rest) :
    ∃ left, located = done ++ left ∧ left.map Prod.fst = rest := by
  induction done generalizing located i with
  | nil => exact ⟨located, rfl, hsplit⟩
  | cons p done ih =>
      cases located with
      | nil => cases hsplit
      | cons q located =>
          simp only [List.map_cons, List.cons_append, List.cons.injEq] at hsplit
          obtain ⟨hpq, hsplit⟩ := hsplit
          have hp : p = q := Prod.ext hpq.symm
            (h.located (hpq ▸ hlocated q (List.mem_cons_self ..)) hdone.1)
          obtain ⟨left, hleft, hmap⟩ :=
            ih (fun r hr => hlocated r (List.mem_cons_of_mem _ hr)) hdone.2 hsplit
          exact ⟨left, by rw [hp, hleft]; rfl, hmap⟩

/-- Every located block is from the chain's genesis on. -/
theorem fromGenesis (h : Answers chain filter env) {genesis : Block}
    (hgenesis : chain.blockAt 0 = some genesis) :
    Client.LocatesOnly (Client.FromGenesis (0, genesis.blockHash)) env := by
  intro i block height hheight
  have hanswer : (env.node (.blockHeight i)).blockHeight block.blockHash =
      .ok (some height) := by
    simp only [NodeView.getBlockHeight] at hheight
    split at hheight
    · cases hheight
    · cases hheight
    next answered heq => rw [heq, Except.ok.inj hheight]
  obtain ⟨found, hfound, hhash⟩ := h.blockHeight hanswer
  have hfrom := Client.fromGenesis_blockAt hgenesis hfound
  rwa [Client.FromGenesis, hhash] at hfrom

end Answers

namespace Client
variable {σ : Type} [BdkChain σ]

theorem scanStart_sync {c : Client σ} {startHeight : Nat} {spks : List ScriptBuf} :
    c.scanStart .sync = .ok (startHeight, spks) ↔
      startHeight = c.checkpoint.height ∧ deriveSpks c.txGraph.index = .ok spks := by
  simp only [scanStart]
  cases deriveSpks c.txGraph.index with
  | error e => exact iff_of_false nofun fun h => nomatch h.2
  | ok derived =>
      simp only [Except.map, Except.ok.injEq, Prod.mk.injEq]
      exact and_congr_left fun _ => eq_comm

/-- A scan in its block loop: it has scanned the `done` ones of the blocks that
match in its range. -/
structure Scanning (chain : BestChain) (filter : BlockFilter) (env : ScanEnv)
    (kind : ScanKind) (c : Client σ) (startHeight : Nat) (spks : List ScriptBuf)
    (stopHeight : Nat) (done rest : List (Block × Nat)) : Prop where
  start : c.scanStart kind = .ok (startHeight, spks)
  stop : (env.node .filterHeight).getFilterHeight = .ok stopHeight
  start_le : startHeight ≤ stopHeight
  stop_lt : stopHeight < chain.blocks.length
  split : chain.matching filter spks startHeight stopHeight = done ++ rest
  unbroken : Unbroken env.eventTx done c

/-- Everything a filter scan over the chain can do. -/
inductive Outcome (chain : BestChain) (filter : BlockFilter) (env : ScanEnv)
    (kind : ScanKind) (c : Client σ) : Exit × Client σ → Prop where
  | untouched {exit : Exit} (hok : exit ≠ .ok) (hpanicked : exit ≠ .panicked) :
      Outcome chain filter env kind c (exit, c)
  | stopped {startHeight spks stopHeight done rest} (e : ClientError)
      (scanning : Scanning chain filter env kind c startHeight spks stopHeight done rest) :
      Outcome chain filter env kind c (.err e, scanned env.eventTx done c)
  | panicked {startHeight spks stopHeight done rest} {p : Block × Nat}
      (scanning : Scanning chain filter env kind c startHeight spks stopHeight done (p :: rest))
      (h : (scanned env.eventTx done c).PanicsOn p.1 p.2) :
      Outcome chain filter env kind c
        (.panicked, ((scanned env.eventTx done c).applyBlock p.1 p.2).2)
  | reached {startHeight spks stopHeight done}
      (scanning : Scanning chain filter env kind c startHeight spks stopHeight done [])
      (h : stopHeight ≤ (scanned env.eventTx done c).checkpoint.height) :
      Outcome chain filter env kind c (.ok, scanned env.eventTx done c)
  | advanced {startHeight spks stopHeight done stopBlock}
      (scanning : Scanning chain filter env kind c startHeight spks stopHeight done [])
      (h : (scanned env.eventTx done c).checkpoint.height < stopHeight)
      (hstop : chain.blockAt stopHeight = some stopBlock) :
      Outcome chain filter env kind c
        ((scanned env.eventTx done c).emitUpdate env.eventTx ⟨stopHeight, stopBlock.blockHash⟩)

variable [LawfulBdkChain σ]

theorem scanInner_outcome {chain : BestChain} {filter : BlockFilter} {env : ScanEnv}
    (hanswers : Answers chain filter env) (h : Unpoisoned env.eventTx) (kind : ScanKind)
    (c : Client σ) : Outcome chain filter env kind c (c.scanInner env kind) := by
  rcases scanInner_cases h kind c with
    ⟨exit, hfetch, heq⟩ |
    ⟨stopHeight, blocks, done, rest, hfetch, hsplit, hdone, hunbroken, hcases⟩
  · rw [heq]
    exact .untouched (fetchRelevant_exit hfetch).1 (fetchRelevant_exit hfetch).2
  obtain ⟨startHeight, spks, hashes, hstart, hstop, hrange, hmatch, hblocks⟩ :=
    fetchRelevant_ok hfetch
  have hlocated : ∀ p ∈ chain.matching filter spks startHeight stopHeight,
      chain.blockAt p.2 = some p.1 := fun p hp => (BestChain.mem_matching.mp hp).1.1
  rw [hanswers.matched hmatch] at hblocks
  have hfetched := hanswers.fetched hlocated hblocks
  obtain ⟨left, hleft, hrest⟩ :=
    hanswers.done_split hlocated hdone (hfetched.symm.trans hsplit)
  have scanning : Scanning chain filter env kind c startHeight spks stopHeight done left :=
    ⟨hstart, hstop, hrange, hanswers.stopHeight_lt hstop, hleft, hunbroken⟩
  rcases hcases with ⟨e, heq⟩ | ⟨block, height, later, rfl, hheight, hpanics, heq⟩ |
    ⟨rfl, hle, heq⟩ | ⟨rfl, hlt, stopHash, hhash, heq⟩
  · rw [heq]
    exact .stopped e scanning
  · -- the node located the block where the chain has it
    obtain ⟨p, left, rfl, rfl, -⟩ := List.map_eq_cons_iff.mp hrest
    have hp : chain.blockAt p.2 = some p.1 :=
      hlocated p (hleft ▸ List.mem_append_right _ (List.mem_cons_self ..))
    obtain rfl := hanswers.located hp hheight
    rw [heq]
    exact .panicked scanning hpanics
  · obtain rfl := List.map_eq_nil_iff.mp hrest
    rw [heq]
    exact .reached scanning hle
  · obtain rfl := List.map_eq_nil_iff.mp hrest
    obtain ⟨stopBlock, hblock, rfl⟩ := hanswers.stopHash hhash
    rw [heq]
    exact .advanced scanning hlt hblock

/-- A successful filter scan went through every matching block of its range. -/
theorem scanInner_ok {chain : BestChain} {filter : BlockFilter} {env : ScanEnv}
    (hanswers : Answers chain filter env) (h : Unpoisoned env.eventTx) {kind : ScanKind}
    {c d : Client σ} (hscan : c.scanInner env kind = (.ok, d)) {startHeight stopHeight : Nat}
    {spks : List ScriptBuf} (hstart : c.scanStart kind = .ok (startHeight, spks))
    (hstop : (env.node .filterHeight).getFilterHeight = .ok stopHeight) :
    Scanning chain filter env kind c startHeight spks stopHeight
        (chain.matching filter spks startHeight stopHeight) [] ∧
      let e := scanned env.eventTx (chain.matching filter spks startHeight stopHeight) c
      (stopHeight ≤ e.checkpoint.height ∧ d = e ∨
        e.checkpoint.height < stopHeight ∧ ∃ stopBlock,
          chain.blockAt stopHeight = some stopBlock ∧
          d = (e.emitUpdate env.eventTx ⟨stopHeight, stopBlock.blockHash⟩).2) := by
  have houtcome := scanInner_outcome hanswers h kind c
  rw [hscan] at houtcome
  have unify {a s b done} (scanning : Scanning chain filter env kind c a s b done []) :
      a = startHeight ∧ s = spks ∧ b = stopHeight ∧
        done = chain.matching filter spks startHeight stopHeight := by
    obtain ⟨rfl, rfl⟩ := Prod.mk.inj (Except.ok.inj (scanning.start.symm.trans hstart))
    obtain rfl := Except.ok.inj (scanning.stop.symm.trans hstop)
    exact ⟨rfl, rfl, rfl, by rw [scanning.split, List.append_nil]⟩
  generalize hr : (Exit.ok, d) = r at houtcome
  cases houtcome with
  | untouched hok _ => exact absurd (congrArg Prod.fst hr).symm hok
  | stopped e scanning => exact nomatch congrArg Prod.fst hr
  | panicked scanning hpanics => exact nomatch congrArg Prod.fst hr
  | reached scanning hle =>
      obtain ⟨rfl, rfl, rfl, rfl⟩ := unify scanning
      exact ⟨scanning, .inl ⟨hle, congrArg Prod.snd hr⟩⟩
  | advanced scanning hlt hblock =>
      obtain ⟨rfl, rfl, rfl, rfl⟩ := unify scanning
      exact ⟨scanning, .inr ⟨hlt, _, hblock, congrArg Prod.snd hr⟩⟩

end Client
end BdkFloresta
