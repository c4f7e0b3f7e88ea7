import BdkFloresta.Client.Delivered
import BdkFloresta.Client.Honest
import BdkFloresta.Chain.WalletIndex
import BdkFloresta.Library.Runs

/-!
The receive loop over a best chain that reorganises. The node connects branches,
each ending higher than the chain before it, and delivers their blocks in order.
The loop skips a block by its height alone, and it keeps of a block what the index
knows at that moment. So it follows the best chain exactly as long as a skipped block
is not another one than the checkpoint's, and nothing the index knows by now is in a
block that was applied too early for it, or never.
-/

namespace BdkFloresta

/-- The blocks a node connects on top of its block at the fork height. -/
structure Branch where
  fork : Nat
  blocks : List Block

namespace Branch

/-- What `on_block` delivers for the branch. -/
def deliveries (branch : Branch) : List (Block × Nat) :=
  branch.blocks.zipIdx (branch.fork + 1)

def connect (best : List Block) (branch : Branch) : List Block :=
  best.take (branch.fork + 1) ++ branch.blocks

/-- The branch starts on the best chain and ends above it. -/
def Extends (branch : Branch) (best : List Block) : Prop :=
  branch.fork < best.length ∧ best.length < branch.fork + 1 + branch.blocks.length

instance (branch : Branch) (best : List Block) : Decidable (branch.Extends best) :=
  inferInstanceAs (Decidable (_ ∧ _))

theorem deliveries_ascending (branch : Branch) :
    branch.deliveries.Pairwise fun p q => p.2 < q.2 := by
  refine List.pairwise_iff_getElem.mpr fun i j hi hj hij => ?_
  simp only [deliveries, List.getElem_zipIdx]
  omega

theorem mem_deliveries {branch : Branch} {p : Block × Nat} : p ∈ branch.deliveries ↔
    branch.fork + 1 ≤ p.2 ∧ branch.blocks[p.2 - (branch.fork + 1)]? = some p.1 :=
  List.mem_zipIdx_iff_le_and_getElem?_sub

section connect
variable {best : List Block} {branch : Branch} (h : branch.Extends best)
include h

theorem connect_of_le {height : Nat} (hle : height ≤ branch.fork) :
    (branch.connect best)[height]? = best[height]? := by
  have := h.1
  simp only [connect]
  rw [List.getElem?_append_left (by simp; omega), List.getElem?_take_of_lt (by omega)]

theorem connect_of_lt {height : Nat} (hlt : branch.fork < height) :
    (branch.connect best)[height]? = branch.blocks[height - (branch.fork + 1)]? := by
  have := h.1
  have hlength : (best.take (branch.fork + 1)).length = branch.fork + 1 := by simp; omega
  simp only [connect]
  rw [List.getElem?_append_right (by omega), hlength]

theorem connect_delivered {p : Block × Nat} (hp : p ∈ branch.deliveries) :
    (branch.connect best)[p.2]? = some p.1 := by
  obtain ⟨hle, hblock⟩ := mem_deliveries.mp hp
  rw [connect_of_lt h hle, hblock]

theorem exists_delivered {height : Nat} (hlow : branch.fork < height)
    (hhigh : height < best.length) : ∃ block, (block, height) ∈ branch.deliveries := by
  have hlt : height - (branch.fork + 1) < branch.blocks.length := by
    have := h.2
    omega
  exact ⟨branch.blocks[height - (branch.fork + 1)],
    mem_deliveries.mpr ⟨hlow, List.getElem?_eq_getElem hlt⟩⟩

end connect
end Branch

/-- A block the loop applied, and the index it was applied under. -/
structure Delivery (σ : Type) where
  block : Block
  height : Nat
  index : σ

/-- The blocks with the index each of them meets. -/
def turns {σ : Type} [KeychainTxOutIndex σ] : List (Block × Nat) → σ → List (Delivery σ)
  | [], _ => []
  | p :: rest, index => ⟨p.1, p.2, index⟩ :: turns rest (p.1.indexed index)

theorem mem_blockContent_turns {σ : Type} [BdkChain σ] {blocks : List (Block × Nat)} {index : σ}
    {x : AnchoredTx} : x ∈ blockContent TxGraph.pairs blocks index ↔
      ∃ d ∈ turns blocks index,
        x.1 ∈ d.block.relevant d.index ∧ x.2 = d.block.anchor d.height := by
  induction blocks generalizing index with
  | nil => exact ⟨fun h => h.elim, fun ⟨_, hd, _⟩ => nomatch hd⟩
  | cons p rest ih =>
      simp only [turns, List.exists_mem_cons_iff, ← ih]
      exact or_congr_left Block.mem_delta_pairs

namespace Client
variable {σ : Type} [BdkChain σ]

def received (eventTx : Nat → EventSlot) (blocks : List (Block × Nat)) (c : Client σ) :
    Client σ :=
  blocks.foldl (fun c p => (c.receiveBlock eventTx p.1 p.2).2) c

@[simp] theorem received_cons (eventTx : Nat → EventSlot) (p : Block × Nat)
    (blocks : List (Block × Nat)) (c : Client σ) :
    received eventTx (p :: blocks) c =
      received eventTx blocks (c.receiveBlock eventTx p.1 p.2).2 := rfl

theorem receiveBlock_of_le {c : Client σ} {block : Block} {height : Nat}
    (h : height ≤ c.checkpoint.height) (eventTx : Nat → EventSlot) :
    (c.receiveBlock eventTx block height).2 = c := by
  simp only [receiveBlock, if_pos h]

theorem receiveBlock_of_lt {c : Client σ} {block : Block} {height : Nat}
    (h : c.checkpoint.height < height) (eventTx : Nat → EventSlot) :
    (c.receiveBlock eventTx block height).2 =
      ((c.applyBlock block height).2.emitUpdate eventTx ⟨height, block.blockHash⟩).2 := by
  simp only [receiveBlock, if_neg (Nat.not_le.mpr h)]

/-- The blocks the loop does not skip. -/
def unskipped (c : Client σ) (blocks : List (Block × Nat)) : List (Block × Nat) :=
  blocks.filter fun p => c.checkpoint.height < p.2

omit [BdkChain σ] in
theorem unskipped_cons (c : Client σ) (p : Block × Nat) (rest : List (Block × Nat)) :
    c.unskipped (p :: rest) =
      if c.checkpoint.height < p.2 then p :: c.unskipped rest else c.unskipped rest := by
  simp only [unskipped, List.filter_cons, decide_eq_true_eq]

omit [BdkChain σ] in
theorem unskipped_of_lt {c : Client σ} {blocks : List (Block × Nat)}
    (h : ∀ p ∈ blocks, c.checkpoint.height < p.2) : c.unskipped blocks = blocks :=
  List.filter_eq_self.mpr fun p hp => decide_eq_true (h p hp)

variable [LawfulBdkChain σ]

/-- The receive loop drains the blocks and waits for the next one. -/
theorem receiveLoop_blocks {eventTx : Nat → EventSlot} (h : Unpoisoned eventTx)
    (blocks : List (Block × Nat)) (c : Client σ) :
    c.receiveLoop eventTx (blocks.map fun p => .block p.1 p.2) =
      (.parked, received eventTx blocks c) := by
  induction blocks generalizing c with
  | nil => rfl
  | cons p rest ih =>
      simp only [List.map_cons, receiveLoop]
      rw [andThen_of_ok (receiveBlock_exit h p.1 p.2 c), ih]
      rfl

/-- What a taken block leaves: the checkpoint has it on top, the graph is empty, the index
has seen it and its relevant pairs are delivered. -/
theorem receiveBlock_spec {c : Client σ} (hgraph : c.txGraph.graph = .empty)
    (eventTx : Nat → EventSlot) (block : Block) {height : Nat}
    (h : c.checkpoint.height < height) :
    let d := (c.receiveBlock eventTx block height).2
    d.checkpoint = c.checkpoint.insertBlock ⟨height, block.blockHash⟩ ∧
      d.checkpoint.height = height ∧ d.txGraph = .new (block.indexed c.txGraph.index) ∧
      delivered TxGraph.pairs d.passed = delivered TxGraph.pairs c.passed ∪
        (block.delta height c.txGraph.index).pairs := by
  intro d
  have htakes : (c.applyBlock block height).2.checkpoint.Takes ⟨height, block.blockHash⟩ :=
    CheckPoint.takes_above h
  have hd : d = ((c.applyBlock block height).2.emitUpdate eventTx
      ⟨height, block.blockHash⟩).2 := receiveBlock_of_lt h eventTx
  have hcheckpoint : d.checkpoint = c.checkpoint.insertBlock ⟨height, block.blockHash⟩ := by
    rw [hd, emitUpdate_checkpoint htakes, applyBlock_checkpoint]
  refine ⟨hcheckpoint, ?_, ?_, ?_⟩
  · have htip := SparseChain.tip_insert_of_le block.blockHash (Nat.le_of_lt h)
    rw [hcheckpoint]
    exact congrArg Prod.fst htip
  · rw [hd, emitUpdate_txGraph htakes, applyBlock_index]
  · rw [hd]
    exact applyBlock_emit_delivered _ hgraph eventTx (block, height) htakes

section received
variable {blocks : List (Block × Nat)} (hascending : blocks.Pairwise fun p q => p.2 < q.2)
  (eventTx : Nat → EventSlot)
include hascending

theorem mem_received_entries {c : Client σ} (hgraph : c.txGraph.graph = .empty)
    {e : Nat × BlockHash} :
    e ∈ (received eventTx blocks c).checkpoint.entries ↔ e ∈ c.checkpoint.entries ∨
      ∃ p ∈ blocks, c.checkpoint.height < p.2 ∧ e = (p.2, p.1.blockHash) := by
  induction blocks generalizing c with
  | nil => simp [received]
  | cons p rest ih =>
      obtain ⟨hbefore, hrest⟩ := List.pairwise_cons.mp hascending
      rw [received_cons]
      rcases Nat.lt_or_ge c.checkpoint.height p.2 with hlt | hge
      · obtain ⟨hcheckpoint, hheight, htxGraph, -⟩ :=
          receiveBlock_spec hgraph eventTx p.1 hlt
        rw [ih hrest (congrArg IndexedTxGraph.graph htxGraph), hheight, hcheckpoint,
          CheckPoint.insertBlock, SparseChain.mem_insert_above hlt]
        constructor
        · rintro ((rfl | he) | ⟨q, hq, hqlt, rfl⟩)
          · exact .inr ⟨p, List.mem_cons_self .., hlt, rfl⟩
          · exact .inl he
          · exact .inr ⟨q, List.mem_cons_of_mem _ hq, hlt.trans hqlt, rfl⟩
        · rintro (he | ⟨q, hq, -, rfl⟩)
          · exact .inl (.inr he)
          · rcases List.mem_cons.mp hq with rfl | hq
            · exact .inl (.inl rfl)
            · exact .inr ⟨q, hq, hbefore q hq, rfl⟩
      · rw [receiveBlock_of_le hge, ih hrest hgraph]
        simp [Nat.not_lt.mpr hge]

/-- Over the blocks of a branch the loop delivers what the ones it does not skip make of
the index, each at its turn. -/
theorem received_spec {c : Client σ} (hgraph : c.txGraph.graph = .empty) :
    (received eventTx blocks c).txGraph =
        .new (indexedBlocks (c.unskipped blocks) c.txGraph.index) ∧
      delivered TxGraph.pairs (received eventTx blocks c).passed =
        delivered TxGraph.pairs c.passed ∪
          blockContent TxGraph.pairs (c.unskipped blocks) c.txGraph.index := by
  induction blocks generalizing c with
  | nil => exact ⟨txGraph_of_empty hgraph, (Set.union_empty _).symm⟩
  | cons p rest ih =>
      obtain ⟨hbefore, hrest⟩ := List.pairwise_cons.mp hascending
      rw [received_cons]
      rcases Nat.lt_or_ge c.checkpoint.height p.2 with hlt | hge
      · obtain ⟨-, hheight, htxGraph, hpairs⟩ := receiveBlock_spec hgraph eventTx p.1 hlt
        -- none of the later blocks is skipped, by then or from the start
        obtain ⟨hindex, hcontent⟩ := ih hrest (congrArg IndexedTxGraph.graph htxGraph)
        rw [unskipped_of_lt fun q hq => hheight.symm ▸ hbefore q hq, htxGraph] at hindex hcontent
        rw [unskipped_cons, if_pos hlt, unskipped_of_lt fun q hq => hlt.trans (hbefore q hq)]
        refine ⟨hindex, ?_⟩
        rw [hcontent, hpairs, Set.union_assoc]
        rfl
      · rw [receiveBlock_of_le hge, unskipped_cons, if_neg (Nat.not_lt.mpr hge)]
        exact ih hrest hgraph

end received
end Client

/-- The receive loop beside the node's best chain. -/
structure Following (σ : Type) where
  best : List Block
  client : Client σ
  /-- The checkpoint's height when the loop started, and the events passed before. -/
  startHeight : Nat
  before : List ScanEvent
  /-- Every block the loop was delivered. -/
  taken : List (Block × Nat)
  /-- Every block it did not skip. -/
  applied : List (Delivery σ)

namespace Following
variable {σ : Type}

/-- The loop starts on a client with any index and checkpoint, after any events. -/
def start (best : List Block) (index : σ) (checkpoint : CheckPoint)
    (passed : List ScanEvent) : Following σ :=
  ⟨best, { Client.ofWallet index checkpoint with passed }, checkpoint.height, passed, [], []⟩

variable [BdkChain σ]

/-- The blocks of a branch that the loop applies. -/
def applies (s : Following σ) (branch : Branch) : List (Delivery σ) :=
  turns (s.client.unskipped branch.deliveries) s.client.txGraph.index

/-- The index that has seen them. -/
def indexAfter (s : Following σ) (branch : Branch) : σ :=
  indexedBlocks (s.client.unskipped branch.deliveries) s.client.txGraph.index

/-- The node connects a branch and the loop drains what that delivers. -/
def step (eventTx : Nat → EventSlot) (s : Following σ) (branch : Branch) :
    Option (Following σ) :=
  Runs.enabled (branch.Extends s.best)
    { s with
      best := branch.connect s.best
      client := (s.client.receiveLoop eventTx
        (branch.deliveries.map fun p => .block p.1 p.2)).2
      taken := s.taken ++ branch.deliveries
      applied := s.applied ++ s.applies branch }

/-- The checkpoint above the start is the best chain, and what the index finds relevant in
the delivered blocks of the best chain has been emitted with their anchors. -/
structure Follows (s : Following σ) : Prop where
  entries : ∀ e ∈ s.client.checkpoint.entries, s.startHeight < e.1 →
    ∃ block, s.best[e.1]? = some block ∧ block.blockHash = e.2
  emitted : ∀ p ∈ s.taken, s.best[p.2]? = some p.1 → ∀ tx ∈ p.1.txdata,
    isTxRelevant s.client.txGraph.index tx = true →
      (tx, p.1.anchor p.2) ∈ delivered TxGraph.pairs s.client.passed

/-- The transaction was relevant when the block was applied, or it was emitted with the
block before the loop started. -/
def InTime (before : List ScanEvent) (applied : List (Delivery σ)) (x : AnchoredTx) : Prop :=
  x ∈ delivered TxGraph.pairs before ∨
    ∃ d ∈ applied, x.1 ∈ d.block.relevant d.index ∧ x.2 = d.block.anchor d.height

/-- Above the start the checkpoint holds no other block at the height of one that the loop
will skip. And of the best chain's blocks delivered so far, with the branch's own, what is
relevant to the index that has seen the branch was relevant in time. -/
structure SeesBranch (s : Following σ) (branch : Branch) : Prop where
  agrees : ∀ p ∈ branch.deliveries, s.startHeight < p.2 → p.2 ≤ s.client.checkpoint.height →
    ¬ s.client.checkpoint.Conflicts p.2 p.1.blockHash
  inTime : ∀ p ∈ s.taken ++ branch.deliveries, (branch.connect s.best)[p.2]? = some p.1 →
    ∀ tx ∈ p.1.txdata, isTxRelevant (s.indexAfter branch) tx = true →
      InTime s.before (s.applied ++ s.applies branch) (tx, p.1.anchor p.2)

/-- What holds between branches: the loop emits what is relevant in time. -/
structure Inv (s : Following σ) : Prop where
  graph_empty : s.client.txGraph.graph = .empty
  content : ∀ x, x ∈ delivered TxGraph.pairs s.client.passed ↔ InTime s.before s.applied x

section step
variable [LawfulBdkChain σ] {eventTx : Nat → EventSlot} (hunpoisoned : Unpoisoned eventTx)
  {s t : Following σ} {branch : Branch}
include hunpoisoned

theorem step_eq (h : s.step eventTx branch = some t) : branch.Extends s.best ∧
    t = ⟨branch.connect s.best, s.client.received eventTx branch.deliveries, s.startHeight,
      s.before, s.taken ++ branch.deliveries, s.applied ++ s.applies branch⟩ := by
  obtain ⟨hextends, rfl⟩ := Runs.enabled_eq_some.mp h
  rw [Client.receiveLoop_blocks hunpoisoned]
  exact ⟨hextends, rfl⟩

theorem inv_step (hs : s.Inv) (h : s.step eventTx branch = some t) : t.Inv := by
  obtain ⟨-, rfl⟩ := step_eq hunpoisoned h
  obtain ⟨htxGraph, hcontent⟩ :=
    Client.received_spec branch.deliveries_ascending eventTx hs.graph_empty
  refine ⟨congrArg IndexedTxGraph.graph htxGraph, fun x => ?_⟩
  rw [hcontent, Set.mem_union, hs.content x, mem_blockContent_turns]
  simp only [InTime, applies, List.mem_append, or_and_right, exists_or, or_assoc]

/-- The checkpoint stays on the best chain exactly if no skipped block is another one than
the checkpoint's. -/
theorem entries_iff (hs : s.Inv) (hfollows : s.Follows) (h : s.step eventTx branch = some t) :
    (∀ e ∈ t.client.checkpoint.entries, t.startHeight < e.1 →
        ∃ block, t.best[e.1]? = some block ∧ block.blockHash = e.2) ↔
      ∀ p ∈ branch.deliveries, s.startHeight < p.2 → p.2 ≤ s.client.checkpoint.height →
        ¬ s.client.checkpoint.Conflicts p.2 p.1.blockHash := by
  obtain ⟨hextends, rfl⟩ := step_eq hunpoisoned h
  have hmem {e : Nat × BlockHash} := Client.mem_received_entries (e := e)
    branch.deliveries_ascending eventTx hs.graph_empty
  constructor
  · rintro hentries p hp hstart - ⟨e, he, hheight, hhash⟩
    obtain ⟨block, hblock, hsame⟩ := hentries e (hmem.mpr (.inl he)) (hheight ▸ hstart)
    have hbest := Branch.connect_delivered hextends hp
    obtain rfl := Option.some.inj ((hheight ▸ hblock).symm.trans hbest)
    exact hhash hsame.symm
  · intro hagrees e he hstart
    rcases hmem.mp he with hold | ⟨p, hp, -, rfl⟩
    · obtain ⟨block, hblock, hhash⟩ := hfollows.entries e hold hstart
      rcases Nat.lt_or_ge branch.fork e.1 with hfork | hfork
      · -- the branch has a block at this height, and the checkpoint agrees with it
        obtain ⟨new, hnew⟩ := Branch.exists_delivered hextends hfork
          (List.getElem?_eq_some_iff.mp hblock).1
        have hagree := hagrees _ hnew hstart (s.client.checkpoint.key_le_tip hold)
        refine ⟨new, Branch.connect_delivered hextends hnew, ?_⟩
        by_contra hne
        exact hagree ⟨e, hold, rfl, fun heq => hne heq.symm⟩
      · exact ⟨block, (Branch.connect_of_le hextends hfork).trans hblock, hhash⟩
    · exact ⟨p.1, Branch.connect_delivered hextends hp, rfl⟩

theorem follows_iff_seesBranch (hs : s.Inv) (hfollows : s.Follows)
    (h : s.step eventTx branch = some t) : t.Follows ↔ s.SeesBranch branch := by
  have hentries := entries_iff hunpoisoned hs hfollows h
  have ht := inv_step hunpoisoned hs h
  obtain ⟨-, rfl⟩ := step_eq hunpoisoned h
  have hindex : (s.client.received eventTx branch.deliveries).txGraph.index =
      s.indexAfter branch :=
    congrArg IndexedTxGraph.index (Client.received_spec branch.deliveries_ascending eventTx
      hs.graph_empty).1
  constructor
  · intro hafter
    refine ⟨hentries.mp hafter.entries, fun p hp hbest tx htx hrelevant => ?_⟩
    exact (ht.content _).mp (hafter.emitted p hp hbest tx htx (hindex.symm ▸ hrelevant))
  · intro hsees
    refine ⟨hentries.mpr hsees.agrees, fun p hp hbest tx htx hrelevant => ?_⟩
    exact (ht.content _).mpr (hsees.inTime p hp hbest tx htx (hindex ▸ hrelevant))

end step

/-- Over any branches the node connects, the receive loop follows the best chain exactly as
long as it sees what each of them brings. -/
theorem loop_follows_iff [LawfulBdkChain σ] {eventTx : Nat → EventSlot}
    (hunpoisoned : Unpoisoned eventTx) (best : List Block) (index : σ) (checkpoint : CheckPoint)
    (passed : List ScanEvent) (branches : List Branch) :
    Runs.Always (step eventTx) Follows (start best index checkpoint passed) branches ↔
      Runs.EachStep (step eventTx) SeesBranch (start best index checkpoint passed)
        branches := by
  apply Runs.always_iff_eachStep (I := Inv)
  · exact fun s a t hs _ ht => inv_step hunpoisoned hs ht
  · exact fun s a t hs hfollows ht => follows_iff_seesBranch hunpoisoned hs hfollows ht
  · exact ⟨rfl, fun x => ⟨.inl, fun hx => hx.resolve_right fun ⟨_, hd, _⟩ => nomatch hd⟩⟩
  · refine ⟨fun e he hlt => ?_, nofun⟩
    exact absurd (checkpoint.key_le_tip he) (Nat.not_le.mpr hlt)

section examples

theorem sender_unpoisoned : Unpoisoned fun _ => .sender := nofun

/-- A block above genesis, then a branch of two blocks that replaces it and pays
the wallet in its first. -/
def replacedBlock : List Branch :=
  [⟨0, [⟨11, 1, []⟩]⟩, ⟨0, [⟨21, 1, [⟨1, [], [0]⟩]⟩, ⟨22, 2, []⟩]⟩]

def followingGenesis : Following WalletIndex :=
  start [⟨10, 0, []⟩] (WalletIndex.fresh 1) (.single 0 10) []

theorem loop_follows_iff_replacedBlock :
    Runs.Always (step fun _ => .sender) Follows followingGenesis replacedBlock ↔
      Runs.EachStep (step fun _ => .sender) SeesBranch followingGenesis replacedBlock :=
  loop_follows_iff sender_unpoisoned [⟨10, 0, []⟩] (WalletIndex.fresh 1) (.single 0 10) []
    replacedBlock

/-- The new branch's first block is skipped for its height: the checkpoint keeps
the old block and the payment is never emitted. -/
theorem loop_keeps_replaced_block :
    ∃ s, Runs.exec (step fun _ => .sender) followingGenesis replacedBlock = some s ∧
      (1, 11) ∈ s.client.checkpoint.entries ∧ ¬ s.Follows := by
  refine ⟨_, rfl, by decide, fun h => ?_⟩
  obtain ⟨block, hblock, hhash⟩ := h.entries (1, 11) (by decide) (by decide)
  cases hblock
  cases hhash

/-- The script of index one is paid, and then that of index zero: the first payment is
beyond the window of a lookahead of one when its block is applied. -/
def paidOutOfOrder : List Branch :=
  [⟨0, [⟨11, 1, [⟨1, [], [2]⟩]⟩]⟩, ⟨1, [⟨12, 2, [⟨2, [], [0]⟩]⟩]⟩]

example : ∃ s, Runs.exec (step fun _ => .sender) followingGenesis paidOutOfOrder = some s ∧
    ¬ s.Follows := by
  refine ⟨_, rfl, fun h => ?_⟩
  obtain ⟨update, hupdate, htx, -⟩ := h.emitted (⟨11, 1, [⟨1, [], [2]⟩]⟩, 1) (by decide) rfl
    ⟨1, [], [2]⟩ (by decide) (by decide)
  have hmissed : ∀ update ∈ updates (Client.received (fun _ => .sender)
      [(⟨11, 1, [⟨1, [], [2]⟩]⟩, 1), (⟨12, 2, [⟨2, [], [0]⟩]⟩, 2)]
      followingGenesis.client).passed, ⟨1, [], [2]⟩ ∉ update.txUpdate.txs := by decide
  exact hmissed update hupdate htx

end examples
end Following
end BdkFloresta
