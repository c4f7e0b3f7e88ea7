import BdkFloresta.Client.Honest
import BdkFloresta.Chain.WalletIndex

/-!
Scans that resume from the client's checkpoint. A scan may end at any of its
steps; the checkpoint it leaves is either the one it started from, or one at a
block it has delivered, or the stop height after every matching block. So the
blocks up to the checkpoint stay delivered, however often the scan is retried.
-/

namespace BdkFloresta

/-- The update with what this application changed is in the channel. -/
def Sent (channel : List ScanEvent) (a : Application) : Prop :=
  ∃ update chain, .walletUpdate update ∈ channel ∧
    update.txUpdate = ⟨a.changeset.txs, a.changeset.anchors⟩ ∧
    update.chain = some chain ∧ chain.tip = (a.height, a.block.blockHash)

theorem Sent.append {channel : List ScanEvent} {a : Application} (h : Sent channel a)
    (events : List ScanEvent) : Sent (channel ++ events) a := by
  obtain ⟨update, chain, hmem, hupdate⟩ := h
  exact ⟨update, chain, List.mem_append_left _ hmem, hupdate⟩

namespace Client
variable {σ : Type}

/-- The block was applied at its height, and what that changed was sent. -/
def Delivered (c : Client σ) (p : Block × Nat) : Prop :=
  ∃ a ∈ c.applied, a.block = p.1 ∧ a.height = p.2 ∧
    (a.changeset.isEmpty = false → Sent c.channel a)

/-- What was applied and sent stays so. -/
structure Extends (c d : Client σ) : Prop where
  applied : c.applied <+: d.applied
  channel : c.channel <+: d.channel

theorem Extends.refl (c : Client σ) : Extends c c :=
  ⟨List.prefix_rfl, List.prefix_rfl⟩

theorem Extends.trans {b c d : Client σ} (h : Extends b c) (k : Extends c d) : Extends b d :=
  ⟨h.applied.trans k.applied, h.channel.trans k.channel⟩

theorem Extends.delivered {c d : Client σ} (h : Extends c d) {p : Block × Nat}
    (hp : Delivered c p) : Delivered d p := by
  obtain ⟨a, ha, hblock, hheight, hsent⟩ := hp
  refine ⟨a, h.applied.subset ha, hblock, hheight, fun hnonempty => ?_⟩
  obtain ⟨events, hevents⟩ := h.channel
  exact hevents ▸ (hsent hnonempty).append events

section open_channel
variable {eventTx : Nat → EventSlot}

theorem sendEvent_extends (hopen : ∀ i, eventTx i = .sender) (event : ScanEvent)
    (c : Client σ) : Extends c (c.sendEvent eventTx event).2 :=
  ⟨by rw [sendEvent_applied],
    by rw [sendEvent_channel hopen]; exact List.prefix_append ..⟩

variable [BdkChain σ]

theorem emitUpdate_extends (hopen : ∀ i, eventTx i = .sender) (block : BlockId)
    (c : Client σ) : Extends c (c.emitUpdate eventTx block).2 := by
  rcases emitUpdate_cases eventTx block c with ⟨checkpoint, -, heq⟩ | ⟨-, heq⟩ <;> rw [heq]
  · exact ⟨by rw [sendEvent_applied],
      by rw [sendEvent_channel hopen]; exact List.prefix_append ..⟩
  · exact .refl c

theorem applyBlock_extends (block : Block) (height : Nat) (c : Client σ) :
    Extends c (c.applyBlock block height).2 :=
  ⟨by rw [applyBlock_applied]; exact List.prefix_append .., List.prefix_rfl⟩

theorem scanBlock_extends (hopen : ∀ i, eventTx i = .sender) (block : Block) (height : Nat)
    (c : Client σ) : Extends c (c.scanBlock eventTx block height).2 := by
  have happlied := applyBlock_extends block height c
  rcases scanBlock_cases eventTx block height c with ⟨-, heq⟩ | ⟨-, heq⟩ <;> rw [heq]
  · exact happlied
  · exact happlied.trans (emitUpdate_extends hopen _ _)

theorem scanned_extends (hopen : ∀ i, eventTx i = .sender) (blocks : List (Block × Nat))
    (c : Client σ) : Extends c (scanned eventTx blocks c) := by
  induction blocks generalizing c with
  | nil => exact .refl c
  | cons p rest ih => exact (scanBlock_extends hopen p.1 p.2 c).trans (ih _)

end open_channel

section chain
variable [BdkChain σ] {chain : BestChain} {filter : BlockFilter}

/-- Matching blocks of the range that are not above a scanned one were scanned. -/
theorem Scanning.mem_done {env : ScanEnv} {kind : ScanKind} {c : Client σ}
    {startHeight stopHeight : Nat} {spks : List ScriptBuf} {done rest : List (Block × Nat)}
    (h : Scanning chain filter env kind c startHeight spks stopHeight done rest)
    {p : Block × Nat} (hp : p ∈ chain.matching filter spks startHeight stopHeight)
    (hle : rest ≠ [] → ∃ q ∈ done, p.2 ≤ q.2) : p ∈ done := by
  have hascending := chain.matching_ascending filter spks startHeight stopHeight
  rw [h.split] at hp hascending
  rcases List.mem_append.mp hp with hp | hp
  · exact hp
  · obtain ⟨q, hq, hpq⟩ := hle (List.ne_nil_of_mem hp)
    have := (List.pairwise_append.mp hascending).2.2 q hq p hp
    omega

/-- What a client has delivered since `first`: every block up to its checkpoint
that matches the scripts derived from `first`. -/
structure Covered (chain : BestChain) (filter : BlockFilter) (first c : Client σ) : Prop where
  graph_empty : c.txGraph.graph = .empty
  later : Later first.txGraph.index c.txGraph.index
  delivered : ∀ {spks}, deriveSpks first.txGraph.index = .ok spks →
    ∀ {p}, chain.blockAt p.2 = some p.1 → filter p.1 spks = true →
      first.checkpoint.height < p.2 → p.2 ≤ c.checkpoint.height → Delivered c p

section covered
variable {first c : Client σ}

/-- What the first scripts match above the checkpoint, a later scan's match too. -/
theorem Covered.mem_matching (h : Covered chain filter first c) (hmono : filter.Monotone)
    {startHeight stopHeight : Nat} {spks spks' : List ScriptBuf}
    (hfirst : deriveSpks first.txGraph.index = .ok spks)
    (hstart : c.scanStart .sync = .ok (startHeight, spks')) {p : Block × Nat}
    (hp : chain.blockAt p.2 = some p.1) (hmatch : filter p.1 spks = true)
    (habove : c.checkpoint.height < p.2) (hstop : p.2 ≤ stopHeight) :
    p ∈ chain.matching filter spks' startHeight stopHeight := by
  obtain ⟨rfl, hspks'⟩ := scanStart_sync.mp hstart
  have hsubset := deriveSpks_subset h.later hfirst hspks'
  exact BestChain.mem_matching.mpr ⟨⟨hp, habove.le, hstop⟩, hmono p.1 hsubset hmatch⟩

theorem Covered.sendEvent (h : Covered chain filter first c)
    {eventTx : Nat → EventSlot} (hopen : ∀ i, eventTx i = .sender) (event : ScanEvent) :
    Covered chain filter first (c.sendEvent eventTx event).2 := by
  refine ⟨?_, ?_, ?_⟩
  · rw [sendEvent_txGraph]
    exact h.graph_empty
  · rw [sendEvent_txGraph]
    exact h.later
  · intro spks hspks p hp hmatch hfirst hle
    rw [sendEvent_checkpoint] at hle
    exact (sendEvent_extends hopen event c).delivered (h.delivered hspks hp hmatch hfirst hle)

end covered
end chain

section laws
variable [BdkChain σ] [LawfulBdkChain σ] {eventTx : Nat → EventSlot}

theorem scanned_graph {blocks : List (Block × Nat)} {c : Client σ}
    (hgraph : c.txGraph.graph = .empty) (hunbroken : Unbroken eventTx blocks c) :
    (scanned eventTx blocks c).txGraph.graph = .empty := by
  induction blocks generalizing c with
  | nil => exact hgraph
  | cons p rest ih =>
      obtain ⟨hexit, hrest⟩ := hunbroken
      exact ih (by rw [scanBlock_txGraph hgraph hexit]; rfl) hrest

theorem scanned_later {blocks : List (Block × Nat)} {c : Client σ}
    (hgraph : c.txGraph.graph = .empty) (hunbroken : Unbroken eventTx blocks c) :
    Later c.txGraph.index (scanned eventTx blocks c).txGraph.index := by
  induction blocks generalizing c with
  | nil => exact .refl _
  | cons p rest ih =>
      obtain ⟨hexit, hrest⟩ := hunbroken
      have hstep := scanBlock_txGraph hgraph hexit
      have hlater := ih (c := (c.scanBlock eventTx p.1 p.2).2) (by rw [hstep]; rfl) hrest
      rw [hstep] at hlater
      exact (later_indexTxs p.1.txdata c.txGraph.index).trans hlater

/-- A block at or above the checkpoint is delivered, and the checkpoint stays
or moves to it. -/
theorem scanBlock_delivers (hopen : ∀ i, eventTx i = .sender) {c : Client σ}
    (hgraph : c.txGraph.graph = .empty) {p : Block × Nat}
    (hexit : (c.scanBlock eventTx p.1 p.2).1 ≠ .panicked) (hp : c.checkpoint.height ≤ p.2) :
    Delivered (c.scanBlock eventTx p.1 p.2).2 p ∧
      ((c.scanBlock eventTx p.1 p.2).2.checkpoint.height = c.checkpoint.height ∨
        (c.scanBlock eventTx p.1 p.2).2.checkpoint.height = p.2) := by
  have htip := SparseChain.tip_insert_of_le (c := c.checkpoint) p.1.blockHash hp
  by_cases h : p.1.relevant c.txGraph.index = []
  · rw [scanBlock_of_irrelevant hgraph h]
    refine ⟨⟨_, List.mem_append_right _ (List.mem_singleton_self _), rfl, rfl, ?_⟩, .inl rfl⟩
    intro hnonempty
    exact absurd ((applyBlock_isEmpty_iff p.1 p.2 hgraph).mpr h) (by simp [hnonempty])
  · have htakes := takes_of_scanBlock hgraph hexit h
    rw [scanBlock_of_relevant hgraph h]
    refine ⟨⟨⟨p.1, p.2, (c.applyBlock p.1 p.2).1⟩, ?_, rfl, rfl, fun _ => ?_⟩, .inr ?_⟩
    · rw [emitUpdate_applied, applyBlock_applied]
      exact List.mem_append_right _ (List.mem_singleton_self _)
    · rw [emitUpdate_channel htakes hopen]
      refine ⟨_, c.checkpoint.insertBlock ⟨p.2, p.1.blockHash⟩,
        List.mem_append_right _ (List.mem_singleton_self _), ?_, rfl, htip⟩
      exact applyBlock_graph _ _ hgraph
    · rw [emitUpdate_checkpoint htakes, applyBlock_checkpoint]
      exact congrArg Prod.fst htip

/-- A block loop from the checkpoint upwards delivers every block it passes,
and leaves the checkpoint where it was or at one of them. -/
theorem scanned_delivers (hopen : ∀ i, eventTx i = .sender) {blocks : List (Block × Nat)}
    (hascending : blocks.Pairwise fun p q => p.2 < q.2) {c : Client σ}
    (hgraph : c.txGraph.graph = .empty) (hunbroken : Unbroken eventTx blocks c)
    (hstart : ∀ p ∈ blocks, c.checkpoint.height ≤ p.2) :
    (∀ p ∈ blocks, Delivered (scanned eventTx blocks c) p) ∧
      ((scanned eventTx blocks c).checkpoint.height = c.checkpoint.height ∨
        ∃ p ∈ blocks, (scanned eventTx blocks c).checkpoint.height = p.2) := by
  induction blocks generalizing c with
  | nil => exact ⟨nofun, .inl rfl⟩
  | cons p rest ih =>
      obtain ⟨hbefore, hrest⟩ := List.pairwise_cons.mp hascending
      obtain ⟨hexit, hunbroken⟩ := hunbroken
      have hp := hstart p (List.mem_cons_self ..)
      obtain ⟨hdelivered, hheight⟩ := scanBlock_delivers hopen hgraph hexit hp
      have hnext : (c.scanBlock eventTx p.1 p.2).2.checkpoint.height ≤ p.2 := by omega
      obtain ⟨hall, hend⟩ := ih hrest (by rw [scanBlock_txGraph hgraph hexit]; rfl) hunbroken
        fun q hq => hnext.trans (hbefore q hq).le
      constructor
      · intro q hq
        rcases List.mem_cons.mp hq with rfl | hq
        · exact (scanned_extends hopen rest _).delivered hdelivered
        · exact hall q hq
      · rcases hend with hsame | ⟨q, hq, heq⟩
        · rcases hheight with h | h
          · exact .inl (hsame.trans h)
          · exact .inr ⟨p, List.mem_cons_self .., hsame.trans h⟩
        · exact .inr ⟨q, List.mem_cons_of_mem _ hq, heq⟩

section chain
variable {chain : BestChain} {filter : BlockFilter} {first c : Client σ}

section scanning
variable {env : ScanEnv} {startHeight stopHeight : Nat} {spks' : List ScriptBuf}
  {done rest : List (Block × Nat)}

theorem Scanning.delivers (hopen : ∀ i, env.eventTx i = .sender)
    (hgraph : c.txGraph.graph = .empty)
    (scanning : Scanning chain filter env .sync c startHeight spks' stopHeight done rest) :
    (∀ p ∈ done, Delivered (scanned env.eventTx done c) p) ∧
      ((scanned env.eventTx done c).checkpoint.height = c.checkpoint.height ∨
        ∃ p ∈ done, (scanned env.eventTx done c).checkpoint.height = p.2) := by
  have hascending := chain.matching_ascending filter spks' startHeight stopHeight
  rw [scanning.split] at hascending
  refine scanned_delivers hopen (List.pairwise_append.mp hascending).1 hgraph
    scanning.unbroken fun p hp => ?_
  have hmem : p ∈ chain.matching filter spks' startHeight stopHeight :=
    scanning.split ▸ List.mem_append_left _ hp
  exact (scanStart_sync.mp scanning.start).1 ▸ (BestChain.mem_matching.mp hmem).1.2.1

/-- A block loop keeps the covered range covered. -/
theorem Covered.scanned (h : Covered chain filter first c) (hmono : filter.Monotone)
    (hopen : ∀ i, env.eventTx i = .sender)
    (scanning : Scanning chain filter env .sync c startHeight spks' stopHeight done rest) :
    Covered chain filter first (scanned env.eventTx done c) := by
  obtain ⟨hall, hheight⟩ := scanning.delivers hopen h.graph_empty
  refine ⟨scanned_graph h.graph_empty scanning.unbroken,
    h.later.trans (scanned_later h.graph_empty scanning.unbroken), ?_⟩
  intro spks hspks p hp hmatch hfirst hle
  rcases Nat.lt_or_ge c.checkpoint.height p.2 with habove | hbelow
  · rcases hheight with hsame | ⟨q, hq, heq⟩
    · omega
    · have hqstop : q.2 ≤ stopHeight :=
        (BestChain.mem_matching.mp (scanning.split ▸ List.mem_append_left _ hq)).1.2.2
      have hmem := h.mem_matching hmono hspks scanning.start hp hmatch habove
        ((hle.trans_eq heq).trans hqstop)
      exact hall p (scanning.mem_done hmem fun _ => ⟨q, hq, hle.trans_eq heq⟩)
  · exact (scanned_extends hopen done c).delivered (h.delivered hspks hp hmatch hfirst hbelow)

/-- The final checkpoint comes after every matching block up to it. -/
theorem Covered.advanced (h : Covered chain filter first c) (hmono : filter.Monotone)
    (hopen : ∀ i, env.eventTx i = .sender)
    (scanning : Scanning chain filter env .sync c startHeight spks' stopHeight done [])
    (hlt : (Client.scanned env.eventTx done c).checkpoint.height < stopHeight)
    (hash : BlockHash) : Covered chain filter first
      ((Client.scanned env.eventTx done c).emitUpdate env.eventTx ⟨stopHeight, hash⟩).2 := by
  have hloop := h.scanned hmono hopen scanning
  have hextends := emitUpdate_extends hopen ⟨stopHeight, hash⟩ (Client.scanned env.eventTx done c)
  have htakes : (Client.scanned env.eventTx done c).checkpoint.Takes ⟨stopHeight, hash⟩ :=
    CheckPoint.takes_above hlt
  refine ⟨?_, ?_, ?_⟩
  · rw [emitUpdate_txGraph htakes]
    rfl
  · rw [emitUpdate_txGraph htakes]
    exact hloop.later
  · intro spks hspks p hp hmatch hfirst hle
    have hstop : p.2 ≤ stopHeight := by
      rw [emitUpdate_checkpoint htakes] at hle
      have htip := SparseChain.tip_insert_of_le hash hlt.le
      exact hle.trans_eq (congrArg Prod.fst htip)
    rcases Nat.lt_or_ge c.checkpoint.height p.2 with habove | hbelow
    · have hmem := h.mem_matching hmono hspks scanning.start hp hmatch habove hstop
      exact hextends.delivered
        ((scanning.delivers hopen h.graph_empty).1 p
          (scanning.mem_done hmem fun hne => absurd rfl hne))
    · exact hextends.delivered ((scanned_extends hopen done c).delivered
        (h.delivered hspks hp hmatch hfirst hbelow))

end scanning

theorem Covered.scanInner (h : Covered chain filter first c) (hmono : filter.Monotone)
    {env : ScanEnv} (hopen : ∀ i, env.eventTx i = .sender)
    (hanswers : Answers chain filter env) :
    Leaves (Covered chain filter first) (c.scanInner env .sync) := by
  have hunpoisoned := unpoisoned_of_open hopen
  have houtcome := scanInner_outcome hanswers hunpoisoned .sync c
  generalize c.scanInner env .sync = r at houtcome ⊢
  cases houtcome with
  | untouched _ hpanicked => exact .kept hpanicked h
  | stopped e scanning => exact .err e (h.scanned hmono hopen scanning)
  | panicked scanning hpanics => exact .panicked (h.scanned hmono hopen scanning) hpanics
  | reached scanning => exact .ok (h.scanned hmono hopen scanning)
  | advanced scanning hlt =>
      refine .of_kept ?_ (h.advanced hmono hopen scanning hlt _)
      rw [emitUpdate_exit (CheckPoint.takes_above hlt) hunpoisoned]
      nofun

/-- One scan, however it ends. -/
theorem Covered.scan (h : Covered chain filter first c) (hmono : filter.Monotone)
    {env : ScanEnv} (hopen : ∀ i, env.eventTx i = .sender)
    (hanswers : Answers chain filter env) :
    Leaves (Covered chain filter first) (c.scan env .sync) := by
  refine Leaves.andThen (.kept (waitUntilReady_ne_panicked env.ready) h) fun d hd => ?_
  exact (hd.scanInner hmono hopen hanswers).notifiedScan false
    fun _ hc => hc.sendEvent hopen _

omit [LawfulBdkChain σ] in
/-- A panic leaves no gap either: the checkpoint was not moved to the block. -/
theorem delivered_of_leaves {r : Exit × Client σ} (hr : Leaves (Covered chain filter first) r)
    {spks : List ScriptBuf} (hspks : deriveSpks first.txGraph.index = .ok spks)
    {p : Block × Nat} (hblock : chain.blockAt p.2 = some p.1) (hmatch : filter p.1 spks = true)
    (habove : first.checkpoint.height < p.2) (hupto : p.2 ≤ r.2.checkpoint.height) :
    Delivered r.2 p := by
  cases hr with
  | kept _ hc => exact hc.delivered hspks hblock hmatch habove hupto
  | panicked hc _ =>
      exact (applyBlock_extends _ _ _).delivered
        (hc.delivered hspks hblock hmatch habove hupto)

end chain
end laws

/-- The client after `Sync` scans, made one after another however each of them
ended. -/
def syncs [BdkChain σ] (envs : List ScanEnv) (c : Client σ) : Client σ :=
  runCalls (envs.map fun env => .scan env .sync) c

/-- The checkpoint never gets ahead of what was delivered: after any `Sync`
scans, each ending in success, in an error, by cancellation or at an await, every
block above the first checkpoint and up to the present one that matches the
first script list has been applied, and its update sent. Between calls a client
is one with an index, a checkpoint and an empty graph, so the first call starts
from any. -/
theorem checkpoint_never_ahead [BdkChain σ] [LawfulBdkChain σ]
    {chain : BestChain} {filter : BlockFilter} (hmono : filter.Monotone) (index : σ)
    (checkpoint : CheckPoint) {envs : List ScanEnv}
    (hopen : ∀ env ∈ envs, ∀ i, env.eventTx i = .sender)
    (hanswers : ∀ env ∈ envs, Answers chain filter env) {spks : List ScriptBuf}
    (hspks : deriveSpks index = .ok spks) {height : Nat} {block : Block}
    (hblock : chain.blockAt height = some block) (hmatch : filter block spks = true)
    (habove : checkpoint.height < height)
    (hupto : height ≤ (syncs envs (ofWallet index checkpoint)).checkpoint.height) :
    Delivered (syncs envs (ofWallet index checkpoint)) (block, height) := by
  have hstart : Covered chain filter (ofWallet index checkpoint)
      (ofWallet index checkpoint) :=
    ⟨rfl, .refl _, fun _ _ _ _ hlt hle => absurd hlt (Nat.not_lt.mpr hle)⟩
  have hleaves : Leaves (Covered chain filter (ofWallet index checkpoint))
      (makeCalls (envs.map fun env => .scan env .sync) (ofWallet index checkpoint)) := by
    refine leaves_makeCalls (fun call hcall c hc => ?_) hstart
    obtain ⟨env, henv, rfl⟩ := List.mem_map.mp hcall
    exact hc.scan hmono (hopen env henv) (hanswers env henv)
  exact delivered_of_leaves hleaves hspks (p := (block, height)) hblock hmatch habove hupto

section examples

/-- Two blocks that each pay the wallet. -/
def twicePaid : BestChain :=
  ⟨[⟨10, 0, []⟩, ⟨11, 1, [⟨1, [], [0]⟩]⟩, ⟨12, 2, [⟨2, [], [2]⟩]⟩], by decide⟩

/-- The chain it grows into, with another payment. -/
def thricePaid : BestChain :=
  ⟨[⟨10, 0, []⟩, ⟨11, 1, [⟨1, [], [0]⟩]⟩, ⟨12, 2, [⟨2, [], [2]⟩]⟩, ⟨13, 3, [⟨3, [], [4]⟩]⟩],
    by decide⟩

/-- A scan cancelled after its first block, and its retry on the longer chain. -/
def cancelledThenRetried : List ScanEnv :=
  [{ honestEnv twicePaid thricePaid.exactFilter 2 with cancelled := fun p => p = .block 1 },
    honestEnv thricePaid thricePaid.exactFilter 3]

theorem cancelledThenRetried_answers :
    ∀ env ∈ cancelledThenRetried, Answers thricePaid thricePaid.exactFilter env := by
  intro env henv
  simp only [cancelledThenRetried, List.mem_cons, List.not_mem_nil, or_false] at henv
  rcases henv with rfl | rfl
  · exact honestNode_answers_later (twicePaid.blocks.prefix_append [⟨13, 3, [⟨3, [], [4]⟩]⟩])
      (by decide) fun _ => rfl
  · exact honestNode_answers (by decide) fun _ => rfl

theorem checkpoint_never_ahead_retried :
    Delivered (syncs cancelledThenRetried (ofWallet (WalletIndex.fresh 5) (.single 0 10)))
      (⟨13, 3, [⟨3, [], [4]⟩]⟩, 3) :=
  checkpoint_never_ahead thricePaid.exactFilter_monotone (WalletIndex.fresh 5) (.single 0 10)
    (by simp [cancelledThenRetried, honestEnv]) cancelledThenRetried_answers
    rfl rfl (by decide) (by decide) (by decide)

end examples
end Client
end BdkFloresta
