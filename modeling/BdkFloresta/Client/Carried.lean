import BdkFloresta.Client.Lookahead
import BdkFloresta.Client.Wallet
import BdkFloresta.Library.Cursor

/-!
The event stream as a log with cursors: an update brings transactions with their anchors,
and its chain's height is where a client of the wallet that took it would go on. Scans of
every kind that start low enough and look far enough ahead keep this log safe, however
they end, and so does a continuous scan whose deliveries leave no gap to its filter scan.
-/

namespace BdkFloresta

/-- A transaction of the chain. -/
structure Mined where
  block : Block
  height : Nat
  tx : Transaction

/-- What the updates of the event stream bring. -/
def eventCursor : Cursor ScanEvent Mined where
  position i := i.height
  cursor event := event.update?.bind fun u => u.chain.map CheckPoint.height
  Brings event i := ∃ u, event = .walletUpdate u ∧ i.tx ∈ u.txUpdate.txs ∧
    (i.block.anchor i.height, i.tx.txid) ∈ u.txUpdate.anchors

theorem eventCursor_update {u : Update} {chain : CheckPoint} (h : u.chain = some chain) :
    eventCursor.cursor (.walletUpdate u) = some chain.height := by
  simp [eventCursor, ScanEvent.update?, h]

theorem eventCursor_closing {event : ScanEvent} (h : event.update? = none) :
    eventCursor.cursor event = none := by
  simp [eventCursor, h]

section index
variable {σ : Type} [BdkChain σ]

/-- `b` is a later index that knows every output `a` knows. -/
structure Widens (a b : σ) : Prop where
  later : Later a b
  kept : ∀ op, outpoints a op = true → outpoints b op = true

theorem Widens.refl (a : σ) : Widens a a := ⟨.refl a, fun _ h => h⟩

theorem Widens.trans {a b c : σ} (hab : Widens a b) (hbc : Widens b c) : Widens a c :=
  ⟨hab.later.trans hbc.later, fun op h => hbc.kept op (hab.kept op h)⟩

variable [LawfulBdkChain σ] [KeepsOutputs σ]

theorem widens_indexTxs (txs : List Transaction) (index : σ) :
    Widens index (indexTxs txs index) := by
  induction txs generalizing index with
  | nil => exact .refl index
  | cons tx rest ih =>
      exact .trans ⟨later_indexTx index tx, outpoints_kept index tx⟩ (ih (indexTx index tx).1)

theorem mem_relevantTxs_of_known {txs : List Transaction} {index : σ} {tx : Transaction}
    (htx : tx ∈ txs) {op : OutPoint} (hop : op ∈ tx.input) (h : outpoints index op = true) :
    tx ∈ relevantTxs txs index := by
  induction txs generalizing index with
  | nil => cases htx
  | cons first rest ih =>
      have hnext := outpoints_kept index first op h
      simp only [relevantTxs]
      rcases List.mem_cons.mp htx with rfl | htx
      · rw [if_pos ((isTxRelevant_iff _ tx).mpr (.inr ⟨op, hop, hnext⟩))]
        exact List.mem_cons_self ..
      · split
        · exact List.mem_cons_of_mem _ (ih htx hnext)
        · exact ih htx hnext

end index

section watched
variable {σ : Type} [BdkChain σ] {chain : BestChain} {filter : BlockFilter}
  {first : σ} {spks : List ScriptBuf} {bound : Nat}

/-- It pays one of the scripts, or spends an output of theirs that the index knows. -/
def Transaction.Concerns (chain : BestChain) (first : σ) (spks : List ScriptBuf)
    (tx : Transaction) : Prop :=
  tx.Pays spks ∨ ∃ op ∈ tx.input, outpoints first op = true ∧
    ∃ spk ∈ spks, chain.spentScript op = some spk

/-- A transaction above the bound that concerns the wallet. -/
structure Watched (chain : BestChain) (first : σ) (spks : List ScriptBuf) (bound : Nat)
    (i : Mined) : Prop where
  blockAt : chain.blockAt i.height = some i.block
  mem : i.tx ∈ i.block.txdata
  concerns : i.tx.Concerns chain first spks
  above : bound < i.height

theorem Watched.matches {i : Mined} (hi : Watched chain first spks bound i)
    (hfilter : chain.NoFalseNegatives filter) {spks' : List ScriptBuf} (hsub : spks ⊆ spks') :
    filter i.block spks' = true := by
  have hblock : i.block ∈ chain.blocks := List.mem_of_getElem? hi.blockAt
  refine hfilter i.block hblock spks' ?_
  rcases hi.concerns with ⟨spk, houtput, hspk⟩ | ⟨op, hinput, -, spk, hspk, hspent⟩
  · exact ⟨spk, List.mem_append_left _ (List.mem_flatMap.mpr ⟨i.tx, hi.mem, houtput⟩), hsub hspk⟩
  · refine ⟨spk, List.mem_append_right _ (List.mem_filterMap.mpr ⟨op, ?_, hspent⟩), hsub hspk⟩
    exact List.mem_flatMap.mpr ⟨i.tx, hi.mem, hinput⟩

/-- The index stores what is derived with its own lookahead. -/
theorem stored_of_derived (h : deriveSpks first = .ok spks) {spk : ScriptBuf}
    (hspk : spk ∈ spks) : Stored first spk := by
  obtain ⟨keychain, n, it, hit, hn, hrange, heq⟩ := (mem_deriveSpks h).mp hspk
  refine ⟨keychain, n, it, hit, ?_, hrange, heq⟩
  have hlast : (lastRevealedIndices first keychain).getD 0 ≤
      nextIndex (lastRevealedIndices first keychain) := by
    cases lastRevealedIndices first keychain with
    | none => exact Nat.le_refl _
    | some last => exact Nat.le_succ last
  simp only [saturatingAdd] at hn
  omega

theorem Watched.relevant [LawfulBdkChain σ] [KeepsOutputs σ] {i : Mined}
    (hi : Watched chain first spks bound i) (hspks : deriveSpks first = .ok spks) {index : σ}
    (h : Widens first index) : i.tx ∈ i.block.relevant index := by
  rcases hi.concerns with ⟨spk, houtput, hspk⟩ | ⟨op, hinput, hknown, -⟩
  · exact mem_relevantTxs_of_stored hi.mem houtput (h.later.stored (stored_of_derived hspks hspk))
  · exact mem_relevantTxs_of_known hi.mem hinput (h.kept op hknown)

end watched

/-- The scan starts no higher than the bound or at the checkpoint, and derives at least
what a scan with the index's own lookahead does. -/
def ScanKind.Resumes (lookahead bound : Nat) : ScanKind → Prop
  | .sync => True
  | .fullScan customLookahead => lookahead ≤ customLookahead.getD fullScanLookahead
  | .custom startHeight customLookahead => startHeight ≤ bound ∧ lookahead ≤ customLookahead

/-- The blocks of the chain above a height, one after another, as far as the loop goes. -/
def Contiguous (chain : BestChain) : Nat → List Recv → Prop
  | _, [] | _, .cancelled :: _ | _, .closed :: _ => True
  | below, .block block height :: rest =>
      height = below + 1 ∧ chain.blockAt height = some block ∧ Contiguous chain height rest

/-- A scan that resumes; a continuous one is delivered the blocks above a height that its
filter scan reaches. -/
def Call.Resumes (chain : BestChain) (lookahead bound : Nat) : Call → Prop
  | .scan _ kind => kind.Resumes lookahead bound
  | .scanContinuous env kind deliveries => kind.Resumes lookahead bound ∧
      ∃ below, Contiguous chain below deliveries ∧
        ∀ stopHeight, (env.node .filterHeight).getFilterHeight = .ok stopHeight →
          below ≤ stopHeight

namespace Client
variable {σ : Type} [BdkChain σ] {chain : BestChain} {filter : BlockFilter}
  {first : σ} {spks : List ScriptBuf} {bound start : Nat}

/-- What the client has passed on brings all that concerns the wallet up to each of its
cursors, the last of which is the checkpoint. -/
structure Carried (chain : BestChain) (first : σ) (spks : List ScriptBuf) (bound start : Nat)
    (c : Client σ) : Prop where
  graph_empty : c.txGraph.graph = .empty
  widened : Widens first c.txGraph.index
  tip : c.checkpoint.height = eventCursor.last start c.passed
  safe : eventCursor.Safe (Watched chain first spks bound) start c.passed

theorem ofWallet_carried {index : σ} (h : Widens first index) (checkpoint : CheckPoint) :
    Carried chain first spks bound checkpoint.height (ofWallet index checkpoint) :=
  ⟨rfl, h, rfl, Cursor.safe_nil⟩

theorem scanStart_resumes {kind : ScanKind} {c : Client σ} (hspks : deriveSpks first = .ok spks)
    (hlater : Later first c.txGraph.index) (hkind : kind.Resumes (lookahead first) bound)
    {startHeight : Nat} {spks' : List ScriptBuf}
    (h : c.scanStart kind = .ok (startHeight, spks')) :
    startHeight ≤ max bound c.checkpoint.height ∧ spks ⊆ spks' := by
  have hderived : ∀ customLookahead, lookahead first ≤ customLookahead →
      deriveSpksWithCustomLookahead c.txGraph.index customLookahead = .ok spks' →
        spks ⊆ spks' := by
    intro customLookahead hle hderive spk hspk
    obtain ⟨keychain, n, it, hit, hn, hrest⟩ := (mem_deriveSpks hspks).mp hspk
    refine (mem_deriveSpks hderive).mpr
      ⟨keychain, n, it, (hlater.unboundedSpkIter keychain).trans hit, ?_, hrest⟩
    have hlast := getD_mono (hlater.lastRevealed keychain)
    simp only [saturatingAdd] at hn ⊢
    omega
  cases kind with
  | sync =>
      obtain ⟨rfl, hderive⟩ := scanStart_sync.mp h
      exact ⟨Nat.le_max_right .., deriveSpks_subset hlater hspks hderive⟩
  | fullScan customLookahead =>
      obtain ⟨derived, hderive, heq⟩ := Fallible.map_eq_ok.mp h
      obtain ⟨rfl, rfl⟩ := Prod.mk.inj heq
      exact ⟨Nat.zero_le _, hderived _ hkind hderive⟩
  | custom startHeight customLookahead =>
      obtain ⟨derived, hderive, heq⟩ := Fallible.map_eq_ok.mp h
      obtain ⟨rfl, rfl⟩ := Prod.mk.inj heq
      exact ⟨hkind.1.trans (Nat.le_max_left ..), hderived _ hkind.2 hderive⟩

/-- An update is safe if it or an earlier one brings all that its chain passes. -/
theorem Carried.emitUpdate [LawfulBdkChain σ] {c d : Client σ}
    (h : Carried chain first spks bound start c)
    (hpassed : d.passed = c.passed) (hwidened : Widens first d.txGraph.index)
    (eventTx : Nat → EventSlot) {block : BlockId} (htakes : d.checkpoint.Takes block)
    (hbrings : ∀ i, Watched chain first spks bound i → start < i.height →
      i.height ≤ (d.checkpoint.insertBlock block).height →
      eventCursor.Brought c.passed i ∨
        eventCursor.Brings (.walletUpdate (d.cutUpdate block)) i) :
    Carried chain first spks bound start (d.emitUpdate eventTx block).2 := by
  have hcursor := eventCursor_update (u := d.cutUpdate block) rfl
  refine ⟨?_, ?_, ?_, ?_⟩
  · rw [emitUpdate_txGraph htakes]
    rfl
  · rw [emitUpdate_txGraph htakes]
    exact hwidened
  · rw [emitUpdate_passed htakes, emitUpdate_checkpoint htakes, Cursor.last_cursor hcursor]
  · rw [emitUpdate_passed htakes, hpassed]
    refine h.safe.concat fun i hi hstart hlast => ?_
    rw [Cursor.last_cursor hcursor] at hlast
    rcases hbrings i hi hstart hlast with hbrought | hnow
    · exact hbrought.mono (List.subset_append_left ..)
    · exact ⟨_, List.mem_append_right _ (List.mem_singleton_self _), hnow⟩

theorem Carried.sendClosing {c : Client σ} (h : Carried chain first spks bound start c)
    {event : ScanEvent} (hevent : event.update? = none) (eventTx : Nat → EventSlot) :
    Carried chain first spks bound start (c.sendEvent eventTx event).2 := by
  have hcursor := eventCursor_closing hevent
  refine ⟨?_, ?_, ?_, ?_⟩
  · rw [sendEvent_txGraph]
    exact h.graph_empty
  · rw [sendEvent_txGraph]
    exact h.widened
  · rw [sendEvent_passed, sendEvent_checkpoint, Cursor.last_other hcursor]
    exact h.tip
  · rw [sendEvent_passed]
    exact h.safe.other hcursor

theorem Carried.brought {c : Client σ} (h : Carried chain first spks bound start c) {i : Mined}
    (hi : Watched chain first spks bound i) (hstart : start < i.height)
    (htip : i.height ≤ c.checkpoint.height) : eventCursor.Brought c.passed i :=
  h.safe.brought hi hstart (h.tip ▸ htip)

section range
variable {env : ScanEnv} {kind : ScanKind} {c : Client σ} {startHeight stopHeight : Nat}
  {spks' : List ScriptBuf} {done rest : List (Block × Nat)}

/-- A watched transaction that is not brought by the start of the scan is in its range. -/
theorem Scanning.mem_matching
    (scanning : Scanning chain filter env kind c startHeight spks' stopHeight done rest)
    (hfilter : chain.NoFalseNegatives filter) (hsub : spks ⊆ spks')
    (hstart : startHeight ≤ max bound c.checkpoint.height) {i : Mined}
    (hi : Watched chain first spks bound i) (htip : c.checkpoint.height < i.height)
    (hstop : i.height ≤ stopHeight) : (i.block, i.height) ∈ done ++ rest := by
  have habove := hi.above
  rw [← scanning.split]
  exact BestChain.mem_matching.mpr ⟨⟨hi.blockAt, by omega, hstop⟩, hi.matches hfilter hsub⟩

/-- The loop scans in ascending order: when it comes to a block all below are done. -/
theorem Scanning.mem_scanned {p : Block × Nat}
    (scanning : Scanning chain filter env kind c startHeight spks' stopHeight (done ++ [p]) rest)
    (hfilter : chain.NoFalseNegatives filter) (hsub : spks ⊆ spks')
    (hstart : startHeight ≤ max bound c.checkpoint.height) {i : Mined}
    (hi : Watched chain first spks bound i) (htip : c.checkpoint.height < i.height)
    (hle : i.height ≤ p.2) : (i.block, i.height) ∈ done ++ [p] := by
  have hp : p ∈ done ++ [p] := List.mem_append_right _ (List.mem_singleton_self _)
  have hmatch : p ∈ chain.matching filter spks' startHeight stopHeight := by
    rw [scanning.split]
    exact List.mem_append_left _ hp
  have hstop := hle.trans (BestChain.mem_matching.mp hmatch).1.2.2
  rcases List.mem_append.mp (scanning.mem_matching hfilter hsub hstart hi htip hstop) with
    hdone | hrest
  · exact hdone
  · have hascending := chain.matching_ascending filter spks' startHeight stopHeight
    rw [scanning.split] at hascending
    exact absurd hle (Nat.not_le.mpr ((List.pairwise_append.mp hascending).2.2 p hp _ hrest))

end range

section laws
variable [LawfulBdkChain σ] [KeepsOutputs σ]

/-- The update of a block brings what in the block concerns the wallet. -/
theorem Carried.brings {c : Client σ} (h : Carried chain first spks bound start c)
    (hspks : deriveSpks first = .ok spks) {i : Mined}
    (hi : Watched chain first spks bound i) (cut : BlockId) :
    eventCursor.Brings
      (.walletUpdate ((c.applyBlock i.block i.height).2.cutUpdate cut)) i := by
  have hgraph : ((c.applyBlock i.block i.height).2.cutUpdate cut).txUpdate =
      i.block.delta i.height c.txGraph.index := by
    rw [cutUpdate, applyBlock_txGraph _ _ h.graph_empty]
  have hrelevant := hi.relevant hspks h.widened
  refine ⟨_, rfl, ?_, ?_⟩ <;> rw [hgraph, Block.delta, TxGraph.anchored]
  · exact List.mem_toFinset.mpr hrelevant
  · exact List.mem_toFinset.mpr (List.mem_map.mpr ⟨i.tx, hrelevant, rfl⟩)

theorem Carried.emitApplied {c : Client σ} (h : Carried chain first spks bound start c)
    (eventTx : Nat → EventSlot) (block : Block) (height : Nat) {cut : BlockId}
    (htakes : c.checkpoint.Takes cut)
    (hbrings : ∀ i, Watched chain first spks bound i → start < i.height →
      i.height ≤ (c.checkpoint.insertBlock cut).height →
      eventCursor.Brought c.passed i ∨ eventCursor.Brings
        (.walletUpdate ((c.applyBlock block height).2.cutUpdate cut)) i) :
    Carried chain first spks bound start
      ((c.applyBlock block height).2.emitUpdate eventTx cut).2 := by
  refine h.emitUpdate (d := (c.applyBlock block height).2) rfl ?_ eventTx htakes hbrings
  rw [applyBlock_index]
  exact h.widened.trans (widens_indexTxs block.txdata c.txGraph.index)

section loop
variable {env : ScanEnv} {kind : ScanKind} {c : Client σ} {startHeight stopHeight : Nat}
  {spks' : List ScriptBuf} {done rest : List (Block × Nat)}

/-- The block loop brings the blocks it has scanned, none of which its cursors pass
before. -/
theorem Carried.scanned (h : Carried chain first spks bound start c)
    (hspks : deriveSpks first = .ok spks) (hfilter : chain.NoFalseNegatives filter)
    (hsub : spks ⊆ spks') (hstart : startHeight ≤ max bound c.checkpoint.height)
    (scanning : Scanning chain filter env kind c startHeight spks' stopHeight done rest) :
    Carried chain first spks bound start (scanned env.eventTx done c) ∧
      ∀ i, Watched chain first spks bound i → start < i.height →
        i.height ≤ c.checkpoint.height ∨ (i.block, i.height) ∈ done →
          eventCursor.Brought (Client.scanned env.eventTx done c).passed i := by
  induction done using List.reverseRecOn generalizing rest with
  | nil => exact ⟨h, fun i hi hlt hle => h.brought hi hlt (hle.resolve_right List.not_mem_nil)⟩
  | append_singleton done p ih =>
      have hsplit : chain.matching filter spks' startHeight stopHeight = done ++ p :: rest := by
        rw [scanning.split, List.append_assoc, List.singleton_append]
      obtain ⟨hunbroken, hexit⟩ := unbroken_append.mp scanning.unbroken
      obtain ⟨hd, hbrought⟩ := ih { scanning with split := hsplit, unbroken := hunbroken }
      rw [scanned_append]
      generalize Client.scanned env.eventTx done c = d at hd hbrought hexit
      -- what has been brought before, or is in this block
      have hcases : ∀ i, Watched chain first spks bound i → start < i.height →
          i.height ≤ c.checkpoint.height ∨ (i.block, i.height) ∈ done ++ [p] →
            eventCursor.Brought d.passed i ∨ (i.block, i.height) = p := by
        intro i hi hlt hle
        rcases hle with hle | hmem
        · exact .inl (hbrought i hi hlt (.inl hle))
        rcases List.mem_append.mp hmem with hmem | hmem
        · exact .inl (hbrought i hi hlt (.inr hmem))
        · exact .inr (List.mem_singleton.mp hmem)
      by_cases hrelevant : p.1.relevant d.txGraph.index = []
      · have hsame := scanBlock_of_irrelevant hd.graph_empty hrelevant env.eventTx p.2
        rw [hsame]
        refine ⟨⟨hd.graph_empty, hd.widened, hd.tip, hd.safe⟩, fun i hi hlt hle => ?_⟩
        rcases hcases i hi hlt hle with hbefore | rfl
        · exact hbefore
        · have hmem := hi.relevant hspks hd.widened
          rw [hrelevant] at hmem
          cases hmem
      · have htakes := takes_of_scanBlock hd.graph_empty hexit hrelevant
        rw [scanBlock_of_relevant hd.graph_empty hrelevant]
        have hhere : ∀ i, Watched chain first spks bound i → (i.block, i.height) = p →
            eventCursor.Brings (.walletUpdate ((d.applyBlock p.1 p.2).2.cutUpdate
              ⟨p.2, p.1.blockHash⟩)) i := by
          rintro i hi rfl
          exact hd.brings hspks hi _
        refine ⟨hd.emitApplied env.eventTx p.1 p.2 htakes fun i hi hlt hle => ?_,
          fun i hi hlt hle => ?_⟩
        · have htip := SparseChain.tip_insert_le d.checkpoint p.2 p.1.blockHash
          rcases Nat.lt_or_ge d.checkpoint.height i.height with hnew | hold
          · have hheight : i.height ≤ p.2 := by
              simp only [CheckPoint.height] at hnew hle
              exact (le_max_iff.mp (hle.trans htip)).resolve_left (Nat.not_le.mpr hnew)
            refine (hcases i hi hlt ?_).imp_right (hhere i hi)
            exact (Nat.lt_or_ge c.checkpoint.height i.height).symm.imp_right fun habove =>
              scanning.mem_scanned hfilter hsub hstart hi habove hheight
          · exact .inl (hd.brought hi hlt hold)
        · rw [emitUpdate_passed htakes, applyBlock_passed]
          rcases hcases i hi hlt hle with hbefore | hnow
          · exact hbefore.mono (List.subset_append_left ..)
          · exact ⟨_, List.mem_append_right _ (List.mem_singleton_self _), hhere i hi hnow⟩

/-- The final checkpoint comes after every match up to it. -/
theorem Carried.advanced (h : Carried chain first spks bound start c)
    (hspks : deriveSpks first = .ok spks) (hfilter : chain.NoFalseNegatives filter)
    (hsub : spks ⊆ spks') (hstart : startHeight ≤ max bound c.checkpoint.height)
    (scanning : Scanning chain filter env kind c startHeight spks' stopHeight done [])
    (habove : (Client.scanned env.eventTx done c).checkpoint.height < stopHeight)
    (hash : BlockHash) : Carried chain first spks bound start
      ((Client.scanned env.eventTx done c).emitUpdate env.eventTx ⟨stopHeight, hash⟩).2 := by
  obtain ⟨hd, hbrought⟩ := h.scanned hspks hfilter hsub hstart scanning
  refine hd.emitUpdate rfl hd.widened env.eventTx (CheckPoint.takes_above habove)
    fun i hi hlt hle => .inl ?_
  have htip := SparseChain.tip_insert_le (Client.scanned env.eventTx done c).checkpoint
    stopHeight hash
  rcases le_max_iff.mp (hle.trans htip) with hold | hstop
  · exact hd.brought hi hlt hold
  · refine hbrought i hi hlt ?_
    exact (Nat.lt_or_ge c.checkpoint.height i.height).symm.imp_right fun habove => by
      simpa using scanning.mem_matching hfilter hsub hstart hi habove hstop

end loop

section calls
variable {env : ScanEnv} {kind : ScanKind} {c : Client σ}

theorem Carried.scanInner (h : Carried chain first spks bound start c)
    (hspks : deriveSpks first = .ok spks) (hfilter : chain.NoFalseNegatives filter)
    (hanswers : Answers chain filter env) (hslot : Unpoisoned env.eventTx)
    (hkind : kind.Resumes (lookahead first) bound) :
    Leaves (Carried chain first spks bound start) (c.scanInner env kind) := by
  have houtcome := scanInner_outcome hanswers hslot kind c
  have hscanned : ∀ {a s b done rest}, Scanning chain filter env kind c a s b done rest →
      Carried chain first spks bound start (Client.scanned env.eventTx done c) := by
    intro a s b done rest scanning
    obtain ⟨hstart, hsub⟩ := scanStart_resumes hspks h.widened.later hkind scanning.start
    exact (h.scanned hspks hfilter hsub hstart scanning).1
  generalize c.scanInner env kind = r at houtcome ⊢
  cases houtcome with
  | untouched _ hpanicked => exact .kept hpanicked h
  | stopped e scanning => exact .err e (hscanned scanning)
  | panicked scanning hpanics => exact .panicked (hscanned scanning) hpanics
  | reached scanning => exact .ok (hscanned scanning)
  | advanced scanning hlt =>
      obtain ⟨hstart, hsub⟩ := scanStart_resumes hspks h.widened.later hkind scanning.start
      refine .of_kept ?_ (h.advanced hspks hfilter hsub hstart scanning hlt _)
      rw [emitUpdate_exit (CheckPoint.takes_above hlt) hslot]
      nofun

omit [KeepsOutputs σ] in
/-- A successful filter scan leaves the checkpoint at the stop height or above. -/
theorem scanInner_reaches (hanswers : Answers chain filter env) (hslot : Unpoisoned env.eventTx)
    (hok : (c.scanInner env kind).1 = .ok) : ∃ stopHeight,
      (env.node .filterHeight).getFilterHeight = .ok stopHeight ∧
        stopHeight ≤ (c.scanInner env kind).2.checkpoint.height := by
  have houtcome := scanInner_outcome hanswers hslot kind c
  generalize c.scanInner env kind = r at houtcome hok ⊢
  cases houtcome with
  | untouched hexit => exact absurd hok hexit
  | stopped e scanning => cases hok
  | panicked scanning hpanics => cases hok
  | reached scanning hle => exact ⟨_, scanning.stop, hle⟩
  | advanced scanning hlt =>
      refine ⟨_, scanning.stop, ?_⟩
      rw [emitUpdate_checkpoint (CheckPoint.takes_above hlt)]
      exact (congrArg Prod.fst (SparseChain.tip_insert_of_le _ hlt.le)).ge

omit [KeepsOutputs σ] in
theorem notifiedScan_reaches (hanswers : Answers chain filter env)
    (hslot : Unpoisoned env.eventTx) {keepGoing : Bool}
    (hok : (c.notifiedScan env keepGoing kind).1 = .ok) : ∃ stopHeight,
      (env.node .filterHeight).getFilterHeight = .ok stopHeight ∧
        stopHeight ≤ (c.notifiedScan env keepGoing kind).2.checkpoint.height := by
  rcases notifiedScan_cases hslot keepGoing kind c with heq | ⟨event, -, heq⟩ <;> rw [heq] at hok ⊢
  · exact scanInner_reaches hanswers hslot hok
  · rw [sendEvent_checkpoint]
    exact scanInner_reaches hanswers hslot hok

/-- The delivered blocks follow on the checkpoint one by one. -/
theorem Carried.receiveLoop (hspks : deriveSpks first = .ok spks)
    (hslot : Unpoisoned env.eventTx) {below : Nat} {deliveries : List Recv}
    (hcontiguous : Contiguous chain below deliveries) {c : Client σ}
    (h : Carried chain first spks bound start c) (hbelow : below ≤ c.checkpoint.height) :
    Carried chain first spks bound start (c.receiveLoop env.eventTx deliveries).2 := by
  induction deliveries generalizing below c with
  | nil => exact h
  | cons delivery rest ih =>
      cases delivery with
      | cancelled | closed => exact h
      | block block height =>
          obtain ⟨rfl, hblock, hrest⟩ := hcontiguous
          simp only [Client.receiveLoop]
          rw [andThen_of_ok (receiveBlock_exit hslot block (below + 1) c)]
          simp only [receiveBlock]
          split
          next hknown => exact ih hrest h hknown
          next hnew =>
            have htip : c.checkpoint.height = below := by omega
            have hinsert : (c.checkpoint.insertBlock ⟨below + 1, block.blockHash⟩).height =
                below + 1 := by
              refine congrArg Prod.fst (SparseChain.tip_insert_of_le block.blockHash ?_)
              exact htip.le.trans (Nat.le_succ below)
            have htakes : c.checkpoint.Takes ⟨below + 1, block.blockHash⟩ :=
              CheckPoint.takes_above (Nat.not_le.mp hnew)
            refine ih hrest
              (h.emitApplied env.eventTx block (below + 1) htakes fun i hi hlt hle => ?_) ?_
            · rcases Nat.lt_or_ge below i.height with habove | hold
              · obtain ⟨block', height, tx⟩ := i
                obtain rfl : height = below + 1 := Nat.le_antisymm (hle.trans hinsert.le) habove
                obtain rfl := Option.some.inj (hi.blockAt.symm.trans hblock)
                exact .inr (h.brings hspks hi _)
              · exact .inl (h.brought hi hlt (hold.trans htip.ge))
            · rw [emitUpdate_checkpoint (c := (c.applyBlock block (below + 1)).2) htakes]
              exact hinsert.ge

theorem Carried.notifiedScan (h : Carried chain first spks bound start c)
    (hspks : deriveSpks first = .ok spks) (hfilter : chain.NoFalseNegatives filter)
    (hanswers : Answers chain filter env) (hslot : Unpoisoned env.eventTx)
    (hkind : kind.Resumes (lookahead first) bound) (keepGoing : Bool) :
    Leaves (Carried chain first spks bound start) (c.notifiedScan env keepGoing kind) :=
  (h.scanInner hspks hfilter hanswers hslot hkind).notifiedScan keepGoing
    fun hevent hd => hd.sendClosing hevent env.eventTx

end calls

/-- One call, however it ends. -/
theorem Carried.run {c : Client σ} (h : Carried chain first spks bound start c)
    (hspks : deriveSpks first = .ok spks) (hfilter : chain.NoFalseNegatives filter) {call : Call}
    (hanswers : Answers chain filter call.env) (hslot : Unpoisoned call.env.eventTx)
    (hcall : call.Resumes chain (lookahead first) bound) :
    Leaves (Carried chain first spks bound start) (c.run call) := by
  have hready (ready : List (State × Wake)) :
      Leaves (Carried chain first spks bound start) (waitUntilReady ready, c) :=
    .kept (waitUntilReady_ne_panicked ready) h
  cases call with
  | scan env kind =>
      exact (hready _).andThen fun c hc =>
        Carried.notifiedScan hc hspks hfilter hanswers hslot hcall false
  | scanContinuous env kind deliveries =>
      obtain ⟨hkind, below, hcontiguous, hstop⟩ := hcall
      refine (hready _).andThen fun c hc => ?_
      split
      · exact .err _ hc
      have hnotified := Carried.notifiedScan hc hspks hfilter hanswers hslot hkind true
      refine hnotified.andThen_ok fun hok hd => ?_
      obtain ⟨stopHeight, hheight, hle⟩ := notifiedScan_reaches hanswers hslot hok
      refine .of_kept (receiveLoop_ne_panicked _ _ _) ?_
      exact Carried.receiveLoop hspks hslot hcontiguous hd ((hstop stopHeight hheight).trans hle)

/-- Any calls none of which panics. -/
theorem Carried.runCalls (hspks : deriveSpks first = .ok spks)
    (hfilter : chain.NoFalseNegatives filter) {calls : List Call}
    (hanswers : ∀ call ∈ calls, Answers chain filter call.env)
    (hslot : ∀ call ∈ calls, Unpoisoned call.env.eventTx)
    (hcalls : ∀ call ∈ calls, call.Resumes chain (lookahead first) bound) {c : Client σ}
    (h : Carried chain first spks bound start c) (hreturned : ¬ Panics calls c) :
    Carried chain first spks bound start (Client.runCalls calls c) :=
  (leaves_makeCalls (fun call hcall _ hc => hc.run hspks hfilter (hanswers call hcall)
    (hslot call hcall) (hcalls call hcall)) h).of_ne hreturned

end laws
end Client
end BdkFloresta
