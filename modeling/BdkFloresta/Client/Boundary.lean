import BdkFloresta.Client.Protocol

/-!
Where a failing filter scan stops. Processing a block is stated here on its own,
as one change of the client: its transactions, checkpoint, update and the reset
graph together, or nothing. Whatever makes the scan fail, it leaves the client
as some prefix of the fetched blocks made it, and nothing at all before that. And
whatever fails does make it fail, at that very block.
-/

namespace BdkFloresta
namespace Client
open Fallible
variable {σ : Type} [BdkChain σ]

/-- The update of a block: its relevant transactions with their anchors, the last
active indices once it is indexed, and the chain with the block in it. -/
def blockUpdate (c : Client σ) (p : Block × Nat) : Update :=
  ⟨p.1.delta p.2 c.txGraph.index, lastUsedIndices (p.1.indexed c.txGraph.index),
    some (c.checkpoint.insertBlock ⟨p.2, p.1.blockHash⟩)⟩

/-- A block without relevant transactions changes nothing; any other changes the
checkpoint, the index and the event stream at once and leaves no graph. -/
def processBlock (eventTx : Nat → EventSlot) (c : Client σ) (p : Block × Nat) : Client σ :=
  let applied := c.applied ++ [⟨p.1, p.2, (c.applyBlock p.1 p.2).1⟩]
  if p.1.relevant c.txGraph.index = [] then { c with applied }
  else
    let event := .walletUpdate (c.blockUpdate p)
    { checkpoint := c.checkpoint.insertBlock ⟨p.2, p.1.blockHash⟩
      txGraph := .new (p.1.indexed c.txGraph.index)
      passed := c.passed ++ [event]
      channel := c.channel ++ if eventTx c.passed.length = .sender then [event] else []
      applied }

/-- The client after fully processing the blocks. -/
def processed (eventTx : Nat → EventSlot) (blocks : List (Block × Nat)) (c : Client σ) :
    Client σ :=
  blocks.foldl (processBlock eventTx) c

/-- The scan fails before its block loop: in the script derivation, the filter
height, the range check, the matching or the fetch, or because its token was
cancelled before the matching returned or while the fetch was pending. -/
inductive FailsEarly (env : ScanEnv) (kind : ScanKind) (c : Client σ) : Prop where
  | derivation (e : ClientError) : c.scanStart kind = .error e → FailsEarly env kind c
  | filterHeight (e : NodeError) : (env.node .filterHeight).getFilterHeight = .error e →
      FailsEarly env kind c
  | range (start stop : Nat) (spks : List ScriptBuf) : c.scanStart kind = .ok (start, spks) →
      (env.node .filterHeight).getFilterHeight = .ok stop → stop < start →
      FailsEarly env kind c
  | beforeMatch : env.cancelled .beforeMatch = true → FailsEarly env kind c
  | matching (start stop : Nat) (spks : List ScriptBuf) (e : NodeError) :
      c.scanStart kind = .ok (start, spks) →
      (env.node .filterHeight).getFilterHeight = .ok stop →
      (env.node .matchFilters).matchFilters spks start stop = .error e →
      FailsEarly env kind c
  | afterMatch : env.cancelled .afterMatch = true → FailsEarly env kind c
  | fetchCancelled (start stop : Nat) (spks : List ScriptBuf) (hashes : List BlockHash) :
      c.scanStart kind = .ok (start, spks) →
      (env.node .filterHeight).getFilterHeight = .ok stop →
      (env.node .matchFilters).matchFilters spks start stop = .ok hashes → hashes ≠ [] →
      env.cancelled .fetchBlocks = true → FailsEarly env kind c
  | fetching (start stop : Nat) (spks : List ScriptBuf) (hashes : List BlockHash)
      (e : NodeError) : c.scanStart kind = .ok (start, spks) →
      (env.node .filterHeight).getFilterHeight = .ok stop →
      (env.node .matchFilters).matchFilters spks start stop = .ok hashes →
      env.fetchParked = false → (env.node .fetchBlocks).fetchBlocks hashes = .error e →
      FailsEarly env kind c

/-- The block loop gets through the blocks: it is not cancelled, the node locates them and
their insertions succeed. -/
structure GetsThrough (env : ScanEnv) (done : List (Block × Nat)) (c : Client σ) : Prop where
  cancelled : ∀ i < done.length, env.cancelled (.block i) = false
  located : Located env 0 done
  unbroken : Unbroken env.eventTx done c

/-- What fails once the loop has got through the `done` blocks: the token is cancelled or the
height lookup fails at the next one, or the lookup of the stop hash after the last. -/
inductive FailsAfter (env : ScanEnv) (stopHeight : Nat) (done : List (Block × Nat))
    (c : Client σ) : List Block → ClientError → Prop where
  | cancelled {block rest} (h : env.cancelled (.block done.length) = true) :
      FailsAfter env stopHeight done c (block :: rest) .scanAborted
  | blockHeight {block rest e} (hcancelled : env.cancelled (.block done.length) = false)
      (h : (env.node (.blockHeight done.length)).getBlockHeight block.blockHash = .error e) :
      FailsAfter env stopHeight done c (block :: rest) (.node e)
  | stopHash {e} (hlt : (processed env.eventTx done c).checkpoint.height < stopHeight)
      (h : (env.node .stopHash).getBlockHash stopHeight = .error e) :
      FailsAfter env stopHeight done c [] (.node e)

section loop
variable [LawfulBdkChain σ] {eventTx : Nat → EventSlot}

theorem scanBlock_eq_processBlock {c : Client σ} (hgraph : c.txGraph.graph = .empty)
    {p : Block × Nat} (hexit : (c.scanBlock eventTx p.1 p.2).1 ≠ .panicked) :
    (c.scanBlock eventTx p.1 p.2).2 = processBlock eventTx c p := by
  by_cases h : p.1.relevant c.txGraph.index = []
  · rw [scanBlock_of_irrelevant hgraph h, processBlock, if_pos h]
  · have htakes := takes_of_scanBlock hgraph hexit h
    have htxGraph := scanBlock_txGraph hgraph hexit
    have happlied := scanBlock_applied eventTx p.1 p.2 c
    rw [scanBlock_of_relevant hgraph h] at htxGraph happlied ⊢
    have hupdate : (c.applyBlock p.1 p.2).2.cutUpdate ⟨p.2, p.1.blockHash⟩ =
        c.blockUpdate p := by
      simp only [cutUpdate, blockUpdate, applyBlock_txGraph _ _ hgraph, applyBlock_checkpoint]
    have hemits := sendEvent_emits eventTx
      (.walletUpdate ((c.applyBlock p.1 p.2).2.cutUpdate ⟨p.2, p.1.blockHash⟩))
      ((c.applyBlock p.1 p.2).2.cut ⟨p.2, p.1.blockHash⟩)
    rw [← emitUpdate_of_takes htakes, hupdate] at hemits
    rw [processBlock, if_neg h]
    exact Client.ext (emitUpdate_checkpoint htakes) htxGraph hemits.passed hemits.channel happlied

omit [LawfulBdkChain σ] in
theorem processBlock_graph {c : Client σ} (hgraph : c.txGraph.graph = .empty)
    (p : Block × Nat) : (processBlock eventTx c p).txGraph.graph = .empty := by
  simp only [processBlock]
  split
  · exact hgraph
  · rfl

theorem scanned_eq_processed {blocks : List (Block × Nat)} {c : Client σ}
    (hgraph : c.txGraph.graph = .empty) (hunbroken : Unbroken eventTx blocks c) :
    scanned eventTx blocks c = processed eventTx blocks c := by
  induction blocks generalizing c with
  | nil => rfl
  | cons p rest ih =>
      obtain ⟨hexit, hrest⟩ := hunbroken
      rw [scanned_cons]
      rw [scanBlock_eq_processBlock hgraph hexit] at hrest ⊢
      exact ih (processBlock_graph hgraph p) hrest

theorem scanInner_failsAfter {env : ScanEnv} (h : Unpoisoned env.eventTx) {kind : ScanKind}
    {c : Client σ} (hgraph : c.txGraph.graph = .empty) {stopHeight : Nat}
    {done : List (Block × Nat)} {rest : List Block} {e : ClientError}
    (hfetch : c.fetchRelevant env kind = .ok (stopHeight, done.map Prod.fst ++ rest))
    (hdone : GetsThrough env done c) (hfails : FailsAfter env stopHeight done c rest e) :
    c.scanInner env kind = (.err e, processed env.eventTx done c) := by
  have hprocessed := scanned_eq_processed hgraph hdone.unbroken
  have hblocks := scanBlocks_append h rest (fun j _ hj => hdone.cancelled j (by simpa using hj))
    hdone.located hdone.unbroken
  simp only [scanInner, hfetch, hblocks, hprocessed, Nat.zero_add]
  cases hfails with
  | cancelled hcancelled => simp only [scanBlocks, hcancelled, if_true, andThen_err]
  | blockHeight hcancelled he =>
      simp only [scanBlocks, hcancelled, he, Bool.false_eq_true, if_false, andThen_err]
  | stopHash hlt he => simp only [scanBlocks, andThen_ok, finishScan, if_pos hlt, he]

end loop

def Errs {α : Type} (x : Except Exit α) : Prop := ∃ e, x = .error (.err e)

theorem errs_bind {α β : Type} {x : Except Exit α} {f : α → Except Exit β}
    (hx : ∀ exit, x = .error exit → ∃ e, exit = .err e) (hf : ∀ a, x = .ok a → Errs (f a)) :
    Errs (x >>= f) := by
  cases x with
  | error exit =>
      obtain ⟨e, rfl⟩ := hx exit rfl
      exact ⟨e, rfl⟩
  | ok a => exact hf a rfl

theorem mapError_err {ε α : Type} {f : ε → ClientError} {x : Except ε α} {exit : Exit}
    (h : x.mapError (fun e => Exit.err (f e)) = .error exit) : ∃ e, exit = .err e := by
  cases x with
  | error e => exact ⟨f e, (Except.error.inj h).symm⟩
  | ok a => cases h

theorem endIf_err {p : Prop} [Decidable p] {e : ClientError} {exit : Exit}
    (h : endIf p (.err e) = .error exit) : ∃ e, exit = .err e := by
  simp only [endIf] at h
  split at h
  · exact ⟨e, (Except.error.inj h).symm⟩
  · cases h

theorem fetchMatching_errs {env : ScanEnv} {hashes : List BlockHash} (hne : hashes ≠ [])
    (h : env.cancelled .fetchBlocks = true ∨ env.fetchParked = false ∧
      ∃ e, (env.node .fetchBlocks).fetchBlocks hashes = .error e) :
    Errs (fetchMatching env hashes) := by
  simp only [fetchMatching, if_neg hne]
  refine errs_bind (fun _ => endIf_err) fun _ hcancelled => ?_
  rcases h with h | ⟨hparked, e, hfetch⟩
  · exact absurd h (endIf_eq_ok.mp hcancelled)
  · simp only [endIf, hparked, hfetch]
    exact ⟨.node e, rfl⟩

theorem fetchRelevant_failsEarly {env : ScanEnv} {kind : ScanKind} {c : Client σ}
    (h : FailsEarly env kind c) : Errs (c.fetchRelevant env kind) := by
  simp only [fetchRelevant]
  refine errs_bind (fun _ => mapError_err) fun range hstart => ?_
  refine errs_bind (fun _ => mapError_err) fun stop hstop => ?_
  refine errs_bind (fun _ => endIf_err) fun _ hrange => ?_
  refine errs_bind (fun _ => endIf_err) fun _ hbefore => ?_
  refine errs_bind (fun _ => mapError_err) fun hashes hhashes => ?_
  refine errs_bind (fun _ => endIf_err) fun _ hafter => ?_
  rw [mapError_eq_ok] at hstart hstop hhashes
  rw [endIf_eq_ok] at hrange hbefore hafter
  -- every check but the fetch has passed
  suffices Errs (fetchMatching env hashes) by
    obtain ⟨e, he⟩ := this
    exact ⟨e, by rw [he]; rfl⟩
  cases h with
  | derivation e he => cases hstart.symm.trans he
  | filterHeight e he => cases hstop.symm.trans he
  | range start' stop' spks' hstart' hstop' hlt =>
      cases hstart.symm.trans hstart'
      cases hstop.symm.trans hstop'
      exact absurd hlt hrange
  | beforeMatch hcancelled => exact absurd hcancelled hbefore
  | matching start' stop' spks' e hstart' hstop' he =>
      cases hstart.symm.trans hstart'
      cases hstop.symm.trans hstop'
      cases hhashes.symm.trans he
  | afterMatch hcancelled => exact absurd hcancelled hafter
  | fetchCancelled start' stop' spks' hashes' hstart' hstop' hhashes' hne hcancelled =>
      cases hstart.symm.trans hstart'
      cases hstop.symm.trans hstop'
      cases hhashes.symm.trans hhashes'
      exact fetchMatching_errs hne (.inl hcancelled)
  | fetching start' stop' spks' hashes' e hstart' hstop' hhashes' hparked he =>
      cases hstart.symm.trans hstart'
      cases hstop.symm.trans hstop'
      cases hhashes.symm.trans hhashes'
      refine fetchMatching_errs ?_ (.inr ⟨hparked, e, he⟩)
      rintro rfl
      cases he

/-- A failing filter scan leaves the client as a prefix of the fetched blocks made
it: the empty one if nothing was fetched, as after every early failure. A failure in the
loop or after it fails the scan with exactly the blocks before it processed. -/
theorem scanInner_err_boundary [LawfulBdkChain σ] {env : ScanEnv}
    (h : Unpoisoned env.eventTx) (kind : ScanKind) {c : Client σ}
    (hgraph : c.txGraph.graph = .empty) :
    (∀ e d, c.scanInner env kind = (.err e, d) →
      (c.fetchRelevant env kind = .error (.err e) ∧ d = c) ∨
      ∃ stopHeight blocks done, c.fetchRelevant env kind = .ok (stopHeight, blocks) ∧
        done.map Prod.fst <+: blocks ∧ Located env 0 done ∧
        d = processed env.eventTx done c) ∧
    (FailsEarly env kind c → ∃ e, c.scanInner env kind = (.err e, c)) ∧
    ∀ stopHeight done rest e,
      c.fetchRelevant env kind = .ok (stopHeight, done.map Prod.fst ++ rest) →
      GetsThrough env done c → FailsAfter env stopHeight done c rest e →
      c.scanInner env kind = (.err e, processed env.eventTx done c) := by
  refine ⟨fun e d hscan => ?_, fun hearly => ?_, fun _ _ _ _ hfetch hdone hfails => ?_⟩
  · rcases scanInner_cases h kind c with ⟨exit, hfetch, heq⟩ |
      ⟨stopHeight, blocks, done, rest, hfetch, hsplit, hlocated, hunbroken, hcases⟩
    · rw [heq] at hscan
      cases hscan
      exact .inl ⟨hfetch, rfl⟩
    rcases hcases with ⟨e', heq⟩ | ⟨block, height, -, -, -, -, heq⟩ | ⟨-, -, heq⟩ |
      ⟨-, hlt, stopHash, -, heq⟩ <;> rw [heq] at hscan
    · cases hscan
      refine .inr ⟨stopHeight, blocks, done, hfetch, ?_, hlocated,
        scanned_eq_processed hgraph hunbroken⟩
      exact hsplit ▸ List.prefix_append ..
    · cases hscan
    · cases hscan
    · have hexit := congrArg Prod.fst hscan
      rw [emitUpdate_exit (CheckPoint.takes_above hlt) h] at hexit
      cases hexit
  · obtain ⟨e, he⟩ := fetchRelevant_failsEarly hearly
    exact ⟨e, by rw [scanInner, he]⟩
  · exact scanInner_failsAfter h hgraph hfetch hdone hfails

section examples

/-- A scan of two blocks that pay the wallet, cancelled between the two. -/
def interruptedEnv : ScanEnv :=
  let chain : BestChain :=
    ⟨[⟨10, 0, []⟩, ⟨11, 4, [⟨1, [], [0]⟩]⟩, ⟨12, 5, [⟨2, [], [2]⟩]⟩], by decide⟩
  { honestEnv chain chain.exactFilter 2 with cancelled := fun point => point = .block 1 }

def interruptedClient : Client WalletIndex := ofWallet (WalletIndex.fresh 5) (.single 0 10)

example : ((interruptedClient.scanInner interruptedEnv .sync).1,
    (interruptedClient.scanInner interruptedEnv .sync).2.passed.length) =
      (.err .scanAborted, 1) := by decide

/-- The block before the cancellation is processed, and nothing else. -/
theorem scanInner_err_boundary_interrupted :
    interruptedClient.scanInner interruptedEnv .sync = (.err .scanAborted,
      processed interruptedEnv.eventTx [(⟨11, 4, [⟨1, [], [0]⟩]⟩, 1)] interruptedClient) := by
  have hunpoisoned : Unpoisoned interruptedEnv.eventTx := fun _ => by
    simp [interruptedEnv, honestEnv]
  obtain ⟨-, -, hloop⟩ := scanInner_err_boundary (c := interruptedClient) hunpoisoned .sync rfl
  refine hloop 2 [(⟨11, 4, [⟨1, [], [0]⟩]⟩, 1)] [⟨12, 5, [⟨2, [], [2]⟩]⟩] .scanAborted rfl ?_
    (.cancelled rfl)
  refine ⟨fun i hi => ?_, ⟨rfl, trivial⟩, by decide, trivial⟩
  obtain rfl := Nat.lt_one_iff.mp hi
  rfl

end examples
end Client
end BdkFloresta
