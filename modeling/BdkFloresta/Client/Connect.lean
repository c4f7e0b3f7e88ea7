import BdkFloresta.Client.Honest
import BdkFloresta.Chain.WalletIndex
import BdkFloresta.Library.Connecting

/-!
The chains of consecutive updates. Each emitted chain is the one before it with
one block inserted, wherever the block goes: the filter scan inserts what the
node locates, its final checkpoint and the receive loop only append. A block that
would replace the wallet's first one panics instead and nothing more is emitted.
So every chain connects to its predecessor, and a wallet that merges the updates in
order ends at the client's checkpoint.
-/

namespace BdkFloresta

def chains (events : List ScanEvent) : List CheckPoint :=
  (updates events).filterMap Update.chain

theorem chains_update {chain : CheckPoint} {update : Update} (h : update.chain = some chain)
    (events : List ScanEvent) :
    chains (events ++ [.walletUpdate update]) = chains events ++ [chain] := by
  simp [chains, updates_update, h]

theorem chains_closing {event : ScanEvent} (h : event.update? = none)
    (events : List ScanEvent) : chains (events ++ [event]) = chains events := by
  rw [chains, updates_closing h, chains]

namespace Client
variable {σ : Type}

/-- The emitted chains replace one another, from the wallet's own up to the
client's checkpoint. -/
structure Linked (first : CheckPoint) (c : Client σ) : Prop where
  chained : ∀ u ∈ updates c.passed, u.chain.isSome
  replaced : (first :: chains c.passed).IsChain SparseChain.Replaces
  last : (chains c.passed).getLastD first = c.checkpoint
  base : c.checkpoint.base = first.base

theorem ofWallet_linked (index : σ) (checkpoint : CheckPoint) :
    Linked checkpoint (ofWallet index checkpoint) where
  chained := nofun
  replaced := .singleton _
  last := rfl
  base := rfl

variable {first : CheckPoint}

theorem Linked.sendClosing {c : Client σ} (h : Linked first c) {event : ScanEvent}
    (hevent : event.update? = none) (eventTx : Nat → EventSlot) :
    Linked first (c.sendEvent eventTx event).2 := by
  refine ⟨?_, ?_, ?_, ?_⟩
  · rw [sendEvent_passed, updates_closing hevent]
    exact h.chained
  · rw [sendEvent_passed, chains_closing hevent]
    exact h.replaced
  · rw [sendEvent_passed, sendEvent_checkpoint, chains_closing hevent]
    exact h.last
  · rw [sendEvent_checkpoint]
    exact h.base

variable [BdkChain σ]

theorem Linked.applyBlock {c : Client σ} (h : Linked first c) (block : Block) (height : Nat) :
    Linked first (c.applyBlock block height).2 :=
  ⟨h.chained, h.replaced, h.last, h.base⟩

variable [LawfulBdkChain σ]

theorem Linked.emitUpdate {c : Client σ} (h : Linked first c) {block : BlockId}
    (htakes : c.checkpoint.Takes block) (eventTx : Nat → EventSlot) :
    Linked first (c.emitUpdate eventTx block).2 := by
  have hchains : chains (c.emitUpdate eventTx block).2.passed =
      chains c.passed ++ [c.checkpoint.insertBlock block] := by
    rw [emitUpdate_passed htakes, chains_update rfl]
  refine ⟨?_, ?_, ?_, ?_⟩
  · rw [emitUpdate_passed htakes, updates_update]
    intro u hu
    rcases List.mem_append.mp hu with hu | hu
    · exact h.chained u hu
    · obtain rfl := List.mem_singleton.mp hu
      rfl
  · rw [hchains, ← List.cons_append]
    refine h.replaced.append (.singleton _) fun chain hchain chain' hchain' => ?_
    rw [List.getLast?_cons, ← List.getLastD_eq_getLast?, h.last] at hchain
    cases hchain
    cases hchain'
    exact CheckPoint.replaces_insertBlock htakes
  · rw [hchains, emitUpdate_checkpoint htakes, List.getLastD_concat]
  · rw [emitUpdate_checkpoint htakes, CheckPoint.base_insertBlock htakes, h.base]

theorem linked_kept (first : CheckPoint) (eventTx : Nat → EventSlot) :
    KeptBy (σ := σ) eventTx (Linked first) where
  scanBlock block height c h hexit := by
    have happlied := h.applyBlock block height
    rcases scanBlock_cases eventTx block height c with ⟨-, heq⟩ | ⟨-, heq⟩ <;>
      rw [heq] at hexit ⊢
    · exact happlied
    · exact happlied.emitUpdate (takes_of_emitUpdate hexit) eventTx
  receiveBlock block height c h := by
    simp only [receiveBlock]
    split
    · exact h
    next hlt =>
      exact (h.applyBlock block height).emitUpdate
        (CheckPoint.takes_above (Nat.not_le.mp hlt)) eventTx
  finishScan block c hlt h := h.emitUpdate (CheckPoint.takes_above hlt) eventTx
  sendClosing hevent h := h.sendClosing hevent eventTx

theorem runCalls_linked (index : σ) (checkpoint : CheckPoint) (calls : List Call) :
    Linked checkpoint (runCalls calls (ofWallet index checkpoint)) :=
  (leaves_makeCalls (fun call _ _ hc => leaves_run (linked_kept checkpoint call.env.eventTx) hc)
    (ofWallet_linked index checkpoint)).always fun block height h => h.applyBlock block height

/-- After any calls every emitted chain connects to the one before it, and a wallet that
merges the updates as they were emitted takes every one of them and ends at the client's
checkpoint. -/
theorem emitted_chains_connect (index : σ) (checkpoint : CheckPoint) (calls : List Call) :
    let client := runCalls calls (ofWallet index checkpoint)
    (∀ u ∈ updates client.passed, u.chain.isSome) ∧
    (∀ chain ∈ chains client.passed, chain.entries.Pairwise fun a b => b.1 < a.1) ∧
    (checkpoint :: chains client.passed).IsChain SparseChain.Connects ∧
    ∀ applyUpdate, SparseChain.Merges applyUpdate →
      (chains client.passed).foldlM applyUpdate checkpoint = some client.checkpoint := by
  intro client
  have hlinked : Linked checkpoint client := runCalls_linked index checkpoint calls
  refine ⟨hlinked.chained, fun chain _ => chain.descending,
    hlinked.replaced.imp fun _ _ hreplaces => hreplaces.connects, fun applyUpdate hmerges => ?_⟩
  rw [SparseChain.foldlM_of_replaces hmerges hlinked.replaced, hlinked.last]

section examples

def oldBest : BestChain := ⟨[⟨10, 0, []⟩, ⟨11, 1, [⟨1, [], [0]⟩]⟩], by decide⟩

def newBest : BestChain :=
  ⟨[⟨10, 0, []⟩, ⟨21, 1, [⟨1, [], [0]⟩]⟩, ⟨22, 2, []⟩], by decide⟩

/-- Two scans of a node that in between replaces its block at height one, which pays
the wallet on either branch. -/
def rescannedCalls : List Call :=
  [.scan (honestEnv oldBest oldBest.exactFilter 1) .sync,
    .scan (honestEnv newBest newBest.exactFilter 2) (.custom 0 5)]

example : (chains (runCalls rescannedCalls
    (ofWallet (WalletIndex.fresh 5) (.single 0 10))).passed).map SparseChain.entries =
      [[(1, 11), (0, 10)], [(1, 21), (0, 10)], [(2, 22), (1, 21), (0, 10)]] := by decide

theorem emitted_chains_connect_rescanned :
    let client := runCalls rescannedCalls (ofWallet (WalletIndex.fresh 5) (.single 0 10))
    (chains client.passed).foldlM SparseChain.merge (.single 0 10) =
      some client.checkpoint := by
  obtain ⟨-, -, -, hmerged⟩ :=
    emitted_chains_connect (WalletIndex.fresh 5) (.single 0 10) rescannedCalls
  exact hmerged SparseChain.merge SparseChain.merge_merges

end examples
end Client
end BdkFloresta
