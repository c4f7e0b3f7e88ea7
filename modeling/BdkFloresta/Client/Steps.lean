import BdkFloresta.Library.Fallible
import BdkFloresta.Client.Scan

/-!
What each operation of a scan does to the client, field by field, and what a
whole filter scan can do: end before its block loop with the client untouched,
stop at a block boundary of the loop, panic at a block's insertion, or finish with or
without a final checkpoint. Later results are about these cases and never unfold the scan.
-/

namespace BdkFloresta

def Unpoisoned (eventTx : Nat → EventSlot) : Prop := ∀ i, eventTx i ≠ .poisoned

theorem waitUntilReady_ne_panicked (turns : List (State × Wake)) :
    waitUntilReady turns ≠ .panicked := by
  induction turns with
  | nil => nofun
  | cons turn rest ih =>
      obtain ⟨state, wake⟩ := turn
      cases state <;> cases wake <;> first | exact ih | nofun

section spks
variable {σ : Type} [KeychainTxOutIndex σ]

/-- The script of `keychain` at `n` is among those derived with this lookahead. -/
def DerivedAt (index : σ) (customLookahead : Nat) (keychain : KeychainKind) (n : Nat)
    (spk : ScriptBuf) : Prop :=
  ∃ it, unboundedSpkIter index keychain = some it ∧
    n < saturatingAdd ((lastRevealedIndices index keychain).getD 0) customLookahead ∧
    n < it.range ∧ it.spk n = spk

theorem mem_keychainSpks {index : σ} {keychain : KeychainKind} {it : SpkIter}
    (hit : unboundedSpkIter index keychain = some it) {customLookahead : Nat}
    {spk : ScriptBuf} : spk ∈ keychainSpks index keychain it customLookahead ↔
      ∃ n, DerivedAt index customLookahead keychain n spk := by
  rw [keychainSpks, SpkIter.mem_take]
  constructor
  · rintro ⟨n, hn⟩
    exact ⟨n, it, hit, hn⟩
  · rintro ⟨n, jt, hjt, hn⟩
    obtain rfl : it = jt := Option.some.inj (hit.symm.trans hjt)
    exact ⟨n, hn⟩

theorem mem_deriveSpks {index : σ} {customLookahead : Nat} {spks : List ScriptBuf}
    (h : deriveSpksWithCustomLookahead index customLookahead = .ok spks) {spk : ScriptBuf} :
    spk ∈ spks ↔ ∃ keychain n, DerivedAt index customLookahead keychain n spk := by
  have either : (∃ keychain n, DerivedAt index customLookahead keychain n spk) ↔
      (∃ n, DerivedAt index customLookahead .external n spk) ∨
        ∃ n, DerivedAt index customLookahead .internal n spk := by
    constructor
    · rintro ⟨keychain, hn⟩
      cases keychain with
      | external => exact .inl hn
      | internal => exact .inr hn
    · rintro (hn | hn)
      · exact ⟨_, hn⟩
      · exact ⟨_, hn⟩
  simp only [deriveSpksWithCustomLookahead] at h
  split at h
  · cases h
  next ext hext =>
    split at h
    next hint =>
      obtain rfl := Except.ok.inj h
      have hnone : ¬ ∃ n, DerivedAt index customLookahead .internal n spk := by
        rintro ⟨n, it, hit, -⟩
        cases hint.symm.trans hit
      rw [either, mem_keychainSpks hext, or_iff_left hnone]
    next int hint =>
      obtain rfl := Except.ok.inj h
      rw [either, List.mem_append, mem_keychainSpks hext, mem_keychainSpks hint]

theorem saturatingAdd_mono {a b : Nat} (h : a ≤ b) (lookahead : Nat) :
    saturatingAdd a lookahead ≤ saturatingAdd b lookahead := by
  simp only [saturatingAdd]
  omega

theorem getD_mono {a b : Option Nat} (h : IndexLe a b) : a.getD 0 ≤ b.getD 0 := by
  cases a with
  | none => exact Nat.zero_le _
  | some n =>
      obtain ⟨m, rfl, hnm⟩ := h n rfl
      exact hnm

/-- A later index derives no less. -/
theorem deriveSpks_subset {a b : σ} (hab : Later a b) {spks spks' : List ScriptBuf}
    (h : deriveSpks a = .ok spks) (h' : deriveSpks b = .ok spks') : spks ⊆ spks' := by
  intro spk hspk
  obtain ⟨keychain, n, it, hit, hn, hrest⟩ := (mem_deriveSpks h).mp hspk
  refine (mem_deriveSpks h').mpr
    ⟨keychain, n, it, (hab.unboundedSpkIter keychain).trans hit, ?_, hrest⟩
  rw [hab.lookahead]
  exact Nat.lt_of_lt_of_le hn (saturatingAdd_mono (getD_mono (hab.lastRevealed keychain)) _)

end spks

namespace Client
open Fallible
variable {σ : Type}

theorem sendEvent_checkpoint (eventTx : Nat → EventSlot) (event : ScanEvent) (c : Client σ) :
    (c.sendEvent eventTx event).2.checkpoint = c.checkpoint := by
  simp only [sendEvent]
  split <;> rfl

theorem sendEvent_txGraph (eventTx : Nat → EventSlot) (event : ScanEvent) (c : Client σ) :
    (c.sendEvent eventTx event).2.txGraph = c.txGraph := by
  simp only [sendEvent]
  split <;> rfl

theorem sendEvent_passed (eventTx : Nat → EventSlot) (event : ScanEvent) (c : Client σ) :
    (c.sendEvent eventTx event).2.passed = c.passed ++ [event] := by
  simp only [sendEvent]
  split <;> rfl

theorem sendEvent_applied (eventTx : Nat → EventSlot) (event : ScanEvent) (c : Client σ) :
    (c.sendEvent eventTx event).2.applied = c.applied := by
  simp only [sendEvent]
  split <;> rfl

theorem unpoisoned_of_open {eventTx : Nat → EventSlot} (hopen : ∀ i, eventTx i = .sender) :
    Unpoisoned eventTx := fun i h => nomatch (hopen i).symm.trans h

theorem sendEvent_exit {eventTx : Nat → EventSlot} (h : Unpoisoned eventTx)
    (event : ScanEvent) (c : Client σ) : (c.sendEvent eventTx event).1 = .ok := by
  simp only [sendEvent]
  split
  next hslot => exact absurd hslot (h _)
  all_goals rfl

theorem sendEvent_ne_panicked (eventTx : Nat → EventSlot) (event : ScanEvent) (c : Client σ) :
    (c.sendEvent eventTx event).1 ≠ .panicked := by
  simp only [sendEvent]
  split <;> nofun

theorem sendEvent_channel {eventTx : Nat → EventSlot} (h : ∀ i, eventTx i = .sender)
    (event : ScanEvent) (c : Client σ) :
    (c.sendEvent eventTx event).2.channel = c.channel ++ [event] := by
  simp [sendEvent, h]

theorem andThen_of_ok {r : Exit × Client σ} (h : r.1 = .ok)
    (next : Client σ → Exit × Client σ) : andThen r next = next r.2 := by
  obtain ⟨exit, c⟩ := r
  obtain rfl : exit = .ok := h
  rfl

theorem andThen_of_err {r : Exit × Client σ} {e : ClientError} (h : r.1 = .err e)
    (next : Client σ → Exit × Client σ) : andThen r next = (.err e, r.2) := by
  obtain ⟨exit, c⟩ := r
  obtain rfl : exit = .err e := h
  rfl

theorem andThen_of_parked {r : Exit × Client σ} (h : r.1 = .parked)
    (next : Client σ → Exit × Client σ) : andThen r next = (.parked, r.2) := by
  obtain ⟨exit, c⟩ := r
  obtain rfl : exit = .parked := h
  rfl

theorem andThen_of_panicked {r : Exit × Client σ} (h : r.1 = .panicked)
    (next : Client σ → Exit × Client σ) : andThen r next = (.panicked, r.2) := by
  obtain ⟨exit, c⟩ := r
  obtain rfl : exit = .panicked := h
  rfl

variable [BdkChain σ]

/-- The update `emitUpdate` sends. -/
def cutUpdate (c : Client σ) (block : BlockId) : Update :=
  ⟨c.txGraph.graph, lastUsedIndices c.txGraph.index, some (c.checkpoint.insertBlock block)⟩

/-- The client that has cut it. -/
def cut (c : Client σ) (block : BlockId) : Client σ :=
  { c with checkpoint := c.checkpoint.insertBlock block, txGraph := .new c.txGraph.index }

/-- The insertion succeeds and the update is sent, or it panics. -/
theorem emitUpdate_cases (eventTx : Nat → EventSlot) (block : BlockId) (c : Client σ) :
    (∃ checkpoint, BdkChain.insert (σ := σ) c.checkpoint block = some checkpoint ∧
      c.emitUpdate eventTx block =
        { c with checkpoint, txGraph := .new c.txGraph.index }.sendEvent eventTx
          (.walletUpdate
            ⟨c.txGraph.graph, lastUsedIndices c.txGraph.index, some checkpoint⟩)) ∨
    (BdkChain.insert (σ := σ) c.checkpoint block = none ∧
      c.emitUpdate eventTx block = (.panicked, c)) := by
  simp only [emitUpdate, insertCheckpoint]
  cases hinsert : BdkChain.insert (σ := σ) c.checkpoint block with
  | some checkpoint => exact .inl ⟨checkpoint, rfl, rfl⟩
  | none => exact .inr ⟨rfl, rfl⟩

theorem emitUpdate_applied (eventTx : Nat → EventSlot) (block : BlockId) (c : Client σ) :
    (c.emitUpdate eventTx block).2.applied = c.applied := by
  rcases emitUpdate_cases eventTx block c with ⟨checkpoint, -, heq⟩ | ⟨-, heq⟩ <;> rw [heq]
  exact sendEvent_applied ..

section emit
variable [LawfulBdkChain σ] {eventTx : Nat → EventSlot} {block : BlockId} {c : Client σ}

theorem emitUpdate_of_takes (h : c.checkpoint.Takes block) : c.emitUpdate eventTx block =
    (c.cut block).sendEvent eventTx (.walletUpdate (c.cutUpdate block)) := by
  simp only [emitUpdate, insertCheckpoint, insert_of_takes h]
  rfl

theorem emitUpdate_of_not_takes (h : ¬ c.checkpoint.Takes block) :
    c.emitUpdate eventTx block = (.panicked, c) := by
  simp only [emitUpdate, insertCheckpoint, LawfulBdkChain.insert_panics h]
  rfl

theorem takes_of_emitUpdate (h : (c.emitUpdate eventTx block).1 ≠ .panicked) :
    c.checkpoint.Takes block := by
  by_contra hrefused
  exact h (congrArg Prod.fst (emitUpdate_of_not_takes hrefused))

section takes
variable (h : c.checkpoint.Takes block)
include h

theorem emitUpdate_checkpoint :
    (c.emitUpdate eventTx block).2.checkpoint = c.checkpoint.insertBlock block := by
  rw [emitUpdate_of_takes h, sendEvent_checkpoint, cut]

theorem emitUpdate_txGraph :
    (c.emitUpdate eventTx block).2.txGraph = .new c.txGraph.index := by
  rw [emitUpdate_of_takes h, sendEvent_txGraph, cut]

theorem emitUpdate_passed : (c.emitUpdate eventTx block).2.passed =
    c.passed ++ [.walletUpdate (c.cutUpdate block)] := by
  rw [emitUpdate_of_takes h, sendEvent_passed, cut]

theorem emitUpdate_exit (hunpoisoned : Unpoisoned eventTx) :
    (c.emitUpdate eventTx block).1 = .ok := by
  rw [emitUpdate_of_takes h, sendEvent_exit hunpoisoned]

theorem emitUpdate_channel (hopen : ∀ i, eventTx i = .sender) :
    (c.emitUpdate eventTx block).2.channel =
      c.channel ++ [.walletUpdate (c.cutUpdate block)] := by
  rw [emitUpdate_of_takes h, sendEvent_channel hopen, cut]

end takes
end emit

section apply
variable (c : Client σ) (block : Block) (height : Nat)

theorem applyBlock_checkpoint :
    (c.applyBlock block height).2.checkpoint = c.checkpoint := rfl

theorem applyBlock_passed : (c.applyBlock block height).2.passed = c.passed := rfl

theorem applyBlock_applied : (c.applyBlock block height).2.applied =
    c.applied ++ [⟨block, height, (c.applyBlock block height).1⟩] := rfl

omit [BdkChain σ] in
theorem txGraph_of_empty {c : Client σ} (h : c.txGraph.graph = .empty) :
    c.txGraph = .new c.txGraph.index :=
  congrArg (IndexedTxGraph.mk · _) h

variable [LawfulBdkChain σ]

theorem applyBlock_index : (c.applyBlock block height).2.txGraph.index =
    block.indexed c.txGraph.index :=
  applyBlockRelevant_index ..

variable {c}

theorem applyBlock_txGraph (h : c.txGraph.graph = .empty) :
    (c.applyBlock block height).2.txGraph =
      ⟨block.delta height c.txGraph.index, block.indexed c.txGraph.index⟩ := by
  have hnew := applyBlockRelevant_new c.txGraph.index block height
  rwa [← txGraph_of_empty h] at hnew

/-- On an empty graph a change set is empty exactly when no transaction of the
block is relevant. -/
theorem applyBlock_isEmpty_iff (h : c.txGraph.graph = .empty) :
    (c.applyBlock block height).1.isEmpty = true ↔ block.relevant c.txGraph.index = [] := by
  have hiff := changeset_isEmpty_iff c.txGraph.index block height
  rwa [← txGraph_of_empty h] at hiff

/-- From an empty graph, the graph holds what the change set reports. -/
theorem applyBlock_graph (h : c.txGraph.graph = .empty) :
    (c.applyBlock block height).2.txGraph.graph =
      ⟨(c.applyBlock block height).1.txs, (c.applyBlock block height).1.anchors⟩ := by
  have hcontent := LawfulBdkChain.changeset_content c.txGraph.index block height
  rwa [← txGraph_of_empty h] at hcontent

theorem applyBlock_of_irrelevant {block : Block} (hgraph : c.txGraph.graph = .empty)
    (h : block.relevant c.txGraph.index = []) :
    (c.applyBlock block height).2.txGraph = c.txGraph := by
  rw [applyBlock_txGraph _ _ hgraph, Block.delta_of_irrelevant h, Block.indexed_of_irrelevant h]
  exact (txGraph_of_empty hgraph).symm

end apply

/-- A scanned block is skipped as a false positive, or its update is emitted. -/
theorem scanBlock_cases (eventTx : Nat → EventSlot) (block : Block) (height : Nat)
    (c : Client σ) :
    ((c.applyBlock block height).1.isEmpty = true ∧
      c.scanBlock eventTx block height = (.ok, (c.applyBlock block height).2)) ∨
    ((c.applyBlock block height).1.isEmpty = false ∧
      c.scanBlock eventTx block height =
        (c.applyBlock block height).2.emitUpdate eventTx ⟨height, block.blockHash⟩) := by
  simp only [scanBlock]
  split
  next h => exact .inl ⟨h, rfl⟩
  next h => exact .inr ⟨Bool.eq_false_iff.mpr h, rfl⟩

theorem scanBlock_applied (eventTx : Nat → EventSlot) (block : Block) (height : Nat)
    (c : Client σ) : (c.scanBlock eventTx block height).2.applied =
      c.applied ++ [⟨block, height, (c.applyBlock block height).1⟩] := by
  rcases scanBlock_cases eventTx block height c with ⟨-, heq⟩ | ⟨-, heq⟩
  · rw [heq, applyBlock_applied]
  · rw [heq, emitUpdate_applied, applyBlock_applied]

/-- Scanning the block panics: it changes something, and the checkpoint does not take it. -/
def PanicsOn (c : Client σ) (block : Block) (height : Nat) : Prop :=
  (c.applyBlock block height).1.isEmpty = false ∧
    ¬ c.checkpoint.Takes ⟨height, block.blockHash⟩

section laws
variable [LawfulBdkChain σ] {c : Client σ} {block : Block} {eventTx : Nat → EventSlot}
  {height : Nat}

theorem scanBlock_of_panicsOn (h : c.PanicsOn block height) :
    c.scanBlock eventTx block height = (.panicked, (c.applyBlock block height).2) := by
  rcases scanBlock_cases eventTx block height c with ⟨hempty, -⟩ | ⟨-, heq⟩
  · exact absurd (hempty.symm.trans h.1) (by decide)
  · rw [heq, emitUpdate_of_not_takes (c := (c.applyBlock block height).2) h.2]

theorem scanBlock_panicked_iff :
    (c.scanBlock eventTx block height).1 = .panicked ↔ c.PanicsOn block height := by
  constructor
  · intro h
    rcases scanBlock_cases eventTx block height c with ⟨-, heq⟩ | ⟨hnonempty, heq⟩
    · rw [heq] at h
      cases h
    · refine ⟨hnonempty, fun htakes => ?_⟩
      rw [heq, emitUpdate_of_takes (c := (c.applyBlock block height).2) htakes] at h
      exact sendEvent_ne_panicked _ _ _ h
  · intro h
    rw [scanBlock_of_panicsOn h]

theorem scanBlock_of_irrelevant (hgraph : c.txGraph.graph = .empty)
    (h : block.relevant c.txGraph.index = []) (eventTx : Nat → EventSlot) (height : Nat) :
    c.scanBlock eventTx block height = (.ok,
      { c with applied := c.applied ++ [⟨block, height, (c.applyBlock block height).1⟩] }) := by
  have hempty := (applyBlock_isEmpty_iff block height hgraph).mpr h
  have hsame := applyBlock_of_irrelevant height hgraph h
  rcases scanBlock_cases eventTx block height c with ⟨-, heq⟩ | ⟨hnonempty, -⟩
  · rw [heq]
    exact congrArg (Prod.mk Exit.ok) (Client.ext rfl hsame rfl rfl rfl)
  · exact absurd (hempty.symm.trans hnonempty) (by decide)

theorem scanBlock_of_relevant (hgraph : c.txGraph.graph = .empty)
    (h : block.relevant c.txGraph.index ≠ []) (eventTx : Nat → EventSlot) (height : Nat) :
    c.scanBlock eventTx block height =
      (c.applyBlock block height).2.emitUpdate eventTx ⟨height, block.blockHash⟩ := by
  rcases scanBlock_cases eventTx block height c with ⟨hempty, -⟩ | ⟨-, heq⟩
  · exact absurd ((applyBlock_isEmpty_iff block height hgraph).mp hempty) h
  · exact heq

theorem scanBlock_ok (hunpoisoned : Unpoisoned eventTx)
    (hexit : (c.scanBlock eventTx block height).1 ≠ .panicked) :
    (c.scanBlock eventTx block height).1 = .ok := by
  rcases scanBlock_cases eventTx block height c with ⟨-, heq⟩ | ⟨-, heq⟩ <;> rw [heq] at hexit ⊢
  exact emitUpdate_exit (takes_of_emitUpdate hexit) hunpoisoned

/-- A block that the checkpoint takes does not panic. -/
theorem scanBlock_exit (hunpoisoned : Unpoisoned eventTx)
    (h : c.checkpoint.Takes ⟨height, block.blockHash⟩) :
    (c.scanBlock eventTx block height).1 = .ok := by
  rcases scanBlock_cases eventTx block height c with ⟨-, heq⟩ | ⟨-, heq⟩ <;> rw [heq]
  exact emitUpdate_exit (c := (c.applyBlock block height).2) h hunpoisoned

theorem receiveBlock_exit (hunpoisoned : Unpoisoned eventTx) (block : Block) (height : Nat)
    (c : Client σ) : (c.receiveBlock eventTx block height).1 = .ok := by
  simp only [receiveBlock]
  split
  · rfl
  next h =>
    exact emitUpdate_exit (c := (c.applyBlock block height).2)
      (CheckPoint.takes_above (Nat.not_le.mp h)) hunpoisoned

theorem receiveBlock_ne_panicked (eventTx : Nat → EventSlot) (block : Block) (height : Nat)
    (c : Client σ) : (c.receiveBlock eventTx block height).1 ≠ .panicked := by
  simp only [receiveBlock]
  split
  · nofun
  next h =>
    rw [emitUpdate_of_takes (c := (c.applyBlock block height).2)
      (CheckPoint.takes_above (Nat.not_le.mp h))]
    exact sendEvent_ne_panicked _ _ _

section scanned
variable (hgraph : c.txGraph.graph = .empty)
  (hexit : (c.scanBlock eventTx block height).1 ≠ .panicked)
include hgraph hexit

theorem takes_of_scanBlock (h : block.relevant c.txGraph.index ≠ []) :
    (c.applyBlock block height).2.checkpoint.Takes ⟨height, block.blockHash⟩ := by
  rw [scanBlock_of_relevant hgraph h] at hexit
  exact takes_of_emitUpdate hexit

/-- Either way the graph is empty again and the index has seen the block. -/
theorem scanBlock_txGraph :
    (c.scanBlock eventTx block height).2.txGraph = .new (block.indexed c.txGraph.index) := by
  by_cases h : block.relevant c.txGraph.index = []
  · rw [scanBlock_of_irrelevant hgraph h, Block.indexed_of_irrelevant h]
    exact txGraph_of_empty hgraph
  · rw [scanBlock_of_relevant hgraph h,
      emitUpdate_txGraph (takes_of_scanBlock hgraph hexit h), applyBlock_index]

theorem scanBlock_checkpoint : (c.scanBlock eventTx block height).2.checkpoint =
    if block.relevant c.txGraph.index = [] then c.checkpoint
    else c.checkpoint.insertBlock ⟨height, block.blockHash⟩ := by
  split
  next h => rw [scanBlock_of_irrelevant hgraph h]
  next h =>
    rw [scanBlock_of_relevant hgraph h,
      emitUpdate_checkpoint (takes_of_scanBlock hgraph hexit h), applyBlock_checkpoint]

end scanned

/-- A block that does not panic leaves the first block of the checkpoint in place. -/
theorem scanBlock_base (hexit : (c.scanBlock eventTx block height).1 ≠ .panicked) :
    (c.scanBlock eventTx block height).2.checkpoint.base = c.checkpoint.base := by
  rcases scanBlock_cases eventTx block height c with ⟨-, heq⟩ | ⟨-, heq⟩ <;> rw [heq] at hexit ⊢
  · rfl
  · have htakes := takes_of_emitUpdate hexit
    rw [emitUpdate_checkpoint htakes]
    exact CheckPoint.base_insertBlock htakes

end laws

/-- The client after scanning the located blocks in order. -/
def scanned (eventTx : Nat → EventSlot) (blocks : List (Block × Nat)) (c : Client σ) :
    Client σ :=
  blocks.foldl (fun c p => (c.scanBlock eventTx p.1 p.2).2) c

@[simp] theorem scanned_cons (eventTx : Nat → EventSlot) (p : Block × Nat)
    (blocks : List (Block × Nat)) (c : Client σ) :
    scanned eventTx (p :: blocks) c =
      scanned eventTx blocks (c.scanBlock eventTx p.1 p.2).2 := rfl

theorem scanned_append (eventTx : Nat → EventSlot) (blocks : List (Block × Nat))
    (p : Block × Nat) (c : Client σ) :
    scanned eventTx (blocks ++ [p]) c =
      ((scanned eventTx blocks c).scanBlock eventTx p.1 p.2).2 := by
  rw [scanned, List.foldl_append]
  rfl

/-- The block is above the first block of the wallet's chain, or that block itself. -/
def FromGenesis (genesis : Nat × BlockHash) (block : Block) (height : Nat) : Prop :=
  genesis.1 < height ∨ genesis = (height, block.blockHash)

/-- Whatever blocks the node locates, it locates there. -/
def LocatesOnly (allowed : Block → Nat → Prop) (env : ScanEnv) : Prop :=
  ∀ i block height, (env.node (.blockHeight i)).getBlockHeight block.blockHash = .ok height →
    allowed block height

/-- None of the blocks panics at its turn. -/
def Unbroken (eventTx : Nat → EventSlot) : List (Block × Nat) → Client σ → Prop
  | [], _ => True
  | p :: rest, c =>
      (c.scanBlock eventTx p.1 p.2).1 ≠ .panicked ∧
        Unbroken eventTx rest (c.scanBlock eventTx p.1 p.2).2

theorem unbroken_append {eventTx : Nat → EventSlot} {done : List (Block × Nat)}
    {p : Block × Nat} {c : Client σ} :
    Unbroken eventTx (done ++ [p]) c ↔ Unbroken eventTx done c ∧
      ((scanned eventTx done c).scanBlock eventTx p.1 p.2).1 ≠ .panicked := by
  induction done generalizing c with
  | nil => exact and_comm
  | cons q done ih => exact (and_congr_right fun _ => ih).trans and_assoc.symm

omit [BdkChain σ] in
theorem FromGenesis.takes {checkpoint : CheckPoint} {block : Block} {height : Nat}
    (h : FromGenesis checkpoint.base block height) :
    checkpoint.Takes ⟨height, block.blockHash⟩ := by
  rcases h with hlt | heq
  · exact .inl hlt
  · exact .inr (heq ▸ checkpoint.base_mem)

theorem scanned_base [LawfulBdkChain σ] {eventTx : Nat → EventSlot}
    {blocks : List (Block × Nat)} {c : Client σ} (h : Unbroken eventTx blocks c) :
    (scanned eventTx blocks c).checkpoint.base = c.checkpoint.base := by
  induction blocks generalizing c with
  | nil => rfl
  | cons p rest ih =>
      obtain ⟨hexit, hrest⟩ := h
      exact (ih hrest).trans (scanBlock_base hexit)

/-- Blocks that change nothing do not panic. -/
theorem unbroken_of_irrelevant [LawfulBdkChain σ] {eventTx : Nat → EventSlot}
    {blocks : List (Block × Nat)} {c : Client σ} (hgraph : c.txGraph.graph = .empty)
    (h : ∀ p ∈ blocks, p.1.relevant c.txGraph.index = []) : Unbroken eventTx blocks c := by
  induction blocks generalizing c with
  | nil => trivial
  | cons p rest ih =>
      obtain ⟨hp, hrest⟩ := List.forall_mem_cons.mp h
      have hscan := scanBlock_of_irrelevant hgraph hp eventTx p.2
      refine ⟨by rw [hscan]; nofun, ?_⟩
      rw [hscan]
      exact ih hgraph hrest

/-- The node located each block at its turn of the loop, from the `i`-th on. -/
def Located (env : ScanEnv) : Nat → List (Block × Nat) → Prop
  | _, [] => True
  | i, p :: rest =>
      (env.node (.blockHeight i)).getBlockHeight p.1.blockHash = .ok p.2 ∧
        Located env (i + 1) rest

section loop
variable [LawfulBdkChain σ]

/-- The block loop stops at a block boundary: it has scanned a prefix of the
blocks, all of them when it returns `Ok`, unless it panics on the next one. -/
theorem scanBlocks_spec {env : ScanEnv} (h : Unpoisoned env.eventTx) (i : Nat)
    (blocks : List Block) (c : Client σ) :
    ∃ done rest, blocks = done.map Prod.fst ++ rest ∧ Located env i done ∧
      Unbroken env.eventTx done c ∧
      (c.scanBlocks env i blocks = (.ok, scanned env.eventTx done c) ∧ rest = [] ∨
        (∃ e, c.scanBlocks env i blocks = (.err e, scanned env.eventTx done c)) ∨
        ∃ block height later, rest = block :: later ∧
          (env.node (.blockHeight (i + done.length))).getBlockHeight block.blockHash =
            .ok height ∧
          (scanned env.eventTx done c).PanicsOn block height ∧
          c.scanBlocks env i blocks =
            (.panicked, ((scanned env.eventTx done c).applyBlock block height).2)) := by
  induction blocks generalizing i c with
  | nil => exact ⟨[], [], rfl, trivial, trivial, .inl ⟨rfl, rfl⟩⟩
  | cons block rest ih =>
      simp only [scanBlocks]
      split
      · exact ⟨[], block :: rest, rfl, trivial, trivial, .inr (.inl ⟨_, rfl⟩)⟩
      · split
        next e _ => exact ⟨[], block :: rest, rfl, trivial, trivial, .inr (.inl ⟨_, rfl⟩)⟩
        next height hheight =>
          by_cases hpanics : c.PanicsOn block height
          · rw [scanBlock_of_panicsOn hpanics]
            exact ⟨[], block :: rest, rfl, trivial, trivial,
              .inr (.inr ⟨block, height, rest, rfl, hheight, hpanics, rfl⟩)⟩
          · have hexit : (c.scanBlock env.eventTx block height).1 ≠ .panicked :=
              fun hexit => hpanics (scanBlock_panicked_iff.mp hexit)
            have hok : (c.scanBlock env.eventTx block height).1 = .ok :=
              scanBlock_ok h hexit
            rw [andThen_of_ok hok]
            obtain ⟨done, left, hsplit, hlocated, hunbroken, hcases⟩ :=
              ih (i + 1) (c.scanBlock env.eventTx block height).2
            refine ⟨(block, height) :: done, left, by simp [hsplit], ⟨hheight, hlocated⟩,
              ⟨hexit, hunbroken⟩, ?_⟩
            have hturn : i + 1 + done.length = i + ((block, height) :: done).length := by
              simp only [List.length_cons]
              omega
            rw [← hturn]
            exact hcases

/-- A block loop that nothing disturbs so far has scanned the blocks where the node located
them, and goes on with the rest. -/
theorem scanBlocks_append {env : ScanEnv} (h : Unpoisoned env.eventTx) {i : Nat}
    {done : List (Block × Nat)} (rest : List Block) {c : Client σ}
    (hcancelled : ∀ j, i ≤ j → j < i + done.length → env.cancelled (.block j) = false)
    (hlocated : Located env i done) (hunbroken : Unbroken env.eventTx done c) :
    c.scanBlocks env i (done.map Prod.fst ++ rest) =
      (scanned env.eventTx done c).scanBlocks env (i + done.length) rest := by
  induction done generalizing i c with
  | nil => rfl
  | cons p done ih =>
      obtain ⟨hp, hlater⟩ := hlocated
      obtain ⟨hexit, hunbroken⟩ := hunbroken
      have hi : env.cancelled (.block i) = false := hcancelled i (Nat.le_refl i) (by simp)
      simp only [List.map_cons, List.cons_append, scanBlocks, hi, hp, Bool.false_eq_true, if_false]
      rw [andThen_of_ok (scanBlock_ok h hexit), ih ?_ hlater hunbroken, List.length_cons,
        Nat.add_right_comm, scanned_cons, Nat.add_assoc]
      intro j hij hj
      refine hcancelled j (Nat.le_of_succ_le hij) ?_
      rw [List.length_cons]
      omega

theorem scanBlocks_located {env : ScanEnv} (hcancelled : ∀ i, env.cancelled (.block i) = false)
    (h : Unpoisoned env.eventTx) {i : Nat} {blocks : List (Block × Nat)} {c : Client σ}
    (hlocated : Located env i blocks) (hunbroken : Unbroken env.eventTx blocks c) :
    c.scanBlocks env i (blocks.map Prod.fst) = (.ok, scanned env.eventTx blocks c) := by
  have hall := scanBlocks_append h [] (fun j _ _ => hcancelled j) hlocated hunbroken
  rwa [List.append_nil] at hall

end loop

theorem endIf_eq_ok {p : Prop} [Decidable p] {exit : Exit} {u : Unit} :
    endIf p exit = .ok u ↔ ¬ p := by
  simp [endIf]

theorem endIf_ne_error {p : Prop} [Decidable p] {exit e : Exit} (h : exit ≠ e) :
    endIf p exit ≠ .error e := by
  simp only [endIf]
  split
  · exact fun heq => h (Except.error.inj heq)
  · nofun

theorem fetchMatching_ok {env : ScanEnv} {hashes : List BlockHash} {blocks : List Block}
    (h : fetchMatching env hashes = .ok blocks) :
    (env.node .fetchBlocks).fetchBlocks hashes = .ok blocks := by
  simp only [fetchMatching] at h
  split at h
  next hnone =>
    subst hnone
    cases h
    rfl
  · simp only [bind_eq_ok, endIf_eq_ok, mapError_eq_ok] at h
    obtain ⟨_, -, _, -, hfetch⟩ := h
    exact hfetch

/-- What the scan asked for before its block loop. -/
theorem fetchRelevant_ok {env : ScanEnv} {kind : ScanKind} {c : Client σ}
    {stopHeight : Nat} {blocks : List Block}
    (h : c.fetchRelevant env kind = .ok (stopHeight, blocks)) :
    ∃ startHeight spks hashes, c.scanStart kind = .ok (startHeight, spks) ∧
      (env.node .filterHeight).getFilterHeight = .ok stopHeight ∧
      startHeight ≤ stopHeight ∧
      (env.node .matchFilters).matchFilters spks startHeight stopHeight = .ok hashes ∧
      (env.node .fetchBlocks).fetchBlocks hashes = .ok blocks := by
  simp only [fetchRelevant, bind_eq_ok, mapError_eq_ok, endIf_eq_ok, Nat.not_lt] at h
  obtain ⟨⟨startHeight, spks⟩, hstart, stop, hstop, _, hrange, _, -, hashes, hmatch, _, -,
    fetched, hfetch, heq⟩ := h
  cases heq
  exact ⟨startHeight, spks, hashes, hstart, hstop, hrange, hmatch, fetchMatching_ok hfetch⟩

/-- Before the block loop a scan fails or is left at its fetch. -/
theorem fetchRelevant_exit {env : ScanEnv} {kind : ScanKind} {c : Client σ} {exit : Exit}
    (h : c.fetchRelevant env kind = .error exit) : exit ≠ .ok ∧ exit ≠ .panicked := by
  suffices hne : ∀ e, (∀ err, Exit.err err ≠ e) → Exit.parked ≠ e →
      c.fetchRelevant env kind ≠ .error e by
    exact ⟨fun hok => hne .ok nofun nofun (hok ▸ h),
      fun hpanicked => hne .panicked nofun nofun (hpanicked ▸ h)⟩
  intro e herr hparked
  refine bind_ne_error (mapError_ne_error herr _) fun _ => ?_
  refine bind_ne_error (mapError_ne_error (fun _ => herr _) _) fun _ => ?_
  refine bind_ne_error (endIf_ne_error (herr _)) fun _ => ?_
  refine bind_ne_error (endIf_ne_error (herr _)) fun _ => ?_
  refine bind_ne_error (mapError_ne_error (fun _ => herr _) _) fun _ => ?_
  refine bind_ne_error (endIf_ne_error (herr _)) fun _ => ?_
  refine bind_ne_error ?_ nofun
  simp only [fetchMatching]
  split
  · nofun
  · refine bind_ne_error (endIf_ne_error (herr _)) fun _ => ?_
    exact bind_ne_error (endIf_ne_error hparked) fun _ =>
      mapError_ne_error (fun _ => herr _) _

theorem finishScan_cases (env : ScanEnv) (stopHeight : Nat) (c : Client σ) :
    (stopHeight ≤ c.checkpoint.height ∧ c.finishScan env stopHeight = (.ok, c)) ∨
    (c.checkpoint.height < stopHeight ∧
      ((∃ e, c.finishScan env stopHeight = (.err e, c)) ∨
        ∃ stopHash, (env.node .stopHash).getBlockHash stopHeight = .ok stopHash ∧
          c.finishScan env stopHeight =
            c.emitUpdate env.eventTx ⟨stopHeight, stopHash⟩)) := by
  simp only [finishScan]
  split
  next h =>
    refine .inr ⟨h, ?_⟩
    split
    next e _ => exact .inl ⟨_, rfl⟩
    next stopHash hstop => exact .inr ⟨stopHash, hstop, rfl⟩
  next h => exact .inl ⟨Nat.not_lt.mp h, rfl⟩

/-- Everything a filter scan can do. -/
theorem scanInner_cases [LawfulBdkChain σ] {env : ScanEnv} (h : Unpoisoned env.eventTx)
    (kind : ScanKind) (c : Client σ) :
    (∃ exit, c.fetchRelevant env kind = .error exit ∧ c.scanInner env kind = (exit, c)) ∨
    ∃ stopHeight blocks done rest, c.fetchRelevant env kind = .ok (stopHeight, blocks) ∧
      blocks = done.map Prod.fst ++ rest ∧ Located env 0 done ∧
      Unbroken env.eventTx done c ∧
      ((∃ e, c.scanInner env kind = (.err e, scanned env.eventTx done c)) ∨
        (∃ block height later, rest = block :: later ∧
          (env.node (.blockHeight done.length)).getBlockHeight block.blockHash = .ok height ∧
          (scanned env.eventTx done c).PanicsOn block height ∧
          c.scanInner env kind =
            (.panicked, ((scanned env.eventTx done c).applyBlock block height).2)) ∨
        rest = [] ∧ stopHeight ≤ (scanned env.eventTx done c).checkpoint.height ∧
          c.scanInner env kind = (.ok, scanned env.eventTx done c) ∨
        rest = [] ∧ (scanned env.eventTx done c).checkpoint.height < stopHeight ∧
          ∃ stopHash, (env.node .stopHash).getBlockHash stopHeight = .ok stopHash ∧
            c.scanInner env kind =
              (scanned env.eventTx done c).emitUpdate env.eventTx ⟨stopHeight, stopHash⟩) := by
  simp only [scanInner]
  split
  next exit hfetch => exact .inl ⟨exit, hfetch, rfl⟩
  next stopHeight blocks hfetch =>
    obtain ⟨done, rest, hsplit, hlocated, hunbroken, hcases⟩ := scanBlocks_spec h 0 blocks c
    refine .inr ⟨stopHeight, blocks, done, rest, hfetch, hsplit, hlocated, hunbroken, ?_⟩
    rcases hcases with ⟨heq, hrest⟩ | ⟨e, heq⟩ |
      ⟨block, height, later, hrest, hheight, hpanics, heq⟩
    · rw [heq, andThen_ok]
      rcases finishScan_cases env stopHeight (scanned env.eventTx done c) with
        ⟨hle, heq⟩ | ⟨hlt, ⟨e, heq⟩ | ⟨stopHash, hstop, heq⟩⟩
      · exact .inr (.inr (.inl ⟨hrest, hle, heq⟩))
      · exact .inl ⟨e, heq⟩
      · exact .inr (.inr (.inr ⟨hrest, hlt, stopHash, hstop, heq⟩))
    · rw [heq]
      exact .inl ⟨e, rfl⟩
    · rw [heq]
      rw [Nat.zero_add] at hheight
      exact .inr (.inl ⟨block, height, later, hrest, hheight, hpanics, rfl⟩)

/-- A filter scan panics only where the node locates a block below the wallet's first one,
or another one at its height. -/
theorem scanInner_panicked [LawfulBdkChain σ] {env : ScanEnv} (h : Unpoisoned env.eventTx)
    {kind : ScanKind} {c : Client σ} (hexit : (c.scanInner env kind).1 = .panicked) :
    ¬ LocatesOnly (FromGenesis c.checkpoint.base) env := by
  intro hlocates
  rcases scanInner_cases h kind c with
    ⟨exit, hfetch, heq⟩ | ⟨stopHeight, blocks, done, rest, -, -, -, hunbroken, hcases⟩
  · rw [heq] at hexit
    exact (fetchRelevant_exit hfetch).2 hexit
  rcases hcases with ⟨e, heq⟩ | ⟨block, height, later, -, hheight, hpanics, -⟩ |
    ⟨-, -, heq⟩ | ⟨-, hlt, stopHash, -, heq⟩
  · rw [heq] at hexit
    cases hexit
  · have hallowed := hlocates _ block height hheight
    rw [← scanned_base hunbroken] at hallowed
    exact hpanics.2 hallowed.takes
  · rw [heq] at hexit
    cases hexit
  · rw [heq, emitUpdate_exit (CheckPoint.takes_above hlt) h] at hexit
    cases hexit

end Client
end BdkFloresta
