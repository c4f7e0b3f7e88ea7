import BdkFloresta.Client.Answers
import BdkFloresta.Client.Calls

/-!
A node that answers everything, and answers it from the chain it has, which is right for
every chain that this one grows into. Undisturbed scans of a client of that chain succeed
against it, so results about successful scans say something about every chain, client and
kind of scan.
-/

namespace BdkFloresta

/-- A node that answers everything from the chain, its filters synced up to the
filter height. -/
def honestNode (chain : BestChain) (filter : BlockFilter) (filterHeight : Nat) : NodeView where
  state := .operational
  filterHeight := .ok filterHeight
  matchAny spks a b := .ok ((chain.matching filter spks a b).map fun p => p.1.blockHash)
  getBlock hash := .ok (chain.blocks.find? fun block => block.blockHash = hash)
  blockHeight hash := .ok (chain.blocks.findIdx? fun block => block.blockHash = hash)
  blockHash height :=
    match chain.blockAt height with
    | some block => .ok block.blockHash
    | none => .error "BlockNotPresent"

def honestEnv (chain : BestChain) (filter : BlockFilter) (filterHeight : Nat) : ScanEnv where
  ready := [(.operational, .changed)]
  node _ := honestNode chain filter filterHeight
  cancelled _ := false
  fetchParked := false
  eventTx _ := .sender
  sinkPoisoned := false

/-- The node answers rightly for its chain, and for every chain that this one grows into. -/
theorem honestNode_answers_later {chain later : BestChain} (hgrows : chain.blocks <+: later.blocks)
    {filter : BlockFilter} {filterHeight : Nat} (h : filterHeight < chain.blocks.length)
    {env : ScanEnv} (hnode : ∀ point, env.node point = honestNode chain filter filterHeight) :
    Answers later filter env := by
  have hsame {height : Nat} {block : Block} (hblock : chain.blockAt height = some block) :
      later.blockAt height = some block := by
    rwa [BestChain.blockAt_of_prefix hgrows (List.getElem?_eq_some_iff.mp hblock).1]
  constructor
  · intro point height heq
    rw [hnode] at heq
    obtain rfl := Except.ok.inj heq
    exact h.trans_le hgrows.length_le
  · intro point spks a b hashes filterTip htip hle heq
    rw [hnode] at htip heq
    obtain rfl := Except.ok.inj htip
    obtain rfl := Except.ok.inj heq
    rw [BestChain.matching_of_prefix hgrows filter spks (hle.trans_lt h)]
  · intro point hash block heq
    rw [hnode] at heq
    have hfind := Except.ok.inj heq
    exact ⟨hgrows.subset (List.mem_of_find?_eq_some hfind), by simpa using List.find?_some hfind⟩
  · intro point hash height heq
    rw [hnode] at heq
    obtain ⟨hlt, hhash, -⟩ := List.findIdx?_eq_some_iff_getElem.mp (Except.ok.inj heq)
    exact ⟨_, hsame (List.getElem?_eq_getElem hlt), by simpa using hhash⟩
  · intro point height hash heq
    rw [hnode] at heq
    simp only [honestNode] at heq
    split at heq
    next block hblock => exact ⟨block, hsame hblock, Except.ok.inj heq⟩
    · cases heq

theorem honestNode_answers {chain : BestChain} {filter : BlockFilter} {filterHeight : Nat}
    (h : filterHeight < chain.blocks.length) {env : ScanEnv}
    (hnode : ∀ point, env.node point = honestNode chain filter filterHeight) :
    Answers chain filter env :=
  honestNode_answers_later List.prefix_rfl h hnode

theorem honestEnv_unpoisoned (chain : BestChain) (filter : BlockFilter) (filterHeight : Nat) :
    Unpoisoned (honestEnv chain filter filterHeight).eventTx := nofun

namespace honestNode
variable {chain : BestChain} (filter : BlockFilter) (filterHeight : Nat)

theorem fetchBlock {p : Block × Nat} (hp : chain.blockAt p.2 = some p.1) :
    (honestNode chain filter filterHeight).fetchBlock p.1.blockHash = .ok p.1 := by
  have hmem : p.1 ∈ chain.blocks := List.mem_of_getElem? hp
  cases hfind : chain.blocks.find? fun block => block.blockHash = p.1.blockHash with
  | none => exact absurd (List.find?_eq_none.mp hfind p.1 hmem) (by simp)
  | some block =>
      obtain ⟨height, hheight⟩ := BestChain.exists_blockAt (List.mem_of_find?_eq_some hfind)
      have hhash : block.blockHash = p.1.blockHash := by simpa using List.find?_some hfind
      obtain ⟨-, rfl⟩ := BestChain.height_unique hheight hp hhash
      simp only [NodeView.fetchBlock, honestNode, hfind]

theorem fetchBlocks {located : List (Block × Nat)}
    (hlocated : ∀ p ∈ located, chain.blockAt p.2 = some p.1) :
    (honestNode chain filter filterHeight).fetchBlocks
      (located.map fun p => p.1.blockHash) = .ok (located.map Prod.fst) := by
  simp only [NodeView.fetchBlocks]
  induction located with
  | nil => rfl
  | cons p rest ih =>
      rw [List.map_cons, List.mapM_cons,
        fetchBlock filter filterHeight (hlocated p (List.mem_cons_self ..)),
        ih fun q hq => hlocated q (List.mem_cons_of_mem _ hq)]
      rfl

theorem getBlockHeight {block : Block} {height : Nat} (h : chain.blockAt height = some block) :
    (honestNode chain filter filterHeight).getBlockHeight block.blockHash = .ok height := by
  cases hfind : chain.blocks.findIdx? fun other => other.blockHash = block.blockHash with
  | none =>
      exact absurd (List.findIdx?_eq_none_iff.mp hfind block (List.mem_of_getElem? h)) (by simp)
  | some found =>
      obtain ⟨hlt, hhash, -⟩ := List.findIdx?_eq_some_iff_getElem.mp hfind
      obtain ⟨rfl, -⟩ := BestChain.height_unique (List.getElem?_eq_getElem hlt) h
        (by simpa using hhash)
      simp only [NodeView.getBlockHeight, honestNode, hfind]

theorem getBlockHash {height : Nat} (h : height < chain.blocks.length) :
    ∃ hash, (honestNode chain filter filterHeight).getBlockHash height = .ok hash :=
  ⟨chain.blocks[height].blockHash, by
    simp [NodeView.getBlockHash, honestNode, BestChain.blockAt, h, Except.mapError]⟩

end honestNode

namespace Client
open Fallible
variable {σ : Type} [BdkChain σ] {chain : BestChain} (filter : BlockFilter)
  (filterHeight : Nat)

theorem honest_fetchMatching {located : List (Block × Nat)}
    (hlocated : ∀ p ∈ located, chain.blockAt p.2 = some p.1) :
    fetchMatching (honestEnv chain filter filterHeight)
      (located.map fun p => p.1.blockHash) = .ok (located.map Prod.fst) := by
  simp only [fetchMatching]
  split
  next hnone =>
    obtain rfl := List.map_eq_nil_iff.mp hnone
    rfl
  · simp only [bind_eq_ok, endIf_eq_ok, mapError_eq_ok]
    exact ⟨(), Bool.false_ne_true, (), Bool.false_ne_true,
      honestNode.fetchBlocks filter filterHeight hlocated⟩

theorem honest_fetchRelevant {c : Client σ} {kind : ScanKind} {startHeight : Nat}
    {spks : List ScriptBuf} (hstart : c.scanStart kind = .ok (startHeight, spks))
    (hle : startHeight ≤ filterHeight) :
    c.fetchRelevant (honestEnv chain filter filterHeight) kind =
      .ok (filterHeight,
        (chain.matching filter spks startHeight filterHeight).map Prod.fst) := by
  have hmatch : (honestNode chain filter filterHeight).matchFilters spks startHeight
      filterHeight = .ok ((chain.matching filter spks startHeight filterHeight).map
        fun p => p.1.blockHash) := by
    simp [NodeView.matchFilters, honestNode, Except.mapError]
  have hlocated : ∀ p ∈ chain.matching filter spks startHeight filterHeight,
      chain.blockAt p.2 = some p.1 := fun p hp => (BestChain.mem_matching.mp hp).1.1
  have hblocks := honest_fetchMatching filter filterHeight hlocated
  simp only [fetchRelevant, bind_eq_ok, mapError_eq_ok, endIf_eq_ok, Nat.not_lt]
  exact ⟨_, hstart, filterHeight, rfl, (), hle, (), Bool.false_ne_true, _, hmatch, (),
    Bool.false_ne_true, _, hblocks, rfl⟩

/-- An honest node locates each block of its chain at its own height. -/
theorem honest_located {env : ScanEnv}
    (hnode : ∀ point, env.node point = honestNode chain filter filterHeight)
    {blocks : List (Block × Nat)} (h : ∀ p ∈ blocks, chain.blockAt p.2 = some p.1) (i : Nat) :
    Located env i blocks := by
  induction blocks generalizing i with
  | nil => trivial
  | cons p rest ih =>
      refine ⟨?_, ih (fun q hq => h q (List.mem_cons_of_mem _ hq)) (i + 1)⟩
      rw [hnode]
      exact honestNode.getBlockHeight filter filterHeight (h p (List.mem_cons_self ..))

variable [LawfulBdkChain σ]

theorem honest_finishScan {env : ScanEnv}
    (hnode : ∀ point, env.node point = honestNode chain filter filterHeight)
    (hunpoisoned : Unpoisoned env.eventTx) {stopHeight : Nat}
    (h : stopHeight < chain.blocks.length) (c : Client σ) :
    (c.finishScan env stopHeight).1 = .ok := by
  obtain ⟨hash, hhash⟩ := honestNode.getBlockHash filter filterHeight h
  simp only [finishScan, hnode, hhash]
  split
  next hlt => exact emitUpdate_exit (CheckPoint.takes_above hlt) hunpoisoned
  · rfl

theorem honest_scan_ok {filterHeight : Nat} {c : Client σ} {kind : ScanKind} {startHeight : Nat}
    {spks : List ScriptBuf} (hstart : c.scanStart kind = .ok (startHeight, spks))
    (hle : startHeight ≤ filterHeight) (hlt : filterHeight < chain.blocks.length)
    (hunbroken : Unbroken (honestEnv chain filter filterHeight).eventTx
      (chain.matching filter spks startHeight filterHeight) c) :
    ∃ c', c.scan (honestEnv chain filter filterHeight) kind = (.ok, c') := by
  have hevent := honestEnv_unpoisoned chain filter filterHeight
  have hinner : (c.scanInner (honestEnv chain filter filterHeight) kind).1 = .ok := by
    have hlocated : Located (honestEnv chain filter filterHeight) 0
        (chain.matching filter spks startHeight filterHeight) :=
      honest_located filter filterHeight (fun _ => rfl)
        (fun p hp => (BestChain.mem_matching.mp hp).1.1) 0
    simp only [scanInner, honest_fetchRelevant filter filterHeight hstart hle]
    rw [scanBlocks_located (fun _ => rfl) hevent hlocated hunbroken, andThen_ok]
    exact honest_finishScan filter filterHeight (fun _ => rfl) hevent hlt _
  refine ⟨(c.scan (honestEnv chain filter filterHeight) kind).2, Prod.ext ?_ rfl⟩
  change (c.notifiedScan (honestEnv chain filter filterHeight) false kind).1 = .ok
  rcases notifiedScan_cases hevent false kind c with heq | ⟨event, -, heq⟩ <;> rw [heq]
  · exact hinner
  · exact hinner

end Client
end BdkFloresta
