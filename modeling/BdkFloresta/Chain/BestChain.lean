import BdkFloresta.Chain.Types
import Mathlib.Data.List.Nodup

/-!
A best chain: its blocks from height zero up, no two of one hash, so that a hash
stands for one height. Ranges of heights and the blocks of a range that a filter
selects come with their heights, in ascending order.
-/

namespace BdkFloresta

structure BestChain where
  blocks : List Block
  distinct : (blocks.map Block.blockHash).Nodup

/-- What a block's compact filter answers to a list of scripts. -/
abbrev BlockFilter := Block → List ScriptBuf → Bool

def BlockFilter.Monotone (filter : BlockFilter) : Prop :=
  ∀ block {spks spks'}, spks ⊆ spks' → filter block spks = true → filter block spks' = true

namespace BestChain

def blockAt (chain : BestChain) (height : Nat) : Option Block := chain.blocks[height]?

/-- The blocks from height `a` to height `b`. -/
def segment (chain : BestChain) (a b : Nat) : List (Block × Nat) :=
  chain.blocks.zipIdx.filter fun p => a ≤ p.2 ∧ p.2 ≤ b

/-- The blocks of a range whose filters match the scripts. -/
def matching (chain : BestChain) (filter : BlockFilter) (spks : List ScriptBuf)
    (a b : Nat) : List (Block × Nat) :=
  (chain.segment a b).filter fun p => filter p.1 spks

variable {chain : BestChain}

theorem mem_segment {a b : Nat} {p : Block × Nat} :
    p ∈ chain.segment a b ↔ chain.blockAt p.2 = some p.1 ∧ a ≤ p.2 ∧ p.2 ≤ b := by
  simp [segment, blockAt, List.mem_zipIdx_iff_getElem?]

theorem mem_matching {filter : BlockFilter} {spks : List ScriptBuf} {a b : Nat}
    {p : Block × Nat} : p ∈ chain.matching filter spks a b ↔
      (chain.blockAt p.2 = some p.1 ∧ a ≤ p.2 ∧ p.2 ≤ b) ∧ filter p.1 spks = true := by
  rw [matching, List.mem_filter, mem_segment]

theorem zipIdx_ascending (blocks : List Block) :
    blocks.zipIdx.Pairwise fun p q => p.2 < q.2 := by
  refine List.pairwise_iff_getElem.mpr fun i j hi hj hij => ?_
  simpa using hij

theorem segment_ascending (chain : BestChain) (a b : Nat) :
    (chain.segment a b).Pairwise fun p q => p.2 < q.2 :=
  (zipIdx_ascending chain.blocks).filter _

theorem matching_ascending (chain : BestChain) (filter : BlockFilter)
    (spks : List ScriptBuf) (a b : Nat) :
    (chain.matching filter spks a b).Pairwise fun p q => p.2 < q.2 :=
  (chain.segment_ascending a b).filter _

theorem matching_length_le (chain : BestChain) (filter : BlockFilter) (spks : List ScriptBuf)
    (a b : Nat) : (chain.matching filter spks a b).length ≤ chain.blocks.length := by
  refine (List.length_filter_le _ _).trans ((List.length_filter_le _ _).trans ?_)
  rw [List.length_zipIdx]

theorem matching_cons {filter : BlockFilter} {spks : List ScriptBuf} {a b : Nat}
    (hab : a ≤ b) {block : Block} (hblock : chain.blockAt a = some block)
    (hmatch : filter block spks = true) :
    ∃ rest, chain.matching filter spks a b = (block, a) :: rest := by
  have hmem : (block, a) ∈ chain.matching filter spks a b :=
    mem_matching.mpr ⟨⟨hblock, le_refl a, hab⟩, hmatch⟩
  have hascending := chain.matching_ascending filter spks a b
  cases hblocks : chain.matching filter spks a b with
  | nil => cases hblocks ▸ hmem
  | cons p rest =>
      rw [hblocks] at hmem hascending
      rcases List.mem_cons.mp hmem with rfl | hlater
      · exact ⟨rest, rfl⟩
      · have hlt := (List.pairwise_cons.mp hascending).1 _ hlater
        have hp : p ∈ chain.matching filter spks a b := hblocks ▸ List.mem_cons_self ..
        exact absurd hlt (Nat.not_lt.mpr (mem_matching.mp hp).1.2.1)

/-- A hash stands for one height. -/
theorem height_unique {i j : Nat} {x y : Block} (hx : chain.blockAt i = some x)
    (hy : chain.blockAt j = some y) (h : x.blockHash = y.blockHash) : i = j ∧ x = y := by
  obtain ⟨hi, rfl⟩ := List.getElem?_eq_some_iff.mp hx
  obtain ⟨hj, rfl⟩ := List.getElem?_eq_some_iff.mp hy
  have hij : i = j := by
    have hi' : i < (chain.blocks.map Block.blockHash).length := by simpa using hi
    have hj' : j < (chain.blocks.map Block.blockHash).length := by simpa using hj
    have hhashes : (chain.blocks.map Block.blockHash)[i] =
        (chain.blocks.map Block.blockHash)[j] := by simpa using h
    exact (List.getElem_inj chain.distinct).mp hhashes
  subst hij
  exact ⟨rfl, rfl⟩

def height (chain : BestChain) : Nat := chain.blocks.length - 1

/-- The blocks above a height, in ascending order. -/
def above (chain : BestChain) (height : Nat) : List (Block × Nat) :=
  chain.blocks.zipIdx.filter fun p => height < p.2

def push (chain : BestChain) (block : Block)
    (fresh : block.blockHash ∉ chain.blocks.map Block.blockHash) : BestChain where
  blocks := chain.blocks ++ [block]
  distinct := by
    rw [List.map_append]
    exact chain.distinct.append (List.nodup_singleton _)
      (List.disjoint_singleton.mpr fresh)

theorem mem_above {height : Nat} {p : Block × Nat} :
    p ∈ chain.above height ↔ chain.blockAt p.2 = some p.1 ∧ height < p.2 := by
  simp [above, blockAt, List.mem_zipIdx_iff_getElem?]

theorem above_ascending (chain : BestChain) (height : Nat) :
    (chain.above height).Pairwise fun p q => p.2 < q.2 :=
  (zipIdx_ascending chain.blocks).filter _

theorem blockAt_le {height : Nat} {block : Block} (h : chain.blockAt height = some block) :
    height ≤ chain.height :=
  Nat.le_sub_one_of_lt (List.getElem?_eq_some_iff.mp h).1

theorem above_height (chain : BestChain) : chain.above chain.height = [] := by
  refine List.eq_nil_iff_forall_not_mem.mpr fun p hp => ?_
  obtain ⟨hblock, hlt⟩ := mem_above.mp hp
  exact absurd (blockAt_le hblock) (Nat.not_le.mpr hlt)

theorem above_eq (chain : BestChain) (height : Nat) :
    chain.above height = (chain.blocks.drop (height + 1)).zipIdx (height + 1) := by
  rcases Nat.lt_or_ge height chain.blocks.length with hlt | hge
  · have hlength : (chain.blocks.take (height + 1)).length = height + 1 := by
      rw [List.length_take]
      omega
    have hbelow : (chain.blocks.take (height + 1)).zipIdx.filter
        (fun p => decide (height < p.2)) = [] := by
      refine List.filter_eq_nil_iff.mpr fun p hp => ?_
      have hp := List.snd_lt_of_mem_zipIdx hp
      simp only [decide_eq_true_eq]
      omega
    have habove : ((chain.blocks.drop (height + 1)).zipIdx (height + 1)).filter
        (fun p => decide (height < p.2)) =
          (chain.blocks.drop (height + 1)).zipIdx (height + 1) := by
      refine List.filter_eq_self.mpr fun p hp => ?_
      exact decide_eq_true (List.mem_zipIdx_iff_le_and_getElem?_sub.mp hp).1
    conv_lhs => rw [above, ← List.take_append_drop (height + 1) chain.blocks, List.zipIdx_append]
    rw [List.filter_append, hbelow, hlength, List.nil_append, Nat.zero_add, habove]
  · rw [List.drop_eq_nil_of_le (by omega)]
    refine List.eq_nil_iff_forall_not_mem.mpr fun p hp => ?_
    obtain ⟨hblock, hlt⟩ := mem_above.mp hp
    have := (List.getElem?_eq_some_iff.mp hblock).1
    omega

theorem above_cons {height : Nat} {p : Block × Nat} {rest : List (Block × Nat)}
    (h : chain.above height = p :: rest) :
    chain.blockAt p.2 = some p.1 ∧ p.2 = height + 1 ∧ rest = chain.above (height + 1) := by
  have hp : p ∈ chain.above height := h ▸ List.mem_cons_self ..
  refine ⟨(mem_above.mp hp).1, ?_⟩
  rw [above_eq] at h ⊢
  cases hdrop : chain.blocks.drop (height + 1) with
  | nil =>
      rw [hdrop] at h
      cases h
  | cons block later =>
      rw [hdrop, List.zipIdx_cons] at h
      obtain ⟨rfl, rfl⟩ := List.cons.inj h
      rw [← List.drop_drop, hdrop]
      exact ⟨rfl, rfl⟩

section later
variable {later : BestChain} (h : chain.blocks <+: later.blocks)
include h

theorem blockAt_of_prefix {height : Nat} (hlt : height < chain.blocks.length) :
    later.blockAt height = chain.blockAt height := by
  obtain ⟨rest, hrest⟩ := h
  simp only [blockAt]
  rw [← hrest, List.getElem?_append_left hlt]

theorem matching_of_prefix (filter : BlockFilter) (spks : List ScriptBuf) {a b : Nat}
    (hlt : b < chain.blocks.length) :
    later.matching filter spks a b = chain.matching filter spks a b := by
  obtain ⟨rest, hrest⟩ := h
  have hbeyond : (rest.zipIdx (0 + chain.blocks.length)).filter
      (fun p => decide (a ≤ p.2 ∧ p.2 ≤ b)) = [] := by
    refine List.filter_eq_nil_iff.mpr fun p hp => ?_
    have hle := (List.mem_zipIdx_iff_le_and_getElem?_sub.mp hp).1
    simp only [decide_eq_true_eq]
    omega
  simp only [matching, segment]
  rw [← hrest, List.zipIdx_append, List.filter_append, hbeyond, List.append_nil]

end later

section nonempty
variable (hne : chain.blocks ≠ [])
include hne

theorem blocks_length : chain.blocks.length = chain.height + 1 :=
  (Nat.succ_pred_eq_of_pos (List.length_pos_of_ne_nil hne)).symm

theorem exists_block {height : Nat} (h : height ≤ chain.height) :
    ∃ block, chain.blockAt height = some block := by
  have hlt : height < chain.blocks.length := by
    rw [blocks_length hne]
    omega
  exact ⟨_, List.getElem?_eq_getElem hlt⟩

theorem height_push {block : Block} (fresh : block.blockHash ∉ chain.blocks.map Block.blockHash) :
    (chain.push block fresh).height = chain.height + 1 := by
  rw [height, push, List.length_append, blocks_length hne]
  rfl

theorem blockAt_push {block : Block} (fresh : block.blockHash ∉ chain.blocks.map Block.blockHash)
    {height : Nat} {other : Block} (h : (chain.push block fresh).blockAt height = some other) :
    chain.blockAt height = some other ∨ (other, height) = (block, chain.height + 1) := by
  simp only [blockAt, push, List.getElem?_append, List.getElem?_singleton] at h
  split at h
  · exact .inl h
  · split at h
    · obtain rfl := Option.some.inj h
      rw [← blocks_length hne]
      exact .inr (Prod.ext rfl (by omega))
    · cases h

theorem above_push {block : Block} (fresh : block.blockHash ∉ chain.blocks.map Block.blockHash)
    {height : Nat} (h : height ≤ chain.height) :
    (chain.push block fresh).above height =
      chain.above height ++ [(block, chain.height + 1)] := by
  simp [above, push, List.zipIdx_append, Nat.lt_succ_of_le h, blocks_length hne]

end nonempty

/-- The script of the output that an input spends. -/
def spentScript (chain : BestChain) (op : OutPoint) : Option ScriptBuf := do
  let tx ← (chain.blocks.flatMap Block.txdata).find? fun tx => tx.txid = op.txid
  tx.output[op.vout]?

/-- The scripts a compact filter is built from: those of the block's outputs and
of the outputs it spends. -/
def filterScripts (chain : BestChain) (block : Block) : List ScriptBuf :=
  block.txdata.flatMap Transaction.output ++
    (block.txdata.flatMap Transaction.input).filterMap chain.spentScript

/-- The filter misses no output script and no spent script. -/
def NoFalseNegatives (chain : BestChain) (filter : BlockFilter) : Prop :=
  ∀ block ∈ chain.blocks, ∀ spks : List ScriptBuf,
    (∃ spk ∈ chain.filterScripts block, spk ∈ spks) → filter block spks = true

/-- The filter without false positives either. -/
def exactFilter (chain : BestChain) : BlockFilter := fun block spks =>
  (chain.filterScripts block).any fun spk => spk ∈ spks

theorem exactFilter_noFalseNegatives (chain : BestChain) :
    chain.NoFalseNegatives chain.exactFilter := by
  rintro block - spks ⟨spk, hspk, hmem⟩
  exact List.any_eq_true.mpr ⟨spk, hspk, decide_eq_true hmem⟩

theorem exactFilter_monotone (chain : BestChain) : chain.exactFilter.Monotone := by
  intro block spks spks' hsub h
  obtain ⟨spk, hspk, hmem⟩ := List.any_eq_true.mp h
  exact List.any_eq_true.mpr ⟨spk, hspk, decide_eq_true (hsub (of_decide_eq_true hmem))⟩

theorem exists_blockAt {block : Block} (h : block ∈ chain.blocks) :
    ∃ height, chain.blockAt height = some block :=
  List.mem_iff_getElem?.mp h

end BestChain
end BdkFloresta
