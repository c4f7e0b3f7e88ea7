import BdkFloresta.Chain.BestChain

/-!
The heights the status poll reads: the header tip, the validated height and the
filter height. The chain does not reorganise, validation never passes the
headers and the filters never pass validation.
-/

namespace BdkFloresta

structure Tips where
  /-- The validated blocks, genesis first. -/
  chain : BestChain
  /-- The best known chain height. -/
  chainHeight : Nat
  filterHeight : Nat
  nonempty : chain.blocks ≠ []
  validated_le : chain.height ≤ chainHeight
  filter_le : filterHeight ≤ chain.height

namespace Tips

def header (tips : Tips) : Tips :=
  { tips with
    chainHeight := tips.chainHeight + 1
    validated_le := Nat.le_succ_of_le tips.validated_le }

/-- Validate the next block, one whose header is known. -/
def validate? (tips : Tips) (block : Block) : Option Tips :=
  if fresh : block.blockHash ∉ tips.chain.blocks.map Block.blockHash then
    if hlt : tips.chain.height < tips.chainHeight then
      some
        { tips with
          chain := tips.chain.push block fresh
          nonempty := List.append_ne_nil_of_right_ne_nil _ (List.cons_ne_nil _ _)
          validated_le := BestChain.height_push tips.nonempty fresh ▸ hlt
          filter_le := BestChain.height_push tips.nonempty fresh ▸
            Nat.le_succ_of_le tips.filter_le }
    else none
  else none

/-- Sync the filter of one more validated block. -/
def syncFilter? (tips : Tips) : Option Tips :=
  if hlt : tips.filterHeight < tips.chain.height then
    some { tips with filterHeight := tips.filterHeight + 1, filter_le := hlt }
  else none

theorem validate?_spec {tips tips' : Tips} {block : Block}
    (h : tips.validate? block = some tips') :
    tips'.chain.height = tips.chain.height + 1 ∧
      (∀ {height other}, tips'.chain.blockAt height = some other →
        tips.chain.blockAt height = some other ∨
          (other, height) = (block, tips'.chain.height)) ∧
      ∀ height ≤ tips.chain.height, tips'.chain.above height =
        tips.chain.above height ++ [(block, tips'.chain.height)] := by
  simp only [validate?] at h
  split at h
  next fresh =>
    split at h
    next hlt =>
      obtain rfl := Option.some.inj h
      have hheight := BestChain.height_push tips.nonempty fresh
      refine ⟨hheight, fun hblock => ?_, fun height hle => ?_⟩ <;> rw [hheight]
      · exact BestChain.blockAt_push tips.nonempty fresh hblock
      · exact BestChain.above_push tips.nonempty fresh hle
    · cases h
  · cases h

/-- The later tips: no validated block is gone, no filter either. -/
structure Grows (tips later : Tips) : Prop where
  chain : tips.chain.blocks <+: later.chain.blocks
  filterHeight : tips.filterHeight ≤ later.filterHeight

theorem Grows.refl (tips : Tips) : tips.Grows tips := ⟨List.prefix_rfl, Nat.le_refl _⟩

theorem filtered_lt (tips : Tips) {height : Nat}
    (hle : height ≤ tips.filterHeight) : height < tips.chain.blocks.length := by
  rw [BestChain.blocks_length tips.nonempty]
  exact Nat.lt_succ_of_le (hle.trans tips.filter_le)

theorem validate?_grows {tips tips' : Tips} {block : Block}
    (h : tips.validate? block = some tips') : tips.Grows tips' := by
  simp only [validate?] at h
  split at h
  · split at h
    · obtain rfl := Option.some.inj h
      exact ⟨List.prefix_append .., Nat.le_refl _⟩
    · cases h
  · cases h

theorem syncFilter?_grows {tips tips' : Tips} (h : tips.syncFilter? = some tips') :
    tips.Grows tips' := by
  simp only [syncFilter?] at h
  split at h
  · obtain rfl := Option.some.inj h
    exact ⟨List.prefix_rfl, Nat.le_succ _⟩
  · cases h

theorem syncFilter?_chain {tips tips' : Tips} (h : tips.syncFilter? = some tips') :
    tips'.chain = tips.chain := by
  simp only [syncFilter?] at h
  split at h
  · obtain rfl := Option.some.inj h
    rfl
  · cases h

end Tips
end BdkFloresta
