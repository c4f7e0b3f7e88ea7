import Mathlib.Order.Basic
import Mathlib.Order.MinMax
import Mathlib.Data.List.Pairwise

/-!
Sparse chains: a nonempty list of keyed entries in strictly descending order of
the keys, the tip first. Inserting an entry that disagrees with the chain at its
key drops the old entry and everything above it, since what stood above was
built on it; any other entry goes to its place.
-/

universe u v

/-- A sparse chain over a linear order of keys. -/
structure SparseChain (κ : Type u) (β : Type v) [LinearOrder κ] where
  entries : List (κ × β)
  nonempty : entries ≠ []
  descending : entries.Pairwise fun a b => b.1 < a.1

namespace SparseChain
variable {κ : Type u} {β : Type v} [LinearOrder κ] [DecidableEq β]

def single (k : κ) (v : β) : SparseChain κ β := ⟨[(k, v)], List.cons_ne_nil _ _, by simp⟩

def tip (c : SparseChain κ β) : κ × β := c.entries.head c.nonempty

/-- The chain holds another value at this key. -/
def Conflicts (c : SparseChain κ β) (k : κ) (v : β) : Prop :=
  ∃ e ∈ c.entries, e.1 = k ∧ e.2 ≠ v

instance (c : SparseChain κ β) (k : κ) (v : β) : Decidable (c.Conflicts k v) :=
  inferInstanceAs (Decidable (∃ e ∈ c.entries, e.1 = k ∧ e.2 ≠ v))

/-- The entries after an insertion that is not a no-op. -/
def spliced (c : SparseChain κ β) (k : κ) (v : β) : List (κ × β) :=
  (if c.Conflicts k v then [] else c.entries.filter fun e => k < e.1) ++
    (k, v) :: c.entries.filter fun e => e.1 < k

theorem spliced_descending (c : SparseChain κ β) (k : κ) (v : β) :
    (c.spliced k v).Pairwise fun a b => b.1 < a.1 := by
  have below : ((k, v) :: c.entries.filter fun e => e.1 < k).Pairwise
      fun a b => b.1 < a.1 := by
    refine List.pairwise_cons.mpr ⟨fun e he => ?_, c.descending.filter _⟩
    simpa using (List.mem_filter.mp he).2
  simp only [spliced]
  split
  · exact below
  · refine List.pairwise_append.mpr ⟨c.descending.filter _, below, fun e he f hf => ?_⟩
    have hke : k < e.1 := by simpa using (List.mem_filter.mp he).2
    rcases List.mem_cons.mp hf with rfl | hf
    · exact hke
    · exact lt_trans (by simpa using (List.mem_filter.mp hf).2) hke

/-- The same entry again is a no-op, a different value at the key replaces it
and drops everything above, and otherwise the entry goes to its place. -/
def insert (c : SparseChain κ β) (k : κ) (v : β) : SparseChain κ β :=
  if (k, v) ∈ c.entries then c
  else ⟨c.spliced k v, by simp [spliced], c.spliced_descending k v⟩

omit [DecidableEq β] in
theorem tip_mem (c : SparseChain κ β) : c.tip ∈ c.entries := List.head_mem _

omit [DecidableEq β] in
theorem key_le_tip (c : SparseChain κ β) {e : κ × β} (he : e ∈ c.entries) :
    e.1 ≤ c.tip.1 := by
  obtain ⟨entries, nonempty, descending⟩ := c
  cases entries with
  | nil => exact absurd rfl nonempty
  | cons a as =>
      rcases List.mem_cons.mp he with rfl | he
      · exact le_refl _
      · exact le_of_lt ((List.pairwise_cons.mp descending).1 e he)

omit [DecidableEq β] in
theorem entry_unique (c : SparseChain κ β) {e f : κ × β} (he : e ∈ c.entries)
    (hf : f ∈ c.entries) (h : e.1 = f.1) : e = f := by
  by_contra hne
  have hfe : e.1 < f.1 ∨ f.1 < e.1 := by
    obtain ⟨i, hi, rfl⟩ := List.getElem_of_mem he
    obtain ⟨j, hj, rfl⟩ := List.getElem_of_mem hf
    rcases lt_trichotomy i j with hij | rfl | hij
    · exact .inr (List.pairwise_iff_getElem.mp c.descending i j hi hj hij)
    · exact absurd rfl hne
    · exact .inl (List.pairwise_iff_getElem.mp c.descending j i hj hi hij)
  rcases hfe with hlt | hlt
  · exact absurd h (ne_of_lt hlt)
  · exact absurd h.symm (ne_of_lt hlt)

omit [DecidableEq β] in
theorem tip_eq_of_forall_le (c : SparseChain κ β) {e : κ × β} (he : e ∈ c.entries)
    (h : ∀ f ∈ c.entries, f.1 ≤ e.1) : c.tip = e :=
  c.entry_unique c.tip_mem he (le_antisymm (h _ c.tip_mem) (c.key_le_tip he))

omit [DecidableEq β] in
theorem not_conflicts_of_mem {c : SparseChain κ β} {k : κ} {v : β}
    (h : (k, v) ∈ c.entries) : ¬ c.Conflicts k v := by
  rintro ⟨e, he, hk, hv⟩
  exact hv (congrArg Prod.snd (c.entry_unique he h hk))

/-- What an insertion keeps: everything below the key, and above it everything
unless the chain disagreed there. -/
theorem mem_insert {c : SparseChain κ β} {k : κ} {v : β} {e : κ × β} :
    e ∈ (c.insert k v).entries ↔
      e = (k, v) ∨ e ∈ c.entries ∧ (e.1 < k ∨ k < e.1 ∧ ¬ c.Conflicts k v) := by
  simp only [insert]
  split
  next hmem =>
    constructor
    · intro he
      rcases lt_trichotomy e.1 k with hlt | heq | hgt
      · exact .inr ⟨he, .inl hlt⟩
      · exact .inl (c.entry_unique he hmem heq)
      · exact .inr ⟨he, .inr ⟨hgt, not_conflicts_of_mem hmem⟩⟩
    · rintro (rfl | ⟨he, -⟩)
      · exact hmem
      · exact he
  · by_cases hc : c.Conflicts k v
    · simp [spliced, hc]
    · simp only [spliced, hc, if_false, List.mem_append, List.mem_filter, List.mem_cons,
        decide_eq_true_eq, not_false_iff, and_true, and_or_left]
      rw [or_left_comm, or_comm (a := _ ∧ k < _)]

theorem mem_insert_self (c : SparseChain κ β) (k : κ) (v : β) :
    (k, v) ∈ (c.insert k v).entries := mem_insert.mpr (.inl rfl)

theorem tip_insert_of_le {c : SparseChain κ β} {k : κ} (v : β) (h : c.tip.1 ≤ k) :
    (c.insert k v).tip = (k, v) := by
  refine (c.insert k v).tip_eq_of_forall_le (c.mem_insert_self k v) fun f hf => ?_
  rcases mem_insert.mp hf with rfl | ⟨hf, hlt | ⟨hgt, -⟩⟩
  · exact le_refl _
  · exact le_of_lt hlt
  · exact absurd (lt_of_lt_of_le hgt (le_trans (c.key_le_tip hf) h)) (lt_irrefl _)

theorem mem_insert_above {c : SparseChain κ β} {k : κ} {v : β} (h : c.tip.1 < k) {e : κ × β} :
    e ∈ (c.insert k v).entries ↔ e = (k, v) ∨ e ∈ c.entries := by
  rw [mem_insert]
  refine or_congr_right ⟨fun he => he.1, fun he => ⟨he, .inl ?_⟩⟩
  exact lt_of_le_of_lt (c.key_le_tip he) h

theorem mem_insert_tip {c : SparseChain κ β} {v : β} {e : κ × β} :
    e ∈ (c.insert c.tip.1 v).entries ↔ e = (c.tip.1, v) ∨ e ∈ c.entries ∧ e.1 < c.tip.1 := by
  rw [mem_insert]
  refine or_congr_right (and_congr_right fun he => ⟨?_, .inl⟩)
  rintro (hlt | ⟨hgt, -⟩)
  · exact hlt
  · exact absurd (lt_of_lt_of_le hgt (c.key_le_tip he)) (lt_irrefl _)

theorem tip_insert_le (c : SparseChain κ β) (k : κ) (v : β) :
    (c.insert k v).tip.1 ≤ max c.tip.1 k := by
  rcases mem_insert.mp (c.insert k v).tip_mem with h | ⟨hmem, -⟩
  · rw [h]
    exact le_max_right _ _
  · exact le_trans (c.key_le_tip hmem) (le_max_left _ _)

end SparseChain
