import BdkFloresta.Library.SparseChain
import Mathlib.Data.List.Chain
import Mathlib.Data.List.Sort

/-!
When one sparse chain can be merged into another. The two must join up: above
the highest entry they share, everything the old chain holds has to be in the
new one or be invalidated by an entry that disagrees with it. A chain made by an
insertion above the base always connects, and merging it gives just that chain.
-/

universe u v

namespace SparseChain
variable {κ : Type u} {β : Type v} [LinearOrder κ]

def base (c : SparseChain κ β) : κ × β := c.entries.getLast c.nonempty

theorem base_mem (c : SparseChain κ β) : c.base ∈ c.entries := List.getLast_mem _

theorem base_le (c : SparseChain κ β) {e : κ × β} (he : e ∈ c.entries) : c.base.1 ≤ e.1 := by
  have hsplit := List.dropLast_append_getLast c.nonempty
  have hdescending := c.descending
  rw [← hsplit] at he hdescending
  rcases List.mem_append.mp he with he | he
  · exact le_of_lt ((List.pairwise_append.mp hdescending).2.2 e he _ (List.mem_singleton_self _))
  · exact le_of_eq (congrArg Prod.fst (List.mem_singleton.mp he).symm)

theorem base_eq_of_forall_le (c : SparseChain κ β) {e : κ × β} (he : e ∈ c.entries)
    (h : ∀ f ∈ c.entries, e.1 ≤ f.1) : c.base = e :=
  c.entry_unique c.base_mem he (le_antisymm (c.base_le he) (h _ c.base_mem))

/-- A chain is determined by its entries, in whatever order they are listed. -/
theorem eq_of_mem_iff {c d : SparseChain κ β} (h : ∀ e, e ∈ c.entries ↔ e ∈ d.entries) :
    c = d := by
  have hirrefl : Std.Irrefl fun a b : κ × β => b.1 < a.1 := ⟨fun _ => lt_irrefl _⟩
  have hantisymm : Std.Antisymm fun a b : κ × β => b.1 < a.1 :=
    ⟨fun _ _ hab hba => absurd (lt_trans hab hba) (lt_irrefl _)⟩
  have hentries := c.descending.eq_of_mem_iff d.descending h
  cases c
  cases d
  cases hentries
  rfl

section insert
variable [DecidableEq β] {c : SparseChain κ β} {k : κ} {v : β}

/-- Above its base a chain can be extended or corrected without losing the base. -/
theorem base_insert (h : c.base.1 < k ∨ c.base = (k, v)) : (c.insert k v).base = c.base := by
  have hle : c.base.1 ≤ k := by
    rcases h with hlt | heq
    · exact le_of_lt hlt
    · exact le_of_eq (congrArg Prod.fst heq)
  refine (c.insert k v).base_eq_of_forall_le (mem_insert.mpr ?_) fun f hf => ?_
  · rcases h with hlt | heq
    · exact .inr ⟨c.base_mem, .inl hlt⟩
    · exact .inl heq
  · rcases mem_insert.mp hf with rfl | ⟨hf, -⟩
    · exact hle
    · exact c.base_le hf

theorem mem_insert_of_not_conflicts (h : ¬ c.Conflicts k v) {e : κ × β} :
    e ∈ (c.insert k v).entries ↔ e = (k, v) ∨ e ∈ c.entries := by
  rw [mem_insert]
  refine ⟨fun he => he.imp_right And.left, fun he => ?_⟩
  rcases he with rfl | he
  · exact .inl rfl
  · rcases lt_trichotomy e.1 k with hlt | heq | hgt
    · exact .inr ⟨he, .inl hlt⟩
    · by_cases hv : e.2 = v
      · exact .inl (Prod.ext heq hv)
      · exact absurd ⟨e, he, heq, hv⟩ h
    · exact .inr ⟨he, .inr ⟨hgt, h⟩⟩

end insert

section connects
variable [DecidableEq β]

/-- The entry is at or above a key where the chains hold different values. -/
def Invalidated (c d : SparseChain κ β) (e : κ × β) : Prop :=
  ∃ f ∈ c.entries, d.Conflicts f.1 f.2 ∧ f.1 ≤ e.1

instance (c d : SparseChain κ β) (e : κ × β) : Decidable (c.Invalidated d e) :=
  inferInstanceAs (Decidable (∃ f ∈ c.entries, d.Conflicts f.1 f.2 ∧ f.1 ≤ e.1))

/-- The key is above every entry the chains share. -/
def AboveShared (c d : SparseChain κ β) (k : κ) : Prop :=
  ∀ x ∈ c.entries, x ∈ d.entries → x.1 < k

instance (c d : SparseChain κ β) (k : κ) : Decidable (c.AboveShared d k) :=
  inferInstanceAs (Decidable (∀ x ∈ c.entries, x ∈ d.entries → x.1 < k))

/-- The old entry is at or above a key, above all that is shared, where the chains
hold different values. -/
def Contested (c d : SparseChain κ β) (e : κ × β) : Prop :=
  ∃ f ∈ c.entries, d.Conflicts f.1 f.2 ∧ f.1 ≤ e.1 ∧ c.AboveShared d f.1

instance (c d : SparseChain κ β) (e : κ × β) : Decidable (c.Contested d e) :=
  inferInstanceAs
    (Decidable (∃ f ∈ c.entries, d.Conflicts f.1 f.2 ∧ f.1 ≤ e.1 ∧ c.AboveShared d f.1))

/-- Each old entry above everything the chains share is in the new chain or contested
by it. -/
def JoinsUp (c d : SparseChain κ β) : Prop :=
  ∀ e ∈ c.entries, c.AboveShared d e.1 → e ∈ d.entries ∨ c.Contested d e

instance (c d : SparseChain κ β) : Decidable (c.JoinsUp d) :=
  inferInstanceAs
    (Decidable (∀ e ∈ c.entries, c.AboveShared d e.1 → e ∈ d.entries ∨ c.Contested d e))

/-- The new chain connects to the old one: they have one base and join up above it. -/
structure Connects (c d : SparseChain κ β) : Prop where
  base : d.base = c.base
  joins : c.JoinsUp d

instance (c d : SparseChain κ β) : Decidable (c.Connects d) :=
  decidable_of_iff (d.base = c.base ∧ c.JoinsUp d)
    ⟨fun h => ⟨h.1, h.2⟩, fun h => ⟨h.base, h.joins⟩⟩

/-- `merge` puts an update that connects over the chain: the result holds what the
update holds and what the update does not invalidate. -/
def Merges (merge : SparseChain κ β → SparseChain κ β → Option (SparseChain κ β)) : Prop :=
  ∀ c d, c.Connects d → ∃ m, merge c d = some m ∧
    ∀ e, e ∈ m.entries ↔ e ∈ d.entries ∨ e ∈ c.entries ∧ ¬ c.Invalidated d e

/-- The new chain replaces the old one: nothing of the old chain is missing in it
without being invalidated. -/
structure Replaces (c d : SparseChain κ β) : Prop where
  base : d.base = c.base
  lost : ∀ e ∈ c.entries, e ∉ d.entries → c.Contested d e

omit [DecidableEq β] in
theorem Replaces.refl (c : SparseChain κ β) : c.Replaces c :=
  ⟨rfl, fun _ he hlost => absurd he hlost⟩

omit [DecidableEq β] in
theorem Replaces.connects {c d : SparseChain κ β} (h : c.Replaces d) : c.Connects d :=
  ⟨h.base, fun e he _ => or_iff_not_imp_left.mpr (h.lost e he)⟩

/-- An insertion above the base, or of the base itself, replaces the chain. -/
theorem insert_replaces {c : SparseChain κ β} {k : κ} {v : β}
    (h : c.base.1 < k ∨ c.base = (k, v)) : c.Replaces (c.insert k v) := by
  refine ⟨base_insert h, fun e he hlost => ?_⟩
  have hconflicts : c.Conflicts k v := by
    by_contra hno
    exact hlost ((mem_insert_of_not_conflicts hno).mpr (.inr he))
  obtain ⟨f, hf, hfk, hfv⟩ := hconflicts
  refine ⟨f, hf, ⟨(k, v), c.mem_insert_self k v, hfk.symm, hfv.symm⟩, ?_, fun x hx hx' => ?_⟩
  · rw [hfk]
    by_contra hlt
    exact hlost (mem_insert.mpr (.inr ⟨he, .inl (not_le.mp hlt)⟩))
  · rw [hfk]
    rcases mem_insert.mp hx' with rfl | ⟨-, hlt | ⟨-, hno⟩⟩
    · exact absurd (congrArg Prod.snd (c.entry_unique hf hx hfk)) hfv
    · exact hlt
    · exact absurd ⟨f, hf, hfk, hfv⟩ hno

/-- What holds the new chain and what it does not invalidate of the old one is the new
chain, if that replaces the old one. -/
theorem Replaces.merged {c d m : SparseChain κ β} (h : c.Replaces d)
    (hm : ∀ e, e ∈ m.entries ↔ e ∈ d.entries ∨ e ∈ c.entries ∧ ¬ c.Invalidated d e) : m = d := by
  refine eq_of_mem_iff fun e => (hm e).trans (or_iff_left_of_imp ?_)
  rintro ⟨he, hvalid⟩
  by_contra hlost
  obtain ⟨f, hf, hconflicts, hle, -⟩ := h.lost e he hlost
  exact hvalid ⟨f, hf, hconflicts, hle⟩

theorem merge_of_replaces
    {merge : SparseChain κ β → SparseChain κ β → Option (SparseChain κ β)}
    (hmerge : Merges merge) {c d : SparseChain κ β} (h : c.Replaces d) : merge c d = some d := by
  obtain ⟨m, hm, hentries⟩ := hmerge c d h.connects
  rw [hm, h.merged hentries]

/-- Chains that replace one another merge one after another, up to the last. -/
theorem foldlM_of_replaces
    {merge : SparseChain κ β → SparseChain κ β → Option (SparseChain κ β)}
    (hmerge : Merges merge) {c : SparseChain κ β} {ds : List (SparseChain κ β)}
    (h : List.IsChain Replaces (c :: ds)) : ds.foldlM merge c = some (ds.getLastD c) := by
  induction ds generalizing c with
  | nil => rfl
  | cons d ds ih =>
      obtain ⟨hd, hrest⟩ := List.isChain_cons_cons.mp h
      rw [List.foldlM_cons, merge_of_replaces hmerge hd, List.getLastD_cons]
      exact ih hrest

omit [DecidableEq β] in
theorem base_getLastD {c : SparseChain κ β} {ds : List (SparseChain κ β)}
    (h : List.IsChain Replaces (c :: ds)) : (ds.getLastD c).base = c.base := by
  induction ds generalizing c with
  | nil => rfl
  | cons d ds ih =>
      obtain ⟨hd, hrest⟩ := List.isChain_cons_cons.mp h
      rw [List.getLastD_cons, ih hrest, hd.base]

/-- The merge of two chains that connect: what stays valid of the old chain is
inserted into the new one. -/
def merge (c d : SparseChain κ β) : Option (SparseChain κ β) :=
  if c.Connects d then
    some ((c.entries.filter fun e => ¬ c.Invalidated d e).foldl (fun m e => m.insert e.1 e.2) d)
  else none

/-- Entries that agree with the chain and with each other are all added to it. -/
theorem mem_foldl_insert {es : List (κ × β)} {d : SparseChain κ β}
    (hd : ∀ e ∈ es, ¬ d.Conflicts e.1 e.2)
    (hes : ∀ e ∈ es, ∀ f ∈ es, e.1 = f.1 → e = f) {e : κ × β} :
    e ∈ (es.foldl (fun m e => m.insert e.1 e.2) d).entries ↔ e ∈ d.entries ∨ e ∈ es := by
  induction es generalizing d with
  | nil => simp
  | cons f rest ih =>
      have hf := hd f (List.mem_cons_self ..)
      rw [List.foldl_cons, ih, mem_insert_of_not_conflicts hf, List.mem_cons, or_comm (a := e = f),
        or_assoc]
      · rintro g hg ⟨x, hx, hk, hv⟩
        rcases (mem_insert_of_not_conflicts hf).mp hx with rfl | hx
        · have heq := hes f (List.mem_cons_self ..) g (List.mem_cons_of_mem _ hg) hk
          exact hv (congrArg Prod.snd heq)
        · exact hd g (List.mem_cons_of_mem _ hg) ⟨x, hx, hk, hv⟩
      · intro g hg g' hg'
        exact hes g (List.mem_cons_of_mem _ hg) g' (List.mem_cons_of_mem _ hg')

theorem merge_merges : Merges (merge (κ := κ) (β := β)) := by
  intro c d h
  refine ⟨_, if_pos h, fun e => ?_⟩
  rw [mem_foldl_insert, List.mem_filter, decide_eq_true_iff]
  · intro f hf hconflicts
    obtain ⟨hf, hvalid⟩ := List.mem_filter.mp hf
    exact of_decide_eq_true hvalid ⟨f, hf, hconflicts, le_refl _⟩
  · intro f hf g hg hk
    exact c.entry_unique (List.mem_filter.mp hf).1 (List.mem_filter.mp hg).1 hk

end connects
end SparseChain
