import BdkFloresta.Chain.Types

/-!
The keychain index. It is code of another crate, so it enters as a class of the
operations the client uses, with the documented behaviour that results rely on
as a second class of laws.
-/

namespace BdkFloresta

inductive KeychainKind where
  | external
  | internal
  deriving DecidableEq, Repr

/-- `unbounded_spk_iter`: the scripts of indices `0, 1, ..`, as far as the
descriptor derives them. -/
structure SpkIter where
  range : Nat
  spk : Nat → ScriptBuf

/-- The first `bound` scripts, without their indices. -/
def SpkIter.take (it : SpkIter) (bound : Nat) : List ScriptBuf :=
  (List.range (min bound it.range)).map it.spk

theorem SpkIter.mem_take {it : SpkIter} {bound : Nat} {spk : ScriptBuf} :
    spk ∈ it.take bound ↔ ∃ n, n < bound ∧ n < it.range ∧ it.spk n = spk := by
  simp [SpkIter.take, and_assoc]

/-- The part of an index change set the client can observe: whether it is empty. -/
abbrev IndexChangeSet := List (KeychainKind × Nat)

/-- The operations of `KeychainTxOutIndex<KeychainKind>` the client uses. -/
class KeychainTxOutIndex (σ : Type) where
  indexTx : σ → Transaction → σ × IndexChangeSet
  isTxRelevant : σ → Transaction → Bool
  lookahead : σ → Nat
  lastRevealedIndices : σ → KeychainKind → Option Nat
  lastUsedIndices : σ → KeychainKind → Option Nat
  unboundedSpkIter : σ → KeychainKind → Option SpkIter
  /-- The outpoints of indexed transaction outputs. -/
  outpoints : σ → OutPoint → Bool

export KeychainTxOutIndex (indexTx isTxRelevant lookahead lastRevealedIndices
  lastUsedIndices unboundedSpkIter outpoints)

/-- The count of revealed scripts, the index of the next one to reveal. -/
def nextIndex (lastRevealed : Option Nat) : Nat :=
  match lastRevealed with
  | none => 0
  | some n => n + 1

variable {σ : Type} [KeychainTxOutIndex σ]

/-- The script of `keychain` at `n` is stored: below the next index plus the
index's own lookahead, and derivable. -/
def StoredAt (index : σ) (keychain : KeychainKind) (n : Nat) (spk : ScriptBuf) : Prop :=
  ∃ it, unboundedSpkIter index keychain = some it ∧
    n < nextIndex (lastRevealedIndices index keychain) + lookahead index ∧
    n < it.range ∧ it.spk n = spk

def Stored (index : σ) (spk : ScriptBuf) : Prop :=
  ∃ keychain n, StoredAt index keychain n spk

/-- The order on `Option Nat` with nothing below every index. -/
def IndexLe (a b : Option Nat) : Prop :=
  ∀ n, a = some n → ∃ m, b = some m ∧ n ≤ m

theorem IndexLe.refl (a : Option Nat) : IndexLe a a := fun n h => ⟨n, h, le_refl n⟩

theorem IndexLe.trans {a b c : Option Nat} (hab : IndexLe a b) (hbc : IndexLe b c) :
    IndexLe a c := by
  intro n hn
  obtain ⟨m, hm, hnm⟩ := hab n hn
  obtain ⟨k, hk, hmk⟩ := hbc m hm
  exact ⟨k, hk, hnm.trans hmk⟩

/-- The documented behaviour of the index. -/
class LawfulKeychainTxOutIndex (σ : Type) [KeychainTxOutIndex σ] : Prop where
  /-- Relevant means paying a stored script or spending an indexed output. -/
  isTxRelevant_iff : ∀ (index : σ) (tx : Transaction),
    isTxRelevant index tx = true ↔
      (∃ spk ∈ tx.output, Stored index spk) ∨ ∃ op ∈ tx.input, outpoints index op = true
  /-- Only outputs are scanned, and only stored scripts are indexed. -/
  indexTx_of_unpaid : ∀ (index : σ) (tx : Transaction),
    (∀ spk ∈ tx.output, ¬ Stored index spk) → indexTx index tx = (index, [])
  lookahead_indexTx : ∀ (index : σ) (tx : Transaction),
    lookahead (indexTx index tx).1 = lookahead index
  unboundedSpkIter_indexTx : ∀ (index : σ) (tx : Transaction) (keychain : KeychainKind),
    unboundedSpkIter (indexTx index tx).1 keychain = unboundedSpkIter index keychain
  lastRevealed_indexTx : ∀ (index : σ) (tx : Transaction) (keychain : KeychainKind),
    IndexLe (lastRevealedIndices index keychain)
      (lastRevealedIndices (indexTx index tx).1 keychain)
  lastUsed_indexTx : ∀ (index : σ) (tx : Transaction) (keychain : KeychainKind),
    IndexLe (lastUsedIndices index keychain)
      (lastUsedIndices (indexTx index tx).1 keychain)
  /-- A script belongs to one index of one keychain. -/
  spk_injective : ∀ (index : σ) {k l : KeychainKind} {it jt : SpkIter} {n m : Nat},
    unboundedSpkIter index k = some it → unboundedSpkIter index l = some jt →
    n < it.range → m < jt.range → it.spk n = jt.spk m → k = l ∧ n = m

export LawfulKeychainTxOutIndex (isTxRelevant_iff indexTx_of_unpaid lookahead_indexTx
  unboundedSpkIter_indexTx lastRevealed_indexTx lastUsed_indexTx spk_injective)

theorem nextIndex_mono {a b : Option Nat} (h : IndexLe a b) : nextIndex a ≤ nextIndex b := by
  cases a with
  | none => exact Nat.zero_le _
  | some n =>
      obtain ⟨m, rfl, hnm⟩ := h n rfl
      exact Nat.succ_le_succ hnm

def indexTxs : List Transaction → σ → σ
  | [], index => index
  | tx :: rest, index => indexTxs rest (indexTx index tx).1

/-- The transactions the index finds relevant, each at its turn. -/
def relevantTxs : List Transaction → σ → List Transaction
  | [], _ => []
  | tx :: rest, index =>
      let next := (indexTx index tx).1
      if isTxRelevant next tx then tx :: relevantTxs rest next else relevantTxs rest next

/-- `b` is `a` after more transactions: the same descriptors and lookahead, and
no index moved back. -/
structure Later (a b : σ) : Prop where
  lookahead : lookahead b = lookahead a
  unboundedSpkIter : ∀ keychain, unboundedSpkIter b keychain = unboundedSpkIter a keychain
  lastRevealed : ∀ keychain,
    IndexLe (lastRevealedIndices a keychain) (lastRevealedIndices b keychain)
  lastUsed : ∀ keychain, IndexLe (lastUsedIndices a keychain) (lastUsedIndices b keychain)

theorem Later.refl (a : σ) : Later a a :=
  ⟨rfl, fun _ => rfl, fun _ => .refl _, fun _ => .refl _⟩

theorem Later.trans {a b c : σ} (hab : Later a b) (hbc : Later b c) : Later a c :=
  ⟨hbc.lookahead.trans hab.lookahead,
    fun k => (hbc.unboundedSpkIter k).trans (hab.unboundedSpkIter k),
    fun k => (hab.lastRevealed k).trans (hbc.lastRevealed k),
    fun k => (hab.lastUsed k).trans (hbc.lastUsed k)⟩

theorem Later.stored {a b : σ} (h : Later a b) {spk : ScriptBuf} (hspk : Stored a spk) :
    Stored b spk := by
  obtain ⟨keychain, n, it, hit, hn, hrange, heq⟩ := hspk
  refine ⟨keychain, n, it, (h.unboundedSpkIter keychain).trans hit, ?_, hrange, heq⟩
  have := nextIndex_mono (h.lastRevealed keychain)
  rw [h.lookahead]
  omega

section laws
variable [LawfulKeychainTxOutIndex σ]

theorem later_indexTx (index : σ) (tx : Transaction) : Later index (indexTx index tx).1 :=
  ⟨lookahead_indexTx index tx, unboundedSpkIter_indexTx index tx,
    lastRevealed_indexTx index tx, lastUsed_indexTx index tx⟩

theorem later_indexTxs (txs : List Transaction) (index : σ) :
    Later index (indexTxs txs index) := by
  induction txs generalizing index with
  | nil => exact .refl index
  | cons tx rest ih => exact (later_indexTx index tx).trans (ih _)

theorem indexTx_of_irrelevant {index : σ} {tx : Transaction}
    (h : isTxRelevant (indexTx index tx).1 tx = false) : indexTx index tx = (index, []) := by
  refine indexTx_of_unpaid index tx fun spk hspk hstored => ?_
  have hrelevant := (isTxRelevant_iff (indexTx index tx).1 tx).mpr
    (.inl ⟨spk, hspk, (later_indexTx index tx).stored hstored⟩)
  exact Bool.false_ne_true (h.symm.trans hrelevant)

theorem indexTxs_of_irrelevant {txs : List Transaction} {index : σ}
    (h : relevantTxs txs index = []) : indexTxs txs index = index := by
  induction txs generalizing index with
  | nil => rfl
  | cons tx rest ih =>
      simp only [relevantTxs] at h
      split at h
      · cases h
      next hirrelevant =>
        have hsame := indexTx_of_irrelevant (Bool.eq_false_iff.mpr hirrelevant)
        rw [hsame] at h
        simp only [indexTxs, hsame]
        exact ih h

end laws

end BdkFloresta
