import BdkFloresta.Client.Steps
import BdkFloresta.Chain.WalletIndex

/-!
The script window a scan derives against the one the wallet needs. The wallet's
window ends at the next index plus the lookahead; the derivation takes the last
revealed index for a count, so a keychain that has revealed anything misses the
window's last script, unless its descriptor has run out before it.
-/

namespace BdkFloresta
variable {σ : Type} [KeychainTxOutIndex σ]

/-- The derived scripts cover the window with this lookahead, everything revealed,
and with the index's own lookahead everything it stores. -/
structure WindowDerived (index : σ) (customLookahead : Nat) (spks : List ScriptBuf) : Prop where
  window : ∀ keychain it, unboundedSpkIter index keychain = some it →
    ∀ n < saturatingAdd (nextIndex (lastRevealedIndices index keychain)) customLookahead,
      n < it.range → it.spk n ∈ spks
  revealed : ∀ keychain it lastIndex, unboundedSpkIter index keychain = some it →
    lastRevealedIndices index keychain = some lastIndex →
    ∀ n ≤ lastIndex, n < it.range → it.spk n ∈ spks
  stored : customLookahead = lookahead index → ∀ spk, Stored index spk → spk ∈ spks

/-- Descriptors derive fewer scripts than there are `u32` values. -/
def RangesFit (index : σ) : Prop :=
  ∀ keychain it, unboundedSpkIter index keychain = some it → it.range ≤ u32Max

/-- The keychain has revealed nothing, or its descriptor ends below the window's
last index. -/
def Exhausted (index : σ) (customLookahead : Nat) (keychain : KeychainKind) (it : SpkIter) :
    Prop :=
  ∀ lastIndex, lastRevealedIndices index keychain = some lastIndex →
    it.range ≤ lastIndex + customLookahead

theorem deriveSpks_ok {index : σ} {ext : SpkIter}
    (hext : unboundedSpkIter index .external = some ext) (customLookahead : Nat) :
    ∃ spks, deriveSpksWithCustomLookahead index customLookahead = .ok spks := by
  simp only [deriveSpksWithCustomLookahead, hext]
  split
  · exact ⟨_, rfl⟩
  · exact ⟨_, rfl⟩

section derived
variable {index : σ} {customLookahead : Nat} {spks : List ScriptBuf}
  (hderive : deriveSpksWithCustomLookahead index customLookahead = .ok spks)
  (hfit : RangesFit index)
include hderive hfit

theorem mem_of_exhausted {keychain : KeychainKind} {it : SpkIter}
    (hit : unboundedSpkIter index keychain = some it)
    (h : Exhausted index customLookahead keychain it) {n : Nat}
    (hn : n < nextIndex (lastRevealedIndices index keychain) + customLookahead)
    (hrange : n < it.range) : it.spk n ∈ spks := by
  refine (mem_deriveSpks hderive).mpr ⟨keychain, n, it, hit, ?_, hrange, rfl⟩
  have hmax := hfit keychain it hit
  simp only [saturatingAdd]
  cases hlast : lastRevealedIndices index keychain with
  | none =>
      simp only [hlast, nextIndex] at hn
      simp only [Option.getD_none]
      omega
  | some lastIndex =>
      have hend := h lastIndex hlast
      simp only [Option.getD_some]
      omega

theorem windowDerived_of_exhausted
    (h : ∀ keychain it, unboundedSpkIter index keychain = some it →
      Exhausted index customLookahead keychain it) :
    WindowDerived index customLookahead spks where
  window keychain it hit n hn hrange := by
    refine mem_of_exhausted hderive hfit hit (h keychain it hit) ?_ hrange
    simp only [saturatingAdd] at hn
    omega
  revealed keychain it lastIndex hit hlast n hn hrange := by
    refine mem_of_exhausted hderive hfit hit (h keychain it hit) ?_ hrange
    simp only [hlast, nextIndex]
    omega
  stored hown spk hspk := by
    obtain ⟨keychain, n, it, hit, hn, hrange, rfl⟩ := hspk
    rw [← hown] at hn
    exact mem_of_exhausted hderive hfit hit (h keychain it hit) hn hrange

/-- A keychain that is not exhausted misses the script at its last revealed index
plus the lookahead. -/
theorem exhausted_of_window [LawfulKeychainTxOutIndex σ] {keychain : KeychainKind}
    {it : SpkIter} (hit : unboundedSpkIter index keychain = some it)
    (h : ∀ n < saturatingAdd (nextIndex (lastRevealedIndices index keychain)) customLookahead,
      n < it.range → it.spk n ∈ spks) :
    Exhausted index customLookahead keychain it := by
  intro lastIndex hlast
  by_contra hlt
  have hrange : lastIndex + customLookahead < it.range := Nat.not_le.mp hlt
  have hmax := hfit keychain it hit
  have hmem := h (lastIndex + customLookahead)
    (by simp only [saturatingAdd, hlast, nextIndex]; omega) hrange
  obtain ⟨other, n, jt, hjt, hn, hnrange, hspk⟩ := (mem_deriveSpks hderive).mp hmem
  obtain ⟨rfl, rfl⟩ := spk_injective index hjt hit hnrange hrange hspk
  simp only [saturatingAdd, hlast, Option.getD_some] at hn
  omega

end derived

/-- The derived list covers the wallet's window exactly if every keychain present is
exhausted or has revealed nothing. -/
theorem windowDerived_iff [LawfulKeychainTxOutIndex σ] {index : σ} {ext : SpkIter}
    (hext : unboundedSpkIter index .external = some ext) (hfit : RangesFit index)
    (customLookahead : Nat) :
    ∃ spks, deriveSpksWithCustomLookahead index customLookahead = .ok spks ∧
      (WindowDerived index customLookahead spks ↔
        ∀ keychain it, unboundedSpkIter index keychain = some it →
          Exhausted index customLookahead keychain it) := by
  obtain ⟨spks, hderive⟩ := deriveSpks_ok hext customLookahead
  refine ⟨spks, hderive, fun h keychain it hit => ?_, windowDerived_of_exhausted hderive hfit⟩
  exact exhausted_of_window hderive hfit hit (h.window keychain it hit)

section examples

/-- A wallet that has revealed its first external script, with a lookahead of five. -/
def firstRevealed : WalletIndex :=
  { WalletIndex.fresh 5 with lastRevealed := fun k => if k = .external then some 0 else none }

theorem firstRevealed_fits : RangesFit firstRevealed := by
  intro keychain it hit
  cases hit
  simp [u32Max]

theorem windowDerived_iff_firstRevealed :
    ∃ spks, deriveSpksWithCustomLookahead firstRevealed 0 = .ok spks ∧
      (WindowDerived firstRevealed 0 spks ↔
        ∀ keychain it, unboundedSpkIter firstRevealed keychain = some it →
          Exhausted firstRevealed 0 keychain it) :=
  windowDerived_iff rfl firstRevealed_fits 0

/-- Without lookahead the revealed script itself is missing, and with the index's own
lookahead the last script it stores. -/
theorem firstRevealed_not_derived :
    (deriveSpksWithCustomLookahead firstRevealed 0 = .ok [] ∧
      ¬ WindowDerived firstRevealed 0 []) ∧
    deriveSpks firstRevealed = .ok [0, 2, 4, 6, 8, 1, 3, 5, 7, 9] ∧
      Stored firstRevealed 10 ∧
      ¬ WindowDerived firstRevealed 5 [0, 2, 4, 6, 8, 1, 3, 5, 7, 9] := by
  have hstored : Stored firstRevealed 10 := (WalletIndex.stored_iff _ _).mpr rfl
  refine ⟨⟨rfl, fun h => ?_⟩, rfl, hstored, fun h => ?_⟩
  · exact List.not_mem_nil (h.revealed .external _ 0 rfl rfl 0 (Nat.le_refl 0) (by decide))
  · exact absurd (h.stored rfl 10 hstored) (by decide)

end examples
end BdkFloresta
