import BdkFloresta.Node.Fsm

/-!
The next-state function over unbounded heights, beside the one over `u32` heights. They
part only for a running and ready node whose height is within the tolerance of
`u32::MAX`: there a debug build panics, and a release build compares the chain tip with a
sum that has wrapped to almost zero, so that a node at the tip is called syncing.
-/

namespace BdkFloresta

/-- The decisions of `compute_next_state`, the tolerance added without a bound. -/
def exactNextState (wireReady : Bool) (currentState : State)
    (nodeHeight chainHeight filterHeight : Nat) : State :=
  let filterHeight := if filterHeight > nodeHeight then nodeHeight else filterHeight
  match currentState with
  | .shuttingDown | .inactive | .dnsBootstrapping | .backfill => currentState
  | _ =>
      if !wireReady then .active
      else if nodeHeight = 0 ∧ chainHeight > 0 then .headerSync chainHeight
      else if nodeHeight + operationalTolerance < chainHeight then
        .initialBlockDownload chainHeight nodeHeight
      else if filterHeight < chainHeight then .compactBlockFilterDownload filterHeight
      else if nodeHeight > 0 then .operational
      else .active

theorem exactNextState_of_running {s : State} (h : ¬ s.Frozen) (wireReady : Bool)
    (nodeHeight chainHeight filterHeight : Nat) :
    exactNextState wireReady s nodeHeight chainHeight filterHeight =
      exactNextState wireReady .active nodeHeight chainHeight filterHeight := by
  cases s <;> first | rfl | exact (h True.intro).elim

theorem exactNextState_frozen {s : State} (h : s.Frozen) (wireReady : Bool)
    (nodeHeight chainHeight filterHeight : Nat) :
    exactNextState wireReady s nodeHeight chainHeight filterHeight = s := by
  cases s <;> first | rfl | exact h.elim

/-- Where the heights of a ready node stand, and the state that calls for. -/
inductive Classified (n c f : Nat) : State → Prop where
  | headers : n = 0 → 0 < c → Classified n c f (.headerSync c)
  | blocks : 0 < n → n + operationalTolerance < c →
      Classified n c f (.initialBlockDownload c n)
  | filters : 0 < n → c ≤ n + operationalTolerance → min f n < c →
      Classified n c f (.compactBlockFilterDownload (min f n))
  | done : 0 < n → c ≤ n + operationalTolerance → c ≤ min f n →
      Classified n c f .operational
  | empty : n = 0 → c = 0 → Classified n c f .active

theorem exactNextState_classified {s : State} (hs : ¬ s.Frozen) (n c f : Nat) :
    Classified n c f (exactNextState true s n c f) := by
  have hclamp : (if f > n then n else f) = min f n := by split <;> omega
  rw [exactNextState_of_running hs]
  simp only [exactNextState, hclamp, Bool.not_true, Bool.false_eq_true, if_false]
  by_cases hstarted : n = 0 ∧ c > 0
  · rw [if_pos hstarted]
    exact .headers hstarted.1 hstarted.2
  rw [if_neg hstarted]
  by_cases hbehind : n + operationalTolerance < c
  · rw [if_pos hbehind]
    exact .blocks (by omega) hbehind
  rw [if_neg hbehind]
  by_cases hfilter : min f n < c
  · rw [if_pos hfilter]
    exact .filters (by omega) (Nat.not_lt.mp hbehind) hfilter
  rw [if_neg hfilter]
  by_cases hpos : n > 0
  · rw [if_pos hpos]
    exact .done hpos (Nat.not_lt.mp hbehind) (Nat.not_lt.mp hfilter)
  · rw [if_neg hpos]
    exact .empty (by omega) (by omega)

theorem Classified.blocks_iff {n c f : Nat} {t : State} (h : Classified n c f t) (hn : 0 < n) :
    (∃ a b, t = .initialBlockDownload a b) ↔ n + operationalTolerance < c := by
  cases h with
  | blocks _ hbehind => exact iff_of_true ⟨c, n, rfl⟩ hbehind
  | headers hzero _ | empty hzero _ => exact absurd hzero (Nat.ne_of_gt hn)
  | filters _ hnear _ | done _ hnear _ =>
      exact iff_of_false (by simp) (Nat.not_lt.mpr hnear)

/-- The tolerance is not added, or the sum is a `u32`. -/
def SumFits (wireReady : Bool) (s : State) (nodeHeight : Nat) : Prop :=
  s.Frozen ∨ wireReady = false ∨ nodeHeight + operationalTolerance ≤ u32Max

/-- `node_height + OPERATIONAL_TOLERANCE` once it has wrapped. -/
def wrappedTolerance (nodeHeight : Nat) : Nat := nodeHeight + operationalTolerance - (u32Max + 1)

theorem computeNextState_of_sumFits {wireReady : Bool} {s : State} {n : Nat}
    (h : SumFits wireReady s n) (ov : Overflow) (c f : Nat) :
    computeNextState ov wireReady s n c f = some (exactNextState wireReady s n c f) := by
  by_cases hs : s.Frozen
  · rw [computeNextState_frozen hs, exactNextState_frozen hs]
  rw [computeNextState_of_running hs, exactNextState_of_running hs]
  cases wireReady with
  | false => rfl
  | true =>
      have hfits : n + operationalTolerance ≤ u32Max := by simpa [SumFits, hs] using h
      simp only [computeNextState, exactNextState, Overflow.add, hfits, if_true, Option.map_some,
        Bool.not_true, Bool.false_eq_true, if_false]
      split <;> rfl

section unfit
variable {wireReady : Bool} {s : State} {n : Nat} (hunfit : ¬ SumFits wireReady s n)
include hunfit

theorem running_of_unfit : ¬ s.Frozen ∧ wireReady = true ∧ u32Max < n + operationalTolerance := by
  simpa [SumFits, not_or] using hunfit

theorem pos_of_unfit : 0 < n := by
  obtain ⟨-, -, hover⟩ := running_of_unfit hunfit
  simp only [operationalTolerance, u32Max] at hover
  omega

theorem computeNextState_panics_of_unfit (c f : Nat) :
    computeNextState .panics wireReady s n c f = none := by
  obtain ⟨hs, rfl, hover⟩ := running_of_unfit hunfit
  have hstarted : ¬ (n = 0 ∧ c > 0) := fun hzero =>
    Nat.ne_of_gt (pos_of_unfit hunfit) hzero.1
  rw [computeNextState_of_running hs]
  simp [computeNextState, hstarted, Overflow.add, Nat.not_le.mpr hover]

/-- A release build calls a node syncing that is above the tip less the tolerance. -/
theorem computeNextState_wraps_of_unfit (hn : n ≤ u32Max) {c : Nat} (hc : c ≤ u32Max) (f : Nat) :
    computeNextState .wraps wireReady s n c f =
      if wrappedTolerance n < c then some (.initialBlockDownload c n)
      else some (exactNextState wireReady s n c f) := by
  obtain ⟨hs, rfl, hover⟩ := running_of_unfit hunfit
  have hstarted : ¬ (n = 0 ∧ c > 0) := fun hzero =>
    Nat.ne_of_gt (pos_of_unfit hunfit) hzero.1
  have hnear : ¬ n + operationalTolerance < c := by omega
  have hwrapped : (n + operationalTolerance) % (u32Max + 1) = wrappedTolerance n := by
    simp only [wrappedTolerance, operationalTolerance, u32Max] at hover hn ⊢
    omega
  rw [computeNextState_of_running hs, exactNextState_of_running hs]
  simp only [computeNextState, exactNextState, Overflow.add, Nat.not_le.mpr hover, hwrapped,
    hstarted, hnear, Bool.not_true, Bool.false_eq_true, if_false, Option.map_some]
  split <;> rfl

end unfit

/-- A classification the wrapped sum has turned into `InitialBlockDownload` is wrong. -/
theorem exactNextState_not_blocks {s : State} (hs : ¬ s.Frozen) {n c : Nat}
    (hnear : c ≤ n + operationalTolerance) (hn : 0 < n) (f a b : Nat) :
    exactNextState true s n c f ≠ .initialBlockDownload a b := fun heq =>
  Nat.not_lt.mpr hnear
    (((exactNextState_classified hs n c f).blocks_iff hn).mp ⟨a, b, heq⟩)

/-- In machine arithmetic a release build agrees with the unbounded decisions exactly if
the sum fits or the wrapped one still reaches the chain tip. -/
theorem computeNextState_wraps_iff {wireReady : Bool} {s : State} {n c : Nat}
    (hn : n ≤ u32Max) (hc : c ≤ u32Max) (f : Nat) :
    computeNextState .wraps wireReady s n c f = some (exactNextState wireReady s n c f) ↔
      SumFits wireReady s n ∨ c ≤ wrappedTolerance n := by
  by_cases hfits : SumFits wireReady s n
  · exact iff_of_true (computeNextState_of_sumFits hfits .wraps c f) (.inl hfits)
  rw [computeNextState_wraps_of_unfit hfits hn hc, or_iff_right hfits]
  obtain ⟨hs, rfl, hover⟩ := running_of_unfit hfits
  by_cases hlow : wrappedTolerance n < c
  · rw [if_pos hlow]
    refine iff_of_false (fun heq => ?_) (Nat.not_le.mpr hlow)
    exact exactNextState_not_blocks hs (by omega) (pos_of_unfit hfits) f c n
      (Option.some.inj heq).symm
  · rw [if_neg hlow]
    exact iff_of_true rfl (Nat.not_lt.mp hlow)

theorem blocks_iff_of_sumFits {s : State} (hs : ¬ s.Frozen) {n : Nat} (hpos : 0 < n)
    (hfits : SumFits true s n) (ov : Overflow) (c f : Nat) :
    (∃ a b, computeNextState ov true s n c f = some (.initialBlockDownload a b)) ↔
      n + operationalTolerance < c := by
  rw [computeNextState_of_sumFits hfits]
  simpa using (exactNextState_classified hs n c f).blocks_iff hpos

/-- A ready node is called syncing in every build exactly if it is more than the tolerance
behind, as long as the sum fits or the wrapped one still reaches the chain tip. -/
theorem blocks_exact_iff {s : State} (hs : ¬ s.Frozen) {n c : Nat} (hpos : 0 < n)
    (hn : n ≤ u32Max) (hc : c ≤ u32Max) (f : Nat) :
    (∀ ov, (∃ a b, computeNextState ov true s n c f = some (.initialBlockDownload a b)) ↔
      n + operationalTolerance < c) ↔ SumFits true s n ∨ c ≤ wrappedTolerance n := by
  by_cases hfits : SumFits true s n
  · exact iff_of_true (fun ov => blocks_iff_of_sumFits hs hpos hfits ov c f) (.inl hfits)
  obtain ⟨-, -, hover⟩ := running_of_unfit hfits
  have hnear : ¬ n + operationalTolerance < c := by omega
  rw [or_iff_right hfits]
  constructor
  · intro h
    by_contra hlow
    refine hnear ((h .wraps).mp ⟨c, n, ?_⟩)
    rw [computeNextState_wraps_of_unfit hfits hn hc, if_pos (Nat.not_le.mp hlow)]
  · intro hreached ov
    refine iff_of_false ?_ hnear
    rintro ⟨a, b, h⟩
    cases ov with
    | panics =>
        rw [computeNextState_panics_of_unfit hfits] at h
        cases h
    | wraps =>
        rw [computeNextState_wraps_of_unfit hfits hn hc, if_neg (Nat.not_lt.mpr hreached)] at h
        exact exactNextState_not_blocks hs (Nat.not_lt.mp hnear) hpos f a b (Option.some.inj h)

/-- For all `u32` heights, every state and either readiness: no build overflows and all
compute the unbounded decisions exactly if the tolerance sum is not reached or fits. -/
theorem lag_exact_iff (wireReady : Bool) (s : State) {n c : Nat} (f : Nat) (hn : n ≤ u32Max)
    (hc : c ≤ u32Max) :
    ((∀ ov, computeNextState ov wireReady s n c f = some (exactNextState wireReady s n c f)) ↔
      SumFits wireReady s n) ∧
    (computeNextState .wraps wireReady s n c f = some (exactNextState wireReady s n c f) ↔
      SumFits wireReady s n ∨ c ≤ wrappedTolerance n) ∧
    (wireReady = true → ¬ s.Frozen → 0 < n →
      ((∀ ov, (∃ a b, computeNextState ov true s n c f = some (.initialBlockDownload a b)) ↔
        n + operationalTolerance < c) ↔ SumFits true s n ∨ c ≤ wrappedTolerance n)) := by
  refine ⟨⟨fun h => ?_, fun hfits ov => computeNextState_of_sumFits hfits ov c f⟩,
    computeNextState_wraps_iff hn hc f, fun _ hs hpos => blocks_exact_iff hs hpos hn hc f⟩
  by_contra hunfit
  exact absurd ((computeNextState_panics_of_unfit hunfit c f).symm.trans (h .panics)) (by simp)

section examples

/-- One height below the limit of the sum, and a chain tip seven above. -/
theorem lag_exact_iff_atLimit :
    ((∀ ov, computeNextState ov true .operational 4294967289 4294967295 0 =
        some (exactNextState true .operational 4294967289 4294967295 0)) ↔
      SumFits true .operational 4294967289) :=
  (lag_exact_iff true .operational (n := 4294967289) (c := 4294967295) 0 (by decide)
    (by decide)).1

/-- A node at the greatest height, which is the chain tip: a debug build panics, a
release build sends it back to `InitialBlockDownload`. -/
theorem greatest_height_overflows :
    exactNextState true .operational u32Max u32Max u32Max = .operational ∧
      computeNextState .panics true .operational u32Max u32Max u32Max = none ∧
      computeNextState .wraps true .operational u32Max u32Max u32Max =
        some (.initialBlockDownload u32Max u32Max) := by
  decide

end examples
end BdkFloresta
