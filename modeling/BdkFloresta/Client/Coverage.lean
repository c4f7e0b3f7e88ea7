import BdkFloresta.Chain.WalletIndex
import BdkFloresta.Client.Handover
import BdkFloresta.Library.Runs

/-!
The two stages of a continuous scan. The filter scan covers the heights up to
the filter height it reads, the channel those validated after forwarding was
enabled. The law is that no height falls between the two; it holds exactly as
long as the filters have caught up with the subscription when they are read.
-/

namespace BdkFloresta
namespace Phase

def BeforeRange : Phase → Prop
  | .waiting | .ready | .forwarding => True
  | _ => False

def Forwards : Phase → Prop
  | .waiting | .ready | .ended => False
  | _ => True

theorem forwards_of_range {p : Phase} {range : Nat × Nat} (h : p.range = some range) :
    p.Forwards := by
  cases p <;> trivial

/-- The two phases have the same range and lie on the same side of its reading and
of the subscription. -/
def SameStage (p q : Phase) : Prop :=
  q.range = p.range ∧ (q.BeforeRange ↔ p.BeforeRange) ∧ (q.Forwards ↔ p.Forwards)

theorem SameStage.refl (p : Phase) : p.SameStage p := ⟨rfl, .rfl, .rfl⟩

end Phase

namespace Handover
variable {σ : Type}

/-- From the filter height on, every validated height of the scan is in its
range, in the channel, or was taken from the channel and applied. -/
def NoneLost (s : Handover σ) : Prop :=
  ∀ startHeight stopHeight, s.phase.range = some (startHeight, stopHeight) →
    ∀ block height, s.tips.chain.blockAt height = some block → startHeight ≤ height →
      height ≤ stopHeight ∨ (block, height) ∈ s.queue ∨
        ∃ taken ∈ s.taken, taken.delivery = (block, height) ∧ taken.Applied

/-- Once the loop has drained its channel, every height from the start of the
scan to the validated height is in the range given to `match_filters`, or its
block was taken from the channel and applied. -/
def CoveredWhenDrained (s : Handover σ) : Prop :=
  ∀ startHeight stopHeight, s.phase = .looping startHeight stopHeight → s.queue = [] →
    ∀ height, startHeight ≤ height → height ≤ s.tips.chain.height →
      (startHeight ≤ height ∧ height ≤ stopHeight) ∨
        ∃ taken ∈ s.taken, s.tips.chain.blockAt height = some taken.block ∧
          taken.height = height ∧ taken.Applied

theorem covered_of_noneLost {s : Handover σ} (h : s.NoneLost) : s.CoveredWhenDrained := by
  intro startHeight stopHeight hphase hdrained height hstart hheight
  obtain ⟨block, hblock⟩ := BestChain.exists_block s.tips.nonempty hheight
  rcases h startHeight stopHeight (by rw [hphase]; rfl) block height hblock hstart with
    hstop | hqueue | ⟨taken, htaken, hdelivery, happlied⟩
  · exact .inl ⟨hstart, hstop⟩
  · rw [hdrained] at hqueue
    cases hqueue
  · obtain ⟨rfl, rfl⟩ := Prod.mk.inj hdelivery
    exact .inr ⟨taken, htaken, hblock, rfl, happlied⟩

/-- What holds between any two steps: taken or still queued are the blocks above
the subscription, in their order. -/
structure Inv (s : Handover σ) : Prop where
  forwards : s.phase.Forwards → s.forwarding = true ∧
    s.enabledAt ≤ s.tips.chain.height ∧
    s.taken.map Taken.delivery ++ s.queue = s.tips.chain.above s.enabledAt
  untaken : s.phase.BeforeRange → s.taken = []
  range_le : ∀ {startHeight stopHeight},
    s.phase.range = some (startHeight, stopHeight) → startHeight ≤ stopHeight

/-- Before the range is read nothing has been taken, so the heights it misses are
those above it up to the subscription. -/
theorem noneLost_ranged_iff {s : Handover σ} (hs : s.Inv) (hphase : s.phase = .forwarding)
    {startHeight : Nat} {spks : List ScriptBuf} (hle : startHeight ≤ s.tips.filterHeight) :
    NoneLost { s with phase := .ranged startHeight s.tips.filterHeight spks } ↔
      s.enabledAt ≤ s.tips.filterHeight := by
  obtain ⟨-, henabled, hdelivered⟩ := hs.forwards (hphase ▸ trivial)
  have huntaken := hs.untaken (hphase ▸ trivial)
  have hqueue : s.queue = s.tips.chain.above s.enabledAt := by
    rw [← hdelivered, huntaken]
    rfl
  constructor
  · intro h
    by_contra hlag
    obtain ⟨block, hblock⟩ := BestChain.exists_block s.tips.nonempty henabled
    rcases h _ _ rfl block s.enabledAt hblock (by omega) with hstop | hmem | ⟨taken, htaken, -⟩
    · exact hlag hstop
    · exact Nat.lt_irrefl _ (BestChain.mem_above.mp (hqueue ▸ hmem)).2
    · exact List.not_mem_nil (huntaken ▸ htaken)
  · intro hcaught a b hrange block height hblock _
    obtain ⟨-, rfl⟩ := Prod.mk.inj (Option.some.inj hrange)
    rcases Nat.lt_or_ge s.tips.filterHeight height with hlt | hge
    · refine .inr (.inl ?_)
      rw [hqueue]
      exact BestChain.mem_above.mpr ⟨hblock, Nat.lt_of_le_of_lt hcaught hlt⟩
    · exact .inl hge

section received
variable {s : Handover σ} (hs : s.Inv) {startHeight stopHeight height : Nat} {block : Block}
  {rest : List (Block × Nat)} (hphase : s.phase = .looping startHeight stopHeight)
  (hqueue : s.queue = (block, height) :: rest) {applications : List Application}
  (happlied : (Taken.mk block height applications).Applied ↔
    s.client.checkpoint.height < height) {client : Client σ}
include hs hphase hqueue happlied

/-- The channel delivers each height once, so a block above the range that the
loop skips is lost. -/
theorem in_range_of_skipped
    (h : NoneLost { s with
      client
      queue := rest
      taken := s.taken ++ [⟨block, height, applications⟩] })
    (hskipped : height ≤ s.client.checkpoint.height) : height ≤ stopHeight := by
  obtain ⟨-, -, hdelivered⟩ := hs.forwards (hphase ▸ trivial)
  have hrange : s.phase.range = some (startHeight, stopHeight) := hphase ▸ rfl
  have hordered := hdelivered ▸ s.tips.chain.above_ascending s.enabledAt
  rw [hqueue] at hordered
  obtain ⟨-, hlater, hearlier⟩ := List.pairwise_append.mp hordered
  have hblock : s.tips.chain.blockAt height = some block := by
    have hmem : (block, height) ∈ s.tips.chain.above s.enabledAt := by
      rw [← hdelivered, hqueue]
      exact List.mem_append_right _ (List.mem_cons_self ..)
    exact (BestChain.mem_above.mp hmem).1
  have hstart := hs.range_le hrange
  by_contra hlost
  rcases h _ _ hrange block height hblock (by omega) with
    hstop | hmem | ⟨taken, htaken, hsame, hdone⟩
  · exact hlost hstop
  · exact Nat.lt_irrefl _ ((List.pairwise_cons.mp hlater).1 _ hmem)
  · rcases List.mem_append.mp htaken with hold | hnew
    · have hlt := hearlier _ (List.mem_map_of_mem hold) _ (List.mem_cons_self ..)
      rw [hsame] at hlt
      exact Nat.lt_irrefl _ hlt
    · obtain rfl := List.mem_singleton.mp hnew
      exact absurd (happlied.mp hdone) (Nat.not_lt.mpr hskipped)

omit hs in
theorem noneLost_received (hnone : s.NoneLost)
    (hskip : height ≤ s.client.checkpoint.height → height ≤ stopHeight) :
    NoneLost { s with
      client
      queue := rest
      taken := s.taken ++ [⟨block, height, applications⟩] } := by
  have hrange : s.phase.range = some (startHeight, stopHeight) := hphase ▸ rfl
  intro a b hrange' block' height' hblock' hstart'
  obtain ⟨rfl, rfl⟩ := Prod.mk.inj (Option.some.inj (hrange.symm.trans hrange'))
  rcases hnone _ _ hrange block' height' hblock' hstart' with
    hstop | hmem | ⟨taken, htaken, hsame, hdone⟩
  · exact .inl hstop
  · rw [hqueue] at hmem
    rcases List.mem_cons.mp hmem with hhead | hrest
    · obtain ⟨rfl, rfl⟩ := Prod.mk.inj hhead
      rcases Nat.lt_or_ge s.client.checkpoint.height height' with hlt | hge
      · exact .inr (.inr ⟨_, List.mem_append_right _ (List.mem_singleton_self _), rfl,
          happlied.mpr hlt⟩)
      · exact .inl (hskip hge)
    · exact .inr (.inl hrest)
  · exact .inr (.inr ⟨taken, List.mem_append_left _ htaken, hsame, hdone⟩)

end received

/-- The two states agree on the blocks and on the stage of the call. -/
structure Same (s t : Handover σ) : Prop where
  chain : t.tips.chain = s.tips.chain
  forwarding : t.forwarding = s.forwarding
  queue : t.queue = s.queue
  enabledAt : t.enabledAt = s.enabledAt
  taken : t.taken = s.taken
  stage : s.phase.SameStage t.phase

theorem Same.move {s : Handover σ} {phase : Phase} (h : s.phase.SameStage phase)
    (client : Client σ) : Same s { s with client, phase } :=
  ⟨rfl, rfl, rfl, rfl, rfl, h⟩

variable [BdkChain σ]

/-- The filters have caught up with the subscription when their height is read,
and the loop skips no block above the range. -/
def CaughtUp (g : Setting) (s : Handover σ) : HandoverStep → Prop
  | .getFilterHeight => ∀ startHeight spks,
      s.client.scanStart g.kind = .ok (startHeight, spks) →
        startHeight ≤ s.tips.filterHeight → s.enabledAt ≤ s.tips.filterHeight
  | .receive => ∀ startHeight stopHeight block height rest,
      s.phase = .looping startHeight stopHeight → s.queue = (block, height) :: rest →
        height ≤ s.client.checkpoint.height → height ≤ stopHeight
  | _ => True

/-- Everything a step can do to the blocks between the node and the loop. -/
inductive Effect (g : Setting) (s t : Handover σ) : HandoverStep → Prop where
  | idle {a} (hguard : s.CaughtUp g a) (same : Same s t) : Effect g s t a
  | closed {a} (hguard : s.CaughtUp g a) (hphase : t.phase = .ended) : Effect g s t a
  | validated {block tips} (htips : s.tips.validate? block = some tips)
      (ht : t = { s with
        tips
        queue := if s.forwarding then s.queue ++ [(block, tips.chain.height)] else s.queue }) :
      Effect g s t (.validate block)
  | enabled (hphase : s.phase = .ready)
      (ht : t = { s with
        phase := .forwarding
        forwarding := true
        queue := []
        enabledAt := s.tips.chain.height }) :
      Effect g s t .enableBlockForwarding
  | ranged {startHeight spks} (hphase : s.phase = .forwarding)
      (hstart : s.client.scanStart g.kind = .ok (startHeight, spks))
      (hle : startHeight ≤ s.tips.filterHeight)
      (ht : t = { s with phase := .ranged startHeight s.tips.filterHeight spks }) :
      Effect g s t .getFilterHeight
  | received {startHeight stopHeight block height rest client applications}
      (hphase : s.phase = .looping startHeight stopHeight)
      (hqueue : s.queue = (block, height) :: rest)
      (happlied : (Taken.mk block height applications).Applied ↔
        s.client.checkpoint.height < height)
      (ht : t = { s with
        client
        queue := rest
        taken := s.taken ++ [⟨block, height, applications⟩] }) :
      Effect g s t .receive

theorem receiveBlock_applied (eventTx : Nat → EventSlot) (block : Block) (height : Nat)
    (c : Client σ) :
    (Taken.mk block height
        ((c.receiveBlock eventTx block height).2.applied.drop c.applied.length)).Applied ↔
      c.checkpoint.height < height := by
  simp only [Client.receiveBlock]
  split
  next hle =>
    simp [Taken.Applied, hle]
  next hlt =>
    simp [Taken.Applied, Client.emitUpdate_applied, Client.applyBlock_applied,
      Nat.lt_of_not_le hlt]

theorem proceed_effect {g : Setting} {s : Handover σ} {a : HandoverStep}
    (hguard : s.CaughtUp g a) {r : Exit × Client σ} {phase : Phase}
    (h : s.phase.SameStage phase) : Effect g s (s.proceed r phase) a := by
  rcases s.proceed_cases r phase with ⟨-, heq⟩ | ⟨-, hended⟩
  · rw [heq]
    exact .idle hguard (.move h r.2)
  · exact .closed hguard hended

theorem getFilterHeight_effect {g : Setting} {s t : Handover σ}
    (h : s.step g .getFilterHeight = some t) : Effect g s t .getFilterHeight := by
  simp only [step] at h
  split at h
  next hphase =>
    split at h
    next startHeight spks stopHeight hstart hstop =>
      obtain rfl : s.tips.filterHeight = stopHeight := Except.ok.inj hstop
      split at h
      next hlt =>
        obtain rfl := Option.some.inj h
        refine .closed (fun a spks' ha hle => ?_) rfl
        obtain ⟨rfl, rfl⟩ := Prod.mk.inj (Except.ok.inj (ha.symm.trans hstart))
        exact absurd hle (Nat.not_le.mpr hlt)
      next hle => exact .ranged hphase hstart (Nat.not_lt.mp hle) (Option.some.inj h).symm
    next hfails =>
      obtain rfl := Option.some.inj h
      exact .closed (fun a spks ha _ => (hfails a spks _ ha rfl).elim) rfl
  · cases h

theorem receive_effect {g : Setting} {s t : Handover σ}
    (h : s.step g .receive = some t) : Effect g s t .receive := by
  simp only [step] at h
  split at h
  next startHeight stopHeight block height rest hphase hqueue =>
    obtain rfl := Option.some.inj h
    rcases proceed_cases _ _ _ with ⟨-, heq⟩ | ⟨hexit, hended⟩
    · exact .received hphase hqueue (receiveBlock_applied g.eventTx block height s.client)
        (heq.trans (by rw [hphase]))
    · refine .closed (fun a b block' height' rest' _ hqueue' hle => ?_) hended
      obtain ⟨hhead, -⟩ := List.cons.inj (hqueue.symm.trans hqueue')
      obtain ⟨rfl, rfl⟩ := Prod.mk.inj hhead
      exact absurd (by simp only [Client.receiveBlock, if_pos hle]) hexit
  · cases h

theorem step_effect {g : Setting} {s t : Handover σ} {a : HandoverStep}
    (h : s.step g a = some t) : Effect g s t a := by
  cases a with
  | header =>
      obtain rfl := Option.some.inj h
      exact .idle trivial ⟨rfl, rfl, rfl, rfl, rfl, .refl _⟩
  | validate block =>
      obtain ⟨tips, htips, ht⟩ := Option.map_eq_some_iff.mp h
      exact .validated htips ht.symm
  | syncFilter =>
      obtain ⟨tips, htips, rfl⟩ := Option.map_eq_some_iff.mp h
      exact .idle trivial
        ⟨Tips.syncFilter?_chain htips, rfl, rfl, rfl, rfl, .refl _⟩
  | poll wireReady =>
      simp only [step] at h
      split at h
      · obtain rfl := Option.some.inj h
        exact .idle trivial ⟨rfl, rfl, rfl, rfl, rfl, .refl _⟩
      · obtain ⟨published, -, rfl⟩ := Option.map_eq_some_iff.mp h
        exact .idle trivial ⟨rfl, rfl, rfl, rfl, rfl, .refl _⟩
  | waitUntilReady =>
      simp only [step] at h
      split at h
      next hphase =>
        split at h
        · obtain rfl := Option.some.inj h
          exact .idle trivial (.move (hphase ▸ ⟨rfl, .rfl, .rfl⟩) s.client)
        · obtain rfl := Option.some.inj h
          exact .idle trivial ⟨rfl, rfl, rfl, rfl, rfl, .refl _⟩
        all_goals
          obtain rfl := Option.some.inj h
          exact .closed trivial rfl
      · cases h
  | enableBlockForwarding =>
      simp only [step] at h
      split at h
      next hphase => exact .enabled hphase (Option.some.inj h).symm
      · cases h
  | getFilterHeight => exact getFilterHeight_effect h
  | matchFilters =>
      simp only [step] at h
      split at h
      next hphase =>
        split at h
        · obtain rfl := Option.some.inj h
          exact .idle trivial (.move (hphase ▸ ⟨rfl, .rfl, .rfl⟩) s.client)
        · obtain rfl := Option.some.inj h
          exact .closed trivial rfl
      · cases h
  | fetchBlocks =>
      simp only [step] at h
      split at h
      next hphase =>
        split at h
        · obtain rfl := Option.some.inj h
          exact .idle trivial (.move (hphase ▸ ⟨rfl, .rfl, .rfl⟩) s.client)
        · obtain rfl := Option.some.inj h
          exact .closed trivial rfl
      · cases h
  | scanBlock =>
      simp only [step] at h
      split at h
      next hphase =>
        split at h
        · obtain rfl := Option.some.inj h
          exact proceed_effect (a := .scanBlock) trivial (hphase ▸ ⟨rfl, .rfl, .rfl⟩)
        · obtain rfl := Option.some.inj h
          exact .closed trivial rfl
      · cases h
  | finishScan =>
      simp only [step] at h
      split at h
      next hphase =>
        obtain rfl := Option.some.inj h
        exact proceed_effect (a := .finishScan) trivial (hphase ▸ ⟨rfl, .rfl, .rfl⟩)
      · cases h
  | receive => exact receive_effect h
  | fail =>
      simp only [step] at h
      split at h
      · cases h
      · obtain rfl := Option.some.inj h
        exact .closed trivial rfl

theorem inv_step {g : Setting} {s t : Handover σ} {a : HandoverStep} (hs : s.Inv)
    (h : s.step g a = some t) : t.Inv := by
  cases step_effect h with
  | idle _ same =>
      obtain ⟨hrange, hbefore, hforwards⟩ := same.stage
      refine ⟨fun hphase => ?_, fun hphase => ?_, fun hphase => hs.range_le (hrange ▸ hphase)⟩
      · rw [same.forwarding, same.enabledAt, same.chain, same.taken, same.queue]
        exact hs.forwards (hforwards.mp hphase)
      · exact same.taken.trans (hs.untaken (hbefore.mp hphase))
  | closed _ hphase =>
      refine ⟨fun h => ?_, fun h => ?_, fun h => ?_⟩ <;> rw [hphase] at h <;> cases h
  | validated htips ht =>
      obtain ⟨hheight, -, habove⟩ := Tips.validate?_spec htips
      subst ht
      refine ⟨fun hphase => ?_, hs.untaken, hs.range_le⟩
      obtain ⟨hforwarding, hle, hdelivered⟩ := hs.forwards hphase
      refine ⟨hforwarding, hheight ▸ Nat.le_succ_of_le hle, ?_⟩
      simp only [hforwarding, if_true]
      rw [← List.append_assoc, hdelivered, habove _ hle]
  | enabled hphase ht =>
      have huntaken := hs.untaken (hphase ▸ trivial)
      subst ht
      refine ⟨fun _ => ⟨rfl, le_rfl, ?_⟩, fun _ => huntaken, nofun⟩
      simp only [huntaken, BestChain.above_height]
      rfl
  | ranged hphase _ hle ht =>
      subst ht
      refine ⟨fun _ => hs.forwards (hphase ▸ trivial), nofun, fun hrange => ?_⟩
      obtain ⟨rfl, rfl⟩ := Prod.mk.inj (Option.some.inj hrange)
      exact hle
  | received hphase hqueue _ ht =>
      obtain ⟨hforwarding, hle, hdelivered⟩ := hs.forwards (hphase ▸ trivial)
      subst ht
      refine ⟨fun _ => ⟨hforwarding, hle, ?_⟩, fun h => ?_, hs.range_le⟩
      · rw [← hdelivered, hqueue]
        simp [Taken.delivery]
      · change s.phase.BeforeRange at h
        rw [hphase] at h
        cases h

theorem noneLost_step_iff {g : Setting} {s t : Handover σ} {a : HandoverStep} (hs : s.Inv)
    (hnone : s.NoneLost) (h : s.step g a = some t) : t.NoneLost ↔ s.CaughtUp g a := by
  cases step_effect h with
  | idle hguard same =>
      refine iff_of_true (fun a b hrange block height hblock hstart => ?_) hguard
      rw [same.queue, same.taken]
      exact hnone a b (same.stage.1 ▸ hrange) block height (same.chain ▸ hblock) hstart
  | closed hguard hphase =>
      refine iff_of_true (fun a b hrange => ?_) hguard
      rw [hphase] at hrange
      cases hrange
  | validated htips ht =>
      subst ht
      refine iff_of_true (fun a b hrange block' height hblock hstart => ?_) trivial
      have hforwarding := (hs.forwards (Phase.forwards_of_range hrange)).1
      simp only [hforwarding, if_true, List.mem_append, List.mem_singleton]
      obtain ⟨-, hblocks, -⟩ := Tips.validate?_spec htips
      rcases hblocks hblock with hold | hnew
      · rcases hnone a b hrange block' height hold hstart with hstop | hqueue | htaken
        · exact .inl hstop
        · exact .inr (.inl (.inl hqueue))
        · exact .inr (.inr htaken)
      · exact .inr (.inl (.inr hnew))
  | enabled hphase ht =>
      subst ht
      exact iff_of_true nofun trivial
  | ranged hphase hstart hle ht =>
      rw [ht, noneLost_ranged_iff hs hphase hle]
      refine ⟨fun hcaught _ _ _ _ => hcaught, fun hguard => hguard _ _ hstart hle⟩
  | received hphase hqueue happlied ht =>
      subst ht
      constructor
      · intro hkept a b block' height' rest' hphase' hqueue'
        obtain ⟨-, rfl⟩ := Phase.looping.inj (hphase.symm.trans hphase')
        obtain ⟨hhead, -⟩ := List.cons.inj (hqueue.symm.trans hqueue')
        obtain ⟨-, rfl⟩ := Prod.mk.inj hhead
        exact in_range_of_skipped hs hphase hqueue happlied hkept
      · exact fun hguard => noneLost_received hphase hqueue happlied hnone
          (hguard _ _ _ _ _ hphase hqueue)

/-- Over every interleaving with the node and for every kind of scan, no height
is lost exactly as long as the filters have caught up with the subscription when
the scan reads their height; the drained loop has then covered every height. -/
theorem no_block_lost_iff (g : Setting) (tips : Tips) (published : State) (client : Client σ)
    (steps : List HandoverStep) :
    (Runs.Always (step g) NoneLost (start tips published client) steps ↔
      Runs.EachStep (step g) (CaughtUp g) (start tips published client) steps) ∧
    (Runs.EachStep (step g) (CaughtUp g) (start tips published client) steps →
      Runs.Always (step g) CoveredWhenDrained (start tips published client) steps) := by
  have hiff : Runs.Always (step g) NoneLost (start tips published client) steps ↔
      Runs.EachStep (step g) (CaughtUp g) (start tips published client) steps := by
    apply Runs.always_iff_eachStep (I := Inv)
    · exact fun s a t hs _ ht => inv_step hs ht
    · exact fun s a t hs hnone ht => noneLost_step_iff hs hnone ht
    · exact ⟨False.elim, fun _ => rfl, nofun⟩
    · exact nofun
  exact ⟨hiff, fun h => (hiff.mpr h).mono fun _ => covered_of_noneLost⟩

section examples

/-- A node whose filters are synced, and a filter of what blocks pay. -/
def syncedTips : Tips where
  chain := ⟨[⟨10, 0, []⟩, ⟨11, 1, []⟩], by decide⟩
  chainHeight := 1
  filterHeight := 1
  nonempty := by decide
  validated_le := by decide
  filter_le := by decide

def syncSetting : Setting where
  ov := .wraps
  filter block spks := block.txdata.any fun tx => tx.output.any fun script => script ∈ spks
  eventTx _ := .sender
  kind := .sync

/-- Between the poll that publishes `Operational` and the subscription the node
validates a block that pays the wallet, and its filter is not synced when the
scan reads the filter height. The block is in neither stage, and the checkpoint
moves past it. -/
theorem lagging_filter_loses_block :
    ∃ s, Runs.exec (step syncSetting)
        (start syncedTips .active (Client.ofWallet (WalletIndex.fresh 1) (.single 0 10)))
        [.poll true, .waitUntilReady, .header, .validate ⟨12, 2, [⟨1, [], [0]⟩]⟩,
          .enableBlockForwarding, .getFilterHeight, .matchFilters, .fetchBlocks, .finishScan,
          .header, .validate ⟨13, 3, []⟩, .syncFilter, .syncFilter, .receive] = some s ∧
      s.phase = .looping 0 1 ∧ s.queue = [] ∧ s.client.checkpoint.height = 3 ∧
      ¬ s.CoveredWhenDrained := by
  refine ⟨_, rfl, rfl, rfl, by decide, fun h => ?_⟩
  rcases h 0 1 rfl rfl 2 (by decide) (by decide) with ⟨-, hstop⟩ | ⟨taken, htaken, -, hheight, -⟩
  · exact absurd hstop (by decide)
  · obtain rfl := List.mem_singleton.mp htaken
    exact absurd hheight (by decide)

end examples
end Handover
end BdkFloresta
