import BdkFloresta.Client.Follow
import BdkFloresta.Client.Handover
import BdkFloresta.Library.Runs

/-!
The call taken statement by statement beside a node that validates meanwhile is the call
taken as one function: whatever the interleaving, a call in its receive loop has done to
the client what `scan_continuous` does on a node that stands still at the last chain, with
its filters at the height the scan has read. So one chain stands for the growing one.
-/

namespace BdkFloresta

/-- A call that nothing disturbs, on a node that stands still at the chain. -/
def Setting.still (g : Setting) (chain : BestChain) (filterHeight : Nat) : ScanEnv :=
  { honestEnv chain g.filter filterHeight with eventTx := g.eventTx }

theorem Setting.still_answers (g : Setting) {chain : BestChain} {filterHeight : Nat}
    (h : filterHeight < chain.blocks.length) :
    Answers chain g.filter (g.still chain filterHeight) :=
  honestNode_answers h fun _ => rfl

namespace Client
variable {σ : Type} [BdkChain σ] {g : Setting}

theorem received_append (eventTx : Nat → EventSlot) (blocks : List (Block × Nat))
    (p : Block × Nat) (c : Client σ) :
    received eventTx (blocks ++ [p]) c =
      ((received eventTx blocks c).receiveBlock eventTx p.1 p.2).2 := by
  rw [received, List.foldl_append]
  rfl

/-- The scan has read its range, which the node's filters cover. -/
structure Ranged (g : Setting) (tips : Tips) (c : Client σ) (startHeight stopHeight : Nat)
    (spks : List ScriptBuf) : Prop where
  start : c.scanStart g.kind = .ok (startHeight, spks)
  start_le : startHeight ≤ stopHeight
  filtered : stopHeight ≤ tips.filterHeight

/-- The client after the filter scan of the range and its `Finished`. -/
def finished (g : Setting) (chain : BestChain) (startHeight stopHeight : Nat)
    (spks : List ScriptBuf) (c : Client σ) : Client σ :=
  let c := scanned g.eventTx (chain.matching g.filter spks startHeight stopHeight) c
  let c := (c.finishScan (g.still chain stopHeight) stopHeight).2
  (c.sendEvent g.eventTx (.finished true)).2

namespace Ranged
variable {tips later : Tips} {c : Client σ} {startHeight stopHeight : Nat}
  {spks : List ScriptBuf} (h : Ranged g tips c startHeight stopHeight spks)
include h

theorem stop_lt : stopHeight < tips.chain.blocks.length := tips.filtered_lt h.filtered

theorem grow (hgrows : tips.Grows later) : Ranged g later c startHeight stopHeight spks :=
  ⟨h.start, h.start_le, h.filtered.trans hgrows.filterHeight⟩

theorem matching_grow (hgrows : tips.Grows later) :
    later.chain.matching g.filter spks startHeight stopHeight =
      tips.chain.matching g.filter spks startHeight stopHeight :=
  BestChain.matching_of_prefix hgrows.chain g.filter spks h.stop_lt

theorem finished_grow (hgrows : tips.Grows later) :
    finished g later.chain startHeight stopHeight spks c =
      finished g tips.chain startHeight stopHeight spks c := by
  have hhash : (honestNode later.chain g.filter stopHeight).getBlockHash stopHeight =
      (honestNode tips.chain g.filter stopHeight).getBlockHash stopHeight := by
    simp only [NodeView.getBlockHash, honestNode,
      BestChain.blockAt_of_prefix hgrows.chain h.stop_lt]
  simp only [finished, finishScan, Setting.still, honestEnv, h.matching_grow hgrows, hhash]

/-- The filter scan on the node that stands still. -/
theorem notifiedScan_still [LawfulBdkChain σ] (hunpoisoned : Unpoisoned g.eventTx)
    (hunbroken : Unbroken g.eventTx
      (tips.chain.matching g.filter spks startHeight stopHeight) c) :
    c.notifiedScan (g.still tips.chain stopHeight) true g.kind =
      (.ok, finished g tips.chain startHeight stopHeight spks c) := by
  let located := tips.chain.matching g.filter spks startHeight stopHeight
  have hfetch : c.fetchRelevant (g.still tips.chain stopHeight) g.kind =
      .ok (stopHeight, located.map Prod.fst) :=
    honest_fetchRelevant g.filter stopHeight h.start h.start_le
  have hblocks : c.scanBlocks (g.still tips.chain stopHeight) 0 (located.map Prod.fst) =
      (.ok, scanned g.eventTx located c) :=
    scanBlocks_located (fun _ => rfl) hunpoisoned
      (honest_located g.filter stopHeight (fun _ => rfl)
        (fun p hp => (BestChain.mem_matching.mp hp).1.1) 0) hunbroken
  have hinner : c.scanInner (g.still tips.chain stopHeight) g.kind =
      (.ok, ((scanned g.eventTx located c).finishScan (g.still tips.chain stopHeight)
        stopHeight).2) := by
    simp only [scanInner, hfetch, hblocks, andThen_ok]
    exact Prod.ext
      (honest_finishScan g.filter stopHeight (fun _ => rfl) hunpoisoned h.stop_lt _) rfl
  simp only [notifiedScan, hinner, closingEvent]
  exact andThen_of_ok (sendEvent_exit hunpoisoned (.finished true) _) _

end Ranged
end Client

namespace Handover
open Client
variable {σ : Type} [BdkChain σ]

/-- The state of the call is where `scan_continuous` on the first client is, on a node
that stands still at the chain as it is by now. -/
def OnChain (g : Setting) (first : Client σ) (s : Handover σ) : Prop :=
  match s.phase with
  | .waiting | .ready | .forwarding => s.client = first ∧ s.taken = []
  | .ranged a b spks => s.client = first ∧ s.taken = [] ∧ Ranged g s.tips first a b spks
  | .matched a b hashes => s.client = first ∧ s.taken = [] ∧
      ∃ spks, Ranged g s.tips first a b spks ∧
        hashes = (s.tips.chain.matching g.filter spks a b).map fun p => p.1.blockHash
  | .scanning a b rest => s.taken = [] ∧
      ∃ spks done left, Ranged g s.tips first a b spks ∧
        s.tips.chain.matching g.filter spks a b = done ++ left ∧ left.map Prod.fst = rest ∧
        Unbroken g.eventTx done first ∧ s.client = scanned g.eventTx done first
  | .looping a b =>
      ∃ spks, Ranged g s.tips first a b spks ∧
        Unbroken g.eventTx (s.tips.chain.matching g.filter spks a b) first ∧
        s.client = received g.eventTx (s.taken.map Taken.delivery)
          (finished g s.tips.chain a b spks first)
  | .ended => True

section step
variable {g : Setting} {first : Client σ} {s t : Handover σ}

/-- The node goes on, and the call stays where it is. -/
theorem OnChain.grow (h : OnChain g first s) (hphase : t.phase = s.phase)
    (hclient : t.client = s.client) (htaken : t.taken = s.taken)
    (hgrows : s.tips.Grows t.tips) : OnChain g first t := by
  simp only [OnChain, hphase, hclient, htaken] at h ⊢
  cases hs : s.phase with
  | waiting | ready | forwarding =>
      simp only [hs] at h ⊢
      exact h
  | ended => trivial
  | ranged a b spks =>
      simp only [hs] at h ⊢
      exact ⟨h.1, h.2.1, h.2.2.grow hgrows⟩
  | matched a b hashes =>
      simp only [hs] at h ⊢
      obtain ⟨hclient, htaken, spks, hranged, hmatch⟩ := h
      refine ⟨hclient, htaken, spks, hranged.grow hgrows, ?_⟩
      rw [hranged.matching_grow hgrows, hmatch]
  | scanning a b rest =>
      simp only [hs] at h ⊢
      obtain ⟨htaken, spks, done, left, hranged, hsplit, hrest, hdone⟩ := h
      refine ⟨htaken, spks, done, left, hranged.grow hgrows, ?_, hrest, hdone⟩
      rw [hranged.matching_grow hgrows, hsplit]
  | looping a b =>
      simp only [hs] at h ⊢
      obtain ⟨spks, hranged, hunbroken, hclient⟩ := h
      refine ⟨spks, hranged.grow hgrows, ?_, ?_⟩
      · rwa [hranged.matching_grow hgrows]
      · rw [hranged.finished_grow hgrows, hclient]

theorem onChain_ended (h : s.phase = .ended) : OnChain g first s := by
  simp only [OnChain, h]

omit [BdkChain σ] in
/-- What the node answers now is right for the chain as it is now. -/
theorem env_answers (g : Setting) (s : Handover σ) : Answers s.tips.chain g.filter (s.env g) :=
  have h := g.still_answers (s.tips.filtered_lt (Nat.le_refl _))
  { filterHeight := fun heq => @h.filterHeight .stopHash _ heq
    matchAny := fun htip hle heq => @h.matchAny .stopHash _ _ _ _ _ htip hle heq
    getBlock := fun heq => @h.getBlock .stopHash _ _ heq
    blockHeight := fun heq => @h.blockHeight .stopHash _ _ heq
    blockHash := fun heq => @h.blockHash .stopHash _ _ heq }

theorem onChain_getFilterHeight (hs : OnChain g first s)
    (h : s.step g .getFilterHeight = some t) : OnChain g first t := by
  simp only [step] at h
  split at h
  next hphase =>
    simp only [OnChain, hphase] at hs
    obtain ⟨hclient, htaken⟩ := hs
    split at h
    next startHeight spks stopHeight hstart hstop =>
      obtain rfl : s.tips.filterHeight = stopHeight := Except.ok.inj hstop
      split at h
      · obtain rfl := Option.some.inj h
        exact onChain_ended rfl
      next hle =>
        obtain rfl := Option.some.inj h
        exact ⟨hclient, htaken, hclient ▸ hstart, Nat.not_lt.mp hle, Nat.le_refl _⟩
    · obtain rfl := Option.some.inj h
      exact onChain_ended rfl
  · cases h

theorem onChain_matchFilters (hs : OnChain g first s)
    (h : s.step g .matchFilters = some t) : OnChain g first t := by
  simp only [step] at h
  split at h
  next startHeight stopHeight spks hphase =>
    simp only [OnChain, hphase] at hs
    obtain ⟨hclient, htaken, hranged⟩ := hs
    split at h
    next hashes hmatch =>
      obtain rfl := Option.some.inj h
      exact ⟨hclient, htaken, spks, hranged, (env_answers g s).matched hmatch⟩
    · obtain rfl := Option.some.inj h
      exact onChain_ended rfl
  · cases h

theorem onChain_fetchBlocks (hs : OnChain g first s)
    (h : s.step g .fetchBlocks = some t) : OnChain g first t := by
  simp only [step] at h
  split at h
  next startHeight stopHeight hashes hphase =>
    simp only [OnChain, hphase] at hs
    obtain ⟨hclient, htaken, spks, hranged, rfl⟩ := hs
    split at h
    next blocks hfetch =>
      obtain rfl := Option.some.inj h
      have hblocks := (env_answers g s).fetched
        (fun p hp => (BestChain.mem_matching.mp hp).1.1) (fetchMatching_ok hfetch)
      exact ⟨htaken, spks, [], _, hranged, rfl, hblocks.symm, trivial, hclient⟩
    · obtain rfl := Option.some.inj h
      exact onChain_ended rfl
  · cases h

theorem onChain_scanBlock (hs : OnChain g first s)
    (h : s.step g .scanBlock = some t) : OnChain g first t := by
  simp only [step] at h
  split at h
  next startHeight stopHeight block rest hphase =>
    simp only [OnChain, hphase] at hs
    obtain ⟨htaken, spks, done, left, hranged, hsplit, hrest, hunbroken, hclient⟩ := hs
    obtain ⟨p, left, rfl, rfl, rfl⟩ := List.map_eq_cons_iff.mp hrest
    split at h
    next height hheight =>
      obtain rfl := Option.some.inj h
      have hp : p ∈ s.tips.chain.matching g.filter spks startHeight stopHeight := by
        rw [hsplit]
        exact List.mem_append_right _ (List.mem_cons_self ..)
      obtain rfl := (env_answers g s).located (BestChain.mem_matching.mp hp).1.1 hheight
      rcases s.proceed_cases (s.client.scanBlock g.eventTx p.1 p.2)
        (.scanning startHeight stopHeight (left.map Prod.fst)) with ⟨hok, heq⟩ | ⟨-, hended⟩
      · rw [heq]
        refine ⟨htaken, spks, done ++ [p], left, hranged, ?_, rfl, ?_, ?_⟩
        · rw [hsplit, List.append_assoc, List.singleton_append]
        · refine unbroken_append.mpr ⟨hunbroken, ?_⟩
          rw [← hclient, hok]
          nofun
        · rw [scanned_append, ← hclient]
      · exact onChain_ended hended
    · obtain rfl := Option.some.inj h
      exact onChain_ended rfl
  · cases h

variable [LawfulBdkChain σ] (hunpoisoned : Unpoisoned g.eventTx)
include hunpoisoned

theorem onChain_finishScan (hs : OnChain g first s)
    (h : s.step g .finishScan = some t) : OnChain g first t := by
  simp only [step] at h
  split at h
  next startHeight stopHeight hphase =>
    simp only [OnChain, hphase] at hs
    obtain ⟨htaken, spks, done, left, hranged, hsplit, hrest, hunbroken, hclient⟩ := hs
    obtain rfl := List.map_eq_nil_iff.mp hrest
    rw [List.append_nil] at hsplit
    obtain rfl := Option.some.inj h
    have hfinish : s.client.finishScan (s.env g) stopHeight =
        s.client.finishScan (g.still s.tips.chain stopHeight) stopHeight := rfl
    have hok : (s.client.finishScan (g.still s.tips.chain stopHeight) stopHeight).1 = .ok :=
      honest_finishScan g.filter stopHeight (fun _ => rfl) hunpoisoned hranged.stop_lt s.client
    rw [hfinish, andThen_of_ok hok, proceed_of_ok s (sendEvent_exit hunpoisoned _ _)]
    refine ⟨spks, hranged, hsplit.symm ▸ hunbroken, ?_⟩
    simp only [htaken, List.map_nil, finished, hsplit, ← hclient]
    rfl
  · cases h

theorem onChain_receive (hs : OnChain g first s)
    (h : s.step g .receive = some t) : OnChain g first t := by
  simp only [step] at h
  split at h
  next startHeight stopHeight block height rest hphase hqueue =>
    simp only [OnChain, hphase] at hs
    obtain ⟨spks, hranged, hunbroken, hclient⟩ := hs
    obtain rfl := Option.some.inj h
    rw [proceed_of_ok _ (receiveBlock_exit hunpoisoned block height s.client)]
    refine ⟨spks, hranged, hunbroken, ?_⟩
    rw [List.map_append, hclient]
    exact (received_append g.eventTx _ (block, height) _).symm
  · cases h

theorem onChain_step {a : HandoverStep} (hs : OnChain g first s)
    (h : s.step g a = some t) : OnChain g first t := by
  cases a with
  | header =>
      obtain rfl := Option.some.inj h
      exact hs.grow rfl rfl rfl ⟨List.prefix_rfl, Nat.le_refl _⟩
  | validate block =>
      obtain ⟨tips, htips, rfl⟩ := Option.map_eq_some_iff.mp h
      exact hs.grow rfl rfl rfl (Tips.validate?_grows htips)
  | syncFilter =>
      obtain ⟨tips, htips, rfl⟩ := Option.map_eq_some_iff.mp h
      exact hs.grow rfl rfl rfl (Tips.syncFilter?_grows htips)
  | poll wireReady =>
      simp only [step] at h
      split at h
      · obtain rfl := Option.some.inj h
        exact hs
      · obtain ⟨published, -, rfl⟩ := Option.map_eq_some_iff.mp h
        exact hs.grow rfl rfl rfl (.refl _)
  | waitUntilReady =>
      simp only [step] at h
      split at h
      next hphase =>
        split at h
        · simp only [OnChain, hphase] at hs
          obtain rfl := Option.some.inj h
          exact hs
        · obtain rfl := Option.some.inj h
          exact hs
        all_goals
          obtain rfl := Option.some.inj h
          exact onChain_ended rfl
      · cases h
  | enableBlockForwarding =>
      simp only [step] at h
      split at h
      next hphase =>
        simp only [OnChain, hphase] at hs
        obtain rfl := Option.some.inj h
        exact hs
      · cases h
  | getFilterHeight => exact onChain_getFilterHeight hs h
  | matchFilters => exact onChain_matchFilters hs h
  | fetchBlocks => exact onChain_fetchBlocks hs h
  | scanBlock => exact onChain_scanBlock hs h
  | finishScan => exact onChain_finishScan hunpoisoned hs h
  | receive => exact onChain_receive hunpoisoned hs h
  | fail =>
      simp only [step] at h
      split at h
      · cases h
      · obtain rfl := Option.some.inj h
        exact onChain_ended rfl

/-- The deliveries of the blocks the loop took. -/
def deliveries (s : Handover σ) : List Recv :=
  s.taken.map fun taken => .block taken.block taken.height

theorem OnChain.scanContinuous (hs : OnChain g first s) {startHeight stopHeight : Nat}
    (hphase : s.phase = .looping startHeight stopHeight) :
    stopHeight < s.tips.chain.blocks.length ∧
      first.scanContinuous (g.still s.tips.chain stopHeight) g.kind s.deliveries =
        (.parked, s.client) := by
  simp only [OnChain, hphase] at hs
  obtain ⟨spks, hranged, hunbroken, hclient⟩ := hs
  have hscan := hranged.notifiedScan_still hunpoisoned hunbroken
  have hloop := receiveLoop_blocks hunpoisoned (s.taken.map Taken.delivery)
    (finished g s.tips.chain startHeight stopHeight spks first)
  rw [List.map_map, ← hclient] at hloop
  refine ⟨hranged.stop_lt, (andThen_of_ok (congrArg Prod.fst hscan) _).trans ?_⟩
  rw [hscan]
  exact hloop

theorem reached_onChain {tips : Tips} {published : State} {client : Client σ}
    {steps : List HandoverStep}
    (h : Runs.exec (step g) (start tips published client) steps = some s) :
    OnChain g client s := by
  have hstart : OnChain g client (start tips published client) := ⟨rfl, rfl⟩
  exact Runs.exec_invariant (fun _ _ _ hs hstep => onChain_step hunpoisoned hs hstep) hstart h

end step

end Handover
end BdkFloresta
