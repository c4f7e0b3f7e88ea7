import BdkFloresta.Client.Honest
import BdkFloresta.Node.Tips

/-!
A continuous scan beside a node that validates, syncs filters and publishes its
state, each in its own steps. The call runs statement by statement: each of its
steps is the function that the whole call is made of, applied to what the node
answers at that moment.
-/

namespace BdkFloresta

/-- What does not change during a run. -/
structure Setting where
  ov : Overflow
  filter : BlockFilter
  eventTx : Nat → EventSlot
  kind : ScanKind

/-- Where `scan_continuous` is, with the locals it has bound. -/
inductive Phase where
  | waiting
  | ready
  | forwarding
  | ranged (startHeight stopHeight : Nat) (spks : List ScriptBuf)
  | matched (startHeight stopHeight : Nat) (hashes : List BlockHash)
  | scanning (startHeight stopHeight : Nat) (blocks : List Block)
  | looping (startHeight stopHeight : Nat)
  | ended

namespace Phase

/-- The range given to `match_filters`. -/
def range : Phase → Option (Nat × Nat)
  | .ranged a b _ | .matched a b _ | .scanning a b _ | .looping a b => some (a, b)
  | _ => none

end Phase

/-- A block taken from the channel, with the calls of `apply_block_relevant` its
turn of the loop made. -/
structure Taken where
  block : Block
  height : Nat
  applications : List Application

def Taken.delivery (taken : Taken) : Block × Nat := (taken.block, taken.height)

def Taken.Applied (taken : Taken) : Prop :=
  ∃ a ∈ taken.applications, a.block = taken.block ∧ a.height = taken.height

/-- The call, the node and the channel between them. -/
structure Handover (σ : Type) where
  tips : Tips
  /-- The value of the state channel. -/
  published : State
  /-- The block sink holds a sender. -/
  forwarding : Bool
  /-- `block_receiver`. -/
  queue : List (Block × Nat)
  phase : Phase
  client : Client σ
  /-- The validated height when forwarding was enabled. -/
  enabledAt : Nat
  /-- Every block the loop took. -/
  taken : List Taken

inductive HandoverStep where
  | header
  | validate (block : Block)
  | syncFilter
  | poll (wireReady : Bool)
  | waitUntilReady
  | enableBlockForwarding
  | getFilterHeight
  | matchFilters
  | fetchBlocks
  | scanBlock
  | finishScan
  | receive
  | fail

namespace Handover
variable {σ : Type}

/-- The call begins, on a client with any wallet and any history. -/
def start (tips : Tips) (published : State) (client : Client σ) : Handover σ :=
  ⟨tips, published, false, [], .waiting, client, 0, []⟩

/-- What the call meets when its next statement runs at this moment. -/
def env (g : Setting) (s : Handover σ) : ScanEnv where
  ready := [(s.published, .changed)]
  node _ := { honestNode s.tips.chain g.filter s.tips.filterHeight with state := s.published }
  cancelled _ := false
  fetchParked := false
  eventTx := g.eventTx
  sinkPoisoned := false

/-- The call ends; its guard and its receiver are dropped. -/
def close (s : Handover σ) : Handover σ :=
  { s with phase := .ended, forwarding := false, queue := [] }

/-- Go to the phase with the client, unless the statement ended the call. -/
def proceed (s : Handover σ) (r : Exit × Client σ) (phase : Phase) : Handover σ :=
  match r with
  | (.ok, client) => { s with client, phase }
  | (_, client) => { s with client }.close

theorem proceed_cases (s : Handover σ) (r : Exit × Client σ) (phase : Phase) :
    r.1 = .ok ∧ s.proceed r phase = { s with client := r.2, phase } ∨
      r.1 ≠ .ok ∧ (s.proceed r phase).phase = .ended := by
  obtain ⟨exit, client⟩ := r
  cases exit with
  | ok => exact .inl ⟨rfl, rfl⟩
  | err e => exact .inr ⟨nofun, rfl⟩
  | parked => exact .inr ⟨nofun, rfl⟩
  | panicked => exact .inr ⟨nofun, rfl⟩

theorem proceed_of_ok (s : Handover σ) {r : Exit × Client σ} (h : r.1 = .ok) (phase : Phase) :
    s.proceed r phase = { s with client := r.2, phase } := by
  rcases s.proceed_cases r phase with ⟨-, heq⟩ | ⟨hne, -⟩
  · exact heq
  · exact absurd h hne

/-- A step of the node, or the next statement of the call. A poll whose tolerance
sum panics publishes nothing. -/
def step [BdkChain σ] (g : Setting) (s : Handover σ) :
    HandoverStep → Option (Handover σ)
  | .header => some { s with tips := s.tips.header }
  | .validate block =>
      (s.tips.validate? block).map fun tips =>
        -- `on_block`
        let queue := if s.forwarding then s.queue ++ [(block, tips.chain.height)] else s.queue
        { s with tips, queue }
  | .syncFilter => s.tips.syncFilter?.map fun tips => { s with tips }
  | .poll wireReady =>
      if s.published = .shuttingDown then some s
      else
        (computeNextState g.ov wireReady s.published s.tips.chain.height s.tips.chainHeight
          s.tips.filterHeight).map fun published => { s with published }
  | .waitUntilReady =>
      match s.phase with
      | .waiting =>
          match BdkFloresta.waitUntilReady (s.env g).ready with
          | .ok => some { s with phase := .ready }
          | .parked => some s
          | .err _ | .panicked => some s.close
      | _ => none
  | .enableBlockForwarding =>
      match s.phase with
      | .ready =>
          some { s with
            phase := .forwarding
            forwarding := true
            queue := []
            enabledAt := s.tips.chain.height }
      | _ => none
  | .getFilterHeight =>
      match s.phase with
      | .forwarding =>
          match s.client.scanStart g.kind, ((s.env g).node .filterHeight).getFilterHeight with
          | .ok (startHeight, spks), .ok stopHeight =>
              if startHeight > stopHeight then some s.close
              else some { s with phase := .ranged startHeight stopHeight spks }
          | _, _ => some s.close
      | _ => none
  | .matchFilters =>
      match s.phase with
      | .ranged startHeight stopHeight spks =>
          match ((s.env g).node .matchFilters).matchFilters spks startHeight stopHeight with
          | .ok hashes => some { s with phase := .matched startHeight stopHeight hashes }
          | .error _ => some s.close
      | _ => none
  | .fetchBlocks =>
      match s.phase with
      | .matched startHeight stopHeight hashes =>
          match Client.fetchMatching (s.env g) hashes with
          | .ok blocks => some { s with phase := .scanning startHeight stopHeight blocks }
          | .error _ => some s.close
      | _ => none
  | .scanBlock =>
      match s.phase with
      | .scanning startHeight stopHeight (block :: rest) =>
          match ((s.env g).node (.blockHeight 0)).getBlockHeight block.blockHash with
          | .ok height =>
              some (s.proceed (s.client.scanBlock g.eventTx block height)
                (.scanning startHeight stopHeight rest))
          | .error _ => some s.close
      | _ => none
  | .finishScan =>
      match s.phase with
      | .scanning startHeight stopHeight [] =>
          some (s.proceed
            (Client.andThen (s.client.finishScan (s.env g) stopHeight)
              (Client.sendEvent g.eventTx (.finished true)))
            (.looping startHeight stopHeight))
      | _ => none
  | .receive =>
      match s.phase, s.queue with
      | .looping startHeight stopHeight, (block, height) :: queue =>
          let r := s.client.receiveBlock g.eventTx block height
          let applications := r.2.applied.drop s.client.applied.length
          some (proceed { s with queue, taken := s.taken ++ [⟨block, height, applications⟩] } r
            (.looping startHeight stopHeight))
      | _, _ => none
  -- an error of the node's parts, a cancellation, a poisoned lock, a dropped future
  | .fail =>
      match s.phase with
      | .ended => none
      | _ => some s.close

end Handover
end BdkFloresta
