import Mathlib.Data.List.MinMax
import Pylog.Raft.Cluster

/-!
# Pylog.Sim.Cluster — the simulator (sim.py)

`SimCluster` runs nodes on a virtual clock: `step` fires the next timer or takes the next message
from a queue, and faults are injected between steps.  The nodes and the history of what they did are
those of `Raft.Cluster`; a node is handed its calls by the simulator only.  Ids are non-empty
strings, so every id is true in a condition, and `0` is the time of the start.

The seeded generators are the draws of the operations.  What only the helpers of tests read
(`state_machines`, `leader`, `run_until`, …) is left out.
-/

namespace Pylog.Sim

open Pylog.Raft Effect

variable {ι σ δ : Type} [LinearOrder ι]

/-- The constructor arguments of a `SimCluster`. -/
structure Scenario (ι σ δ : Type) where
  nodeIds : List ι
  electionMin : ℚ := 150
  electionMax : ℚ := 300
  heartbeatInterval : ℚ := 50
  latency : ℚ := 1
  usePrevote : Bool := true
  /-- `KVStore()`. -/
  stateMachine : StateMachine σ δ
  emptyData : δ
  json : CfgCodec ι

/-- An entry of the heap.  The source keeps no `sender`: it is the node whose transport pushed the
message. -/
structure Parcel (ι δ : Type) where
  due : ℚ
  seq : ℕ
  dest : ι
  msg : Msg ι δ
  sender : ι
  deriving DecidableEq

structure SimCluster (ι σ δ : Type) extends Cluster ι σ δ where
  clock : ℚ := 0
  /-- The heap, in the order in which it is popped. -/
  queue : List (Parcel ι δ) := []
  seq : ℕ := 0
  /-- A set of frozensets of two ids. -/
  partitioned : Finset (Finset ι) := ∅
  crashed : Finset ι := ∅

/-- The pair `frozenset((a, b))` is partitioned. -/
def SimCluster.apart (c : SimCluster ι σ δ) (a b : ι) : Bool := decide ({a, b} ∈ c.partitioned)

/-- `(node_id, index, payload)` of `_record_apply`, which is not called for config entries. -/
def recorded : ι × Out ι σ δ → Option (ι × ℕ × Bytes)
  | (i, .apply _ e) => if isCfg e.payload then none else some (i, e.index, e.payload)
  | _ => none

/-- `self.applied`, without the results. -/
def SimCluster.applied (c : SimCluster ι σ δ) : List (ι × ℕ × Bytes) := c.history.filterMap recorded

/-- `next_event_due` (raft.py:231). -/
def nextEventDue (n : Node ι σ δ) : ℚ :=
  if n.role = .leader then
    let due := min n.nextHeartbeat n.nextQuorumCheck
    if n.transferTarget.isSome then min due n.transferDeadline else due
  else n.electionDeadline

/-- `msg.get("candidate") or msg.get("leader") or msg.get("from")`. -/
def source : Msg ι δ → Option ι
  | .prevote _ candidate _ _ => some candidate
  | .vote _ candidate _ _ => some candidate
  | .append _ leader _ _ _ _ => some leader
  | .installSnapshot _ leader _ => some leader
  | .prevoteResp _ sender _ => some sender
  | .voteResp _ sender _ => some sender
  | .appendResp _ sender _ _ _ => some sender
  | .timeoutNow _ => none

/-- `src and frozenset((src, dest)) in self.partitioned`. -/
def SimCluster.cut (c : SimCluster ι σ δ) (p : Parcel ι δ) : Bool :=
  match source p.msg with
  | some src => c.apart src p.dest
  | none => false

/-- What a call of `step` finds. -/
inductive Turn (ι δ : Type)
  | idle
  | timer (i : ι)
  | message (p : Parcel ι δ) (rest : List (Parcel ι δ))
  deriving DecidableEq

/-- The operations of a simulation: `client` is a call of the client API of a node. -/
inductive Op (ι δ : Type)
  | step (draw : ℚ)
  | client (i : ι) (draw : ℚ) (k : Call ι δ)
  | crash (i : ι)
  | restart (i : ι) (draw : ℚ)
  | partition (a b : ι)
  | heal (a b : ι)

/-- A call of the client API. -/
def byClient : Call ι δ → Bool
  | .tick | .handle _ => false
  | _ => true

namespace Scenario

variable (S : Scenario ι σ δ)

/-- The arguments of `_build_node`; `quorum_check_ms` has its default. -/
def params : Params ι σ δ :=
  { peers := S.nodeIds
    electionMin := S.electionMin
    electionMax := S.electionMax
    heartbeatInterval := S.heartbeatInterval
    quorumCheckInterval := S.electionMax * 2
    usePrevote := S.usePrevote
    stateMachine := some S.stateMachine
    emptyData := S.emptyData
    json := S.json }

def setup : Setup ι σ δ := ⟨S.nodeIds.toFinset, fun _ => S.params⟩

/-- `__init__`: the logs are empty, so no node has anything to commit. -/
def start : SimCluster ι σ δ := { S.setup.init with }

/-- `SimTransport.send`. -/
def transmit (c : SimCluster ι σ δ) : ι × Out ι σ δ → SimCluster ι σ δ
  | (sender, .send dest msg) => { c with
      queue := c.queue.orderedInsert (·.due < ·.due)
        ⟨c.clock + S.latency, c.seq + 1, dest, msg, sender⟩
      seq := c.seq + 1 }
  | _ => c

/-- A call at a node: what it sends is put into the queue. -/
def call (c : SimCluster ι σ δ) (i : ι) (draw : ℚ) (k : Call ι δ) : SimCluster ι σ δ :=
  let e : Event ι δ := ⟨i, c.clock, draw, .call k⟩
  let o := S.setup.outcome c.toCluster e k
  o.out.foldl S.transmit { c with toCluster := S.setup.step c.toCluster e }

/-! ### The event loop -/

/-- The first of the live nodes whose timer is due first. -/
def dueNode (c : SimCluster ι σ δ) : Option ι :=
  (S.nodeIds.filter (· ∉ c.crashed)).argmin fun i => nextEventDue (c.node i)

def turn (c : SimCluster ι σ δ) : Turn ι δ :=
  match S.dueNode c, c.queue with
  | none, [] => .idle
  | some i, [] => .timer i
  | none, p :: rest => .message p rest
  | some i, p :: rest => if nextEventDue (c.node i) ≤ p.due then .timer i else .message p rest

/-- The destination is up. -/
def up (c : SimCluster ι σ δ) (i : ι) : Bool := decide (i ∉ c.crashed) && S.nodeIds.contains i

def step (c : SimCluster ι σ δ) (draw : ℚ) : SimCluster ι σ δ :=
  match S.turn c with
  | .idle => c
  | .timer i => S.call { c with clock := max c.clock (nextEventDue (c.node i)) } i draw .tick
  | .message p rest =>
    let c' := { c with clock := max c.clock p.due, queue := rest }
    if S.up c p.dest = false then c'
    else if c.cut p = true then c'
    else S.call c' p.dest draw (.handle p.msg)

/-! ### Faults -/

/-- The node `restart` builds, before it applies anything: on the log, term and vote of the old one,
with the whole log committed.  `_apply_committed` does not read term and vote, which the source
copies after it. -/
def rebuilt (c : SimCluster ι σ δ) (i : ι) (draw : ℚ) : Node ι σ δ :=
  { S.params.boot i c.clock draw (c.node i).durable with
    commitIndex := (c.node i).log.lastIndex
    appliedIndex := 0 }

/-- The `_apply_committed` of `_build_node`. -/
def rebuild (c : SimCluster ι σ δ) (i : ι) (draw : ℚ) :
    Outcome (Node ι σ δ) (ι × Out ι σ δ) Exn Unit :=
  Self.applyCommitted { S.params with id := i, now := c.clock, draw := draw } (S.rebuilt c i draw)

/-- `restart`.  If an entry cannot be applied the old node stays. -/
def restart (c : SimCluster ι σ δ) (i : ι) (draw : ℚ) : SimCluster ι σ δ :=
  let o := S.rebuild c i draw
  let n := match o.result with
    | .ok _ => o.state
    | .error _ => c.node i
  { c with toCluster := c.put i n o.out, crashed := c.crashed.erase i }

def next (c : SimCluster ι σ δ) : Op ι δ → SimCluster ι σ δ
  | .step draw => S.step c draw
  | .client i draw k => S.call c i draw k
  | .crash i => { c with crashed := insert i c.crashed }
  | .restart i draw => S.restart c i draw
  | .partition a b => { c with partitioned := insert {a, b} c.partitioned }
  | .heal a b => { c with partitioned := c.partitioned.erase {a, b} }

/-- Calls and restarts are at nodes of the cluster, the draw is one of `random()`. -/
def Legal (_ : SimCluster ι σ δ) : Op ι δ → Prop
  | .step draw => 0 ≤ draw ∧ draw < 1
  | .client i draw k => i ∈ S.nodeIds ∧ (0 ≤ draw ∧ draw < 1) ∧ byClient k = true
  | .restart i draw => i ∈ S.nodeIds ∧ 0 ≤ draw ∧ draw < 1
  | _ => True

end Scenario

end Pylog.Sim
