import Mathlib.Data.Finset.Card
import Mathlib.Data.Finset.Sort
import Mathlib.Data.Rat.Defs
import Mathlib.Algebra.Order.Ring.Rat
import Pylog.Base.Handler
import Pylog.Raft.Log

/-!
# Pylog.Raft.Node — the data of a `RaftNode` (raft.py:115–209)

Server ids, machine states and snapshot data are type variables `ι`, `σ`, `δ`.  What the
constructor fixes is `Params`; one call of a node also sees its id, the clock and the random draw
(`Self`); everything a handler can assign is `Node`.  A dict is the partial function `dict.get`
computes, a set is a `Finset`.

`Out` lists the effects of a call in the order of the source: file writes, log writes, sends.  Six
marks say which lines ran and change nothing: `campaign` (293–296), `lead` (318), `commit` (653,
664), `apply` (703, 706, 711), `reconfig` (383–395) and `accept` (479).
-/

namespace Pylog.Raft

open Effect

/-- A Python dict, as its `get`. -/
abbrev Dict (κ α : Type) := κ → Option α

/-- The state machine handed to a node.  `apply` says also whether it returned normally; KVStore
counts an operation before it can fail to decode it. -/
structure StateMachine (σ δ : Type) where
  init : σ
  apply : σ → Bytes → σ × Bool
  snapshot : σ → δ
  restore : δ → σ

/-- JSON of a server list: `dumps` is `json.dumps({"servers": l}).encode()`; `loads` is
`json.loads(text.decode()).get("servers", [])`, `none` when a step of it raises. -/
structure CfgCodec (ι : Type) where
  dumps : List ι → Bytes
  loads : Bytes → Option (List ι)

/-- `{"last_included_index": …, "last_included_term": …, "data": …}`. -/
structure Snapshot (δ : Type) where
  lastIncludedIndex : ℕ
  lastIncludedTerm : ℤ
  data : δ
  deriving DecidableEq

/-- The constructor arguments of a node. -/
structure Params (ι σ δ : Type) where
  peers : List ι
  electionMin : ℚ := 150
  electionMax : ℚ := 300
  heartbeatInterval : ℚ := 50
  quorumCheckInterval : ℚ := 600
  /-- `max_entries_per_append`; `0` is no limit. -/
  maxBatch : ℕ := 256
  usePrevote : Bool := true
  stateMachine : Option (StateMachine σ δ)
  /-- `{}`, sent when no snapshot was taken. -/
  emptyData : δ
  snapshotDir : Bool := false
  /-- `auto_snapshot_every`; `0` is off. -/
  autoSnapshotEvery : ℕ := 0
  json : CfgCodec ι

/-- What a call of a node sees besides its fields: the constructor arguments, its id, `clock()`
and the random draw in `[0, 1)`.  Only the last timer reset of a call is observable, so one draw
stands for all of them. -/
structure Self (ι σ δ : Type) extends Params ι σ δ where
  id : ι
  now : ℚ
  draw : ℚ

inductive Role
  | follower
  | candidate
  | leader
  deriving DecidableEq, Repr

inductive Msg (ι δ : Type)
  | prevote (term : ℕ) (candidate : ι) (lastIndex : ℕ) (lastTerm : ℤ)
  | prevoteResp (term : ℕ) (sender : ι) (granted : Bool)
  | vote (term : ℕ) (candidate : ι) (lastIndex : ℕ) (lastTerm : ℤ)
  | voteResp (term : ℕ) (sender : ι) (granted : Bool)
  | append (term : ℕ) (leader : ι) (prevIndex : ℕ) (prevTerm : ℤ) (entries : List Entry)
      (commit : ℕ)
  | appendResp (term : ℕ) (sender : ι) (success : Bool) (matchIndex : ℕ) (conflict : Option ℕ)
  | installSnapshot (term : ℕ) (leader : ι) (snapshot : Snapshot δ)
  | timeoutNow (term : ℕ)
  deriving DecidableEq

/-- The fields of a `RaftNode`, its `DurableState` and its files. -/
structure Node (ι σ δ : Type) where
  -- DurableState, equal to its file between calls
  currentTerm : ℕ := 0
  votedFor : Option ι := none
  log : RaftLog := {}
  /-- The files of `snapshot_dir`. -/
  snapshotFiles : List (Snapshot δ) := []
  -- membership
  peers : List ι
  config : Finset ι
  oldConfig : Option (Finset ι) := none
  jointIndex : ℕ := 0
  -- volatile state
  machine : Option σ
  lastSnapshot : Option (Snapshot δ) := none
  role : Role := .follower
  leaderId : Option ι := none
  preCandidate : Bool := false
  commitIndex : ℕ := 0
  appliedIndex : ℕ := 0
  electionDeadline : ℚ := 0
  votes : Finset ι := ∅
  nextIndex : Dict ι ℕ := fun _ => none
  matchIndex : Dict ι ℕ := fun _ => none
  lastPeerAck : Dict ι ℚ := fun _ => none
  lastLeaderContact : ℚ := 0
  nextHeartbeat : ℚ := 0
  nextQuorumCheck : ℚ := 0
  transferTarget : Option ι := none
  transferDeadline : ℚ := 0
  prevoteTerm : ℕ := 0

/-- The effects of a call, in order, and the marks. -/
inductive Out (ι σ δ : Type)
  /-- The tmp file of `save` is written and fsynced. -/
  | writeTmp (term : ℕ) (votedFor : Option ι)
  /-- `os.replace`: the save is durable. -/
  | replace (term : ℕ) (votedFor : Option ι)
  /-- The log was written. -/
  | store (log : RaftLog)
  /-- A snapshot file was replaced. -/
  | snapshotFile (s : Snapshot δ)
  | send (dest : ι) (m : Msg ι δ)
  /-- `_start_election`, with the node after the save. -/
  | campaign (n : Node ι σ δ)
  /-- `_become_leader`, with the node as its role changes. -/
  | lead (n : Node ι σ δ)
  /-- `_advance_commit` is about to set `commit_index` of `n` to `index`. -/
  | commit (index : ℕ) (n : Node ι σ δ)
  /-- `_apply_committed` moved `applied_index` to `index` over this entry. -/
  | apply (index : ℕ) (e : Entry)
  /-- `_propose_config` opened a joint phase at `index` in `term`. -/
  | reconfig (term index : ℕ) (old new : Finset ι)
  /-- `_on_append` merged a window of the leader of `term` up to `matchIndex`. -/
  | accept (term matchIndex : ℕ)

/-- Exceptions a handler can raise. -/
inductive Exn
  | keyError
  | applyError
  /-- A save failed. -/
  | osError
  deriving DecidableEq, Repr

/-- Effects so far, each with the node that did it. -/
abbrev History (ι σ δ : Type) := List (ι × Out ι σ δ)

/-- Code of a node. -/
abbrev Act (ι σ δ α : Type) := Handler (Node ι σ δ) (ι × Out ι σ δ) Exn α

end Pylog.Raft
