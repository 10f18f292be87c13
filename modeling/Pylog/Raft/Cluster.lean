import Pylog.Base.Transition
import Pylog.Raft.Handlers

/-!
# Pylog.Raft.Cluster — many nodes and a network

A cluster is the nodes and the history of everything they did.  A message is in flight once it was
sent and stays so: it may be delivered never, once or many times, in any order.  A run is a list of
events at any times; `Enabled` is what every event must meet, and each result adds the conditions
of the runs it is about.
-/

namespace Pylog.Raft

open Effect Effect.Handler Transition

variable {ι σ δ : Type} [LinearOrder ι]

/-- What survives a crash. -/
structure Durable (ι δ : Type) where
  currentTerm : ℕ := 0
  votedFor : Option ι := none
  log : RaftLog := {}
  snapshotFiles : List (Snapshot δ) := []

/-- The durable part of a node between two calls. -/
def Node.durable (n : Node ι σ δ) : Durable ι δ :=
  ⟨n.currentTerm, n.votedFor, n.log, n.snapshotFiles⟩

/-- An effect as the disk sees it.  The tmp file of a save is never read back. -/
def Durable.write (d : Durable ι δ) : Out ι σ δ → Durable ι δ
  | .replace term votedFor => { d with currentTerm := term, votedFor := votedFor }
  | .store log => { d with log := log }
  | .snapshotFile s => { d with
      snapshotFiles := s :: d.snapshotFiles.filter (fun f => f.lastIncludedIndex ≠ s.lastIncludedIndex) }
  | _ => d

/-- The file with the highest index: names are zero-padded and sorted in reverse. -/
def latestFile : List (Snapshot δ) → Option (Snapshot δ)
  | [] => none
  | s :: rest =>
    match latestFile rest with
    | some t => if s.lastIncludedIndex < t.lastIncludedIndex then some t else some s
    | none => some s

/-- `_load_snapshot_file`. -/
def Params.loadSnapshotFile (P : Params ι σ δ) (n : Node ι σ δ) : Node ι σ δ :=
  match P.stateMachine, latestFile n.snapshotFiles with
  | some sm, some s => { n with
      machine := some (sm.restore s.data)
      log := (n.log.compact s.lastIncludedIndex s.lastIncludedTerm).getD n.log
      commitIndex := max n.commitIndex s.lastIncludedIndex
      appliedIndex := max n.appliedIndex s.lastIncludedIndex
      lastSnapshot := some s }
  | _, _ => n

/-- `RaftNode.__init__` on what the disk holds. -/
def Params.boot (P : Params ι σ δ) (id : ι) (now draw : ℚ) (d : Durable ι δ) : Node ι σ δ :=
  let peers := P.peers.filter (· ≠ id)
  let n : Node ι σ δ :=
    { currentTerm := d.currentTerm
      votedFor := d.votedFor
      log := d.log
      snapshotFiles := d.snapshotFiles
      peers := peers
      config := insert id peers.toFinset
      machine := P.stateMachine.map StateMachine.init
      electionDeadline := now + (P.electionMin + (P.electionMax - P.electionMin) * draw) + 50 * draw }
  if P.snapshotDir then P.loadSnapshotFile n else n

/-- The entry points of a node. -/
inductive Call (ι δ : Type)
  | tick
  | handle (m : Msg ι δ)
  | propose (payload : Bytes)
  | transferLeadership (target : ι)
  | proposeAddServer (newId : ι)
  | proposeRemoveServer (rmId : ι)
  | takeSnapshot

def Self.call (self : Self ι σ δ) : Call ι δ → Act ι σ δ Unit
  | .tick => self.tick
  | .handle m => self.handle m
  | .propose payload => do let _ ← self.propose payload
  | .transferLeadership target => do let _ ← self.transferLeadership target
  | .proposeAddServer newId => do let _ ← self.proposeAddServer newId
  | .proposeRemoveServer rmId => do let _ ← self.proposeRemoveServer rmId
  | .takeSnapshot => do let _ ← self.takeSnapshot

/-- What can happen to a node: a call, a crash and restart between calls, or a crash inside a call,
after a number of its effects, with a restart. -/
inductive Action (ι δ : Type)
  | call (k : Call ι δ)
  | restart
  | crash (k : Call ι δ) (effects : ℕ)

/-- The call the action makes, to its end or not. -/
def Action.made : Action ι δ → Option (Call ι δ)
  | .call k => some k
  | .crash k _ => some k
  | .restart => none

/-- The message the action handles. -/
def Action.message (a : Action ι δ) : Option (Msg ι δ) :=
  match a.made with
  | some (.handle m) => some m
  | _ => none

structure Event (ι δ : Type) where
  node : ι
  now : ℚ
  draw : ℚ
  action : Action ι δ

/-- The servers of a cluster and what each is constructed with. -/
structure Setup (ι σ δ : Type) where
  servers : Finset ι
  params : ι → Params ι σ δ

structure Cluster (ι σ δ : Type) where
  node : ι → Node ι σ δ
  history : History ι σ δ

/-- The message was sent to `i`. -/
def InFlight (h : History ι σ δ) (i : ι) (m : Msg ι δ) : Prop := ∃ j, (j, Out.send i m) ∈ h

/-- The nodes with one replaced, and the history with what it did. -/
def Cluster.put (c : Cluster ι σ δ) (i : ι) (n : Node ι σ δ) (out : History ι σ δ) : Cluster ι σ δ :=
  ⟨Function.update c.node i n, c.history ++ out⟩

namespace Setup

variable (S : Setup ι σ δ)

/-- Every node fresh, at time `0`; a run may restart nodes first to draw other timers. -/
def init : Cluster ι σ δ := ⟨fun i => (S.params i).boot i 0 0 {}, []⟩

def self (e : Event ι δ) : Self ι σ δ :=
  { S.params e.node with id := e.node, now := e.now, draw := e.draw }

/-- The outcome of the call of an event at the node as it stands. -/
def outcome (c : Cluster ι σ δ) (e : Event ι δ) (k : Call ι δ) :
    Outcome (Node ι σ δ) (ι × Out ι σ δ) Exn Unit :=
  (S.self e).call k (c.node e.node)

/-- One event.  An exception leaves the node as it was when it was raised. -/
def step (c : Cluster ι σ δ) (e : Event ι δ) : Cluster ι σ δ :=
  match e.action with
  | .call k => c.put e.node (S.outcome c e k).state (S.outcome c e k).out
  | .restart => c.put e.node
      ((S.params e.node).boot e.node e.now e.draw (c.node e.node).durable) []
  | .crash k effects =>
    let out := (S.outcome c e k).out.take effects
    c.put e.node ((S.params e.node).boot e.node e.now e.draw
      (out.foldl (fun d o => d.write o.2) (c.node e.node).durable)) out

/-- The event is at a server, the draw is one of `random()`, a handled message was sent. -/
def Enabled (c : Cluster ι σ δ) (e : Event ι δ) : Prop :=
  e.node ∈ S.servers ∧ (0 ≤ e.draw ∧ e.draw < 1) ∧
    ∀ m ∈ e.action.message, InFlight c.history e.node m

end Setup

instance [DecidableEq δ] (h : History ι σ δ) (i : ι) (m : Msg ι δ) : Decidable (InFlight h i m) :=
  decidable_of_iff (h.any fun o => match o.2 with
    | .send d m' => decide (d = i ∧ m' = m)
    | _ => false) <| by
    rw [List.any_eq_true]
    constructor
    · rintro ⟨⟨j, o⟩, ho, hm⟩
      cases o with
      | send d m' =>
        obtain ⟨rfl, rfl⟩ := of_decide_eq_true hm
        exact ⟨j, ho⟩
      | _ => cases hm
    · rintro ⟨j, hj⟩
      exact ⟨_, hj, decide_eq_true ⟨rfl, rfl⟩⟩

instance [DecidableEq δ] (S : Setup ι σ δ) (c : Cluster ι σ δ) (e : Event ι δ) :
    Decidable (S.Enabled c e) :=
  inferInstanceAs (Decidable (_ ∧ _ ∧ ∀ m ∈ e.action.message, InFlight c.history e.node m))

/-- No crash inside a call. -/
def Action.whole : Action ι δ → Bool
  | .crash _ _ => false
  | _ => true

/-- The call asks for no membership change, by name or by a payload a server reads as one. -/
def Call.keepsMembership (S : Setup ι σ δ) : Call ι δ → Bool
  | .propose payload => decide (∀ i ∈ S.servers, (S.params i).configOf payload = none)
  | .proposeAddServer _ | .proposeRemoveServer _ => false
  | _ => true

/-- The event asks for no membership change. -/
def Event.KeepsMembership (S : Setup ι σ δ) (e : Event ι δ) : Prop :=
  ∀ k ∈ e.action.made, k.keepsMembership S = true

instance (S : Setup ι σ δ) (e : Event ι δ) : Decidable (e.KeepsMembership S) :=
  inferInstanceAs (Decidable (∀ k ∈ e.action.made, k.keepsMembership S = true))

/-- The call is not `take_snapshot`. -/
def Call.noSnapshot : Call ι δ → Bool
  | .takeSnapshot => false
  | _ => true

/-- Calls run to their end, and none is `take_snapshot`. -/
def Event.Plain (e : Event ι δ) : Prop :=
  e.action.whole = true ∧ ∀ k ∈ e.action.made, k.noSnapshot = true

instance (e : Event ι δ) : Decidable e.Plain :=
  inferInstanceAs (Decidable (_ ∧ ∀ k ∈ e.action.made, k.noSnapshot = true))

/-- Every server is constructed with all servers as its peers. -/
def Setup.FullMesh (S : Setup ι σ δ) : Prop :=
  ∀ i ∈ S.servers, ∀ p, p = i ∨ p ∈ (S.params i).peers ↔ p ∈ S.servers

/-- No server takes snapshots on its own. -/
def Setup.NoAutoSnapshot (S : Setup ι σ δ) : Prop :=
  ∀ i ∈ S.servers, (S.params i).autoSnapshotEvery = 0

/-- Pre-vote is switched off everywhere. -/
def Setup.PrevoteOff (S : Setup ι σ δ) : Prop :=
  ∀ i ∈ S.servers, (S.params i).usePrevote = false

end Pylog.Raft
