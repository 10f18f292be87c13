import Mathlib.Data.List.Sort
import Pylog.Raft.Node

/-!
# Pylog.Raft.Handlers — the code of `RaftNode` (raft.py:213–806)

Every method of the source under its own name, in the order in which the methods call each other.
Methods without effects are functions of the `Node`; the others are `Act`s of a `Self`.
-/

namespace Pylog.Raft

open Effect Effect.Handler

variable {ι σ δ : Type} [LinearOrder ι]

/-- `sorted(s)` for a set of ids. -/
def sortedIds (s : Finset ι) : List ι :=
  Quot.liftOn s.val (List.insertionSort (· ≤ ·)) fun _ _ h =>
    ((List.perm_insertionSort _ _).trans (h.trans (List.perm_insertionSort _ _).symm)).eq_of_pairwise'
      (List.pairwise_insertionSort _ _) (List.pairwise_insertionSort _ _)

/-- `b"__raft_noop__"`. -/
def noop : Bytes := [95, 95, 114, 97, 102, 116, 95, 110, 111, 111, 112, 95, 95]

/-- `b"__cfg:"`. -/
def cfgTag : Bytes := [95, 95, 99, 102, 103, 58]

/-- `is_cfg`: the payload starts with `b"__cfg:"`. -/
def isCfg (payload : Bytes) : Bool := cfgTag.isPrefixOf payload

/-- The non-empty server set a config payload carries; `none` when it cannot be decoded. -/
def Params.configOf (P : Params ι σ δ) (payload : Bytes) : Option (Finset ι) :=
  if isCfg payload then
    match P.json.loads (payload.drop 6) with
    | some (p :: ps) => some (p :: ps).toFinset
    | _ => none
  else none

/-! ### Methods that only read -/

/-- Python's `(a, b) >= (c, d)`. -/
def atLeast (p q : ℤ × ℕ) : Bool := decide (q.1 < p.1 ∨ q.1 = p.1 ∧ q.2 ≤ p.2)

namespace Node

/-- `_progress`: `(last_term, last_index)`, snapshot-aware. -/
def progress (n : Node ι σ δ) : ℤ × ℕ :=
  if n.log.lastIndex = 0 ∧ 0 < n.log.snapshotLastIndex then
    (n.log.snapshotLastTerm, n.log.snapshotLastIndex)
  else (n.log.lastTerm, n.log.lastIndex)

/-- `_has_majority`. -/
def hasMajority (n : Node ι σ δ) (voters : Finset ι) : Bool :=
  match n.oldConfig with
  | some old => decide (old.card / 2 + 1 ≤ (voters ∩ old).card ∧
      n.config.card / 2 + 1 ≤ (voters ∩ n.config).card)
  | none => decide (n.config.card / 2 < voters.card)

/-- `match_index[p] >= candidate`, for a `p` in the dict. -/
def holds (n : Node ι σ δ) (candidate : ℕ) (p : ι) : Bool :=
  match n.matchIndex p with
  | some mi => decide (candidate ≤ mi)
  | none => false

/-- The test of `_advance_commit` at one index. -/
def canCommit (id : ι) (n : Node ι σ δ) (candidate : ℕ) : Bool :=
  decide (n.log.termAt candidate = (n.currentTerm : ℤ)) &&
  match n.oldConfig with
  | some old => decide (
      old.card / 2 + 1 ≤ (if id ∈ old then 1 else 0) + (old.filter (n.holds candidate ·)).card ∧
      n.config.card / 2 + 1 ≤ 1 + (n.config.filter (n.holds candidate ·)).card)
  | none => decide (n.config.card / 2 + 1 ≤ 1 + (n.config.filter (n.holds candidate ·)).card)

/-- `for candidate in range(last_index, commit_index, -1)`: the first index that can be committed. -/
def findCommit (id : ι) (n : Node ι σ δ) : Option ℕ :=
  (List.range' (n.commitIndex + 1) (n.log.lastIndex - n.commitIndex)).reverse.find? (n.canCommit id)

/-- The config branch of `_apply_committed`: adopt `servers` and bring the tracking dicts in line. -/
def adoptConfig (id : ι) (now : ℚ) (n : Node ι σ δ) (servers : Finset ι) : Node ι σ δ :=
  let fresh : ι → Bool := fun p => decide (p ∈ servers ∧ p ≠ id) && (n.nextIndex p).isNone
  let next : Dict ι ℕ := fun p => if fresh p then some (n.log.lastIndex + 1) else n.nextIndex p
  let gone : ι → Bool := fun p => (next p).isSome && decide (p ∉ servers)
  { n with
    config := servers
    peers := sortedIds (servers.erase id)
    nextIndex := fun p => if gone p then none else next p
    matchIndex := fun p => if gone p then none else if fresh p then some 0 else n.matchIndex p
    lastPeerAck := fun p => if gone p then none else if fresh p then some now else n.lastPeerAck p
    oldConfig := none
    jointIndex := 0 }

end Node

namespace Self

variable (self : Self ι σ δ)

/-- A peer acknowledged within the window; `-1e18` stands for never. -/
def fresh (n : Node ι σ δ) (window : ℚ) (p : ι) : Bool :=
  decide (p ≠ self.id ∧ self.now - (n.lastPeerAck p).getD (-1000000000000000000) ≤ window)

/-- The joint-aware count of `_check_quorum` and `can_serve_linearizable_read`: a majority
acknowledged within the window. -/
def majorityFresh (n : Node ι σ δ) (window : ℚ) : Bool :=
  match n.oldConfig with
  | some old => decide (
      old.card / 2 < (old.filter (self.fresh n window ·)).card + (if self.id ∈ old then 1 else 0) ∧
      n.config.card / 2 < (n.config.filter (self.fresh n window ·)).card + 1)
  | none => decide (n.config.card / 2 < 1 + (n.config.filter (self.fresh n window ·)).card)

/-- `can_serve_linearizable_read`. -/
def canServeLinearizableRead (n : Node ι σ δ) : Bool :=
  decide (n.role = .leader) && self.majorityFresh n self.electionMin

/-- The message `_send_append` builds for a peer. -/
def appendMsg (n : Node ι σ δ) (peer : ι) : Msg ι δ :=
  let ni := (n.nextIndex peer).getD (n.log.lastIndex + 1)
  if ni < n.log.firstIndex then
    .installSnapshot n.currentTerm self.id
      (n.lastSnapshot.getD ⟨n.log.snapshotLastIndex, n.log.snapshotLastTerm, self.emptyData⟩)
  else
    .append n.currentTerm self.id (ni - 1) (n.log.termAt (ni - 1))
      (n.log.entriesFrom ni self.maxBatch) n.commitIndex

/-! ### Effects -/

def emit (o : Out ι σ δ) : Act ι σ δ Unit := Handler.emit (self.id, o)

def send (dest : ι) (m : Msg ι δ) : Act ι σ δ Unit := self.emit (.send dest m)

/-- `DurableState.save`: fields first, then tmp file, then `os.replace`. -/
def save (term : ℕ) (votedFor : Option ι) : Act ι σ δ Unit := do
  update fun n => { n with currentTerm := term, votedFor := votedFor }
  self.emit (.writeTmp term votedFor)
  self.emit (.replace term votedFor)

/-- Every change of `self.log.entries`. -/
def setLog (l : RaftLog) : Act ι σ δ Unit := do
  update fun n => { n with log := l }
  self.emit (.store l)

/-- `now + rng.uniform(election_min, election_max)`. -/
def deadline : ℚ :=
  self.now + (self.electionMin + (self.electionMax - self.electionMin) * self.draw)

/-- `_reset_election_deadline`. -/
def resetElectionDeadline : Act ι σ δ Unit :=
  update fun n => { n with electionDeadline := self.deadline }

def sendAppend (peer : ι) : Act ι σ δ Unit := do
  let n ← read
  self.send peer (self.appendMsg n peer)

def sendAllAppends : Act ι σ δ Unit := do
  let n ← read
  each self.sendAppend n.peers

/-! ### Snapshots -/

/-- `_write_snapshot_file`: one file per index. -/
def writeSnapshotFile (s : Snapshot δ) : Act ι σ δ Unit :=
  when (self.snapshotDir = true) do
    update fun n => { n with
      snapshotFiles := s :: n.snapshotFiles.filter (fun f => f.lastIncludedIndex ≠ s.lastIncludedIndex) }
    self.emit (.snapshotFile s)

/-- The snapshot `take_snapshot` builds; `none` when it refuses. -/
def snapshotOf (n : Node ι σ δ) : Option (Snapshot δ) :=
  match self.stateMachine, n.machine with
  | some sm, some s =>
    if n.appliedIndex = 0 then none
    else
      let term := n.log.termAt n.appliedIndex
      some ⟨n.appliedIndex,
        if term < 0 ∧ n.log.snapshotLastIndex = n.appliedIndex then n.log.snapshotLastTerm else term,
        sm.snapshot s⟩
  | _, _ => none

/-- The end of `take_snapshot`: compact the log where `compact` accepts it. -/
def compactLog (s : Snapshot δ) : Act ι σ δ Unit := do
  let n ← read
  match n.log.compact s.lastIncludedIndex s.lastIncludedTerm with
  | some l => self.setLog l
  | none => pure ()

def takeSnapshot : Act ι σ δ (Option (Snapshot δ)) := do
  let n ← read
  match self.snapshotOf n with
  | none => pure none
  | some snap =>
    self.writeSnapshotFile snap
    update fun n => { n with lastSnapshot := some snap }
    self.compactLog snap
    pure (some snap)

/-! ### Commit and apply -/

/-- `self.applied_index = nxt`. -/
def setApplied (e : Entry) : Act ι σ δ Unit := do
  let n ← read
  update fun n => { n with appliedIndex := n.appliedIndex + 1 }
  self.emit (.apply (n.appliedIndex + 1) e)

/-- `state_machine.apply(payload)`, skipped for empty payloads and no-ops. -/
def applyPayload (sm : StateMachine σ δ) (s : σ) (payload : Bytes) : Act ι σ δ Unit :=
  when (payload ≠ [] ∧ noop.isPrefixOf payload = false) do
    update fun n => { n with machine := some (sm.apply s payload).1 }
    when ((sm.apply s payload).2 = false) (raise .applyError)

/-- The body of the loop of `_apply_committed` for the entry at `applied_index + 1`. -/
def applyEntry (e : Entry) : Act ι σ δ Unit := do
  let n ← read
  if isCfg e.payload then
    match self.configOf e.payload with
    | some servers =>
      update fun n => n.adoptConfig self.id self.now servers
      self.setApplied e
    | none => self.setApplied e
  else
    match self.stateMachine, n.machine with
    | some sm, some s =>
      applyPayload sm s e.payload
      self.setApplied e
    | _, _ => self.setApplied e

/-- The loop of `_apply_committed`; the first argument bounds the iterations left.  `false`: it
returned from inside. -/
def applyLoop : ℕ → Act ι σ δ Bool
  | 0 => pure true
  | k + 1 => do
    let n ← read
    if n.appliedIndex < n.commitIndex then
      match n.log.get (n.appliedIndex + 1) with
      | some e =>
        self.applyEntry e
        applyLoop k
      | none =>
        if n.machine.isNone then
          update fun n => { n with appliedIndex := n.commitIndex }
          pure false
        else pure true
    else pure true

/-- The automatic snapshot at the end of `_apply_committed`. -/
def autoSnapshot : Act ι σ δ Unit := do
  let n ← read
  when (self.autoSnapshotEvery ≠ 0 ∧ self.snapshotDir = true ∧
      self.autoSnapshotEvery ≤
        n.appliedIndex - (n.lastSnapshot.map Snapshot.lastIncludedIndex).getD 0)
    (do let _ ← self.takeSnapshot)

def applyCommitted : Act ι σ δ Unit := do
  let n ← read
  let done ← self.applyLoop (n.commitIndex - n.appliedIndex)
  when (done = true) self.autoSnapshot

/-- `self.commit_index = candidate`, in `_advance_commit`. -/
def setCommit (candidate : ℕ) : Act ι σ δ Unit := do
  let n ← read
  self.emit (.commit candidate n)
  update fun n => { n with commitIndex := candidate }

def advanceCommit : Act ι σ δ Unit := do
  let n ← read
  match n.findCommit self.id with
  | some candidate =>
    self.setCommit candidate
    self.applyCommitted
  | none => pure ()

/-! ### Client API -/

/-- `self.log.append_entry(self.persister.current_term, payload)`. -/
def appendEntry (payload : Bytes) : Act ι σ δ Unit := do
  let n ← read
  self.setLog (n.log.appendEntry n.currentTerm payload)

def propose (payload : Bytes) : Act ι σ δ (Option ℕ) := do
  let n ← read
  if n.role ≠ .leader ∨ n.transferTarget.isSome then pure none
  else
    self.appendEntry payload
    self.advanceCommit
    self.sendAllAppends
    pure (some (n.log.lastIndex + 1))

def transferLeadership (target : ι) : Act ι σ δ Bool := do
  let n ← read
  if n.role ≠ .leader ∨ target ∉ n.peers then pure false
  else
    update fun n => { n with
      transferTarget := some target
      transferDeadline := self.now + self.electionMax * 2 }
    self.send target (.timeoutNow n.currentTerm)
    pure true

/-- Lines 383–393: the node in the joint phase `old ∪ new`. -/
def joint (n : Node ι σ δ) (newServers : Finset ι) : Node ι σ δ :=
  let fresh : ι → Bool := fun p => decide (p ∈ newServers ∧ p ≠ self.id) && (n.nextIndex p).isNone
  { n with
    oldConfig := some n.config
    config := n.config ∪ newServers
    jointIndex := n.log.lastIndex + 1
    nextIndex := fun p => if fresh p then some (n.log.lastIndex + 1) else n.nextIndex p
    matchIndex := fun p => if fresh p then some 0 else n.matchIndex p
    lastPeerAck := fun p => if fresh p then some self.now else n.lastPeerAck p
    peers := sortedIds ((n.config ∪ newServers).erase self.id) }

/-- Lines 380–395: enter the joint phase unless in one, and append the config entry. -/
def openJoint (newServers : Finset ι) : Act ι σ δ Unit := do
  let n ← read
  when (n.oldConfig = none) do
    update fun n => self.joint n newServers
    self.emit (.reconfig n.currentTerm (n.log.lastIndex + 1) n.config newServers)
  self.appendEntry (cfgTag ++ self.json.dumps (sortedIds newServers))

/-- `_propose_config`. -/
def proposeConfig (newServers : Finset ι) : Act ι σ δ (Option ℕ) := do
  let n ← read
  self.openJoint newServers
  self.advanceCommit
  self.sendAllAppends
  pure (some (n.log.lastIndex + 1))

def proposeAddServer (newId : ι) : Act ι σ δ (Option ℕ) := do
  let n ← read
  if n.role ≠ .leader ∨ newId ∈ n.config ∨ n.oldConfig ≠ none then pure none
  else self.proposeConfig (n.config ∪ {newId})

def proposeRemoveServer (rmId : ι) : Act ι σ δ (Option ℕ) := do
  let n ← read
  if n.role ≠ .leader ∨ rmId ∉ n.config ∨ rmId = self.id ∨ n.oldConfig ≠ none then pure none
  else if n.config.card ≤ 2 then pure none
  else self.proposeConfig (n.config \ {rmId})

/-! ### Elections -/

/-- Lines 318–329. -/
def takeOffice : Act ι σ δ Unit := do
  update fun n => { n with
    role := .leader
    leaderId := some self.id
    preCandidate := false
    transferTarget := none
    transferDeadline := 0
    matchIndex := fun p => if p ∈ n.peers then some 0 else none
    nextIndex := fun p => if p ∈ n.peers then some (n.log.lastIndex + 1) else none
    lastPeerAck := fun p => if p ∈ n.peers then some self.now else n.lastPeerAck p }
  let n ← read
  self.emit (.lead n)

/-- `_become_leader`. -/
def becomeLeader : Act ι σ δ Unit := do
  self.takeOffice
  let n ← read
  when (n.machine.isSome = true) (do let _ ← self.propose noop)
  self.sendAllAppends
  update fun n => { n with
    nextHeartbeat := self.now + self.heartbeatInterval
    nextQuorumCheck := self.now + self.quorumCheckInterval }

/-- Lines 293–297: the term is saved with a vote for itself before anything else. -/
def becomeCandidate : Act ι σ δ Unit := do
  let n ← read
  self.save (n.currentTerm + 1) (some self.id)
  update fun n => { n with role := .candidate, leaderId := none, votes := {self.id} }
  self.resetElectionDeadline
  let n ← read
  self.emit (.campaign n)

/-- `_start_election`. -/
def startElection : Act ι σ δ Unit := do
  self.becomeCandidate
  let n ← read
  each (fun p => self.send p (.vote n.currentTerm self.id n.progress.2 n.progress.1)) n.peers
  when (n.peers = [] ∨ (n.peers.length + 1) / 2 < n.votes.card) self.becomeLeader

def startPrevoteOrElection : Act ι σ δ Unit := do
  let n ← read
  if self.usePrevote = true ∧ n.preCandidate = false then
    update fun n => { n with
      preCandidate := true, prevoteTerm := n.currentTerm + 1, votes := {self.id} }
    each (fun p => self.send p (.prevote (n.currentTerm + 1) self.id n.progress.2 n.progress.1)) n.peers
    self.resetElectionDeadline
  else
    update fun n => { n with preCandidate := false }
    self.startElection

/-- `_step_down`: the term is saved when it is newer; the vote set is left as it is. -/
def stepDown (term : ℕ) : Act ι σ δ Unit := do
  let n ← read
  when (n.currentTerm < term) (self.save term none)
  update fun n => { n with
    role := .follower, preCandidate := false, transferTarget := none, transferDeadline := 0 }
  self.resetElectionDeadline

/-- `_check_quorum`. -/
def checkQuorum : Act ι σ δ Unit := do
  let n ← read
  when (self.majorityFresh n (self.electionMax * 2) = false) (self.stepDown n.currentTerm)

def tick : Act ι σ δ Unit := do
  let n ← read
  if n.role = .leader then
    when (n.transferTarget.isSome = true ∧ n.transferDeadline ≤ self.now) do
      update fun n => { n with transferTarget := none, transferDeadline := 0 }
      self.sendAllAppends
    when (n.nextHeartbeat ≤ self.now) do
      self.sendAllAppends
      update fun n => { n with nextHeartbeat := self.now + self.heartbeatInterval }
    when (n.nextQuorumCheck ≤ self.now) do
      self.checkQuorum
      update fun n => { n with nextQuorumCheck := self.now + self.quorumCheckInterval }
  else when (n.electionDeadline ≤ self.now) self.startPrevoteOrElection

/-! ### Inbound messages -/

def onPrevote (term : ℕ) (candidate : ι) (lastIndex : ℕ) (lastTerm : ℤ) : Act ι σ δ Unit := do
  let n ← read
  let upToDate := atLeast (lastTerm, lastIndex) n.progress
  let leaderAlive := decide (self.now - n.lastLeaderContact < self.electionMax * 2)
  let grant := decide (n.currentTerm < term) && upToDate &&
    !(decide (n.role = .follower) && n.leaderId.isSome && leaderAlive)
  self.send candidate (.prevoteResp term self.id grant)

def onPrevoteResp (term : ℕ) (sender : ι) (granted : Bool) : Act ι σ δ Unit := do
  let n ← read
  if n.preCandidate = false ∨ term ≠ n.prevoteTerm then pure ()
  else
    when (granted = true) (update fun n => { n with votes := insert sender n.votes })
    let n ← read
    if n.hasMajority n.votes = true then
      update fun n => { n with preCandidate := false }
      self.startElection
    else when (granted = false) self.resetElectionDeadline

def onVote (term : ℕ) (candidate : ι) (lastIndex : ℕ) (lastTerm : ℤ) : Act ι σ δ Unit := do
  let n ← read
  if term < n.currentTerm then
    self.send candidate (.voteResp n.currentTerm self.id false)
  else
    when (n.currentTerm < term) (self.stepDown term)
    let n ← read
    if (n.votedFor = none ∨ n.votedFor = some candidate) ∧
        atLeast (lastTerm, lastIndex) n.progress = true then
      self.save n.currentTerm (some candidate)
      self.resetElectionDeadline
      self.send candidate (.voteResp n.currentTerm self.id true)
    else
      self.send candidate (.voteResp n.currentTerm self.id false)

def onVoteResp (term : ℕ) (sender : ι) (granted : Bool) : Act ι σ δ Unit := do
  let n ← read
  if n.role ≠ .candidate ∨ term ≠ n.currentTerm then pure ()
  else when (granted = true) do
    update fun n => { n with votes := insert sender n.votes }
    let n ← read
    when (n.role = .candidate ∧ n.hasMajority n.votes = true) self.becomeLeader

/-- Lines 479–481: merge the window and take over the commit index. -/
def mergeWindow (prevIndex : ℕ) (prevTerm : ℤ) (entries : List Entry) :
    Act ι σ δ RaftLog.Merged := do
  let n ← read
  let r := n.log.merge prevIndex prevTerm entries
  self.setLog r.log
  when (r.ok = true) (self.emit (.accept n.currentTerm r.matchIndex))
  pure r

def onAppend (term : ℕ) (leader : ι) (prevIndex : ℕ) (prevTerm : ℤ) (entries : List Entry)
    (commit : ℕ) : Act ι σ δ Unit := do
  let n ← read
  if term < n.currentTerm then
    self.send leader (.appendResp n.currentTerm self.id false 0 none)
  else
    when (n.currentTerm < term ∨ n.role ≠ .follower) (self.stepDown term)
    update fun n => { n with
      role := .follower, leaderId := some leader, lastLeaderContact := self.now }
    self.resetElectionDeadline
    let r ← self.mergeWindow prevIndex prevTerm entries
    let n ← read
    when (r.ok = true ∧ n.commitIndex < commit) do
      update fun n => { n with commitIndex := min commit n.log.lastIndex }
      self.applyCommitted
    let n ← read
    self.send leader (.appendResp n.currentTerm self.id r.ok (if r.ok then r.matchIndex else 0)
      (some r.conflict))

/-- The success branch of `_on_append_resp`. -/
def onAck (sender : ι) (matchIndex : ℕ) : Act ι σ δ Unit := do
  let n ← read
  match n.matchIndex sender with
  | none => raise .keyError
  | some mi =>
    update fun n => { n with
      matchIndex := Function.update n.matchIndex sender (some (max mi matchIndex))
      nextIndex := Function.update n.nextIndex sender (some (max mi matchIndex + 1)) }
    self.advanceCommit

/-- The failure branch of `_on_append_resp`: back off to the hint. -/
def onNack (sender : ι) (conflict : Option ℕ) : Act ι σ δ Unit := do
  let n ← read
  match n.nextIndex sender with
  | none => raise .keyError
  | some ni =>
    let hint := match conflict with
      | some (h + 1) => h + 1
      | _ => ni - 1
    update fun n => { n with
      nextIndex := Function.update n.nextIndex sender (some (max 1 (min (ni - 1) hint))) }
    self.sendAppend sender

def onAppendResp (term : ℕ) (sender : ι) (success : Bool) (matchIndex : ℕ) (conflict : Option ℕ) :
    Act ι σ δ Unit := do
  let n ← read
  if n.role ≠ .leader ∨ term ≠ n.currentTerm then
    when (n.currentTerm < term) (self.stepDown term)
  else
    update fun n => { n with lastPeerAck := Function.update n.lastPeerAck sender (some self.now) }
    if success = true then self.onAck sender matchIndex else self.onNack sender conflict

def onTimeoutNow (term : ℕ) : Act ι σ δ Unit := do
  let n ← read
  when (n.currentTerm ≤ term ∧ n.role ≠ .leader) self.startElection

/-- Lines 554–559: state machine and log prefix are replaced by the snapshot. -/
def restore (s : Snapshot δ) : Act ι σ δ Unit := do
  update fun n => { n with
    machine := match self.stateMachine, n.machine with
      | some sm, some _ => some (sm.restore s.data)
      | _, _ => n.machine }
  let n ← read
  self.setLog
    { entries := n.log.entries.filter (fun e => s.lastIncludedIndex < e.index)
      firstIndex := s.lastIncludedIndex + 1
      snapshotLastIndex := s.lastIncludedIndex
      snapshotLastTerm := s.lastIncludedTerm }

/-- Lines 553–568. -/
def install (s : Snapshot δ) : Act ι σ δ Unit := do
  self.restore s
  self.writeSnapshotFile s
  update fun n => { n with lastSnapshot := some s }

def onInstallSnapshot (term : ℕ) (leader : ι) (s : Snapshot δ) : Act ι σ δ Unit := do
  let n ← read
  if term < n.currentTerm then
    self.send leader (.appendResp n.currentTerm self.id false 0 none)
  else
    when (n.currentTerm < term ∨ n.role ≠ .follower) (self.stepDown term)
    update fun n => { n with leaderId := some leader, lastLeaderContact := self.now }
    self.resetElectionDeadline
    let n ← read
    let alreadyHave := decide (n.log.termAt s.lastIncludedIndex = s.lastIncludedTerm ∨
      s.lastIncludedIndex ≤ n.log.snapshotLastIndex)
    when (alreadyHave = false) (self.install s)
    update fun n => { n with
      commitIndex := max n.commitIndex s.lastIncludedIndex
      appliedIndex := if alreadyHave then n.appliedIndex
        else max n.appliedIndex s.lastIncludedIndex }
    self.send leader (.appendResp n.currentTerm self.id true s.lastIncludedIndex none)

/-- `handle`. -/
def handle : Msg ι δ → Act ι σ δ Unit
  | .prevote term candidate lastIndex lastTerm => self.onPrevote term candidate lastIndex lastTerm
  | .prevoteResp term sender granted => self.onPrevoteResp term sender granted
  | .vote term candidate lastIndex lastTerm => self.onVote term candidate lastIndex lastTerm
  | .voteResp term sender granted => self.onVoteResp term sender granted
  | .append term leader prevIndex prevTerm entries commit =>
    self.onAppend term leader prevIndex prevTerm entries commit
  | .appendResp term sender success matchIndex conflict =>
    self.onAppendResp term sender success matchIndex conflict
  | .installSnapshot term leader s => self.onInstallSnapshot term leader s
  | .timeoutNow term => self.onTimeoutNow term

end Self

end Pylog.Raft
