import Pylog.Raft.Cluster

/-!
# Pylog.Raft.Micro — what the code of a node can do, one small step at a time

`Micro self n₀ k` relates the node and the history before and after one small step of the call `k`
that `self` started in the state `n₀`.  Each step says under which guard the source takes it.  A
step stops only where the node is in a state the source treats as consistent, so what every step
keeps is kept by every call (`call_follows`).
-/

namespace Pylog.Raft

open Effect Effect.Handler

variable {ι σ δ : Type} [LinearOrder ι]

/-- `propose` accepts payloads (line 349). -/
def Node.Admits (n : Node ι σ δ) : Prop := n.role = .leader ∧ n.transferTarget = none

/-- Where a proposed payload comes from. -/
def Proposed (n₀ : Node ι σ δ) (k : Call ι δ) (payload : Bytes) : Prop :=
  payload = noop ∨ k = .propose payload ∧ n₀.Admits

/-- The membership is as before. -/
def SameMembers (n n' : Node ι σ δ) : Prop :=
  n'.peers = n.peers ∧ n'.config = n.config ∧ n'.oldConfig = n.oldConfig

/-- Term and membership are as before. -/
def SameView (n n' : Node ι σ δ) : Prop := n'.currentTerm = n.currentTerm ∧ SameMembers n n'

/-- The call reaches `_start_election`. -/
def Self.elects (self : Self ι σ δ) (n : Node ι σ δ) : Call ι δ → Bool
  | .tick => decide (n.role ≠ .leader ∧ n.electionDeadline ≤ self.now ∧
      ¬(self.usePrevote = true ∧ n.preCandidate = false))
  | .handle (.timeoutNow term) => decide (n.currentTerm ≤ term ∧ n.role ≠ .leader)
  | .handle (.prevoteResp term sender granted) =>
      decide (n.preCandidate = true ∧ term = n.prevoteTerm) &&
        n.hasMajority (if granted then insert sender n.votes else n.votes)
  | _ => false

/-- A membership change a leader accepts. -/
def Change (id : ι) (n : Node ι σ δ) (k : Call ι δ) (new : Finset ι) : Prop :=
  n.oldConfig = none ∧
    ((∃ x, k = .proposeAddServer x ∧ x ∉ n.config ∧ new = n.config ∪ {x}) ∨
     (∃ x, k = .proposeRemoveServer x ∧ x ∈ n.config ∧ x ≠ id ∧ 2 < n.config.card ∧
      new = n.config \ {x}))

/-- The state machine after the entry, when `apply` returned. -/
def Applies (self : Self ι σ δ) (n : Node ι σ δ) (e : Entry) (machine : Option σ) : Prop :=
  machine = n.machine ∨ ∃ sm s, self.stateMachine = some sm ∧ n.machine = some s ∧
    machine = some (sm.apply s e.payload).1 ∧ (sm.apply s e.payload).2 = true

/-- The snapshot is already covered by the log (lines 548–551). -/
def alreadyHave (n : Node ι σ δ) (s : Snapshot δ) : Bool :=
  decide (n.log.termAt s.lastIncludedIndex = s.lastIncludedTerm ∨
    s.lastIncludedIndex ≤ n.log.snapshotLastIndex)

/-- The snapshot at hand: the one `take_snapshot` builds, or the one being installed. -/
def SnapshotAt (self : Self ι σ δ) (n : Node ι σ δ) (k : Call ι δ) (s : Snapshot δ) : Prop :=
  self.snapshotOf n = some s ∧ (k = .takeSnapshot ∨ self.autoSnapshotEvery ≠ 0) ∨
    ∃ leader, k = .handle (.installSnapshot n.currentTerm leader s)

inductive Micro (self : Self ι σ δ) (n₀ : Node ι σ δ) (k : Call ι δ) :
    Node ι σ δ × History ι σ δ → Node ι σ δ × History ι σ δ → Prop
  /-- Timers, the known leader and the transfer target. -/
  | quiet (n h) (leaderId : Option ι) (deadline contact heartbeat check : ℚ) (target : Option ι)
      (transferDeadline : ℚ) :
      Micro self n₀ k (n, h)
        ({ n with
          leaderId := leaderId, electionDeadline := deadline, lastLeaderContact := contact
          nextHeartbeat := heartbeat, nextQuorumCheck := check
          transferTarget := target, transferDeadline := transferDeadline }, h)
  /-- A peer answered. -/
  | peerAck (n h) (p : ι) (hr : n.role = .leader) :
      Micro self n₀ k (n, h)
        ({ n with lastPeerAck := Function.update n.lastPeerAck p (some self.now) }, h)
  /-- `_step_down` to the same term. -/
  | retreat (n h) (deadline : ℚ) :
      Micro self n₀ k (n, h)
        ({ n with
          role := .follower, preCandidate := false, transferTarget := none, transferDeadline := 0
          electionDeadline := deadline }, h)
  /-- `_step_down` to a newer term. -/
  | raise (n h) (t : ℕ) (deadline : ℚ) (ht : n.currentTerm < t) :
      Micro self n₀ k (n, h)
        ({ n with
          currentTerm := t, votedFor := none
          role := .follower, preCandidate := false, transferTarget := none, transferDeadline := 0
          electionDeadline := deadline },
        h ++ [(self.id, .writeTmp t none), (self.id, .replace t none)])
  /-- A pre-vote round starts. -/
  | prevote (n h) (hu : self.usePrevote = true) (hp : n.preCandidate = false)
      (hr : n.role ≠ .leader) :
      Micro self n₀ k (n, h)
        ({ n with preCandidate := true, prevoteTerm := n.currentTerm + 1, votes := {self.id} }, h)
  | sendPrevote (n h) (p : ι) (hp : n.preCandidate = true) (ht : n.prevoteTerm = n.currentTerm + 1) :
      Micro self n₀ k (n, h)
        (n, h ++ [(self.id, .send p (.prevote n.prevoteTerm self.id n.progress.2 n.progress.1))])
  | clearPre (n h) : Micro self n₀ k (n, h) ({ n with preCandidate := false }, h)
  /-- `_start_election`, up to the sends. -/
  | campaign (n n' h) (deadline : ℚ) (hr : n.role ≠ .leader) (h0 : SameView n₀ n)
      (hk : self.elects n₀ k = true)
      (hn : n' = { n with
        currentTerm := n.currentTerm + 1, votedFor := some self.id, role := .candidate
        leaderId := none, votes := {self.id}, electionDeadline := deadline }) :
      Micro self n₀ k (n, h)
        (n', h ++ [(self.id, .writeTmp (n.currentTerm + 1) (some self.id)),
          (self.id, .replace (n.currentTerm + 1) (some self.id)), (self.id, .campaign n')])
  | sendVote (n h) (p : ι) (hc : (self.id, .campaign n) ∈ h) (hp : p ∈ n.peers) :
      Micro self n₀ k (n, h)
        (n, h ++ [(self.id, .send p (.vote n.currentTerm self.id n.progress.2 n.progress.1))])
  /-- `_become_leader`, up to the first proposal. -/
  | win (n n' h) (hr : n.role = .candidate) (hq : n.peers = [] ∨ n.hasMajority n.votes = true)
      (hn : n' = { n with
        role := .leader, leaderId := some self.id, preCandidate := false
        transferTarget := none, transferDeadline := 0
        matchIndex := fun p => if p ∈ n.peers then some 0 else none
        nextIndex := fun p => if p ∈ n.peers then some (n.log.lastIndex + 1) else none
        lastPeerAck := fun p => if p ∈ n.peers then some self.now else n.lastPeerAck p }) :
      Micro self n₀ k (n, h) (n', h ++ [(self.id, .lead n')])
  | sendAppend (n h) (p : ι) (hr : n.role = .leader) :
      Micro self n₀ k (n, h) (n, h ++ [(self.id, .send p (self.appendMsg n p))])
  | sendTimeoutNow (n h) (p : ι) (hr : n.role = .leader) (hp : p ∈ n.peers)
      (hk : k = .transferLeadership p) :
      Micro self n₀ k (n, h) (n, h ++ [(self.id, .send p (.timeoutNow n.currentTerm))])
  /-- A leader appends an entry that is no config change of its own. -/
  | append (n h) (payload : Bytes) (hr : n.role = .leader) (hp : Proposed n₀ k payload) :
      Micro self n₀ k (n, h)
        ({ n with log := n.log.appendEntry n.currentTerm payload },
          h ++ [(self.id, .store (n.log.appendEntry n.currentTerm payload))])
  /-- A leader enters a joint phase and appends the config entry. -/
  | reconfig (n n' h) (new : Finset ι) (hr : n.role = .leader) (hc : Change self.id n k new)
      (hn : n' = { self.joint n new with
        log := n.log.appendEntry n.currentTerm (cfgTag ++ self.json.dumps (sortedIds new)) })
      (h0 : n = n₀) :
      Micro self n₀ k (n, h)
        (n', h ++ [(self.id, .reconfig n.currentTerm (n.log.lastIndex + 1) n.config new),
          (self.id, .store n'.log)])
  /-- `_advance_commit` finds an index. -/
  | commit (n h) (index : ℕ) (hr : n.role = .leader) (hc : n.findCommit self.id = some index) :
      Micro self n₀ k (n, h)
        ({ n with commitIndex := index }, h ++ [(self.id, .commit index n)])
  /-- An entry is applied that changes no configuration. -/
  | apply (n h) (e : Entry) (machine : Option σ) (hlt : n.appliedIndex < n.commitIndex)
      (he : n.log.get (n.appliedIndex + 1) = some e) (hc : self.configOf e.payload = none)
      (hm : Applies self n e machine) :
      Micro self n₀ k (n, h)
        ({ n with machine := machine, appliedIndex := n.appliedIndex + 1 },
          h ++ [(self.id, .apply (n.appliedIndex + 1) e)])
  /-- A config entry is applied. -/
  | adopt (n n' h) (e : Entry) (servers : Finset ι) (hlt : n.appliedIndex < n.commitIndex)
      (he : n.log.get (n.appliedIndex + 1) = some e)
      (hc : self.configOf e.payload = some servers) (hr : n.role ≠ .candidate)
      (hn : n' = { n.adoptConfig self.id self.now servers with appliedIndex := n.appliedIndex + 1 }) :
      Micro self n₀ k (n, h) (n', h ++ [(self.id, .apply (n.appliedIndex + 1) e)])
  /-- `state_machine.apply` raised. -/
  | applyRaise (n h) (e : Entry) (sm : StateMachine σ δ) (s : σ)
      (hlt : n.appliedIndex < n.commitIndex) (he : n.log.get (n.appliedIndex + 1) = some e)
      (hsm : self.stateMachine = some sm) (hs : n.machine = some s)
      (hf : (sm.apply s e.payload).2 = false) :
      Micro self n₀ k (n, h) ({ n with machine := some (sm.apply s e.payload).1 }, h)
  /-- Without a state machine, missing entries are skipped. -/
  | skipHole (n h) (hlt : n.appliedIndex < n.commitIndex)
      (he : n.log.get (n.appliedIndex + 1) = none) (hm : n.machine = none) :
      Micro self n₀ k (n, h) ({ n with appliedIndex := n.commitIndex }, h)
  | prevoteReply (n h) (t : ℕ) (candidate : ι) (granted : Bool)
      (hg : granted = true → n.currentTerm < t) :
      Micro self n₀ k (n, h) (n, h ++ [(self.id, .send candidate (.prevoteResp t self.id granted))])
  /-- A vote is saved and answered. -/
  | grant (n h) (candidate : ι) (lastIndex : ℕ) (lastTerm : ℤ) (deadline : ℚ)
      (hk : k = .handle (.vote n.currentTerm candidate lastIndex lastTerm))
      (hv : n.votedFor = none ∨ n.votedFor = some candidate)
      (hu : atLeast (lastTerm, lastIndex) n.progress = true) :
      Micro self n₀ k (n, h)
        ({ n with votedFor := some candidate, electionDeadline := deadline },
          h ++ [(self.id, .writeTmp n.currentTerm (some candidate)),
            (self.id, .replace n.currentTerm (some candidate)),
            (self.id, .send candidate (.voteResp n.currentTerm self.id true))])
  | refuse (n h) (candidate : ι) :
      Micro self n₀ k (n, h)
        (n, h ++ [(self.id, .send candidate (.voteResp n.currentTerm self.id false))])
  | countVote (n h) (v : ι) (hk : k = .handle (.voteResp n.currentTerm v true))
      (hr : n.role = .candidate) :
      Micro self n₀ k (n, h) ({ n with votes := insert v n.votes }, h)
  /-- A granted pre-vote that completes no majority. -/
  | countPrevote (n h) (v : ι) (hk : k = .handle (.prevoteResp n.prevoteTerm v true)) (h0 : n = n₀)
      (hp : n.preCandidate = true) (hq : n.hasMajority (insert v n.votes) = false) :
      Micro self n₀ k (n, h) ({ n with votes := insert v n.votes }, h)
  /-- A follower merges a window of the leader of its term. -/
  | merge (n h) (leader : ι) (prevIndex : ℕ) (prevTerm : ℤ) (entries : List Entry) (commit : ℕ)
      (r : RaftLog.Merged)
      (hk : k = .handle (.append n.currentTerm leader prevIndex prevTerm entries commit))
      (hr : n.role = .follower) (hlog : n.log = n₀.log) (hci : n.commitIndex = n₀.commitIndex)
      (ht : n₀.currentTerm ≤ n.currentTerm)
      (hj : n.oldConfig = n₀.oldConfig ∧ n.jointIndex = n₀.jointIndex)
      (hm : r = n.log.merge prevIndex prevTerm entries) :
      Micro self n₀ k (n, h)
        ({ n with log := r.log },
          h ++ ((self.id, .store r.log) ::
            if r.ok then [(self.id, .accept n.currentTerm r.matchIndex)] else []))
  /-- A follower takes over the commit index of the message it merged. -/
  | followCommit (n h) (leader : ι) (prevIndex : ℕ) (prevTerm : ℤ) (entries : List Entry)
      (commit : ℕ) (r : RaftLog.Merged)
      (hk : k = .handle (.append n.currentTerm leader prevIndex prevTerm entries commit))
      (hr : n.role = .follower) (hm : r = n₀.log.merge prevIndex prevTerm entries)
      (hok : r.ok = true) (hlog : n.log = r.log) (hci : n.commitIndex = n₀.commitIndex)
      (ht : n₀.currentTerm ≤ n.currentTerm)
      (ha : (self.id, .accept n.currentTerm r.matchIndex) ∈ h) (hlt : n.commitIndex < commit) :
      Micro self n₀ k (n, h) ({ n with commitIndex := min commit n.log.lastIndex }, h)
  /-- The answer to an append, or the refusal of a stale message. -/
  | respond (n h) (leader : ι) (ok : Bool) (matchIndex : ℕ) (conflict : Option ℕ)
      (ha : ok = true → (self.id, .accept n.currentTerm matchIndex) ∈ h) :
      Micro self n₀ k (n, h)
        (n, h ++ [(self.id, .send leader (.appendResp n.currentTerm self.id ok matchIndex conflict))])
  | matched (n h) (p : ι) (matchIndex mi : ℕ) (conflict : Option ℕ)
      (hk : k = .handle (.appendResp n.currentTerm p true matchIndex conflict))
      (hr : n.role = .leader) (hmi : n.matchIndex p = some mi) :
      Micro self n₀ k (n, h)
        ({ n with
          matchIndex := Function.update n.matchIndex p (some (max mi matchIndex))
          nextIndex := Function.update n.nextIndex p (some (max mi matchIndex + 1)) }, h)
  | backOff (n h) (p : ι) (ni hint : ℕ) (hr : n.role = .leader) (hni : n.nextIndex p = some ni) :
      Micro self n₀ k (n, h)
        ({ n with nextIndex := Function.update n.nextIndex p (some (max 1 (min (ni - 1) hint))) }, h)
  | snapFile (n h) (s : Snapshot δ) (hs : SnapshotAt self n k s) (hd : self.snapshotDir = true) :
      Micro self n₀ k (n, h)
        ({ n with
          snapshotFiles :=
            s :: n.snapshotFiles.filter (fun f => f.lastIncludedIndex ≠ s.lastIncludedIndex) },
        h ++ [(self.id, .snapshotFile s)])
  | snapMark (n h) (s : Snapshot δ) (hs : SnapshotAt self n k s) :
      Micro self n₀ k (n, h) ({ n with lastSnapshot := some s }, h)
  /-- `take_snapshot` compacts the log. -/
  | compact (n h) (s : Snapshot δ) (l : RaftLog)
      (hk : k = .takeSnapshot ∨ self.autoSnapshotEvery ≠ 0) (hs : self.snapshotOf n = some s)
      (hc : n.log.compact s.lastIncludedIndex s.lastIncludedTerm = some l) :
      Micro self n₀ k (n, h) ({ n with log := l }, h ++ [(self.id, .store l)])
  /-- Lines 553–559: state machine and log prefix are replaced by the snapshot. -/
  | install (n h) (leader : ι) (s : Snapshot δ) (l : RaftLog) (machine : Option σ)
      (hk : k = .handle (.installSnapshot n.currentTerm leader s)) (hr : n.role = .follower)
      (hlog : n.log = n₀.log) (ht : n₀.currentTerm ≤ n.currentTerm)
      (ha : alreadyHave n s = false)
      (hm : machine = match self.stateMachine, n.machine with
        | some sm, some _ => some (sm.restore s.data)
        | _, _ => n.machine)
      (hl : l = { entries := n.log.entries.filter (fun e => s.lastIncludedIndex < e.index)
                  firstIndex := s.lastIncludedIndex + 1
                  snapshotLastIndex := s.lastIncludedIndex
                  snapshotLastTerm := s.lastIncludedTerm })
      (hj : n.oldConfig = n₀.oldConfig ∧ n.jointIndex = n₀.jointIndex) :
      Micro self n₀ k (n, h)
        ({ n with machine := machine, log := l }, h ++ [(self.id, .store l)])
  /-- Lines 570–572, with `have` as computed before the install. -/
  | installIndex (n h) (leader : ι) (s : Snapshot δ) (already : Bool)
      (hk : k = .handle (.installSnapshot n.currentTerm leader s)) (hr : n.role = .follower)
      (ht : n₀.currentTerm ≤ n.currentTerm) (ha : n₀.appliedIndex = n.appliedIndex)
      (hal : already = alreadyHave n₀ s)
      (hj : n.oldConfig = n₀.oldConfig ∧ n.jointIndex = n₀.jointIndex) :
      Micro self n₀ k (n, h)
        ({ n with
          commitIndex := max n.commitIndex s.lastIncludedIndex
          appliedIndex := if already then n.appliedIndex
            else max n.appliedIndex s.lastIncludedIndex }, h)
  | ackInstall (n h) (leader : ι) (s : Snapshot δ)
      (hk : k = .handle (.installSnapshot n.currentTerm leader s)) :
      Micro self n₀ k (n, h)
        (n, h ++ [(self.id,
          .send leader (.appendResp n.currentTerm self.id true s.lastIncludedIndex none))])

/-! ### The code takes only small steps -/

section Does

variable {self : Self ι σ δ} {n₀ : Node ι σ δ} {k : Call ι δ} {n : Node ι σ δ}
  {h : History ι σ δ}

/-- `x` takes small steps, and a normal end satisfies `Q`. -/
abbrev Does (self : Self ι σ δ) (n₀ : Node ι σ δ) (k : Call ι δ) {α : Type} (x : Act ι σ δ α)
    (n : Node ι σ δ) (h : History ι σ δ) (Q : α → Node ι σ δ → History ι σ δ → Prop) : Prop :=
  Follows (Micro self n₀ k) x n h Q

/-- Role and term are as before. -/
def SameSeat (n n' : Node ι σ δ) : Prop := n'.role = n.role ∧ n'.currentTerm = n.currentTerm

omit [LinearOrder ι] in
theorem SameSeat.trans {a b c : Node ι σ δ} (h1 : SameSeat a b) (h2 : SameSeat b c) :
    SameSeat a c :=
  ⟨h2.1.trans h1.1, h2.2.trans h1.2⟩

theorem reset_does {Q : Unit → Node ι σ δ → History ι σ δ → Prop}
    (hQ : Q () { n with electionDeadline := self.deadline } h) :
    Does self n₀ k self.resetElectionDeadline n h Q :=
  follows_update (.quiet n h _ _ _ _ _ _ _) hQ

theorem sendAppend_does (p : ι) (hr : n.role = .leader) :
    Does self n₀ k (self.sendAppend p) n h (fun _ n' _ => n' = n) :=
  follows_read (follows_emit (.sendAppend n h p hr) rfl)

theorem sendAllAppends_does (hr : n.role = .leader) :
    Does self n₀ k self.sendAllAppends n h (fun _ n' _ => n' = n) :=
  follows_read <| follows_each (fun n' _ => n' = n) n.peers n h rfl fun p _ n' h' hn => by
    subst hn
    exact sendAppend_does p hr

/-! ### Snapshots, commit, apply -/

theorem writeSnapshotFile_does {s : Snapshot δ} (hs : SnapshotAt self n k s) :
    Does self n₀ k (self.writeSnapshotFile s) n h (fun _ n' _ =>
      ∃ files, n' = { n with snapshotFiles := files }) :=
  follows_when (fun hd => follows_of_eq rfl (.snapFile n h s hs hd) ⟨_, rfl⟩) fun _ => ⟨_, rfl⟩

theorem compactLog_does {s : Snapshot δ} (hk : k = .takeSnapshot ∨ self.autoSnapshotEvery ≠ 0)
    (hs : self.snapshotOf n = some s) :
    Does self n₀ k (self.compactLog s) n h (fun _ n' _ => SameSeat n n') := by
  refine follows_read ?_
  cases hc : n.log.compact s.lastIncludedIndex s.lastIncludedTerm with
  | none => exact follows_pure ⟨rfl, rfl⟩
  | some l => exact follows_of_eq rfl (.compact n h s l hk hs hc) ⟨rfl, rfl⟩

theorem takeSnapshot_does (hk : k = .takeSnapshot ∨ self.autoSnapshotEvery ≠ 0) :
    Does self n₀ k self.takeSnapshot n h (fun _ n' _ => SameSeat n n') := by
  refine follows_read ?_
  cases hs : self.snapshotOf n with
  | none => exact follows_pure ⟨rfl, rfl⟩
  | some s =>
    refine follows_bind (writeSnapshotFile_does (.inl ⟨hs, hk⟩)) ?_
    rintro _ n' h' ⟨files, rfl⟩
    refine follows_bind (Q := fun _ n' _ => n' = { n with
      snapshotFiles := files, lastSnapshot := some s })
      (follows_update (.snapMark _ _ s (.inl ⟨hs, hk⟩)) rfl) ?_
    rintro _ n' h' rfl
    refine follows_bind (compactLog_does hk hs) ?_
    intro _ n' h' hn
    exact follows_pure hn

theorem autoSnapshot_does : Does self n₀ k self.autoSnapshot n h (fun _ n' _ => SameSeat n n') := by
  refine follows_read (follows_when ?_ fun _ => ⟨rfl, rfl⟩)
  rintro ⟨he, -⟩
  refine follows_bind (takeSnapshot_does (.inr he)) ?_
  intro _ n' h' hn
  exact follows_pure hn

theorem applyEntry_does {e : Entry} (hr : n.role ≠ .candidate)
    (hlt : n.appliedIndex < n.commitIndex) (he : n.log.get (n.appliedIndex + 1) = some e) :
    Does self n₀ k (self.applyEntry e) n h (fun _ n' _ => SameSeat n n') := by
  refine follows_read ?_
  by_cases hcfg : isCfg e.payload = true
  · rw [if_pos hcfg]
    cases hc : self.configOf e.payload with
    | some servers => exact follows_of_eq rfl (.adopt n _ h e servers hlt he hc hr rfl) ⟨rfl, rfl⟩
    | none => exact follows_of_eq rfl (.apply n h e n.machine hlt he hc (.inl rfl)) ⟨rfl, rfl⟩
  · rw [if_neg hcfg]
    have hc : self.configOf e.payload = none := if_neg hcfg
    have hskip : Does self n₀ k (self.setApplied e) n h (fun _ n' _ => SameSeat n n') :=
      follows_of_eq rfl (.apply n h e n.machine hlt he hc (.inl rfl)) ⟨rfl, rfl⟩
    cases hsm : self.stateMachine with
    | none => exact hskip
    | some sm =>
      cases hs : n.machine with
      | none => exact hskip
      | some s =>
        dsimp only
        by_cases hp : e.payload ≠ [] ∧ noop.isPrefixOf e.payload = false
        · have hw : Self.applyPayload (ι := ι) sm s e.payload = (do
              update fun n => { n with machine := some (sm.apply s e.payload).1 }
              when ((sm.apply s e.payload).2 = false) (raise .applyError)) := if_pos hp
          rw [hw]
          cases ha : (sm.apply s e.payload).2 with
          | true =>
            exact follows_of_eq rfl (.apply n h e _ hlt he hc (.inr ⟨sm, s, hsm, hs, rfl, ha⟩))
              ⟨rfl, rfl⟩
          | false =>
            refine follows_step ?_ (fun a hr => by cases hr)
            show Micro self n₀ k (n, h) ({ n with machine := _ }, h ++ [])
            rw [List.append_nil]
            exact .applyRaise n h e sm s hlt he hsm hs ha
        · have hw : Self.applyPayload (ι := ι) sm s e.payload = pure () := if_neg hp
          rw [hw]
          exact hskip

theorem applyLoop_does : ∀ (i : ℕ) (n : Node ι σ δ) (h : History ι σ δ), n.role ≠ .candidate →
    Does self n₀ k (self.applyLoop i) n h (fun _ n' _ => SameSeat n n')
  | 0, n, h, _ => follows_pure ⟨rfl, rfl⟩
  | i + 1, n, h, hr => by
    refine follows_read (follows_ite ?_ fun _ => follows_pure ⟨rfl, rfl⟩)
    intro hlt
    cases he : n.log.get (n.appliedIndex + 1) with
    | some e =>
      refine follows_bind (applyEntry_does hr hlt he) ?_
      intro _ n' h' hn
      exact (applyLoop_does i n' h' (hn.1 ▸ hr)).mono fun _ n'' _ hn' => hn.trans hn'
    | none =>
      refine follows_ite ?_ fun _ => follows_pure ⟨rfl, rfl⟩
      intro hm
      have hm' : n.machine = none := by simpa using hm
      refine follows_bind (Q := fun _ n' _ => SameSeat n n')
        (follows_update (.skipHole n h hlt he hm') ⟨rfl, rfl⟩) ?_
      intro _ n' h' hn
      exact follows_pure hn

theorem applyCommitted_does (hr : n.role ≠ .candidate) :
    Does self n₀ k self.applyCommitted n h (fun _ n' _ => SameSeat n n') := by
  refine follows_read (follows_bind (applyLoop_does _ n h hr) ?_)
  intro _ n' h' hn
  refine follows_when (fun _ => ?_) fun _ => hn
  exact autoSnapshot_does.mono fun _ n'' _ hn' => hn.trans hn'

theorem advanceCommit_does (hr : n.role = .leader) :
    Does self n₀ k self.advanceCommit n h (fun _ n' _ => SameSeat n n') := by
  refine follows_read ?_
  cases hc : n.findCommit self.id with
  | none => exact follows_pure ⟨rfl, rfl⟩
  | some index =>
    refine follows_bind (Q := fun _ n' _ => SameSeat n n')
      (follows_of_eq rfl (.commit n h index hr hc) ⟨rfl, rfl⟩) ?_
    intro _ n' h' hn
    exact (applyCommitted_does (by rw [hn.1, hr]; decide)).mono fun _ n'' _ hn' => hn.trans hn'

theorem propose_does {payload : Bytes} (hp : payload = noop ∨ k = .propose payload ∧ n = n₀) :
    Does self n₀ k (self.propose payload) n h (fun _ n' _ => SameSeat n n') := by
  refine follows_read (follows_ite (fun _ => follows_pure ⟨rfl, rfl⟩) fun hg => ?_)
  simp only [ne_eq, not_or, not_not, Bool.not_eq_true, Option.isSome_eq_false_iff,
    Option.isNone_iff_eq_none] at hg
  have hr : n.role = .leader := hg.1
  have hp' : Proposed n₀ k payload := hp.imp_right fun ⟨hk, hn⟩ => ⟨hk, hn ▸ hg⟩
  refine follows_bind (Q := fun _ n' _ => SameSeat n n')
    (follows_of_eq rfl (.append n h payload hr hp') ⟨rfl, rfl⟩) ?_
  intro _ n₁ h₁ hn₁
  refine follows_bind (advanceCommit_does (hn₁.1.trans hr)) ?_
  intro _ n₂ h₂ hn₂
  refine follows_bind (sendAllAppends_does (hn₂.1.trans (hn₁.1.trans hr))) ?_
  rintro _ n₃ h₃ rfl
  exact follows_pure (hn₁.trans hn₂)

theorem transferLeadership_does {target : ι} (hk : k = .transferLeadership target) :
    Does self n₀ k (self.transferLeadership target) n h (fun _ _ _ => True) := by
  refine follows_read (follows_ite (fun _ => follows_pure trivial) fun hg => ?_)
  rw [not_or, not_not, not_not] at hg
  refine follows_bind (Q := fun _ n' _ => n'.role = .leader ∧ target ∈ n'.peers ∧
      n'.currentTerm = n.currentTerm) (follows_update (.quiet n h _ _ _ _ _ _ _) ⟨hg.1, hg.2, rfl⟩) ?_
  rintro _ n' h' ⟨hr, hp, ht⟩
  refine follows_bind (Q := fun _ _ _ => True) (follows_emit ?_ trivial) fun _ _ _ _ =>
    follows_pure trivial
  rw [← ht]
  exact .sendTimeoutNow n' h' target hr hp hk

theorem proposeConfig_does {new : Finset ι} (hr : n₀.role = .leader) (hc : Change self.id n₀ k new) :
    Does self n₀ k (self.proposeConfig new) n₀ h (fun _ _ _ => True) := by
  have hopen : Does self n₀ k (self.openJoint new) n₀ h (fun _ n' _ => SameSeat n₀ n') := by
    refine follows_of_eq (a := ()) ?_ (.reconfig n₀ _ h new hr hc rfl rfl) ⟨rfl, rfl⟩
    unfold Self.openJoint
    show ((when (n₀.oldConfig = none) _ >>= fun _ => _) : Act ι σ δ Unit) n₀ = _
    unfold when
    rw [if_pos hc.1]
    rfl
  refine follows_read (follows_bind hopen ?_)
  intro _ n₁ h₁ hn₁
  refine follows_bind (advanceCommit_does (hn₁.1.trans hr)) ?_
  intro _ n₂ h₂ hn₂
  refine follows_bind (sendAllAppends_does (hn₂.1.trans (hn₁.1.trans hr))) ?_
  intro _ n₃ h₃ _
  exact follows_pure trivial

theorem proposeAddServer_does (x : ι) (hk : k = .proposeAddServer x) :
    Does self n₀ k (self.proposeAddServer x) n₀ h (fun _ _ _ => True) := by
  refine follows_read (follows_ite (fun _ => follows_pure trivial) fun hg => ?_)
  simp only [not_or, not_not] at hg
  obtain ⟨hr, hx, ho⟩ := hg
  exact proposeConfig_does hr ⟨ho, .inl ⟨x, hk, hx, rfl⟩⟩

theorem proposeRemoveServer_does (x : ι) (hk : k = .proposeRemoveServer x) :
    Does self n₀ k (self.proposeRemoveServer x) n₀ h (fun _ _ _ => True) := by
  refine follows_read (follows_ite (fun _ => follows_pure trivial) fun hg => ?_)
  simp only [not_or, not_not] at hg
  obtain ⟨hr, hx, hne, ho⟩ := hg
  refine follows_ite (fun _ => follows_pure trivial) fun hcard => ?_
  exact proposeConfig_does hr ⟨ho, .inr ⟨x, hk, hx, hne, by omega, rfl⟩⟩

/-! ### Elections -/

theorem becomeLeader_does (hr : n.role = .candidate)
    (hq : n.peers = [] ∨ n.hasMajority n.votes = true) :
    Does self n₀ k self.becomeLeader n h (fun _ _ _ => True) := by
  refine follows_bind (Q := fun _ n' _ => n'.role = .leader)
    (follows_of_eq rfl (.win n _ h hr hq rfl) rfl) ?_
  intro _ n₁ h₁ hr₁
  refine follows_read (follows_bind (Q := fun _ n' _ => n'.role = .leader)
    (follows_when (fun _ => ?_) fun _ => hr₁) ?_)
  · refine follows_bind (propose_does (.inl rfl)) ?_
    intro _ n' h' hn
    exact follows_pure (hn.1.trans hr₁)
  intro _ n₂ h₂ hr₂
  refine follows_bind (sendAllAppends_does hr₂) ?_
  intro _ n₃ h₃ _
  exact follows_update (.quiet n₃ h₃ _ _ _ _ _ _ _) trivial

theorem startElection_does (hr : n.role ≠ .leader) (h0 : SameView n₀ n)
    (hk : self.elects n₀ k = true) :
    Does self n₀ k self.startElection n h (fun _ _ _ => True) := by
  refine follows_bind (Q := fun _ n' h' => n'.role = .candidate ∧ n'.votes = {self.id} ∧
      (self.id, .campaign n') ∈ h')
    (follows_of_eq rfl (.campaign n _ h self.deadline hr h0 hk rfl)
      ⟨rfl, rfl, List.mem_append_right _ (.tail _ (.tail _ (.head _)))⟩) ?_
  rintro _ n₁ h₁ ⟨hr₁, hv₁, hc₁⟩
  refine follows_read (follows_bind (follows_each (fun n' h' => n' = n₁ ∧
    (self.id, .campaign n₁) ∈ h') n₁.peers n₁ h₁ ⟨rfl, hc₁⟩ ?_) ?_)
  · rintro p hp n' h' ⟨rfl, hc⟩
    exact follows_emit (.sendVote n' h' p hc hp) ⟨rfl, List.mem_append_left _ hc⟩
  rintro _ n₂ h₂ ⟨rfl, -⟩
  refine follows_when (fun hw => ?_) fun _ => trivial
  refine becomeLeader_does hr₁ (.inl ?_)
  -- with one vote, only an empty peer list wins at once
  rcases hw with hw | hw
  · exact hw
  · rw [hv₁, Finset.card_singleton] at hw
    exact List.length_eq_zero_iff.mp (by omega)

theorem startPrevoteOrElection_does (hr : n₀.role ≠ .leader)
    (hk : ¬(self.usePrevote = true ∧ n₀.preCandidate = false) → self.elects n₀ k = true) :
    Does self n₀ k self.startPrevoteOrElection n₀ h (fun _ _ _ => True) := by
  refine follows_read (follows_ite ?_ fun hu => ?_)
  · rintro ⟨hu, hp⟩
    refine follows_bind (Q := fun _ n' _ => n' = { n₀ with
      preCandidate := true, prevoteTerm := n₀.currentTerm + 1, votes := {self.id} })
      (follows_update (.prevote n₀ h hu hp hr) rfl) ?_
    rintro _ n₁ h₁ rfl
    refine follows_bind (follows_each (fun n' _ => n' = { n₀ with
      preCandidate := true, prevoteTerm := n₀.currentTerm + 1, votes := {self.id} })
      n₀.peers _ h₁ rfl ?_) ?_
    · rintro p _ n' h' rfl
      exact follows_emit (.sendPrevote _ h' p rfl rfl) rfl
    intro _ n₂ h₂ _
    exact reset_does trivial
  · refine follows_bind (Q := fun _ n' _ => n'.role ≠ .leader ∧ SameView n₀ n')
      (follows_update (.clearPre n₀ h) ⟨hr, rfl, rfl, rfl, rfl⟩) ?_
    rintro _ n₁ h₁ ⟨hr₁, hv₁⟩
    exact startElection_does hr₁ hv₁ (hk hu)

/-- The node after `_step_down`. -/
theorem stepDown_does (t : ℕ) :
    Does self n₀ k (self.stepDown t) n h (fun _ n' _ => n' = { n with
      currentTerm := max n.currentTerm t
      votedFor := if n.currentTerm < t then none else n.votedFor
      role := .follower, preCandidate := false, transferTarget := none, transferDeadline := 0
      electionDeadline := self.deadline }) := by
  have hread : self.stepDown t n = ((when (n.currentTerm < t) (self.save t none) >>= fun _ => do
      update fun n => { n with
        role := .follower, preCandidate := false, transferTarget := none, transferDeadline := 0 }
      self.resetElectionDeadline) : Act ι σ δ Unit) n := rfl
  by_cases ht : n.currentTerm < t
  · refine follows_of_eq (a := ()) ?_ (.raise n h t self.deadline ht) ?_
    · rw [hread]
      unfold when
      rw [if_pos ht]
      rfl
    · rw [if_pos ht, max_eq_right ht.le]
  · refine follows_of_eq_nil (a := ()) ?_ (.retreat n h self.deadline) ?_
    · rw [hread]
      unfold when
      rw [if_neg ht]
      rfl
    · rw [if_neg ht, max_eq_left (not_lt.mp ht)]

theorem checkQuorum_does : Does self n₀ k self.checkQuorum n h (fun _ _ _ => True) :=
  follows_read <| follows_when (fun _ => (stepDown_does _).mono fun _ _ _ _ => trivial)
    fun _ => trivial

theorem tick_does (hk : k = .tick) : Does self n₀ k self.tick n₀ h (fun _ _ _ => True) := by
  refine follows_read (follows_ite ?_ fun hr => ?_)
  · intro hr
    refine follows_bind (Q := fun _ n' _ => n'.role = .leader) (follows_when (fun _ => ?_)
      fun _ => hr) ?_
    · refine follows_bind (Q := fun _ n' _ => n'.role = .leader)
        (follows_update (.quiet n₀ h _ _ _ _ _ _ _) hr) ?_
      intro _ n' h' hr'
      exact (sendAllAppends_does hr').mono fun _ n'' _ hn => hn ▸ hr'
    intro _ n₁ h₁ hr₁
    refine follows_bind (Q := fun _ n' _ => n'.role = .leader) (follows_when (fun _ => ?_)
      fun _ => hr₁) ?_
    · refine follows_bind (sendAllAppends_does hr₁) ?_
      rintro _ n' h' rfl
      exact follows_update (.quiet n' h' _ _ _ _ _ _ _) hr₁
    intro _ n₂ h₂ _
    refine follows_when (fun _ => ?_) fun _ => trivial
    refine follows_bind checkQuorum_does ?_
    intro _ n' h' _
    exact follows_update (.quiet n' h' _ _ _ _ _ _ _) trivial
  · refine follows_when (fun hd => startPrevoteOrElection_does hr fun hu => ?_) fun _ => trivial
    rw [hk]
    exact decide_eq_true ⟨hr, hd, hu⟩

/-! ### Inbound messages -/

theorem onPrevote_does (t : ℕ) (c : ι) (li : ℕ) (lt : ℤ) :
    Does self n₀ k (self.onPrevote t c li lt) n h (fun _ _ _ => True) := by
  refine follows_read (follows_emit (.prevoteReply n h t c _ ?_) trivial)
  intro hg
  rw [Bool.and_eq_true, Bool.and_eq_true] at hg
  exact of_decide_eq_true hg.1.1

theorem onPrevoteResp_does {t : ℕ} {v : ι} {g : Bool}
    (hr : n₀.role ≠ .leader ∨ n₀.preCandidate = false) (hk : k = .handle (.prevoteResp t v g)) :
    Does self n₀ k (self.onPrevoteResp t v g) n₀ h (fun _ _ _ => True) := by
  refine follows_read (follows_ite (fun _ => follows_pure trivial) fun hg => ?_)
  rw [not_or, Bool.not_eq_false, not_not] at hg
  obtain ⟨hp, rfl⟩ := hg
  have hr' : n₀.role ≠ .leader := by
    rcases hr with hr | hr
    · exact hr
    · rw [hp] at hr; cases hr
  have helect : n₀.hasMajority (if g then insert v n₀.votes else n₀.votes) = true →
      Does self n₀ k (do
        update fun n => { n with preCandidate := false }
        self.startElection : Act ι σ δ Unit) n₀ h (fun _ _ _ => True) := by
    intro hq
    refine follows_bind (Q := fun _ n' _ => n'.role ≠ .leader ∧ SameView n₀ n')
      (follows_update (.clearPre n₀ h) ⟨hr', rfl, rfl, rfl, rfl⟩) ?_
    rintro _ n₁ h₁ ⟨hr₁, hv₁⟩
    refine startElection_does hr₁ hv₁ ?_
    rw [hk]
    show (decide (n₀.preCandidate = true ∧ n₀.prevoteTerm = n₀.prevoteTerm) && _) = true
    rw [hq, decide_eq_true ⟨hp, rfl⟩]
    rfl
  cases g with
  | false =>
    refine follows_bind (Q := fun _ n' h' => n' = n₀ ∧ h' = h) (follows_pure ⟨rfl, rfl⟩) ?_
    rintro _ n₁ h₁ ⟨rfl, rfl⟩
    exact follows_read (follows_ite (fun hq => helect hq) fun _ =>
      follows_when (fun _ => reset_does trivial) fun _ => trivial)
  | true =>
    cases hq : n₀.hasMajority (insert v n₀.votes) with
    | true =>
      -- the vote set is overwritten by `_start_election`, so the count leaves no trace
      refine follows_congr ?_ (helect hq)
      show (if Node.hasMajority { n₀ with votes := insert v n₀.votes } (insert v n₀.votes) = true then
        _ else _ : Act ι σ δ Unit) { n₀ with votes := insert v n₀.votes } = _
      rw [if_pos (show Node.hasMajority { n₀ with votes := insert v n₀.votes }
        (insert v n₀.votes) = true from hq)]
      rfl
    | false =>
      refine follows_bind (Q := fun _ n' _ => n' = { n₀ with votes := insert v n₀.votes })
        (follows_update (.countPrevote n₀ h v hk rfl hp hq) rfl) ?_
      rintro _ n₁ h₁ rfl
      refine follows_read (follows_ite (fun hq' => ?_) fun _ =>
        follows_when (fun _ => reset_does trivial) fun _ => trivial)
      exact absurd hq' (by rw [show Node.hasMajority { n₀ with votes := insert v n₀.votes }
        (insert v n₀.votes) = n₀.hasMajority (insert v n₀.votes) from rfl, hq]; decide)

theorem onVote_does {t : ℕ} {c : ι} {li : ℕ} {lt : ℤ} (hk : k = .handle (.vote t c li lt)) :
    Does self n₀ k (self.onVote t c li lt) n h (fun _ _ _ => True) := by
  refine follows_read (follows_ite (fun _ => follows_emit (.refuse n h c) trivial) fun hle => ?_)
  rw [not_lt] at hle
  refine follows_bind (Q := fun _ n' _ => n'.currentTerm = t) (follows_when (fun hlt => ?_) ?_) ?_
  · refine (stepDown_does t).mono ?_
    rintro _ n' _ rfl
    exact max_eq_right hle
  · intro hlt
    exact le_antisymm hle (not_lt.mp hlt)
  intro _ n₁ h₁ ht
  subst ht
  refine follows_read (follows_ite ?_ fun _ => follows_emit (.refuse n₁ h₁ c) trivial)
  rintro ⟨hv, hu⟩
  exact follows_of_eq rfl (.grant n₁ h₁ c li lt self.deadline hk hv hu) trivial

theorem onVoteResp_does {t : ℕ} {v : ι} {g : Bool} (hk : k = .handle (.voteResp t v g)) :
    Does self n₀ k (self.onVoteResp t v g) n h (fun _ _ _ => True) := by
  refine follows_read (follows_ite (fun _ => follows_pure trivial) fun hg => ?_)
  rw [not_or, not_not, not_not] at hg
  obtain ⟨hr, rfl⟩ := hg
  refine follows_when ?_ fun _ => trivial
  rintro rfl
  refine follows_bind (Q := fun _ _ _ => True)
    (follows_update (.countVote n h v hk hr) trivial) ?_
  intro _ n₁ h₁ _
  refine follows_read (follows_when ?_ fun _ => trivial)
  rintro ⟨hr₁, hq₁⟩
  exact becomeLeader_does hr₁ (.inr hq₁)

/-- The node before the merge of an append: a follower in the term of the message. -/
structure Followed (n₀ n : Node ι σ δ) (t : ℕ) : Prop where
  term : n.currentTerm = t
  role : n.role = .follower
  le : n₀.currentTerm ≤ t
  log : n.log = n₀.log
  commit : n.commitIndex = n₀.commitIndex
  applied : n.appliedIndex = n₀.appliedIndex
  joint : n.oldConfig = n₀.oldConfig ∧ n.jointIndex = n₀.jointIndex

/-- Lines 472–473 and 540–541. -/
theorem follow_does {t : ℕ} (hle : n₀.currentTerm ≤ t) :
    Does self n₀ k (when (n₀.currentTerm < t ∨ n₀.role ≠ .follower) (self.stepDown t)) n₀ h
      (fun _ n' _ => Followed n₀ n' t) := by
  refine follows_when (fun _ => ?_) fun hg => ?_
  · refine (stepDown_does t).mono ?_
    rintro _ n' _ rfl
    exact ⟨max_eq_right hle, rfl, hle, rfl, rfl, rfl, rfl, rfl⟩
  · rw [not_or, not_lt, not_not] at hg
    exact ⟨le_antisymm hle hg.1 |>.symm ▸ rfl, hg.2, hle, rfl, rfl, rfl, rfl, rfl⟩

theorem mergeWindow_does {t : ℕ} {l : ι} {pi : ℕ} {pt : ℤ} {es : List Entry} {c : ℕ}
    (hk : k = .handle (.append t l pi pt es c)) (hf : Followed n₀ n t) :
    Does self n₀ k (self.mergeWindow pi pt es) n h (fun r n' h' =>
      r = n₀.log.merge pi pt es ∧ n' = { n with log := r.log } ∧
        (r.ok = true → (self.id, .accept t r.matchIndex) ∈ h')) := by
  obtain ⟨rfl, hr, hle, hlog, hci, -, hj⟩ := hf
  rw [← hlog]
  have hstep : Micro self n₀ k (n, h) _ := .merge n h l pi pt es c
    (n.log.merge pi pt es) hk hr hlog hci hle hj rfl
  have hread : self.mergeWindow pi pt es n = ((do
      self.setLog (n.log.merge pi pt es).log
      when ((n.log.merge pi pt es).ok = true)
        (self.emit (.accept n.currentTerm (n.log.merge pi pt es).matchIndex))
      pure (n.log.merge pi pt es)) : Act ι σ δ RaftLog.Merged) n := rfl
  cases hok : (n.log.merge pi pt es).ok with
  | true =>
    rw [hok] at hstep
    refine follows_of_eq (a := n.log.merge pi pt es) ?_ hstep ⟨rfl, rfl, fun _ => by simp⟩
    rw [hread, hok]
    rfl
  | false =>
    rw [hok] at hstep
    refine follows_of_eq (a := n.log.merge pi pt es) ?_ hstep
      ⟨rfl, rfl, fun h' => by rw [hok] at h'; cases h'⟩
    rw [hread, hok]
    rfl

theorem onAppend_does {t : ℕ} {l : ι} {pi : ℕ} {pt : ℤ} {es : List Entry} {c : ℕ}
    (hk : k = .handle (.append t l pi pt es c)) :
    Does self n₀ k (self.onAppend t l pi pt es c) n₀ h (fun _ _ _ => True) := by
  refine follows_read (follows_ite (fun _ => ?_) fun hle => ?_)
  · exact follows_emit (.respond n₀ h l false 0 none fun hf => by cases hf) trivial
  rw [not_lt] at hle
  refine follows_bind (follow_does hle) ?_
  intro _ n₁ h₁ hf
  refine follows_bind (Q := fun _ n' _ => Followed n₀ n' t) ?_ ?_
  · -- the role is the follower's already
    have hq : Micro self n₀ k (n₁, h₁) _ := .quiet n₁ h₁ (some l) n₁.electionDeadline self.now
      n₁.nextHeartbeat n₁.nextQuorumCheck n₁.transferTarget n₁.transferDeadline
    refine follows_update ?_ ⟨hf.term, rfl, hf.le, hf.log, hf.commit, hf.applied, hf.joint⟩
    rw [← hf.role]
    exact hq
  intro _ n₂ h₂ hf
  refine follows_bind (Q := fun _ n' _ => Followed n₀ n' t) (reset_does
    ⟨hf.term, hf.role, hf.le, hf.log, hf.commit, hf.applied, hf.joint⟩) ?_
  intro _ n₃ h₃ hf
  refine follows_bind (mergeWindow_does hk hf) ?_
  rintro r n₄ h₄ ⟨hm, rfl, ha⟩
  obtain ⟨rfl, hr, hle', hlog, hci, -, -⟩ := hf
  refine follows_read (follows_bind (Q := fun _ n' h' => n'.currentTerm = n₃.currentTerm ∧
    h₄ <+: h') (follows_when ?_ fun _ => ⟨rfl, List.prefix_refl _⟩) ?_)
  · rintro ⟨hok, hlt⟩
    refine follows_bind (Q := fun _ n' h' => n'.currentTerm = n₃.currentTerm ∧
        n'.role = .follower ∧ h₄ = h')
      (follows_update (.followCommit _ h₄ l pi pt es c r hk hr hm hok rfl hci hle' (ha hok) hlt)
        ⟨rfl, hr, rfl⟩) ?_
    rintro _ n' h' ⟨ht, hr', rfl⟩
    exact (applyCommitted_does (by rw [hr']; decide)).grows.mono fun _ n'' h'' hn => ⟨hn.1.2.trans ht, hn.2⟩
  rintro _ n₅ h₅ ⟨ht, hpre⟩
  refine follows_read (follows_emit (.respond n₅ h₅ l r.ok _ (some r.conflict) ?_) trivial)
  intro hok
  rw [hok, if_pos rfl, ht]
  exact hpre.subset (ha hok)

theorem onAck_does {p : ι} {m : ℕ} {c : Option ℕ}
    (hk : k = .handle (.appendResp n.currentTerm p true m c)) (hr : n.role = .leader) :
    Does self n₀ k (self.onAck p m) n h (fun _ _ _ => True) := by
  refine follows_read ?_
  cases hmi : n.matchIndex p with
  | none => exact follows_raise
  | some mi =>
    refine follows_bind (Q := fun _ n' _ => n'.role = .leader)
      (follows_update (.matched n h p m mi c hk hr hmi) hr) ?_
    intro _ n' h' hr'
    exact (advanceCommit_does hr').mono fun _ _ _ _ => trivial

theorem onNack_does {p : ι} {c : Option ℕ} (hr : n.role = .leader) :
    Does self n₀ k (self.onNack p c) n h (fun _ _ _ => True) := by
  refine follows_read ?_
  cases hni : n.nextIndex p with
  | none => exact follows_raise
  | some ni =>
    refine follows_bind (Q := fun _ n' _ => n'.role = .leader)
      (follows_update (.backOff n h p ni _ hr hni) hr) ?_
    intro _ n' h' hr'
    exact (sendAppend_does p hr').mono fun _ _ _ _ => trivial

theorem onAppendResp_does {t : ℕ} {p : ι} {ok : Bool} {m : ℕ} {c : Option ℕ}
    (hk : k = .handle (.appendResp t p ok m c)) :
    Does self n₀ k (self.onAppendResp t p ok m c) n h (fun _ _ _ => True) := by
  refine follows_read (follows_ite (fun _ => ?_) fun hg => ?_)
  · exact follows_when (fun _ => (stepDown_does t).mono fun _ _ _ _ => trivial) fun _ => trivial
  rw [not_or, not_not, not_not] at hg
  obtain ⟨hr, rfl⟩ := hg
  refine follows_bind (Q := fun _ n' _ => n'.role = .leader ∧ n'.currentTerm = n.currentTerm)
    (follows_update (.peerAck n h p hr) ⟨hr, rfl⟩) ?_
  rintro _ n₁ h₁ ⟨hr₁, ht₁⟩
  refine follows_ite ?_ fun _ => onNack_does hr₁
  rintro rfl
  exact onAck_does (by rw [ht₁]; exact hk) hr₁

theorem onTimeoutNow_does {t : ℕ} (hk : k = .handle (.timeoutNow t)) :
    Does self n₀ k (self.onTimeoutNow t) n₀ h (fun _ _ _ => True) := by
  refine follows_read (follows_when (fun hg => ?_) fun _ => trivial)
  refine startElection_does hg.2 ⟨rfl, rfl, rfl, rfl⟩ ?_
  rw [hk]
  exact decide_eq_true hg

theorem install_does {t : ℕ} {l : ι} {s : Snapshot δ}
    (hk : k = .handle (.installSnapshot t l s)) (hf : Followed n₀ n t)
    (ha : alreadyHave n s = false) :
    Does self n₀ k (self.install s) n h (fun _ n' _ => n'.currentTerm = t ∧ n'.role = .follower ∧
      n'.appliedIndex = n.appliedIndex ∧
      n'.oldConfig = n₀.oldConfig ∧ n'.jointIndex = n₀.jointIndex) := by
  obtain ⟨rfl, hr, hle, hlog, -, -, hj⟩ := hf
  refine follows_bind (Q := fun _ n' _ => n'.currentTerm = n.currentTerm ∧ n'.role = .follower ∧
      n'.appliedIndex = n.appliedIndex ∧ n'.oldConfig = n₀.oldConfig ∧ n'.jointIndex = n₀.jointIndex)
    (follows_of_eq rfl (.install n h l s _ _ hk hr hlog hle ha rfl rfl hj) ⟨rfl, hr, rfl, hj⟩) ?_
  rintro _ n₁ h₁ ⟨ht₁, hr₁, ha₁, hj₁⟩
  refine follows_bind (writeSnapshotFile_does (.inr ⟨l, by rw [ht₁]; exact hk⟩)) ?_
  rintro _ n₂ h₂ ⟨files, rfl⟩
  exact follows_update (.snapMark _ h₂ s (.inr ⟨l, by
    show k = .handle (.installSnapshot n₁.currentTerm l s)
    rw [ht₁]; exact hk⟩)) ⟨ht₁, hr₁, ha₁, hj₁⟩

theorem onInstallSnapshot_does {t : ℕ} {l : ι} {s : Snapshot δ}
    (hk : k = .handle (.installSnapshot t l s)) :
    Does self n₀ k (self.onInstallSnapshot t l s) n₀ h (fun _ _ _ => True) := by
  refine follows_read (follows_ite (fun _ => ?_) fun hle => ?_)
  · exact follows_emit (.respond n₀ h l false 0 none fun hf => by cases hf) trivial
  rw [not_lt] at hle
  refine follows_bind (follow_does hle) ?_
  intro _ n₁ h₁ hf
  refine follows_bind (Q := fun _ n' _ => Followed n₀ n' t) (follows_update
    (.quiet n₁ h₁ _ _ _ _ _ _ _) ⟨hf.term, hf.role, hf.le, hf.log, hf.commit, hf.applied, hf.joint⟩) ?_
  intro _ n₂ h₂ hf
  refine follows_bind (Q := fun _ n' _ => Followed n₀ n' t) (reset_does
    ⟨hf.term, hf.role, hf.le, hf.log, hf.commit, hf.applied, hf.joint⟩) ?_
  intro _ n₃ h₃ hf
  have hal : alreadyHave n₃ s = alreadyHave n₀ s := by
    unfold alreadyHave
    rw [hf.log]
  refine follows_read (follows_bind (Q := fun _ n' _ => n'.currentTerm = t ∧ n'.role = .follower ∧
    n'.appliedIndex = n₃.appliedIndex ∧ n'.oldConfig = n₀.oldConfig ∧ n'.jointIndex = n₀.jointIndex)
    (follows_when (fun ha => install_does hk hf ha) fun _ => ⟨hf.term, hf.role, rfl, hf.joint⟩) ?_)
  rintro _ n₄ h₄ ⟨ht₄, hr₄, ha₄, hj₄⟩
  subst ht₄
  refine follows_bind (Q := fun _ n' _ => n'.currentTerm = n₄.currentTerm)
    (follows_update (.installIndex n₄ h₄ l s _ hk hr₄ hf.le (by rw [ha₄, hf.applied]) hal hj₄) rfl) ?_
  intro _ n₅ h₅ ht₅
  rw [hf.term, ← ht₅]
  exact follows_emit (.ackInstall n₅ h₅ l s (by rw [ht₅]; exact hk)) trivial

/-- **Every call takes only small steps**, from a state where no leader is in a pre-vote round. -/
theorem call_follows (hpre : n₀.role = .leader → n₀.preCandidate = false) :
    Does self n₀ k (self.call k) n₀ h (fun _ _ _ => True) := by
  have hpre' : n₀.role ≠ .leader ∨ n₀.preCandidate = false := by
    by_cases hr : n₀.role = .leader
    · exact .inr (hpre hr)
    · exact .inl hr
  cases hk : k with
  | tick => exact tick_does rfl
  | handle m =>
    cases m with
    | prevote t c li lt => exact onPrevote_does t c li lt
    | prevoteResp t v g => exact onPrevoteResp_does hpre' rfl
    | vote t c li lt => exact onVote_does rfl
    | voteResp t v g => exact onVoteResp_does rfl
    | append t l pi pt es c => exact onAppend_does rfl
    | appendResp t p ok m c => exact onAppendResp_does rfl
    | installSnapshot t l s => exact onInstallSnapshot_does rfl
    | timeoutNow t => exact onTimeoutNow_does rfl
  | propose payload =>
    exact follows_bind (propose_does (.inr ⟨rfl, rfl⟩)) fun _ _ _ _ => follows_pure trivial
  | transferLeadership target =>
    exact follows_bind (transferLeadership_does rfl) fun _ _ _ _ => follows_pure trivial
  | proposeAddServer x =>
    exact follows_bind (proposeAddServer_does x rfl) fun _ _ _ _ => follows_pure trivial
  | proposeRemoveServer x =>
    exact follows_bind (proposeRemoveServer_does x rfl) fun _ _ _ _ => follows_pure trivial
  | takeSnapshot =>
    exact follows_bind (takeSnapshot_does (.inl rfl)) fun _ _ _ _ => follows_pure trivial

end Does

end Pylog.Raft
