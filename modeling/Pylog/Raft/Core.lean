import Pylog.Raft.Runs

/-!
# Pylog.Raft.Core — what a call does to the log, the indexes and the tracking dicts

The core of a node is everything but its seat: term, vote, role, known leader, timers and the round
of an election.  Most code changes the seat only.  `call_turn` says once what is left of a call: at
most one of a few turns, from a node with the core of the one the call started at.
-/

namespace Pylog.Raft

open Effect Effect.Handler Transition

variable {ι σ δ : Type} [LinearOrder ι]

/-- The node without its seat. -/
def Node.core (n : Node ι σ δ) : Node ι σ δ :=
  { log := n.log, snapshotFiles := n.snapshotFiles, peers := n.peers, config := n.config
    oldConfig := n.oldConfig, jointIndex := n.jointIndex, machine := n.machine
    lastSnapshot := n.lastSnapshot, commitIndex := n.commitIndex, appliedIndex := n.appliedIndex
    nextIndex := n.nextIndex, matchIndex := n.matchIndex, lastPeerAck := n.lastPeerAck }

namespace Self

variable (self : Self ι σ δ)

/-! ### The turns -/

/-- An entry of a leader, and the commit it may complete. -/
def record (payload : Bytes) : Act ι σ δ Unit := do
  self.appendEntry payload
  self.advanceCommit

/-- `_become_leader`, up to the appends. -/
def office : Act ι σ δ Unit := do
  self.takeOffice
  let n ← read
  when (n.machine.isSome = true) (self.record noop)

/-- `_propose_config`, up to the appends. -/
def change (newServers : Finset ι) : Act ι σ δ Unit := do
  self.openJoint newServers
  self.advanceCommit

/-- `_on_append` of a current leader, up to the answer. -/
def receive (prevIndex : ℕ) (prevTerm : ℤ) (entries : List Entry) (commit : ℕ) : Act ι σ δ Unit := do
  let r ← self.mergeWindow prevIndex prevTerm entries
  let n ← read
  when (r.ok = true ∧ n.commitIndex < commit) do
    update fun n => { n with commitIndex := min commit n.log.lastIndex }
    self.applyCommitted

/-- `_on_install_snapshot` of a current leader, up to the answer. -/
def cover (s : Snapshot δ) : Act ι σ δ Unit := do
  let n ← read
  when (alreadyHave n s = false) (self.install s)
  update fun n' => { n' with
    commitIndex := max n'.commitIndex s.lastIncludedIndex
    appliedIndex := if alreadyHave n s then n'.appliedIndex
      else max n'.appliedIndex s.lastIncludedIndex }

/-- `_on_append_resp` of a leader, for an answer of its term. -/
def answered (sender : ι) (success : Bool) (matchIndex : ℕ) (conflict : Option ℕ) :
    Act ι σ δ Unit := do
  update fun n => { n with lastPeerAck := Function.update n.lastPeerAck sender (some self.now) }
  if success = true then self.onAck sender matchIndex else self.onNack sender conflict

/-- The call ends in `_become_leader`. -/
def wins (n : Node ι σ δ) : Call ι δ → Bool
  | .handle (.voteResp term sender granted) =>
    decide (n.role = .candidate ∧ term = n.currentTerm ∧ granted = true) &&
      n.hasMajority (insert sender n.votes)
  | k => self.elects n k && n.peers.isEmpty

end Self

/-- The turn of a call at `n₀`, and the node it starts from. -/
inductive Turn (self : Self ι σ δ) (n₀ : Node ι σ δ) :
    Call ι δ → Act ι σ δ Unit → Node ι σ δ → Prop
  | still (k n) (hn : n.core = n₀.core) : Turn self n₀ k (pure ()) n
  | propose (payload : Bytes) (hr : n₀.role = .leader) (ht : n₀.transferTarget = none) :
      Turn self n₀ (.propose payload) (self.record payload) n₀
  | elected (k n) (hn : n.core = n₀.core) (hw : self.wins n₀ k = true) : Turn self n₀ k self.office n
  | answered (sender : ι) (success : Bool) (matchIndex : ℕ) (conflict : Option ℕ)
      (hr : n₀.role = .leader) :
      Turn self n₀ (.handle (.appendResp n₀.currentTerm sender success matchIndex conflict))
        (self.answered sender success matchIndex conflict) n₀
  | receive (n) (term : ℕ) (leader : ι) (prevIndex : ℕ) (prevTerm : ℤ) (entries : List Entry)
      (commit : ℕ) (hn : n.core = n₀.core) (ht : n₀.currentTerm ≤ term) :
      Turn self n₀ (.handle (.append term leader prevIndex prevTerm entries commit))
        (self.receive prevIndex prevTerm entries commit) n
  | cover (n) (term : ℕ) (leader : ι) (s : Snapshot δ) (hn : n.core = n₀.core)
      (ht : n₀.currentTerm ≤ term) :
      Turn self n₀ (.handle (.installSnapshot term leader s)) (self.cover s) n
  | snapshot : Turn self n₀ .takeSnapshot (do let _ ← self.takeSnapshot) n₀
  | change (k) (newServers : Finset ι) (hr : n₀.role = .leader)
      (hc : Change self.id n₀ k newServers) : Turn self n₀ k (self.change newServers) n₀

/-! ### Code that changes the seat only -/

section Seat

variable {self : Self ι σ δ}

/-- The code changes the seat only, and returns normally. -/
abbrev Idle {α : Type} (x : Act ι σ δ α) : Prop := Calm Node.core x

omit [LinearOrder ι] in
theorem send_idle (dest : ι) (m : Msg ι δ) : Idle (self.send dest m) := calm_emit _

omit [LinearOrder ι] in
theorem save_idle (term : ℕ) (votedFor : Option ι) : Idle (self.save term votedFor) :=
  calm_bind (calm_update fun _ => rfl) fun _ => calm_bind (calm_emit _) fun _ => calm_emit _

omit [LinearOrder ι] in
theorem reset_idle : Idle self.resetElectionDeadline := calm_update fun _ => rfl

omit [LinearOrder ι] in
theorem sendAppend_idle (p : ι) : Idle (self.sendAppend p) := calm_read fun _ => send_idle _ _

omit [LinearOrder ι] in
theorem sendAllAppends_idle : Idle self.sendAllAppends :=
  calm_read fun n => calm_each sendAppend_idle n.peers

omit [LinearOrder ι] in
theorem stepDown_idle (term : ℕ) : Idle (self.stepDown term) :=
  calm_read fun _ => calm_bind (calm_when (save_idle _ _)) fun _ =>
    calm_bind (calm_update fun _ => rfl) fun _ => reset_idle

theorem checkQuorum_idle : Idle self.checkQuorum := calm_read fun _ => calm_when (stepDown_idle _)

omit [LinearOrder ι] in
theorem onPrevote_idle (term : ℕ) (candidate : ι) (lastIndex : ℕ) (lastTerm : ℤ) :
    Idle (self.onPrevote term candidate lastIndex lastTerm) := calm_read fun _ => send_idle _ _

theorem onVote_idle (term : ℕ) (candidate : ι) (lastIndex : ℕ) (lastTerm : ℤ) :
    Idle (self.onVote term candidate lastIndex lastTerm) := by
  refine calm_read fun n => calm_ite (send_idle _ _) ?_
  refine calm_bind (calm_when (stepDown_idle _)) fun _ => calm_read fun n => ?_
  refine calm_ite ?_ (send_idle _ _)
  exact calm_bind (save_idle _ _) fun _ => calm_bind reset_idle fun _ => send_idle _ _

theorem transferLeadership_idle (target : ι) : Idle (self.transferLeadership target) := by
  refine calm_read fun n => calm_ite (calm_pure _) ?_
  exact calm_bind (calm_update fun _ => rfl) fun _ => calm_bind (send_idle _ _) fun _ => calm_pure _

omit [LinearOrder ι] in
/-- A merge writes the log and returns what `merge` returned. -/
theorem mergeWindow_run (self : Self ι σ δ) {n : Node ι σ δ} {prevIndex : ℕ} {prevTerm : ℤ}
    {entries : List Entry} {r : RaftLog.Merged} (hr : n.log.merge prevIndex prevTerm entries = r) :
    ∃ o, self.mergeWindow prevIndex prevTerm entries n = ⟨{ n with log := r.log }, o, .ok r⟩ := by
  unfold Self.mergeWindow
  rw [read_bind, hr]
  cases hok : r.ok <;> exact ⟨_, rfl⟩

end Seat

/-! ### Every call is a turn -/

section Turns

variable {self : Self ι σ δ} {n₀ n : Node ι σ δ} {k : Call ι δ} {α β : Type}

/-- `x` from `n` is a turn of the call. -/
def Takes (self : Self ι σ δ) (n₀ : Node ι σ δ) (k : Call ι δ) (x : Act ι σ δ α) (n : Node ι σ δ) :
    Prop :=
  ∃ y n₁, Turn self n₀ k y n₁ ∧ EndsAs Node.core x n y n₁

theorem takes_idle {x : Act ι σ δ α} (hx : Idle x) (hn : n.core = n₀.core) : Takes self n₀ k x n :=
  ⟨_, n, .still k n hn, hx.ends rfl⟩

theorem Takes.bind {x : Act ι σ δ α} {g : α → Act ι σ δ β} (hx : Takes self n₀ k x n)
    (hg : ∀ a, Idle (g a)) : Takes self n₀ k (x >>= g) n := by
  obtain ⟨y, n₁, ht, he⟩ := hx
  exact ⟨y, n₁, ht, he.bind hg⟩

/-- A change of the seat before the turn. -/
theorem takes_after {x : Act ι σ δ α} {g : α → Act ι σ δ β} (hx : Idle x) (hn : n.core = n₀.core)
    (hg : ∀ a n', n'.core = n₀.core → Takes self n₀ k (g a) n') : Takes self n₀ k (x >>= g) n := by
  obtain ⟨n', o, a, hrun, hc⟩ := hx n
  obtain ⟨y, n₁, ht, he⟩ := hg a n' (hc.trans hn)
  exact ⟨y, n₁, ht, endsAs_of_run hrun he⟩

theorem takes_ite {c : Prop} [Decidable c] {x y : Act ι σ δ α} (hx : c → Takes self n₀ k x n)
    (hy : ¬c → Takes self n₀ k y n) : Takes self n₀ k (if c then x else y) n := by
  by_cases hc : c
  · rw [if_pos hc]
    exact hx hc
  · rw [if_neg hc]
    exact hy hc

theorem takes_when {c : Prop} [Decidable c] {x : Act ι σ δ Unit} (hn : n.core = n₀.core)
    (hx : c → Takes self n₀ k x n) : Takes self n₀ k (when c x) n :=
  takes_ite hx fun _ => takes_idle (calm_pure ()) hn

theorem takes_read {g : Node ι σ δ → Act ι σ δ α} (hg : Takes self n₀ k (g n) n) :
    Takes self n₀ k (read >>= g) n := by
  obtain ⟨y, n₁, ht, he⟩ := hg
  exact ⟨y, n₁, ht, he.view, he.error⟩

theorem propose_record (payload : Bytes) (hr : n.role = .leader) (ht : n.transferTarget = none) :
    EndsAs Node.core (self.propose payload) n (self.record payload) n := by
  have hrun : self.propose payload n = (self.record payload >>= fun _ =>
      self.sendAllAppends >>= fun _ => pure (some (n.log.lastIndex + 1))) n := by
    unfold Self.propose Self.record
    rw [read_bind, if_neg (by simp [hr, ht]), ← bind_assoc]
  refine endsAs_congr hrun ((EndsAs.refl _ _).bind fun _ => ?_)
  exact calm_bind sendAllAppends_idle fun _ => calm_pure _

theorem becomeLeader_office : EndsAs Node.core self.becomeLeader n self.office n := by
  obtain ⟨n', o, hrun, hr, ht⟩ : ∃ n' o, self.takeOffice n = ⟨n', o, .ok ()⟩ ∧ n'.role = .leader ∧
      n'.transferTarget = none := ⟨_, _, rfl, rfl, rfl⟩
  refine endsAs_after hrun (endsAs_read ?_)
  refine EndsAs.bind ?_ fun _ => calm_bind sendAllAppends_idle fun _ => calm_update fun _ => rfl
  by_cases hm : n'.machine.isSome = true
  · unfold when
    rw [if_pos hm, if_pos hm]
    exact (propose_record noop hr ht).bind fun _ => calm_pure _
  · unfold when
    rw [if_neg hm, if_neg hm]
    exact EndsAs.refl _ _

theorem becomeLeader_takes (hn : n.core = n₀.core) (hw : self.wins n₀ k = true) :
    Takes self n₀ k self.becomeLeader n :=
  ⟨_, n, .elected k n hn hw, becomeLeader_office⟩

/-- `_start_election`, for a call that reaches it. -/
theorem startElection_takes (hn : n.core = n₀.core)
    (hw : n₀.peers = [] → self.wins n₀ k = true) : Takes self n₀ k self.startElection n := by
  obtain ⟨n', o, hrun, hc, hv⟩ : ∃ n' o, self.becomeCandidate n = ⟨n', o, .ok ()⟩ ∧
      n'.core = n.core ∧ n'.votes = {self.id} := ⟨_, _, rfl, rfl, rfl⟩
  have hc' := hc.trans hn
  have hpeers : n'.peers = n₀.peers := (congrArg Node.peers hc' :)
  suffices h : Takes self n₀ k (do
      let n ← read
      each (fun p => self.send p (.vote n.currentTerm self.id n.progress.2 n.progress.1)) n.peers
      when (n.peers = [] ∨ (n.peers.length + 1) / 2 < n.votes.card) self.becomeLeader) n' by
    obtain ⟨y, n₁, ht, he⟩ := h
    exact ⟨y, n₁, ht, endsAs_of_run hrun he⟩
  refine takes_read (takes_after (calm_each (fun p => send_idle _ _) _) hc' fun _ n'' hn'' => ?_)
  refine takes_when hn'' fun hpe => becomeLeader_takes hn'' (hw ?_)
  rw [hv, Finset.card_singleton] at hpe
  rcases hpe with hpe | hpe
  · exact hpeers ▸ hpe
  · rw [← hpeers]
    exact List.eq_nil_of_length_eq_zero (by omega)

theorem tick_takes : Takes self n₀ .tick self.tick n₀ := by
  refine takes_read (takes_ite (fun hr => takes_idle ?_ rfl) fun hr => ?_)
  · refine calm_bind (calm_when ?_) fun _ => calm_bind (calm_when ?_) fun _ => calm_when ?_
    · exact calm_bind (calm_update fun _ => rfl) fun _ => sendAllAppends_idle
    · exact calm_bind sendAllAppends_idle fun _ => calm_update fun _ => rfl
    · exact calm_bind checkQuorum_idle fun _ => calm_update fun _ => rfl
  · refine takes_when rfl fun hd => takes_read (takes_ite (fun _ => takes_idle ?_ rfl) fun hp => ?_)
    · refine calm_bind (calm_update fun _ => rfl) fun _ => ?_
      exact calm_bind (calm_each (fun _ => send_idle _ _) _) fun _ => reset_idle
    · refine takes_after (calm_update fun _ => rfl) rfl fun _ n' hn' => startElection_takes hn' fun hpe => ?_
      simp only [Self.wins, Self.elects, hpe, List.isEmpty_nil, Bool.and_true]
      exact decide_eq_true ⟨hr, hd, hp⟩

theorem onPrevoteResp_takes (term : ℕ) (sender : ι) (granted : Bool) :
    Takes self n₀ (.handle (.prevoteResp term sender granted))
      (self.onPrevoteResp term sender granted) n₀ := by
  refine takes_read (takes_ite (fun _ => takes_idle (calm_pure ()) rfl) fun hp => ?_)
  simp only [not_or, Bool.not_eq_false, not_not] at hp
  let votes := if granted then insert sender n₀.votes else n₀.votes
  have hcount : when (granted = true) (update fun n : Node ι σ δ =>
      { n with votes := insert sender n.votes }) n₀ =
      (⟨{ n₀ with votes := votes }, [], .ok ()⟩ : Outcome _ (ι × Out ι σ δ) Exn _) := by
    cases granted <;> rfl
  suffices h : Takes self n₀ (.handle (.prevoteResp term sender granted)) (do
      let n ← read
      if n.hasMajority n.votes = true then
        update fun n => { n with preCandidate := false }
        self.startElection
      else when (granted = false) self.resetElectionDeadline) { n₀ with votes := votes } by
    obtain ⟨y, n₁, ht, he⟩ := h
    exact ⟨y, n₁, ht, endsAs_of_run hcount he⟩
  refine takes_read (takes_ite (fun hmaj => ?_) fun _ => takes_idle (calm_when reset_idle) rfl)
  refine takes_after (calm_update fun _ => rfl) rfl fun _ n' hn' => startElection_takes hn' fun hpe => ?_
  simp only [Self.wins, Self.elects, hpe, List.isEmpty_nil, Bool.and_true, Bool.and_eq_true]
  exact ⟨decide_eq_true hp, hmaj⟩

theorem onVoteResp_takes (term : ℕ) (sender : ι) (granted : Bool) :
    Takes self n₀ (.handle (.voteResp term sender granted)) (self.onVoteResp term sender granted) n₀ := by
  refine takes_read (takes_ite (fun _ => takes_idle (calm_pure ()) rfl) fun hr => ?_)
  rw [not_or, not_not, not_not] at hr
  refine takes_when rfl fun hg => ?_
  suffices h : Takes self n₀ (.handle (.voteResp term sender granted)) (do
      let n ← read
      when (n.role = .candidate ∧ n.hasMajority n.votes = true) self.becomeLeader)
      { n₀ with votes := insert sender n₀.votes } by
    obtain ⟨y, n₁, ht, he⟩ := h
    exact ⟨y, n₁, ht, he.view, he.error⟩
  refine takes_read (takes_when rfl fun hw => becomeLeader_takes rfl ?_)
  simp only [Self.wins, Bool.and_eq_true]
  exact ⟨decide_eq_true ⟨hr.1, hr.2, hg⟩, hw.2⟩

theorem onAppend_takes (term : ℕ) (leader : ι) (prevIndex : ℕ) (prevTerm : ℤ) (entries : List Entry)
    (commit : ℕ) :
    Takes self n₀ (.handle (.append term leader prevIndex prevTerm entries commit))
      (self.onAppend term leader prevIndex prevTerm entries commit) n₀ := by
  refine takes_read (takes_ite (fun _ => takes_idle (send_idle _ _) rfl) fun ht => ?_)
  refine takes_after (calm_when (stepDown_idle _)) rfl fun _ n' hn' => ?_
  refine takes_after (calm_update fun _ => rfl) hn' fun _ n' hn' => ?_
  refine takes_after reset_idle hn' fun _ n' hn' => ?_
  refine ⟨_, n', .receive n' term leader prevIndex prevTerm entries commit hn' (by omega), ?_⟩
  obtain ⟨o, hrun⟩ := mergeWindow_run self (n := n') rfl
  refine endsAs_after hrun (endsAs_read ?_)
  exact (EndsAs.refl _ _).bind fun _ => calm_read fun _ => send_idle _ _

theorem onInstallSnapshot_takes (term : ℕ) (leader : ι) (s : Snapshot δ) :
    Takes self n₀ (.handle (.installSnapshot term leader s)) (self.onInstallSnapshot term leader s)
      n₀ := by
  refine takes_read (takes_ite (fun _ => takes_idle (send_idle _ _) rfl) fun ht => ?_)
  refine takes_after (calm_when (stepDown_idle _)) rfl fun _ n' hn' => ?_
  refine takes_after (calm_update fun _ => rfl) hn' fun _ n' hn' => ?_
  refine takes_after reset_idle hn' fun _ n' hn' => ?_
  refine ⟨_, n', .cover n' term leader s hn' (by omega), endsAs_read ?_⟩
  rw [bind_assoc]
  exact (EndsAs.refl _ _).bind fun _ => send_idle _ _

theorem onAppendResp_takes (term : ℕ) (sender : ι) (success : Bool) (matchIndex : ℕ)
    (conflict : Option ℕ) :
    Takes self n₀ (.handle (.appendResp term sender success matchIndex conflict))
      (self.onAppendResp term sender success matchIndex conflict) n₀ := by
  refine takes_read (takes_ite (fun _ => takes_idle (calm_when (stepDown_idle _)) rfl) fun hr => ?_)
  rw [not_or, not_not, not_not] at hr
  obtain ⟨hr, rfl⟩ := hr
  exact ⟨_, n₀, .answered sender success matchIndex conflict hr, EndsAs.refl _ _⟩

theorem handle_takes (m : Msg ι δ) : Takes self n₀ (.handle m) (self.handle m) n₀ := by
  cases m with
  | prevote term candidate lastIndex lastTerm => exact takes_idle (onPrevote_idle _ _ _ _) rfl
  | prevoteResp term sender granted => exact onPrevoteResp_takes term sender granted
  | vote term candidate lastIndex lastTerm => exact takes_idle (onVote_idle _ _ _ _) rfl
  | voteResp term sender granted => exact onVoteResp_takes term sender granted
  | append term leader prevIndex prevTerm entries commit =>
    exact onAppend_takes term leader prevIndex prevTerm entries commit
  | appendResp term sender success matchIndex conflict =>
    exact onAppendResp_takes term sender success matchIndex conflict
  | installSnapshot term leader s => exact onInstallSnapshot_takes term leader s
  | timeoutNow term =>
    refine takes_read (takes_when rfl fun ht => startElection_takes rfl fun hpe => ?_)
    simp only [Self.wins, Self.elects, hpe, List.isEmpty_nil, Bool.and_true]
    exact decide_eq_true ht

theorem proposeConfig_takes {newServers : Finset ι} (hr : n₀.role = .leader)
    (hc : Change self.id n₀ k newServers) : Takes self n₀ k (self.proposeConfig newServers) n₀ := by
  refine takes_read ⟨_, n₀, .change k newServers hr hc, ?_⟩
  rw [bind_assoc]
  exact (EndsAs.refl _ _).bind fun _ => calm_bind sendAllAppends_idle fun _ => calm_pure _

/-- **Every call is a turn**, up to changes of the seat. -/
theorem call_turn (self : Self ι σ δ) (n₀ : Node ι σ δ) (k : Call ι δ) :
    Takes self n₀ k (self.call k) n₀ := by
  cases k with
  | tick => exact tick_takes
  | handle m => exact handle_takes m
  | propose payload =>
    refine Takes.bind ?_ fun _ => calm_pure _
    by_cases hr : n₀.role ≠ .leader ∨ n₀.transferTarget.isSome
    · refine takes_read ?_
      rw [if_pos hr]
      exact takes_idle (calm_pure _) rfl
    · simp only [ne_eq, not_or, not_not, Bool.not_eq_true, Option.isSome_eq_false_iff,
        Option.isNone_iff_eq_none] at hr
      exact ⟨_, n₀, .propose payload hr.1 hr.2, propose_record payload hr.1 hr.2⟩
  | transferLeadership target =>
    exact takes_idle (calm_bind (transferLeadership_idle target) fun _ => calm_pure _) rfl
  | proposeAddServer newId =>
    refine Takes.bind (takes_read (takes_ite (fun _ => takes_idle (calm_pure _) rfl) fun hr => ?_))
      fun _ => calm_pure _
    simp only [ne_eq, not_or, not_not] at hr
    exact proposeConfig_takes hr.1 ⟨hr.2.2, .inl ⟨newId, rfl, hr.2.1, rfl⟩⟩
  | proposeRemoveServer rmId =>
    refine Takes.bind (takes_read (takes_ite (fun _ => takes_idle (calm_pure _) rfl) fun hr => ?_))
      fun _ => calm_pure _
    simp only [ne_eq, not_or, not_not] at hr
    refine takes_ite (fun _ => takes_idle (calm_pure _) rfl) fun hcard => ?_
    exact proposeConfig_takes hr.1
      ⟨hr.2.2.2, .inr ⟨rmId, rfl, hr.2.1, hr.2.2.1, Nat.not_le.mp hcard, rfl⟩⟩
  | takeSnapshot => exact ⟨_, n₀, .snapshot, EndsAs.refl _ _⟩

end Turns

/-! ### The node after a turn -/

section States

variable (self : Self ι σ δ) (n : Node ι σ δ)

/-- A new commit index lies above the old one and inside the log. -/
theorem findCommit_bounds {n : Node ι σ δ} {id : ι} {index : ℕ} (h : n.findCommit id = some index) :
    n.commitIndex < index ∧ index ≤ n.log.lastIndex := by
  have hmem := List.mem_of_find?_eq_some h
  rw [List.mem_reverse, List.mem_range'_1] at hmem
  omega

theorem advanceCommit_state : (self.advanceCommit n).state = match n.findCommit self.id with
    | some candidate => (self.applyCommitted { n with commitIndex := candidate }).state
    | none => n := by
  unfold Self.advanceCommit
  rw [read_bind]
  cases n.findCommit self.id <;> rfl

theorem record_state (payload : Bytes) : (self.record payload n).state =
    (self.advanceCommit { n with log := n.log.appendEntry n.currentTerm payload }).state := rfl

theorem office_state : (self.office n).state =
    if n.machine.isSome = true then (self.record noop (self.takeOffice n).state).state
    else (self.takeOffice n).state := by
  show (when (n.machine.isSome = true) (self.record noop) (self.takeOffice n).state).state = _
  unfold when
  split_ifs <;> rfl

theorem receive_state {prevIndex : ℕ} {prevTerm : ℤ} {entries : List Entry} {r : RaftLog.Merged}
    (hr : n.log.merge prevIndex prevTerm entries = r) (commit : ℕ) :
    (self.receive prevIndex prevTerm entries commit n).state =
      if r.ok = true ∧ n.commitIndex < commit then
        (self.applyCommitted
          { n with log := r.log, commitIndex := min commit r.log.lastIndex }).state
      else { n with log := r.log } := by
  obtain ⟨o, hrun⟩ := mergeWindow_run self hr
  unfold Self.receive
  rw [bind_eq hrun]
  show (when (r.ok = true ∧ n.commitIndex < commit) _ { n with log := r.log }).state = _
  unfold when
  split_ifs <;> rfl

theorem onAck_state (sender : ι) (matchIndex : ℕ) : (self.onAck sender matchIndex n).state =
    match n.matchIndex sender with
    | none => n
    | some mi => (self.advanceCommit { n with
        matchIndex := Function.update n.matchIndex sender (some (max mi matchIndex))
        nextIndex := Function.update n.nextIndex sender (some (max mi matchIndex + 1)) }).state := by
  unfold Self.onAck
  rw [read_bind]
  cases n.matchIndex sender <;> rfl

/-- The node with the answer of a peer noted. -/
def Self.heard (sender : ι) : Node ι σ δ :=
  { n with lastPeerAck := Function.update n.lastPeerAck sender (some self.now) }

theorem answered_state (sender : ι) (success : Bool) (matchIndex : ℕ) (conflict : Option ℕ) :
    (self.answered sender success matchIndex conflict n).state =
      if success = true then (self.onAck sender matchIndex (self.heard n sender)).state
      else (self.onNack sender conflict (self.heard n sender)).state := by
  unfold Self.answered
  rw [update_bind]
  split_ifs <;> rfl

/-- Lines 380–395 outside a joint phase. -/
theorem openJoint_run (new : Finset ι) (hold : n.oldConfig = none) : ∃ o, self.openJoint new n =
    ⟨{ self.joint n new with
      log := n.log.appendEntry n.currentTerm (cfgTag ++ self.json.dumps (sortedIds new)) }, o, .ok ()⟩ := by
  unfold Self.openJoint
  rw [read_bind, when, if_pos hold]
  exact ⟨_, rfl⟩

/-- Assigning to a key of a dict keeps its keys. -/
theorem isSome_update {α : Type} {d : Dict ι α} {p : ι} (hp : (d p).isSome = true) (v : α) (q : ι) :
    (Function.update d p (some v) q).isSome = (d q).isSome := by
  by_cases hq : q = p
  · rw [hq, Function.update_self, hp]
    rfl
  · rw [Function.update_of_ne hq]

/-- The failure branch moves `next_index` of the sender only. -/
theorem onNack_state (sender : ι) (conflict : Option ℕ) : ∃ next,
    (self.onNack sender conflict n).state = { n with nextIndex := next } ∧
      ∀ p, (next p).isSome = (n.nextIndex p).isSome := by
  unfold Self.onNack
  rw [read_bind]
  cases hni : n.nextIndex sender with
  | none => exact ⟨n.nextIndex, rfl, fun p => rfl⟩
  | some ni => exact ⟨_, rfl, isSome_update (by rw [hni]; rfl) _⟩

omit [LinearOrder ι] in
theorem snapshot_state :
    ((do let _ ← self.takeSnapshot : Act ι σ δ Unit) n).state = (self.takeSnapshot n).state :=
  bind_pure_state _ _ _

omit [LinearOrder ι] in
/-- Lines 553–568, as one assignment. -/
theorem install_state (s : Snapshot δ) : (self.install s n).state =
    { n with
      machine := match self.stateMachine, n.machine with
        | some sm, some _ => some (sm.restore s.data)
        | _, _ => n.machine
      log :=
        { entries := n.log.entries.filter (fun e => s.lastIncludedIndex < e.index)
          firstIndex := s.lastIncludedIndex + 1
          snapshotLastIndex := s.lastIncludedIndex
          snapshotLastTerm := s.lastIncludedTerm }
      snapshotFiles := if self.snapshotDir = true then
          s :: n.snapshotFiles.filter (fun f => f.lastIncludedIndex ≠ s.lastIncludedIndex)
        else n.snapshotFiles
      lastSnapshot := some s } := by
  unfold Self.install Self.writeSnapshotFile when
  split_ifs <;> rfl

omit [LinearOrder ι] in
theorem cover_state (s : Snapshot δ) : (self.cover s n).state =
    if alreadyHave n s = true then { n with commitIndex := max n.commitIndex s.lastIncludedIndex }
    else { (self.install s n).state with
      commitIndex := max n.commitIndex s.lastIncludedIndex
      appliedIndex := max n.appliedIndex s.lastIncludedIndex } := by
  have hrun : ∃ o, self.install s n = ⟨(self.install s n).state, o, .ok ()⟩ := by
    unfold Self.install Self.writeSnapshotFile when
    split_ifs <;> exact ⟨_, rfl⟩
  obtain ⟨o, hrun⟩ := hrun
  unfold Self.cover
  rw [read_bind]
  cases hh : alreadyHave n s with
  | true => rfl
  | false =>
    rw [when, if_pos rfl, bind_eq hrun, install_state]
    rfl

end States

/-! ### Facts of single nodes, along runs of whole calls -/

section Nodes

variable {S : Setup ι σ δ} {c : Cluster ι σ δ} {e : Event ι δ}

omit [LinearOrder ι] in
theorem made_of_call {k : Call ι δ} (ha : e.action = .call k) : k ∈ e.action.made := by
  rw [ha]
  rfl

theorem step_node_of_ne {i : ι} (hi : i ≠ e.node) : (S.step c e).node i = c.node i := by
  unfold Setup.step Cluster.put
  cases e.action <;> exact Function.update_of_ne hi _ _

/-- The node of an event ends a call, or boots from what is on disk. -/
theorem step_node_self : (∃ k, e.action = .call k ∧
      (S.step c e).node e.node = ((S.self e).call k (c.node e.node)).state) ∨
    ∃ d, (S.step c e).node e.node = (S.params e.node).boot e.node e.now e.draw d := by
  cases ha : e.action with
  | call k =>
    refine .inl ⟨k, rfl, ?_⟩
    rw [step_call_eq ha, Setup.after, Cluster.at_node_self]
    rfl
  | restart =>
    refine .inr ⟨(c.node e.node).durable, ?_⟩
    rw [step_restart_eq (by rw [ha]; rfl), Cluster.at_node_self]
  | crash k m =>
    unfold Setup.step Cluster.put
    rw [ha]
    exact .inr ⟨_, Function.update_self ..⟩

/-- What calls and boots keep of one node holds of it in every run, crashes included. -/
theorem node_inv {ok : Cluster ι σ δ → Event ι δ → Prop} {i : ι} (N : Node ι σ δ → Prop)
    (h0 : N ((S.params i).boot i 0 0 {}))
    (hcall : ∀ c e k, Reach S.step ok S.init c → ok c e → e.node = i → e.action = .call k →
      N (c.node i) → N ((S.self e).call k (c.node i)).state)
    (hboot : ∀ c now draw d, Reach S.step ok S.init c →
      c.node i = (S.params i).boot i now draw d → N (c.node i))
    (hr : Reach S.step ok S.init c) : N (c.node i) := by
  refine hr.inv (fun c => N (c.node i)) h0 fun c e hs h he => ?_
  by_cases hi : i = e.node
  · subst hi
    rcases step_node_self (S := S) (c := c) (e := e) with ⟨k, ha, hstate⟩ | ⟨d, hstate⟩
    · rw [hstate]
      exact hcall c e k hs he rfl ha h
    · exact hboot _ _ _ d (hs.step he) hstate
  · rw [step_node_of_ne hi]
    exact h

/-- What every call and every restart keeps of a node holds of every node in every run of them. -/
theorem nodes_inv {ok : Cluster ι σ δ → Event ι δ → Prop} (N : ι → Node ι σ δ → Prop)
    (hwhole : ∀ c e, ok c e → e.action.whole = true)
    (h0 : ∀ i, N i ((S.params i).boot i 0 0 {}))
    (hcall : ∀ c e k, ok c e → e.action = .call k → (∀ i, N i (c.node i)) →
      N e.node ((S.self e).call k (c.node e.node)).state)
    (hboot : ∀ c e, ok c e → e.action = .restart → N e.node (c.node e.node) →
      N e.node ((S.params e.node).boot e.node e.now e.draw (c.node e.node).durable))
    (hr : Reach S.step ok S.init c) (i : ι) : N i (c.node i) := by
  refine hr.inv (fun c => ∀ i, N i (c.node i)) h0 (fun c e _ h he i => ?_) i
  by_cases hi : i = e.node
  · subst hi
    cases ha : e.action with
    | call k =>
      rw [step_call_eq ha, Setup.after, Cluster.at_node_self]
      exact hcall c e k he ha h
    | restart =>
      rw [step_restart_eq (by rw [ha]; rfl), Cluster.at_node_self]
      exact hboot c e he ha (h e.node)
    | crash k m =>
      have hw := hwhole c e he
      rw [ha] at hw
      cases hw
  · rw [step_node_of_ne hi]
    exact h i

end Nodes

end Pylog.Raft
