import Pylog.Raft.Runs

/-!
# Pylog.Raft.Faults — saves that raise (raft.py:133–143)

The rest of the development runs the code with saves that succeed.  Here `DurableState.save` may
raise after any of its steps; the handler is aborted and the node goes on with what it had assigned.
The methods that save are written over the save they use (`…Via save`); with `Self.save` they are
the methods of `Raft.Handlers` (`callVia_save`).
-/

namespace Pylog.Raft

open Effect Effect.Handler Transition Trace

variable {ι σ δ : Type} [LinearOrder ι]

/-- The steps of `save`, the last one done before it raises. -/
inductive SaveStep
  /-- The fields are assigned; the tmp file is missing or cut off. -/
  | fields
  /-- The tmp file is written. -/
  | tmp
  /-- `os.replace` is done. -/
  | replaced
  deriving DecidableEq, Repr

/-- Which saves raise, and after which step. -/
abbrev SaveFaults (ι : Type) := ℕ → Option ι → Option SaveStep

namespace Self

variable (self : Self ι σ δ)

/-- `DurableState.save`, raising where the faults say. -/
def failingSave (faults : SaveFaults ι) (term : ℕ) (votedFor : Option ι) : Act ι σ δ Unit := do
  update fun n => { n with currentTerm := term, votedFor := votedFor }
  match faults term votedFor with
  | some .fields => raise .osError
  | some .tmp =>
    self.emit (.writeTmp term votedFor)
    raise .osError
  | some .replaced =>
    self.emit (.writeTmp term votedFor)
    self.emit (.replace term votedFor)
    raise .osError
  | none =>
    self.emit (.writeTmp term votedFor)
    self.emit (.replace term votedFor)

/-! ### The methods that save -/

section Via

variable (save : ℕ → Option ι → Act ι σ δ Unit)

def becomeCandidateVia : Act ι σ δ Unit := do
  let n ← read
  save (n.currentTerm + 1) (some self.id)
  update fun n => { n with role := .candidate, leaderId := none, votes := {self.id} }
  self.resetElectionDeadline
  let n ← read
  self.emit (.campaign n)

def startElectionVia : Act ι σ δ Unit := do
  self.becomeCandidateVia save
  let n ← read
  each (fun p => self.send p (.vote n.currentTerm self.id n.progress.2 n.progress.1)) n.peers
  when (n.peers = [] ∨ (n.peers.length + 1) / 2 < n.votes.card) self.becomeLeader

def startPrevoteOrElectionVia : Act ι σ δ Unit := do
  let n ← read
  if self.usePrevote = true ∧ n.preCandidate = false then
    update fun n => { n with
      preCandidate := true, prevoteTerm := n.currentTerm + 1, votes := {self.id} }
    each (fun p => self.send p (.prevote (n.currentTerm + 1) self.id n.progress.2 n.progress.1)) n.peers
    self.resetElectionDeadline
  else
    update fun n => { n with preCandidate := false }
    self.startElectionVia save

def stepDownVia (term : ℕ) : Act ι σ δ Unit := do
  let n ← read
  when (n.currentTerm < term) (save term none)
  update fun n => { n with
    role := .follower, preCandidate := false, transferTarget := none, transferDeadline := 0 }
  self.resetElectionDeadline

def checkQuorumVia : Act ι σ δ Unit := do
  let n ← read
  when (self.majorityFresh n (self.electionMax * 2) = false) (self.stepDownVia save n.currentTerm)

def tickVia : Act ι σ δ Unit := do
  let n ← read
  if n.role = .leader then
    when (n.transferTarget.isSome = true ∧ n.transferDeadline ≤ self.now) do
      update fun n => { n with transferTarget := none, transferDeadline := 0 }
      self.sendAllAppends
    when (n.nextHeartbeat ≤ self.now) do
      self.sendAllAppends
      update fun n => { n with nextHeartbeat := self.now + self.heartbeatInterval }
    when (n.nextQuorumCheck ≤ self.now) do
      self.checkQuorumVia save
      update fun n => { n with nextQuorumCheck := self.now + self.quorumCheckInterval }
  else when (n.electionDeadline ≤ self.now) (self.startPrevoteOrElectionVia save)

def onPrevoteRespVia (term : ℕ) (sender : ι) (granted : Bool) : Act ι σ δ Unit := do
  let n ← read
  if n.preCandidate = false ∨ term ≠ n.prevoteTerm then pure ()
  else
    when (granted = true) (update fun n => { n with votes := insert sender n.votes })
    let n ← read
    if n.hasMajority n.votes = true then
      update fun n => { n with preCandidate := false }
      self.startElectionVia save
    else when (granted = false) self.resetElectionDeadline

def onVoteVia (term : ℕ) (candidate : ι) (lastIndex : ℕ) (lastTerm : ℤ) : Act ι σ δ Unit := do
  let n ← read
  if term < n.currentTerm then
    self.send candidate (.voteResp n.currentTerm self.id false)
  else
    when (n.currentTerm < term) (self.stepDownVia save term)
    let n ← read
    if (n.votedFor = none ∨ n.votedFor = some candidate) ∧
        atLeast (lastTerm, lastIndex) n.progress = true then
      save n.currentTerm (some candidate)
      self.resetElectionDeadline
      self.send candidate (.voteResp n.currentTerm self.id true)
    else
      self.send candidate (.voteResp n.currentTerm self.id false)

def onAppendVia (term : ℕ) (leader : ι) (prevIndex : ℕ) (prevTerm : ℤ) (entries : List Entry)
    (commit : ℕ) : Act ι σ δ Unit := do
  let n ← read
  if term < n.currentTerm then
    self.send leader (.appendResp n.currentTerm self.id false 0 none)
  else
    when (n.currentTerm < term ∨ n.role ≠ .follower) (self.stepDownVia save term)
    update fun n => { n with
      role := .follower, leaderId := some leader, lastLeaderContact := self.now }
    self.resetElectionDeadline
    let r ← self.mergeWindow prevIndex prevTerm entries
    let n ← read
    when (r.ok = true ∧ n.commitIndex < commit) do
      update fun n => { n with commitIndex := min commit n.log.lastIndex }
      self.applyCommitted
    let n ← read
    self.send leader (.appendResp n.currentTerm self.id r.ok (if r.ok then r.matchIndex else 0)
      (some r.conflict))

def onAppendRespVia (term : ℕ) (sender : ι) (success : Bool) (matchIndex : ℕ)
    (conflict : Option ℕ) : Act ι σ δ Unit := do
  let n ← read
  if n.role ≠ .leader ∨ term ≠ n.currentTerm then
    when (n.currentTerm < term) (self.stepDownVia save term)
  else
    update fun n => { n with lastPeerAck := Function.update n.lastPeerAck sender (some self.now) }
    if success = true then self.onAck sender matchIndex else self.onNack sender conflict

def onTimeoutNowVia (term : ℕ) : Act ι σ δ Unit := do
  let n ← read
  when (n.currentTerm ≤ term ∧ n.role ≠ .leader) (self.startElectionVia save)

def onInstallSnapshotVia (term : ℕ) (leader : ι) (s : Snapshot δ) : Act ι σ δ Unit := do
  let n ← read
  if term < n.currentTerm then
    self.send leader (.appendResp n.currentTerm self.id false 0 none)
  else
    when (n.currentTerm < term ∨ n.role ≠ .follower) (self.stepDownVia save term)
    update fun n => { n with leaderId := some leader, lastLeaderContact := self.now }
    self.resetElectionDeadline
    let n ← read
    let alreadyHave := decide (n.log.termAt s.lastIncludedIndex = s.lastIncludedTerm ∨
      s.lastIncludedIndex ≤ n.log.snapshotLastIndex)
    when (alreadyHave = false) (self.install s)
    update fun n => { n with
      commitIndex := max n.commitIndex s.lastIncludedIndex
      appliedIndex := if alreadyHave then n.appliedIndex
        else max n.appliedIndex s.lastIncludedIndex }
    self.send leader (.appendResp n.currentTerm self.id true s.lastIncludedIndex none)

def handleVia : Msg ι δ → Act ι σ δ Unit
  | .prevote term candidate lastIndex lastTerm => self.onPrevote term candidate lastIndex lastTerm
  | .prevoteResp term sender granted => self.onPrevoteRespVia save term sender granted
  | .vote term candidate lastIndex lastTerm => self.onVoteVia save term candidate lastIndex lastTerm
  | .voteResp term sender granted => self.onVoteResp term sender granted
  | .append term leader prevIndex prevTerm entries commit =>
    self.onAppendVia save term leader prevIndex prevTerm entries commit
  | .appendResp term sender success matchIndex conflict =>
    self.onAppendRespVia save term sender success matchIndex conflict
  | .installSnapshot term leader s => self.onInstallSnapshotVia save term leader s
  | .timeoutNow term => self.onTimeoutNowVia save term

def callVia : Call ι δ → Act ι σ δ Unit
  | .tick => self.tickVia save
  | .handle m => self.handleVia save m
  | k => self.call k

end Via

/-- **With the save that succeeds it is the code of the node.** -/
theorem callVia_save (k : Call ι δ) : self.callVia self.save k = self.call k := by
  cases k with
  | handle m => cases m <;> rfl
  | _ => rfl

end Self

/-! ### Code that does not save -/

/-- The term a message acts in. -/
def Msg.actsIn : Msg ι δ → Option ℕ
  | .vote term .. | .voteResp term .. | .append term .. | .appendResp term ..
  | .installSnapshot term .. => some term
  | _ => none

/-- The effect neither acts in a term nor ends a save. -/
def Out.idle : Out ι σ δ → Bool
  | .send _ m => m.actsIn.isNone
  | .replace _ _ => false
  | _ => true

/-- The effect is idle, or acts in the term. -/
def Out.within (term : ℕ) (o : Out ι σ δ) : Prop :=
  o.idle = true ∨ ∃ p m, o = .send p m ∧ m.actsIn = some term

/-- Code that leaves the term alone and acts in none. -/
abbrev Idles {α : Type} (x : Act ι σ δ α) (n : Node ι σ δ) : Prop :=
  Stays Node.currentTerm (fun _ o => o.2.idle = true) x n

/-- Code that leaves the term alone and acts in this term only. -/
abbrev ActsWithin {α : Type} (x : Act ι σ δ α) (n : Node ι σ δ) : Prop :=
  Stays Node.currentTerm (fun t o => o.2.within t) x n

section Stays

variable {self : Self ι σ δ} {n : Node ι σ δ}

omit [LinearOrder ι] in
theorem Idles.within {α : Type} {x : Act ι σ δ α} (hx : Idles x n) : ActsWithin x n :=
  hx.weaken fun _ => .inl

omit [LinearOrder ι] in
theorem takeSnapshot_idles : Idles self.takeSnapshot n := by
  refine stays_read ?_
  cases self.snapshotOf n with
  | none => exact stays_pure _
  | some s =>
    refine stays_bind (stays_when fun _ => stays_bind (stays_update rfl) fun _ _ _ => stays_emit rfl)
      fun _ _ _ => stays_bind (stays_update rfl) fun _ n' _ => stays_bind (stays_read ?_)
        fun _ _ _ => stays_pure _
    cases n'.log.compact s.lastIncludedIndex s.lastIncludedTerm with
    | none => exact stays_pure _
    | some l => exact stays_bind (stays_update rfl) fun _ _ _ => stays_emit rfl

omit [LinearOrder ι] in
theorem setApplied_idles (e : Entry) : Idles (self.setApplied e) n :=
  stays_read (stays_bind (stays_update rfl) fun _ _ _ => stays_emit rfl)

theorem applyEntry_idles (e : Entry) : Idles (self.applyEntry e) n := by
  refine stays_read (stays_ite (fun _ => ?_) fun _ => ?_)
  · cases self.configOf e.payload with
    | some servers => exact stays_bind (stays_update rfl) fun _ _ _ => setApplied_idles e
    | none => exact setApplied_idles e
  · cases self.stateMachine with
    | none => exact setApplied_idles e
    | some sm =>
      cases n.machine with
      | none => exact setApplied_idles e
      | some s =>
        refine stays_bind (stays_when fun _ => ?_) fun _ _ _ => setApplied_idles e
        exact stays_bind (stays_update rfl) fun _ _ _ => stays_when fun _ => stays_raise _

theorem applyLoop_idles : ∀ (i : ℕ) (n : Node ι σ δ), Idles (self.applyLoop i) n
  | 0, _ => stays_pure _
  | i + 1, n => by
    refine stays_read (stays_ite (fun _ => ?_) fun _ => stays_pure _)
    cases n.log.get (n.appliedIndex + 1) with
    | some e => exact stays_bind (applyEntry_idles e) fun _ n' _ => applyLoop_idles i n'
    | none =>
      exact stays_ite (fun _ => stays_bind (stays_update rfl) fun _ _ _ => stays_pure _)
        fun _ => stays_pure _

theorem applyCommitted_idles : Idles self.applyCommitted n := by
  refine stays_read (stays_bind (applyLoop_idles _ n) fun _ n' _ => stays_when fun _ => ?_)
  exact stays_read (stays_when fun _ => stays_bind takeSnapshot_idles fun _ _ _ => stays_pure _)

theorem advanceCommit_idles : Idles self.advanceCommit n := by
  refine stays_read ?_
  cases n.findCommit self.id with
  | none => exact stays_pure _
  | some index =>
    exact stays_bind (stays_read (stays_bind (stays_emit rfl) fun _ _ _ => stays_update rfl))
      fun _ _ _ => applyCommitted_idles

omit [LinearOrder ι] in
theorem appendEntry_idles (payload : Bytes) : Idles (self.appendEntry payload) n :=
  stays_read (stays_bind (stays_update rfl) fun _ _ _ => stays_emit rfl)

omit [LinearOrder ι] in
theorem mergeWindow_idles (prevIndex : ℕ) (prevTerm : ℤ) (entries : List Entry) :
    Idles (self.mergeWindow prevIndex prevTerm entries) n := by
  refine stays_read (stays_bind (stays_bind (stays_update rfl) fun _ _ _ => stays_emit rfl)
    fun _ _ _ => ?_)
  exact stays_bind (stays_when fun _ => stays_emit rfl) fun _ _ _ => stays_pure _

theorem onAck_idles (sender : ι) (matchIndex : ℕ) : Idles (self.onAck sender matchIndex) n := by
  refine stays_read ?_
  cases n.matchIndex sender with
  | none => exact stays_raise _
  | some mi => exact stays_bind (stays_update rfl) fun _ _ _ => advanceCommit_idles

omit [LinearOrder ι] in
theorem install_idles (s : Snapshot δ) : Idles (self.install s) n := by
  refine stays_bind (stays_bind (stays_update rfl) fun _ _ _ => stays_read
    (stays_bind (stays_update rfl) fun _ _ _ => stays_emit rfl)) fun _ _ _ => ?_
  refine stays_bind (stays_when fun _ => ?_) fun _ _ _ => stays_update rfl
  exact stays_bind (stays_update rfl) fun _ _ _ => stays_emit rfl

theorem transferLeadership_idles (target : ι) : Idles (self.transferLeadership target) n := by
  refine stays_read (stays_ite (fun _ => stays_pure _) fun _ => ?_)
  exact stays_bind (stays_update rfl) fun _ _ _ => stays_bind (stays_emit rfl) fun _ _ _ => stays_pure _

omit [LinearOrder ι] in
/-- `_step_down` to the current term saves nothing. -/
theorem stepDownVia_idles (save : ℕ → Option ι → Act ι σ δ Unit) :
    Idles (self.stepDownVia save n.currentTerm) n := by
  refine stays_read (stays_bind (stays_when fun hlt => absurd hlt (lt_irrefl _)) fun _ _ _ => ?_)
  exact stays_bind (stays_update rfl) fun _ _ _ => stays_update rfl

theorem checkQuorumVia_idles (save : ℕ → Option ι → Act ι σ δ Unit) :
    Idles (self.checkQuorumVia save) n :=
  stays_read (stays_when fun _ => stepDownVia_idles save)

/-! Code that sends in the current term. -/

omit [LinearOrder ι] in
theorem appendMsg_actsIn (p : ι) : (self.appendMsg n p).actsIn = some n.currentTerm := by
  unfold Self.appendMsg
  dsimp only
  split_ifs <;> rfl

omit [LinearOrder ι] in
theorem send_within {p : ι} {m : Msg ι δ} (hm : m.actsIn = some n.currentTerm) :
    ActsWithin (self.send p m) n := stays_emit (.inr ⟨p, m, rfl, hm⟩)

omit [LinearOrder ι] in
theorem sendAppend_within (p : ι) : ActsWithin (self.sendAppend p) n :=
  stays_read (send_within (appendMsg_actsIn p))

omit [LinearOrder ι] in
theorem sendAllAppends_within : ActsWithin self.sendAllAppends n :=
  stays_read (stays_each _ _ fun p _ _ _ => sendAppend_within p)

theorem propose_within (payload : Bytes) : ActsWithin (self.propose payload) n := by
  refine stays_read (stays_ite (fun _ => stays_pure _) fun _ => ?_)
  refine stays_bind (appendEntry_idles payload).within fun _ _ _ => ?_
  refine stays_bind advanceCommit_idles.within fun _ _ _ => ?_
  exact stays_bind sendAllAppends_within fun _ _ _ => stays_pure _

theorem proposeConfig_within (new : Finset ι) : ActsWithin (self.proposeConfig new) n := by
  refine stays_read (stays_bind (Idles.within (stays_read (stays_bind (stays_when fun _ => ?_)
    fun _ _ _ => appendEntry_idles _))) fun _ _ _ => ?_)
  · exact stays_bind (stays_update rfl) fun _ _ _ => stays_emit rfl
  · refine stays_bind advanceCommit_idles.within fun _ _ _ => ?_
    exact stays_bind sendAllAppends_within fun _ _ _ => stays_pure _

theorem becomeLeader_within : ActsWithin self.becomeLeader n := by
  refine stays_bind (Idles.within (stays_bind (stays_update rfl) fun _ _ _ => stays_read
    (stays_emit rfl))) fun _ _ _ => stays_read (stays_bind (stays_when fun _ => ?_) fun _ _ _ => ?_)
  · exact stays_bind (propose_within noop) fun _ _ _ => stays_pure _
  · exact stays_bind sendAllAppends_within fun _ _ _ => stays_update rfl

theorem onNack_within (sender : ι) (conflict : Option ℕ) : ActsWithin (self.onNack sender conflict) n := by
  refine stays_read ?_
  cases n.nextIndex sender with
  | none => exact stays_raise _
  | some ni => exact stays_bind (stays_update rfl) fun _ _ _ => sendAppend_within sender

end Stays

/-! ### The disk and the history -/

/-- The disk after the effects of a history. -/
def diskAfter (d : Durable ι δ) (h : History ι σ δ) : Durable ι δ :=
  h.foldl (fun d o => d.write o.2) d

/-- A message acts in a term the file holds, and no save lowers the term of the file. -/
def Backed (d : Durable ι δ) (h : History ι σ δ) : ι × Out ι σ δ → Prop
  | (_, .send _ m) => ∀ t ∈ m.actsIn, t ≤ (diskAfter d h).currentTerm
  | (_, .replace t _) => (diskAfter d h).currentTerm ≤ t
  | _ => True

/-- Everything so far was backed; the file holds `t` and the node is in the term `m`. -/
structure Trail (d : Durable ι δ) (t m : ℕ) (n : Node ι σ δ) (h : History ι σ δ) : Prop where
  causal : Causal (Backed d) h
  disk : (diskAfter d h).currentTerm = t
  term : n.currentTerm = m
  le : t ≤ m

/-- Everything so far was backed and the node is not behind its file. -/
def Sound (d : Durable ι δ) (n : Node ι σ δ) (h : History ι σ δ) : Prop := ∃ t m, Trail d t m n h

/-- The code stays sound, also when it raises, and a normal end satisfies `Q`. -/
abbrev Safely (d : Durable ι δ) {α : Type} (x : Act ι σ δ α) (n : Node ι σ δ) (h : History ι σ δ)
    (Q : α → Node ι σ δ → History ι σ δ → Prop) : Prop :=
  Follows (fun _ q => Sound d q.1 q.2) x n h Q

section Trail

variable {d : Durable ι δ} {t m : ℕ} {n n' : Node ι σ δ} {h : History ι σ δ} {i : ι} {o : Out ι σ δ}

omit [LinearOrder ι] in
theorem diskAfter_append (h h' : History ι σ δ) :
    diskAfter d (h ++ h') = diskAfter (diskAfter d h) h' := List.foldl_append ..

omit [LinearOrder ι] in
theorem Durable.write_idle (d : Durable ι δ) (ho : ∀ t v, o ≠ .replace t v) :
    (d.write o).currentTerm = d.currentTerm := by
  cases o with
  | replace t v => exact absurd rfl (ho t v)
  | _ => rfl

omit [LinearOrder ι] in
theorem Trail.node (ht : Trail d t m n h) (hn : n'.currentTerm = n.currentTerm) : Trail d t m n' h :=
  { ht with term := hn.trans ht.term }

omit [LinearOrder ι] in
/-- An effect that is not the end of a save. -/
theorem Trail.concat (ht : Trail d t m n h) (ho : ∀ t v, o ≠ .replace t v) (hj : Backed d h (i, o)) :
    Trail d t m n (h ++ [(i, o)]) where
  causal := causal_concat.mpr ⟨ht.causal, hj⟩
  disk := by
    rw [diskAfter_append]
    exact (Durable.write_idle _ ho).trans ht.disk
  term := ht.term
  le := ht.le

omit [LinearOrder ι] in
theorem Trail.idle (ht : Trail d t m n h) (ho : o.idle = true) : Trail d t m n (h ++ [(i, o)]) := by
  refine ht.concat (fun t v he => by subst he; cases ho) ?_
  cases o with
  | send p msg =>
    intro t' ht'
    rw [Out.idle, Option.isNone_iff_eq_none] at ho
    rw [ho] at ht'
    cases ht'
  | replace t v => cases ho
  | _ => trivial

omit [LinearOrder ι] in
/-- A node level with its file may act in its term. -/
theorem Trail.within (ht : Trail d m m n h) (ho : o.within m) : Trail d m m n (h ++ [(i, o)]) := by
  rcases ho with ho | ⟨p, msg, rfl, hmsg⟩
  · exact ht.idle ho
  · refine ht.concat (fun t v he => by cases he) fun t' ht' => ?_
    rw [hmsg] at ht'
    cases ht'
    exact ht.disk.ge

omit [LinearOrder ι] in
/-- The end of a save. -/
theorem Trail.replace {v : Option ι} (ht : Trail d t m n h) :
    Trail d m m n (h ++ [(i, .replace m v)]) where
  causal := causal_concat.mpr ⟨ht.causal, ht.disk.trans_le ht.le⟩
  disk := by
    rw [diskAfter_append]
    rfl
  term := ht.term
  le := le_rfl

omit [LinearOrder ι] in
theorem Trail.all {A : Out ι σ δ → Prop} (ht : Trail d t m n h)
    (hA : ∀ (h : History ι σ δ) (o : ι × Out ι σ δ), Trail d t m n h → A o.2 →
      Trail d t m n (h ++ [o])) :
    ∀ out : History ι σ δ, (∀ o ∈ out, A o.2) → Trail d t m n (h ++ out) := by
  intro out hout
  induction out using List.reverseRecOn with
  | nil => rwa [List.append_nil]
  | append_singleton out o ih =>
    rw [← List.append_assoc]
    exact hA _ o (ih fun o ho => hout o (List.mem_append_left _ ho)) (hout o (by simp))

omit [LinearOrder ι] in
theorem Idles.safely {α : Type} {x : Act ι σ δ α} (hx : Idles x n) (ht : Trail d t m n h) :
    Safely d x n h (fun _ n' h' => Trail d t m n' h') := by
  have hend : Trail d t m (x n).state (h ++ (x n).out) := by
    refine (ht.node hx.view).all (A := fun o => o.idle = true) (fun h o ht ho => ?_) _ hx.out
    exact ht.idle ho
  exact follows_step ⟨t, m, hend⟩ fun _ _ => hend

omit [LinearOrder ι] in
theorem safely_within {α : Type} {x : Act ι σ δ α} (hx : ActsWithin x n) (ht : Trail d m m n h) :
    Safely d x n h (fun _ n' h' => Trail d m m n' h') := by
  have hend : Trail d m m (x n).state (h ++ (x n).out) := by
    refine (ht.node hx.view).all (A := fun o => o.within m) (fun h o ht ho => ?_) _ ?_
    · exact ht.within ho
    · rw [← ht.term]
      exact hx.out
  exact follows_step ⟨m, m, hend⟩ fun _ _ => hend

end Trail

/-! ### The methods that save -/

/-- The call sends in the current term before it saves a term. -/
def Self.actsUnsaved (self : Self ι σ δ) (n : Node ι σ δ) : Call ι δ → Bool
  | .tick => decide (n.role = .leader ∧ n.peers ≠ [] ∧
      (n.transferTarget.isSome = true ∧ n.transferDeadline ≤ self.now ∨ n.nextHeartbeat ≤ self.now))
  | .handle (.vote term candidate lastIndex lastTerm) =>
      decide (term < n.currentTerm ∨ term = n.currentTerm ∧
        ¬((n.votedFor = none ∨ n.votedFor = some candidate) ∧
          atLeast (lastTerm, lastIndex) n.progress = true))
  | .handle (.voteResp term sender granted) =>
      decide (n.role = .candidate ∧ term = n.currentTerm) && granted &&
        n.hasMajority (insert sender n.votes)
  | .handle (.append term _ _ _ _ _) => decide (term ≤ n.currentTerm)
  | .handle (.installSnapshot term _ _) => decide (term ≤ n.currentTerm)
  | .handle (.appendResp term sender success _ _) =>
      decide (n.role = .leader ∧ term = n.currentTerm) && !success && (n.nextIndex sender).isSome
  | .propose _ => decide (n.role = .leader ∧ n.transferTarget = none)
  | .proposeAddServer newId => decide (n.role = .leader ∧ newId ∉ n.config ∧ n.oldConfig = none)
  | .proposeRemoveServer rmId =>
      decide (n.role = .leader ∧ rmId ∈ n.config ∧ rmId ≠ self.id ∧ n.oldConfig = none ∧
        2 < n.config.card)
  | _ => false

section Safely

variable {self : Self ι σ δ} {faults : SaveFaults ι} {d : Durable ι δ} {t m t' : ℕ}
  {n : Node ι σ δ} {h : History ι σ δ}

omit [LinearOrder ι] in
/-- A save that returns leaves the node level with its file; one that raises may leave it ahead. -/
theorem failingSave_safely (ht : Trail d t m n h) (hm : m ≤ t') (v : Option ι) :
    Safely d (self.failingSave faults t' v) n h (fun _ n' h' => Trail d t' t' n' h') := by
  have hset : Trail d t t' { n with currentTerm := t', votedFor := v } h :=
    { ht with term := rfl, le := ht.le.trans hm }
  have hwrite {n' : Node ι σ δ} {h' : History ι σ δ} (hn : Trail d t t' n' h') :
      Safely d (self.emit (.writeTmp t' v)) n' h' (fun _ n' h' => Trail d t t' n' h') :=
    follows_emit ⟨t, t', hn.idle rfl⟩ (hn.idle rfl)
  have hreplace {n' : Node ι σ δ} {h' : History ι σ δ} (hn : Trail d t t' n' h') :
      Safely d (self.emit (.replace t' v)) n' h' (fun _ n' h' => Trail d t' t' n' h') :=
    follows_emit ⟨t', t', hn.replace⟩ hn.replace
  refine follows_bind (Q := fun _ n' h' => Trail d t t' n' h') (follows_update ⟨t, t', hset⟩ hset) ?_
  intro _ n' h' hn
  cases faults t' v with
  | none => exact follows_bind (hwrite hn) fun _ _ _ hn => hreplace hn
  | some step =>
    cases step with
    | fields => exact follows_raise
    | tmp => exact follows_bind (hwrite hn) fun _ _ _ _ => follows_raise
    | replaced =>
      exact follows_bind (hwrite hn) fun _ _ _ hn => follows_bind (hreplace hn) fun _ _ _ _ =>
        follows_raise

omit [LinearOrder ι] in
theorem stepDownVia_safely (ht : Trail d t m n h) (hm : m ≤ t') (hl : m < t' ∨ t = m) :
    Safely d (self.stepDownVia (self.failingSave faults) t') n h
      (fun _ n' h' => Trail d t' t' n' h') := by
  refine follows_read (follows_bind (Q := fun _ n' h' => Trail d t' t' n' h')
    (follows_when (fun _ => failingSave_safely ht hm none) fun hge => ?_) fun _ n' _ hn => ?_)
  · rw [ht.term] at hge
    have hmt : m = t' := by omega
    have htm : t = m := by omega
    subst hmt htm
    exact ht
  · exact Idles.safely (stays_bind (stays_update rfl) fun _ _ _ => stays_update rfl) hn

theorem startElectionVia_safely (ht : Trail d t m n h) :
    Safely d (self.startElectionVia (self.failingSave faults)) n h (fun _ _ _ => True) := by
  have hcandidate : Safely d (self.becomeCandidateVia (self.failingSave faults)) n h
      (fun _ n' h' => Trail d (m + 1) (m + 1) n' h') := by
    refine follows_read (follows_bind (Q := fun _ n' h' => Trail d (m + 1) (m + 1) n' h') ?_
      fun _ n' _ hn => Idles.safely ?_ hn)
    · rw [ht.term]
      exact failingSave_safely ht (Nat.le_succ m) _
    · exact stays_bind (stays_update rfl) fun _ _ _ => stays_bind (stays_update rfl) fun _ _ _ =>
        stays_read (stays_emit rfl)
  refine follows_bind hcandidate fun _ n' h' hn => ?_
  have hrest := safely_within (x := (do
      let n ← read
      each (fun p => self.send p (.vote n.currentTerm self.id n.progress.2 n.progress.1)) n.peers
      when (n.peers = [] ∨ (n.peers.length + 1) / 2 < n.votes.card) self.becomeLeader)) (n := n')
    (stays_read (stays_bind (stays_each _ _ fun p _ n'' hn'' => send_within (congrArg some hn''.symm))
      fun _ _ _ => stays_when fun _ => becomeLeader_within)) hn
  exact hrest.mono fun _ _ _ _ => trivial

theorem startPrevoteOrElectionVia_safely (ht : Trail d t m n h) :
    Safely d (self.startPrevoteOrElectionVia (self.failingSave faults)) n h (fun _ _ _ => True) := by
  refine follows_read (follows_ite (fun _ => ?_) fun _ => ?_)
  · refine (Idles.safely (stays_bind (stays_update rfl) fun _ _ _ => ?_) ht).mono fun _ _ _ _ => trivial
    refine stays_bind (stays_each _ _ fun p _ _ _ => ?_) fun _ _ _ => stays_update rfl
    exact stays_emit rfl
  · refine follows_bind (Idles.safely (stays_update rfl) ht) fun _ _ _ hn => ?_
    exact startElectionVia_safely hn

omit [LinearOrder ι] in
/-- A round of appends, by a node level with its file or without peers. -/
theorem sendAllAppends_safely (ht : Trail d t m n h) (hp : t = m ∨ n.peers = []) :
    Safely d self.sendAllAppends n h (fun _ n' h' => Trail d t m n' h' ∧ n'.peers = n.peers) := by
  rcases hp with rfl | hp
  · refine follows_read (follows_each (fun n' h' => Trail d t t n' h' ∧ n'.peers = n.peers) n.peers n h
      ⟨ht, rfl⟩ ?_)
    rintro p - n' h' ⟨hn, hp⟩
    have hsend : Trail d t t n' (h' ++ [(self.id, .send p (self.appendMsg n' p))]) :=
      hn.within (.inr ⟨p, _, rfl, by rw [appendMsg_actsIn, hn.term]⟩)
    exact follows_read (follows_emit ⟨t, t, hsend⟩ ⟨hsend, hp⟩)
  · refine follows_read ?_
    rw [hp]
    exact follows_pure ⟨ht, hp⟩

theorem tickVia_safely (ht : Trail d t m n h) (hx : t < m → self.actsUnsaved n .tick = false) :
    Safely d (self.tickVia (self.failingSave faults)) n h (fun _ _ _ => True) := by
  refine follows_read (follows_ite (fun hr => ?_) fun _ => ?_)
  · have hdue : (n.transferTarget.isSome = true ∧ n.transferDeadline ≤ self.now ∨
        n.nextHeartbeat ≤ self.now) → t = m ∨ n.peers = [] := by
      intro hdue
      by_contra hne
      rw [not_or] at hne
      have := of_decide_eq_false (hx (lt_of_le_of_ne ht.le hne.1))
      exact this ⟨hr, hne.2, hdue⟩
    refine follows_bind (Q := fun _ n' h' => Trail d t m n' h' ∧ n'.peers = n.peers)
      (follows_when (fun hd => ?_) fun _ => ⟨ht, rfl⟩) ?_
    · have hset : Trail d t m { n with transferTarget := none, transferDeadline := 0 } h := ht.node rfl
      refine follows_bind (Q := fun _ n' h' => Trail d t m n' h' ∧ n'.peers = n.peers)
        (follows_update ⟨t, m, hset⟩ ⟨hset, rfl⟩) ?_
      rintro _ n' h' ⟨hn, hp⟩
      refine (sendAllAppends_safely hn (by rw [hp]; exact hdue (.inl hd))).mono ?_
      rintro _ n'' h'' ⟨hn', hp'⟩
      exact ⟨hn', hp'.trans hp⟩
    rintro _ n₁ h₁ ⟨hn₁, hp₁⟩
    refine follows_bind (Q := fun _ n' h' => Trail d t m n' h')
      (follows_when (fun hd => ?_) fun _ => hn₁) ?_
    · refine follows_bind (sendAllAppends_safely hn₁ (by rw [hp₁]; exact hdue (.inr hd))) ?_
      rintro _ n' h' ⟨hn, -⟩
      exact Idles.safely (stays_update rfl) hn
    intro _ n₂ h₂ hn₂
    refine (Idles.safely (stays_when fun _ => ?_) hn₂).mono fun _ _ _ _ => trivial
    exact stays_bind (checkQuorumVia_idles _) fun _ _ _ => stays_update rfl
  · exact follows_when (fun _ => startPrevoteOrElectionVia_safely ht) fun _ => trivial

theorem onPrevoteRespVia_safely (ht : Trail d t m n h) (term : ℕ) (sender : ι) (granted : Bool) :
    Safely d (self.onPrevoteRespVia (self.failingSave faults) term sender granted) n h
      (fun _ _ _ => True) := by
  refine follows_read (follows_ite (fun _ => follows_pure trivial) fun _ => ?_)
  refine follows_bind (Idles.safely (stays_when fun _ => stays_update rfl) ht) fun _ _ _ hn => ?_
  refine follows_read (follows_ite (fun _ => ?_) fun _ => ?_)
  · refine follows_bind (Idles.safely (stays_update rfl) hn) fun _ _ _ hn' => ?_
    exact startElectionVia_safely hn'
  · exact (Idles.safely (stays_when fun _ => stays_update rfl) hn).mono fun _ _ _ _ => trivial

theorem onVoteVia_safely {term : ℕ} {candidate : ι} {lastIndex : ℕ} {lastTerm : ℤ}
    (ht : Trail d t m n h)
    (hx : t < m → self.actsUnsaved n (.handle (.vote term candidate lastIndex lastTerm)) = false) :
    Safely d (self.onVoteVia (self.failingSave faults) term candidate lastIndex lastTerm) n h
      (fun _ _ _ => True) := by
  have hanswer {t' : ℕ} {n' : Node ι σ δ} {h' : History ι σ δ} (g : Bool) (hn : Trail d t' t' n' h') :
      Safely d (self.send candidate (.voteResp n'.currentTerm self.id g)) n' h' (fun _ _ _ => True) :=
    (safely_within (send_within rfl) hn).mono fun _ _ _ _ => trivial
  have hgrant {t₁ t' : ℕ} {n' : Node ι σ δ} {h' : History ι σ δ} (hn : Trail d t₁ t' n' h') :
      Safely d (do
        self.failingSave faults n'.currentTerm (some candidate)
        self.resetElectionDeadline
        self.send candidate (.voteResp n'.currentTerm self.id true)) n' h' (fun _ _ _ => True) := by
    rw [hn.term]
    refine follows_bind (failingSave_safely hn le_rfl _) fun _ _ _ hs => ?_
    refine follows_bind (Idles.safely (stays_update rfl) hs) fun _ _ _ hs' => ?_
    rw [← hs'.term]
    exact hanswer true hs'
  -- what an unsaved term would be sent with
  have hlevel : ¬ m < term → ¬((n.votedFor = none ∨ n.votedFor = some candidate) ∧
      atLeast (lastTerm, lastIndex) n.progress = true) ∨ term < m → t = m := by
    intro hle hsend
    by_contra hne
    have hfalse := of_decide_eq_false (hx (lt_of_le_of_ne ht.le hne))
    rw [ht.term] at hfalse
    rcases hsend with hsend | hlt
    · rcases Nat.lt_or_ge term m with hlt | hge
      · exact hfalse (.inl hlt)
      · exact hfalse (.inr ⟨by omega, hsend⟩)
    · exact hfalse (.inl hlt)
  refine follows_read (follows_ite (fun hlt => ?_) fun hge => ?_)
  · rw [ht.term] at hlt
    obtain rfl := hlevel (by omega) (.inr hlt)
    exact hanswer false ht
  rw [ht.term] at hge
  by_cases hm : m < term
  · refine follows_bind (Q := fun _ n' h' => Trail d term term n' h')
      (follows_when (fun _ => stepDownVia_safely ht hm.le (.inl hm)) fun hn => ?_) ?_
    · exact absurd (by rw [ht.term]; exact hm) hn
    intro _ n' h' hn
    exact follows_read (follows_ite (fun _ => hgrant hn) fun _ => hanswer false hn)
  · refine follows_bind (Q := fun _ n' h' => n' = n ∧ h' = h) (follows_when (fun hn => ?_)
      fun _ => ⟨rfl, rfl⟩) ?_
    · rw [ht.term] at hn
      exact absurd hn hm
    rintro _ n' h' ⟨rfl, rfl⟩
    refine follows_read (follows_ite (fun _ => hgrant ht) fun hno => ?_)
    obtain rfl := hlevel hm (.inl hno)
    exact hanswer false ht

theorem onVoteRespVia_safely {term : ℕ} {sender : ι} {granted : Bool} (ht : Trail d t m n h)
    (hx : t < m → self.actsUnsaved n (.handle (.voteResp term sender granted)) = false) :
    Safely d (self.onVoteResp term sender granted) n h (fun _ _ _ => True) := by
  refine follows_read (follows_ite (fun _ => follows_pure trivial) fun hr => ?_)
  rw [not_or, not_not, not_not] at hr
  refine follows_when (fun hg => ?_) fun _ => trivial
  have hset : Trail d t m { n with votes := insert sender n.votes } h := ht.node rfl
  refine follows_bind (Q := fun _ n' h' => n' = { n with votes := insert sender n.votes } ∧ h' = h)
    (follows_update ⟨t, m, hset⟩ ⟨rfl, rfl⟩) ?_
  rintro _ n' h' ⟨rfl, rfl⟩
  refine follows_read (follows_when (fun hw => ?_) fun _ => trivial)
  have hlevel : t = m := by
    by_contra hne
    have hfalse := hx (lt_of_le_of_ne ht.le hne)
    rw [Self.actsUnsaved, decide_eq_true hr, hg] at hfalse
    exact absurd (hw.2.symm.trans hfalse) (by decide)
  subst hlevel
  exact (safely_within becomeLeader_within hset).mono fun _ _ _ _ => trivial

omit [LinearOrder ι] in
/-- The start of `_on_append` and of `_on_install_snapshot`, for a message that is not stale. -/
theorem followVia_safely {term : ℕ} (ht : Trail d t m n h) (hge : m ≤ term) (hl : term ≤ m → t = m) :
    Safely d (when (n.currentTerm < term ∨ n.role ≠ .follower)
        (self.stepDownVia (self.failingSave faults) term)) n h
      (fun _ n' h' => Trail d term term n' h') := by
  have hlevel : m < term ∨ t = m := (Nat.lt_or_ge m term).imp_right hl
  refine follows_when (fun _ => stepDownVia_safely ht hge hlevel) fun hn => ?_
  rw [not_or, ht.term] at hn
  have hmt : m = term := by omega
  have htm : t = m := by omega
  subst hmt htm
  exact ht

omit [LinearOrder ι] in
/-- A message that may act in a term of the node's finds that term saved. -/
theorem Trail.saved_of_le (ht : Trail d t m n h) {term : ℕ}
    (hx : t < m → decide (term ≤ n.currentTerm) = false) (hle : term ≤ m) : t = m := by
  by_contra hne
  have hfalse := of_decide_eq_false (hx (lt_of_le_of_ne ht.le hne))
  rw [ht.term] at hfalse
  exact hfalse hle

theorem onAppendVia_safely {term : ℕ} {leader : ι} {prevIndex : ℕ} {prevTerm : ℤ}
    {entries : List Entry} {commit : ℕ} (ht : Trail d t m n h)
    (hx : t < m → self.actsUnsaved n
      (.handle (.append term leader prevIndex prevTerm entries commit)) = false) :
    Safely d (self.onAppendVia (self.failingSave faults) term leader prevIndex prevTerm entries commit)
      n h (fun _ _ _ => True) := by
  have hlevel : term ≤ m → t = m := ht.saved_of_le hx
  refine follows_read (follows_ite (fun hlt => ?_) fun hge => ?_)
  · rw [ht.term] at hlt
    obtain rfl := hlevel hlt.le
    exact (safely_within (send_within rfl) ht).mono fun _ _ _ _ => trivial
  rw [ht.term, not_lt] at hge
  refine follows_bind (followVia_safely ht hge hlevel) fun _ n₁ _ hn₁ => ?_
  refine follows_bind (Idles.safely (stays_update rfl) hn₁) fun _ _ _ hn₂ => ?_
  refine follows_bind (Idles.safely (stays_update rfl) hn₂) fun _ _ _ hn₃ => ?_
  refine follows_bind (Idles.safely (mergeWindow_idles prevIndex prevTerm entries) hn₃)
    fun r n₄ h₄ hn₄ => follows_read ?_
  refine follows_bind (Q := fun _ n' h' => Trail d term term n' h') ?_ fun _ n₅ h₅ hn₅ => ?_
  · refine follows_when (fun _ => ?_) fun _ => hn₄
    refine follows_bind (Idles.safely (stays_update rfl) hn₄) fun _ _ _ hn => ?_
    exact Idles.safely applyCommitted_idles hn
  · exact follows_read ((safely_within (send_within rfl) hn₅).mono fun _ _ _ _ => trivial)

theorem onAppendRespVia_safely {term : ℕ} {sender : ι} {success : Bool} {matchIndex : ℕ}
    {conflict : Option ℕ} (ht : Trail d t m n h)
    (hx : t < m → self.actsUnsaved n
      (.handle (.appendResp term sender success matchIndex conflict)) = false) :
    Safely d (self.onAppendRespVia (self.failingSave faults) term sender success matchIndex conflict)
      n h (fun _ _ _ => True) := by
  refine follows_read (follows_ite (fun _ => follows_when (fun hlt => ?_) fun _ => trivial) fun hr => ?_)
  · rw [ht.term] at hlt
    exact (stepDownVia_safely ht hlt.le (.inl hlt)).mono fun _ _ _ _ => trivial
  rw [not_or, not_not, not_not] at hr
  have hset : Trail d t m
      { n with lastPeerAck := Function.update n.lastPeerAck sender (some self.now) } h := ht.node rfl
  refine follows_bind (Q := fun _ n' h' => n' = { n with
    lastPeerAck := Function.update n.lastPeerAck sender (some self.now) } ∧ h' = h)
    (follows_update ⟨t, m, hset⟩ ⟨rfl, rfl⟩) ?_
  rintro _ n' h' ⟨rfl, rfl⟩
  refine follows_ite (fun _ => ?_) fun hs => ?_
  · exact (Idles.safely (onAck_idles sender matchIndex) hset).mono fun _ _ _ _ => trivial
  rw [Bool.not_eq_true] at hs
  rcases Nat.eq_or_lt_of_le ht.le with rfl | hlt
  · exact (safely_within (onNack_within sender conflict) hset).mono fun _ _ _ _ => trivial
  -- ahead of its file, so the sender is no peer and the lookup raises
  have hfalse := hx hlt
  rw [Self.actsUnsaved, decide_eq_true hr, hs] at hfalse
  have hnone : n.nextIndex sender = none := Option.not_isSome_iff_eq_none.mp
    (Bool.not_eq_true _ ▸ hfalse)
  have hraise : Idles (self.onNack sender conflict)
      { n with lastPeerAck := Function.update n.lastPeerAck sender (some self.now) } := by
    refine stays_read ?_
    dsimp only
    rw [hnone]
    exact stays_raise _
  exact (Idles.safely hraise hset).mono fun _ _ _ _ => trivial

theorem onInstallSnapshotVia_safely {term : ℕ} {leader : ι} {s : Snapshot δ} (ht : Trail d t m n h)
    (hx : t < m → self.actsUnsaved n (.handle (.installSnapshot term leader s)) = false) :
    Safely d (self.onInstallSnapshotVia (self.failingSave faults) term leader s) n h
      (fun _ _ _ => True) := by
  have hlevel : term ≤ m → t = m := ht.saved_of_le hx
  refine follows_read (follows_ite (fun hlt => ?_) fun hge => ?_)
  · rw [ht.term] at hlt
    obtain rfl := hlevel hlt.le
    exact (safely_within (send_within rfl) ht).mono fun _ _ _ _ => trivial
  rw [ht.term, not_lt] at hge
  refine follows_bind (followVia_safely ht hge hlevel) fun _ n₁ _ hn₁ => ?_
  refine follows_bind (Idles.safely (stays_update rfl) hn₁) fun _ _ _ hn₂ => ?_
  refine follows_bind (Idles.safely (stays_update rfl) hn₂) fun _ n₃ _ hn₃ => follows_read ?_
  refine follows_bind (Idles.safely (stays_when fun _ => install_idles s) hn₃) fun _ _ _ hn₄ => ?_
  refine follows_bind (Idles.safely (stays_update rfl) hn₄) fun _ n₅ _ hn₅ => ?_
  -- the term of the answer was read before the install
  rw [hn₃.term, ← hn₅.term]
  exact (safely_within (send_within rfl) hn₅).mono fun _ _ _ _ => trivial

/-- **Every call is safe** that does not act in a term the file lacks. -/
theorem callVia_safely {k : Call ι δ} (ht : Trail d t m n h)
    (hx : t < m → self.actsUnsaved n k = false) :
    Safely d (self.callVia (self.failingSave faults) k) n h (fun _ _ _ => True) := by
  have hwithin {x : Act ι σ δ Unit} (hw : ActsWithin x n) (hi : t < m → Idles x n) :
      Safely d x n h (fun _ _ _ => True) := by
    rcases Nat.eq_or_lt_of_le ht.le with rfl | hlt
    · exact (safely_within hw ht).mono fun _ _ _ _ => trivial
    · exact (Idles.safely (hi hlt) ht).mono fun _ _ _ _ => trivial
  cases k with
  | tick => exact tickVia_safely ht hx
  | handle msg =>
    cases msg with
    | prevote term candidate lastIndex lastTerm =>
      refine (Idles.safely (stays_read ?_) ht).mono fun _ _ _ _ => trivial
      exact stays_emit rfl
    | prevoteResp term sender granted => exact onPrevoteRespVia_safely ht term sender granted
    | vote term candidate lastIndex lastTerm => exact onVoteVia_safely ht hx
    | voteResp term sender granted => exact onVoteRespVia_safely ht hx
    | append term leader prevIndex prevTerm entries commit => exact onAppendVia_safely ht hx
    | appendResp term sender success matchIndex conflict => exact onAppendRespVia_safely ht hx
    | installSnapshot term leader s => exact onInstallSnapshotVia_safely ht hx
    | timeoutNow term =>
      exact follows_read (follows_when (fun _ => startElectionVia_safely ht) fun _ => trivial)
  | propose payload =>
    refine hwithin (stays_bind (propose_within payload) fun _ _ _ => stays_pure _) fun hlt => ?_
    refine stays_bind (stays_read (stays_ite (fun _ => stays_pure _) fun hr => ?_)) fun _ _ _ =>
      stays_pure _
    refine absurd ?_ (of_decide_eq_false (hx hlt))
    simpa using hr
  | transferLeadership target =>
    refine (Idles.safely ?_ ht).mono fun _ _ _ _ => trivial
    exact stays_bind (transferLeadership_idles target) fun _ _ _ => stays_pure _
  | proposeAddServer newId =>
    refine hwithin (stays_bind (stays_read (stays_ite (fun _ => stays_pure _) fun _ => ?_))
      fun _ _ _ => stays_pure _) fun hlt => ?_
    · exact proposeConfig_within _
    refine stays_bind (stays_read (stays_ite (fun _ => stays_pure _) fun hr => ?_)) fun _ _ _ =>
      stays_pure _
    refine absurd ?_ (of_decide_eq_false (hx hlt))
    simpa using hr
  | proposeRemoveServer rmId =>
    refine hwithin (stays_bind (stays_read (stays_ite (fun _ => stays_pure _) fun _ => ?_))
      fun _ _ _ => stays_pure _) fun hlt => ?_
    · exact stays_ite (fun _ => stays_pure _) fun _ => proposeConfig_within _
    refine stays_bind (stays_read (stays_ite (fun _ => stays_pure _) fun hr => stays_ite
      (fun _ => stays_pure _) fun hc => ?_)) fun _ _ _ => stays_pure _
    refine absurd ?_ (of_decide_eq_false (hx hlt))
    simp only [ne_eq, not_or, not_not] at hr
    exact ⟨hr.1, hr.2.1, hr.2.2.1, hr.2.2.2, Nat.not_le.mp hc⟩
  | takeSnapshot =>
    refine (Idles.safely ?_ ht).mono fun _ _ _ _ => trivial
    exact stays_bind takeSnapshot_idles fun _ _ _ => stays_pure _

end Safely

/-! ### Runs of one node with failing saves -/

/-- A node and what it did since it was built on a disk. -/
structure Host (ι σ δ : Type) where
  node : Node ι σ δ
  history : History ι σ δ

/-- What can happen to the node: a call with saves that raise, a crash inside one after a number of
its effects, a restart. -/
inductive FaultyAction (ι δ : Type)
  | call (k : Call ι δ) (faults : SaveFaults ι)
  | crash (k : Call ι δ) (faults : SaveFaults ι) (effects : ℕ)
  | restart

/-- The call the action makes, to its end or not. -/
def FaultyAction.made : FaultyAction ι δ → Option (Call ι δ)
  | .call k _ => some k
  | .crash k _ _ => some k
  | .restart => none

structure FaultyEvent (ι δ : Type) where
  now : ℚ
  draw : ℚ
  action : FaultyAction ι δ

namespace Params

variable (P : Params ι σ δ) (i : ι) (d : Durable ι δ)

def selfAt (e : FaultyEvent ι δ) : Self ι σ δ := { P with id := i, now := e.now, draw := e.draw }

/-- The node built on the disk `d`. -/
def start : Host ι σ δ := ⟨P.boot i 0 0 d, []⟩

/-- One event.  An exception leaves the node as it was when it was raised; a restart reads the file. -/
def next (c : Host ι σ δ) (e : FaultyEvent ι δ) : Host ι σ δ :=
  match e.action with
  | .call k faults =>
    let r := (P.selfAt i e).callVia ((P.selfAt i e).failingSave faults) k c.node
    ⟨r.state, c.history ++ r.out⟩
  | .crash k faults effects =>
    let r := (P.selfAt i e).callVia ((P.selfAt i e).failingSave faults) k c.node
    let h := c.history ++ r.out.take effects
    ⟨P.boot i e.now e.draw (diskAfter d h), h⟩
  | .restart => ⟨P.boot i e.now e.draw (diskAfter d c.history), c.history⟩

/-- The event does not make a node whose term is above its file's act in this term. -/
def ActsSaved (c : Host ι σ δ) (e : FaultyEvent ι δ) : Prop :=
  (diskAfter d c.history).currentTerm < c.node.currentTerm →
    ∀ k ∈ e.action.made, (P.selfAt i e).actsUnsaved c.node k = false

instance (c : Host ι σ δ) (e : FaultyEvent ι δ) : Decidable (P.ActsSaved i d c e) :=
  inferInstanceAs (Decidable (_ → ∀ k ∈ e.action.made, _ = _))

/-- Every message acted in a term the file held, and a restart now comes back in no lower term. -/
def TermsDurable (c : Host ι σ δ) : Prop :=
  Causal (Backed d) c.history ∧ ∀ p m, InFlight c.history p m → ∀ t ∈ m.actsIn, ∀ now draw,
    t ≤ (P.boot i now draw (diskAfter d c.history)).currentTerm

end Params

section Runs

variable {P : Params ι σ δ} {i : ι} {d : Durable ι δ} {c : Host ι σ δ} {e : FaultyEvent ι δ}

theorem boot_term (P : Params ι σ δ) (i : ι) (now draw : ℚ) (d : Durable ι δ) :
    (P.boot i now draw d).currentTerm = d.currentTerm := by
  obtain ⟨l, a, b, m, s, he, -⟩ := boot_eq P i now draw d
  rw [he]

theorem sound_boot {h : History ι σ δ} (hc : Causal (Backed d) h) (now draw : ℚ) :
    Sound d (P.boot i now draw (diskAfter d h)) h :=
  ⟨_, _, hc, rfl, boot_term P i now draw _, le_rfl⟩

theorem sound_next (hs : Sound d c.node c.history) (he : P.ActsSaved i d c e) :
    Sound d (P.next i d c e).node (P.next i d c e).history := by
  obtain ⟨t, m, ht⟩ := hs
  have hcall (k : Call ι δ) (hk : k ∈ e.action.made) (faults : SaveFaults ι) :
      Sound d ((P.selfAt i e).callVia ((P.selfAt i e).failingSave faults) k c.node).state
        (c.history ++ ((P.selfAt i e).callVia ((P.selfAt i e).failingSave faults) k c.node).out) := by
    refine (callVia_safely ht fun hlt => ?_).inv (Sound d) (fun _ _ hq _ => hq) ⟨t, m, ht⟩
    exact he (by rw [ht.disk, ht.term]; exact hlt) k hk
  obtain ⟨now, draw, action⟩ := e
  cases action with
  | call k faults => exact hcall k rfl faults
  | crash k faults effects =>
    obtain ⟨_, _, hend⟩ := hcall k rfl faults
    have hcut := hend.causal
    rw [← List.take_append_drop effects
      ((P.selfAt i ⟨now, draw, .crash k faults effects⟩).callVia _ k c.node).out,
      ← List.append_assoc] at hcut
    exact sound_boot hcut.take now draw
  | restart => exact sound_boot ht.causal _ _

omit [LinearOrder ι] in
/-- No save lowers the term of the file. -/
theorem disk_mono {h₁ h₂ : History ι σ δ} (hc : Causal (Backed d) (h₁ ++ h₂)) :
    (diskAfter d h₁).currentTerm ≤ (diskAfter d (h₁ ++ h₂)).currentTerm := by
  induction h₂ using List.reverseRecOn with
  | nil => rw [List.append_nil]
  | append_singleton h₂ o ih =>
    obtain ⟨j, o⟩ := o
    rw [← List.append_assoc] at hc ⊢
    obtain ⟨hc, hj⟩ := causal_concat.mp hc
    refine (ih hc).trans ?_
    rw [diskAfter_append (h₁ ++ h₂)]
    cases o with
    | replace t v => exact hj
    | _ => exact le_rfl

/-- **Terms are durable before use**, save faults and crashes included, in every run in which a node
that is ahead of its file does not act before it has saved. -/
theorem terms_durable (hr : Reach (P.next i d) (P.ActsSaved i d) (P.start i d) c) :
    P.TermsDurable i d c := by
  obtain ⟨t, m, ht⟩ := hr.inv (fun c => Sound d c.node c.history) (sound_boot causal_nil 0 0)
    fun _ _ _ hs he => sound_next hs he
  refine ⟨ht.causal, fun p msg hmsg t' ht' now draw => ?_⟩
  obtain ⟨j, hj⟩ := hmsg
  obtain ⟨h₁, h₂, heq, hback⟩ := ht.causal.mem hj
  rw [boot_term]
  have hmono := disk_mono (heq ▸ ht.causal)
  rw [← heq] at hmono
  exact (hback t' ht').trans hmono

/-- The first append of the leader of term 1. -/
def firstAppend : Msg ℕ Unit := .append 1 1 0 0 [⟨1, 1, noop⟩] 0

/-- Server 0 gets it twice; the first save raises before the tmp file is written. -/
def lostSave : List (FaultyEvent ℕ Unit) :=
  [⟨1, 0, .call (.handle firstAppend) fun _ _ => some .fields⟩,
   ⟨2, 0, .call (.handle firstAppend) fun _ _ => none⟩]

/-- The save of its own election raises too; the vote for server 2 is saved before it is sent. -/
theorem terms_durable_vote :
    let P := (lab 3 true 256).params 0
    let es : List (FaultyEvent ℕ Unit) :=
      [⟨1, 0, .call (.handle firstAppend) fun _ _ => some .fields⟩,
       ⟨2, 0, .call (.handle (.timeoutNow 1)) fun _ _ => some .tmp⟩,
       ⟨3, 0, .crash (.handle (.vote 3 2 1 1)) (fun _ _ => none) 5⟩]
    let c := es.foldl (P.next 0 {}) (P.start 0 {})
    InFlight c.history 2 (.voteResp 3 0 true) ∧ P.TermsDurable 0 {} c := by
  intro P es c
  have hsaved : meets (P.next 0 {}) (fun c e => decide (P.ActsSaved 0 {} c e)) (P.start 0 {}) es = true := by
    decide +kernel
  exact ⟨by decide +kernel, terms_durable (reach_of_meets (fun _ _ => of_decide_eq_true) es _ hsaved)⟩

/-- The second append finds the term in memory, saves nothing and is answered; a restart is back in
term 0. -/
theorem term_lost :
    let P := (lab 3 true 256).params 0
    let c := lostSave.foldl (P.next 0 {}) (P.start 0 {})
    Reach (P.next 0 {}) (fun _ _ => True) (P.start 0 {}) c ∧
      InFlight c.history 1 (.appendResp 1 0 true 1 (some 0)) ∧
      (P.next 0 {} c ⟨3, 0, .restart⟩).node.currentTerm = 0 ∧ ¬P.TermsDurable 0 {} c := by
  intro P c
  have hsent : InFlight c.history 1 (.appendResp 1 0 true 1 (some 0)) := by decide +kernel
  have hback : (P.next 0 {} c ⟨3, 0, .restart⟩).node.currentTerm = 0 := by decide +kernel
  refine ⟨reach_foldl lostSave _ fun _ _ _ => trivial, hsent, hback, fun h => ?_⟩
  have hle := h.2 1 _ hsent 1 rfl 3 0
  exact absurd (hle.trans_eq hback) (by decide)

end Runs

end Pylog.Raft
