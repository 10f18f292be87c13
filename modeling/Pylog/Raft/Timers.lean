import Pylog.Raft.Apply
import Pylog.Raft.Core

/-!
# Pylog.Raft.Timers — what a call does to the timers of a node

A call leaves the timers alone, leaves a node that is no leader with a new election deadline, or
makes a leader with new timers (`call_timed`); only an exception on the way to office leaves a leader
with old ones.  The tick of a leader moves the timers that are due (`tick_leader`).
-/

namespace Pylog.Raft

open Effect Effect.Handler

variable {ι σ δ : Type} [LinearOrder ι]

/-- The role of a node and the timers it waits for; a leader waits for no election. -/
structure Timers (ι : Type) where
  role : Role
  electionDeadline : ℚ
  nextHeartbeat : ℚ
  nextQuorumCheck : ℚ
  transferTarget : Option ι
  transferDeadline : ℚ

def Node.timers (n : Node ι σ δ) : Timers ι :=
  ⟨n.role, if n.role = .leader then 0 else n.electionDeadline, n.nextHeartbeat, n.nextQuorumCheck,
    n.transferTarget, n.transferDeadline⟩

section

variable {self : Self ι σ δ} {n n' n₀ : Node ι σ δ} {k : Call ι δ} {t : Timers ι}

/-! ### Code that leaves the timers alone -/

/-- The timers stay at `t`, also when the code raises. -/
abbrev Untimed (t : Timers ι) {α : Type} (x : Act ι σ δ α) : Prop := Keeps (fun n => n.timers = t) x

omit [LinearOrder ι] in
theorem send_untimed (dest : ι) (m : Msg ι δ) : Untimed t (self.send dest m) := keeps_emit _

omit [LinearOrder ι] in
theorem save_untimed (term : ℕ) (votedFor : Option ι) : Untimed t (self.save term votedFor) :=
  keeps_bind (keeps_update fun _ h => h) fun _ => keeps_bind (keeps_emit _) fun _ => keeps_emit _

omit [LinearOrder ι] in
theorem setLog_untimed (l : RaftLog) : Untimed t (self.setLog l) :=
  keeps_bind (keeps_update fun _ h => h) fun _ => keeps_emit _

omit [LinearOrder ι] in
theorem sendAppend_untimed (p : ι) : Untimed t (self.sendAppend p) :=
  keeps_read fun _ => send_untimed _ _

omit [LinearOrder ι] in
theorem sendAllAppends_untimed : Untimed t self.sendAllAppends :=
  keeps_read fun n => keeps_each sendAppend_untimed n.peers

omit [LinearOrder ι] in
theorem appendEntry_untimed (payload : Bytes) : Untimed t (self.appendEntry payload) :=
  keeps_read fun _ => setLog_untimed _

theorem applyStep_timers (hs : ApplyStep self n n') : n'.timers = n.timers := by
  cases hs <;> rfl

theorem applyCommitted_untimed : Untimed t self.applyCommitted := fun _ h =>
  applyCommitted_steps.keeps _ (fun _ _ hs hn => (applyStep_timers hs).trans hn) h

theorem takeSnapshot_untimed : Untimed t self.takeSnapshot := fun _ h =>
  takeSnapshot_steps.keeps _ (fun _ _ hs hn => (applyStep_timers hs).trans hn) h

theorem advanceCommit_untimed : Untimed t self.advanceCommit := by
  refine keeps_read fun n => ?_
  cases n.findCommit self.id with
  | none => exact keeps_pure _
  | some index =>
    refine keeps_bind (keeps_read fun _ => ?_) fun _ => applyCommitted_untimed
    exact keeps_bind (keeps_emit _) fun _ => keeps_update fun _ h => h

theorem propose_untimed (payload : Bytes) : Untimed t (self.propose payload) := by
  refine keeps_read fun n => ?_
  split_ifs
  · exact keeps_pure _
  · refine keeps_bind (appendEntry_untimed payload) fun _ => keeps_bind advanceCommit_untimed fun _ => ?_
    exact keeps_bind sendAllAppends_untimed fun _ => keeps_pure _

theorem proposeConfig_untimed (new : Finset ι) : Untimed t (self.proposeConfig new) := by
  have hjoint : Untimed t (self.openJoint new) := by
    refine keeps_read fun n => keeps_bind (keeps_when ?_) fun _ => appendEntry_untimed _
    exact keeps_bind (keeps_update fun _ h => h) fun _ => keeps_emit _
  refine keeps_read fun n => keeps_bind hjoint fun _ => keeps_bind advanceCommit_untimed fun _ => ?_
  exact keeps_bind sendAllAppends_untimed fun _ => keeps_pure _

omit [LinearOrder ι] in
theorem mergeWindow_untimed (prevIndex : ℕ) (prevTerm : ℤ) (entries : List Entry) :
    Untimed t (self.mergeWindow prevIndex prevTerm entries) := by
  refine keeps_read fun n => keeps_bind (setLog_untimed _) fun _ => ?_
  exact keeps_bind (keeps_when (keeps_emit _)) fun _ => keeps_pure _

omit [LinearOrder ι] in
theorem install_untimed (s : Snapshot δ) : Untimed t (self.install s) := by
  have hrestore : Untimed t (self.restore s) :=
    keeps_bind (keeps_update fun _ h => h) fun _ => keeps_read fun _ => setLog_untimed _
  have hwrite : Untimed t (self.writeSnapshotFile s) :=
    keeps_when (keeps_bind (keeps_update fun _ h => h) fun _ => keeps_emit _)
  exact keeps_bind hrestore fun _ => keeps_bind hwrite fun _ => keeps_update fun _ h => h

/-! ### Facts about the timers -/

/-- The fact depends on the timers only. -/
def OfTimers (I : Node ι σ δ → Prop) : Prop := ∀ s s', s'.timers = s.timers → I s → I s'

omit [LinearOrder ι] in
theorem ends_untimed {α : Type} {x : Act ι σ δ α} {I E : Node ι σ δ → Prop} {s : Node ι σ δ}
    (hI : OfTimers I) (hx : ∀ t, Untimed t x) (hs : I s) (hE : ∀ s, I s → E s) :
    Ends x s (fun _ => I) E :=
  (ends_of_keeps (hx s.timers) rfl).mono (fun _ s' ht => hI s s' ht hs) fun s' ht =>
    hE s' (hI s s' ht hs)

omit [LinearOrder ι] in
theorem timers_role (ht : n'.timers = n.timers) : n'.role = n.role := congrArg Timers.role ht

omit [LinearOrder ι] in
theorem timers_check (ht : n'.timers = n.timers) : n'.nextQuorumCheck = n.nextQuorumCheck :=
  congrArg Timers.nextQuorumCheck ht

omit [LinearOrder ι] in
theorem timers_deadline (ht : n'.timers = n.timers) (hr : n.role ≠ .leader) :
    n'.electionDeadline = n.electionDeadline := by
  have h : (if n'.role = .leader then 0 else n'.electionDeadline) =
      if n.role = .leader then 0 else n.electionDeadline := congrArg Timers.electionDeadline ht
  rwa [timers_role ht, if_neg hr, if_neg hr] at h

/-- No leader, with a new election deadline. -/
structure Resets (me : Self ι σ δ) (n n' : Node ι σ δ) : Prop where
  role : n'.role ≠ .leader
  deadline : n'.electionDeadline = me.deadline
  check : n'.nextQuorumCheck = n.nextQuorumCheck

/-- A leader with new timers, that led before only if it was in a pre-vote round as well. -/
structure NewLeader (me : Self ι σ δ) (n n' : Node ι σ δ) : Prop where
  new : n.role = .leader → n.preCandidate = true
  role : n'.role = .leader
  heartbeat : n'.nextHeartbeat = me.now + me.heartbeatInterval
  check : n'.nextQuorumCheck = me.now + me.quorumCheckInterval
  transfer : n'.transferTarget = none

/-- All timers are new. -/
def Renewed (self : Self ι σ δ) (n n' : Node ι σ δ) : Prop := Resets self n n' ∨ NewLeader self n n'

/-- What a call does to the timers, when it is no tick of a leader. -/
def Timed (self : Self ι σ δ) (n n' : Node ι σ δ) : Prop := n'.timers = n.timers ∨ Renewed self n n'

/-- An exception on the way to office. -/
def Stalled (n n' : Node ι σ δ) : Prop :=
  n'.role = .leader ∧ n'.nextQuorumCheck = n.nextQuorumCheck

omit [LinearOrder ι] in
theorem resets_ofTimers : OfTimers (Resets self n) := fun _ _ ht h =>
  ⟨fun hl => h.role ((timers_role ht).symm.trans hl), (timers_deadline ht h.role).trans h.deadline,
    (timers_check ht).trans h.check⟩

omit [LinearOrder ι] in
theorem newLeader_ofTimers : OfTimers (NewLeader self n) := fun _ _ ht h =>
  ⟨h.new, (timers_role ht).trans h.role, (congrArg Timers.nextHeartbeat ht).trans h.heartbeat,
    (timers_check ht).trans h.check, (congrArg Timers.transferTarget ht).trans h.transfer⟩

omit [LinearOrder ι] in
theorem timed_ofTimers : OfTimers (Timed self n) := fun _ _ ht h =>
  h.imp ht.trans fun h => h.imp (resets_ofTimers _ _ ht) (newLeader_ofTimers _ _ ht)

omit [LinearOrder ι] in
/-- `_reset_election_deadline` does nothing to a leader. -/
theorem Timed.deadline (h : Timed self n n') :
    Timed self n { n' with electionDeadline := self.deadline } := by
  by_cases hr : n'.role = .leader
  · refine timed_ofTimers n' _ ?_ h
    unfold Node.timers
    rw [if_pos hr, if_pos hr]
  · rcases h with h | h | h
    · exact .inr (.inl ⟨hr, rfl, (timers_check h :)⟩)
    · exact .inr (.inl ⟨hr, rfl, h.check⟩)
    · exact absurd h.role hr

/-- `x` run from `s` does so to the timers of `n`, or raises on the way to office. -/
abbrev Times (self : Self ι σ δ) (n : Node ι σ δ) {α : Type} (x : Act ι σ δ α) (s : Node ι σ δ)
    (Q : Node ι σ δ → Prop) : Prop :=
  Ends x s (fun _ => Q) fun n' => Timed self n n' ∨ Stalled n n'

omit [LinearOrder ι] in
theorem times_bind {α β : Type} {x : Act ι σ δ α} {g : α → Act ι σ δ β} {s : Node ι σ δ}
    {Q : Node ι σ δ → Prop} (hs : Timed self n s) (hx : ∀ t, Untimed t x)
    (hg : ∀ a s', Timed self n s' → Times self n (g a) s' Q) : Times self n (x >>= g) s Q :=
  ends_bind (ends_untimed timed_ofTimers hx hs fun _ => .inl) hg

omit [LinearOrder ι] in
theorem times_end {α : Type} {x : Act ι σ δ α} {s : Node ι σ δ} (hs : Timed self n s)
    (hx : ∀ t, Untimed t x) : Times self n x s (Timed self n) :=
  ends_untimed timed_ofTimers hx hs fun _ => .inl

omit [LinearOrder ι] in
theorem resets_end {α : Type} {x : Act ι σ δ α} {s : Node ι σ δ} (hs : Resets self n s)
    (hx : ∀ t, Untimed t x) : Times self n x s (Resets self n) :=
  ends_untimed resets_ofTimers hx hs fun _ h => .inl (.inr (.inl h))

/-! ### Elections -/

theorem becomeLeader_renewed {s : Node ι σ δ} (hq : s.nextQuorumCheck = n.nextQuorumCheck)
    (hnew : n.role = .leader → n.preCandidate = true) :
    Times self n self.becomeLeader s (NewLeader self n) := by
  -- from the change of role to the new timers only an exception can get in the way
  let stage (s : Node ι σ δ) : Prop :=
    s.role = .leader ∧ s.transferTarget = none ∧ s.nextQuorumCheck = n.nextQuorumCheck
  have hstage : OfTimers stage := fun _ _ ht h =>
    ⟨(timers_role ht).trans h.1, (congrArg Timers.transferTarget ht).trans h.2.1,
      (timers_check ht).trans h.2.2⟩
  have hraise : ∀ s, stage s → Timed self n s ∨ Stalled n s := fun _ h => .inr ⟨h.1, h.2.2⟩
  have htake : Times self n self.takeOffice s stage := ⟨rfl, rfl, hq⟩
  refine ends_bind htake fun _ s₁ h₁ => ends_read (ends_bind (Q := fun _ => stage) ?_ fun _ s₂ h₂ => ?_)
  · refine ends_untimed hstage (fun t => keeps_when ?_) h₁ hraise
    exact keeps_bind (propose_untimed noop) fun _ => keeps_pure _
  · refine ends_bind (ends_untimed hstage (fun t => sendAllAppends_untimed) h₂ hraise) fun _ s₃ h₃ => ?_
    exact ends_update ⟨hnew, h₃.1, rfl, rfl, h₃.2.1⟩

theorem startElection_renewed {s : Node ι σ δ} (hq : s.nextQuorumCheck = n.nextQuorumCheck)
    (hnew : n.role = .leader → n.preCandidate = true) :
    Times self n self.startElection s (Renewed self n) := by
  have hcandidate : Times self n self.becomeCandidate s (Resets self n) := ⟨nofun, rfl, hq⟩
  refine ends_bind hcandidate fun _ s₁ h₁ => ends_read ?_
  refine ends_bind (resets_end h₁ fun t => keeps_each (fun _ => keeps_emit _) _) fun _ s₂ h₂ => ?_
  refine ends_when (fun _ => ?_) fun _ => .inl h₂
  exact (becomeLeader_renewed h₂.check hnew).mono (fun _ _ h => .inr h) fun _ h => h

theorem startPrevoteOrElection_renewed (hr : n.role ≠ .leader) :
    Times self n self.startPrevoteOrElection n (Renewed self n) := by
  refine ends_read (ends_ite (fun _ => ?_) fun _ => ?_)
  · let s : Node ι σ δ := { n with
      preCandidate := true, prevoteTerm := n.currentTerm + 1, votes := {self.id} }
    have hs : OfTimers fun s' : Node ι σ δ => s'.timers = s.timers := fun _ _ ht h => ht.trans h
    have hsend : Ends (each (fun p => self.send p (.prevote (n.currentTerm + 1) self.id n.progress.2
        n.progress.1)) n.peers) s (fun _ s' => s'.timers = s.timers)
        fun n' => Timed self n n' ∨ Stalled n n' :=
      ends_untimed hs (fun t => keeps_each (fun _ => keeps_emit _) _) rfl fun _ h => .inl (.inl h)
    refine ends_bind (Q := fun _ s' => s' = s) rfl fun _ s₁ h₁ => ?_
    rw [h₁]
    refine ends_bind hsend fun _ s₂ h₂ => ends_update ?_
    exact .inl ⟨fun hl => hr ((timers_role h₂).symm.trans hl), rfl, (timers_check h₂ :)⟩
  · exact ends_bind (Q := fun _ s => s.nextQuorumCheck = n.nextQuorumCheck) (ends_update rfl)
      fun _ s h => startElection_renewed h fun hl => absurd hl hr

omit [LinearOrder ι] in
/-- A leader, or whoever is behind, becomes a follower. -/
theorem stepDown_resets {s : Node ι σ δ} (hq : s.nextQuorumCheck = n.nextQuorumCheck) (term : ℕ) :
    Times self n (self.stepDown term) s (Resets self n) := by
  refine ends_read (ends_bind (Q := fun _ s => s.nextQuorumCheck = n.nextQuorumCheck) ?_ ?_)
  · exact ends_when (fun _ => hq) fun _ => hq
  · intro _ s₁ h₁
    exact ⟨nofun, rfl, h₁⟩

/-! ### Messages -/

theorem onPrevoteResp_timed (term : ℕ) (sender : ι) (granted : Bool) :
    Times self n (self.onPrevoteResp term sender granted) n (Timed self n) := by
  refine ends_read (ends_ite (fun _ => ends_pure (.inl rfl)) fun hpre => ?_)
  refine ends_bind (Q := fun _ s => s.timers = n.timers) ?_ fun _ s hs => ends_read ?_
  · exact ends_when (fun _ => ends_update rfl) fun _ => rfl
  · refine ends_ite (fun _ => ?_) fun _ => ends_when (fun _ => ?_) fun _ => .inl hs
    · refine ends_bind (Q := fun _ s => s.nextQuorumCheck = n.nextQuorumCheck)
        (ends_update (timers_check hs)) fun _ s' h' => ?_
      exact (startElection_renewed h' fun _ => by simpa using fun h => hpre (.inl h)).mono
        (fun _ _ h => .inr h) fun _ h => h
    · exact ends_update (Timed.deadline (.inl hs))

theorem onVote_timed (term : ℕ) (candidate : ι) (lastIndex : ℕ) (lastTerm : ℤ) :
    Times self n (self.onVote term candidate lastIndex lastTerm) n (Timed self n) := by
  refine ends_read (ends_ite (fun _ => times_end (.inl rfl) fun t => send_untimed _ _) fun _ => ?_)
  refine ends_bind (Q := fun _ => Timed self n) ?_ fun _ s hs => ends_read ?_
  · refine ends_when (fun _ => ?_) fun _ => .inl rfl
    exact (stepDown_resets rfl term).mono (fun _ _ h => .inr (.inl h)) fun _ h => h
  · refine ends_ite (fun _ => ?_) fun _ => times_end hs fun t => send_untimed _ _
    refine times_bind hs (fun t => save_untimed _ _) fun _ s₁ h₁ => ?_
    refine ends_bind (Q := fun _ => Timed self n) (ends_update h₁.deadline) fun _ s₂ h₂ => ?_
    exact times_end h₂ fun t => send_untimed _ _

theorem onVoteResp_timed (term : ℕ) (sender : ι) (granted : Bool) :
    Times self n (self.onVoteResp term sender granted) n (Timed self n) := by
  refine ends_read (ends_ite (fun _ => ends_pure (.inl rfl)) fun hcand => ?_)
  have hr : n.role = .candidate := by_contra fun h => hcand (.inl h)
  refine ends_when (fun _ => ?_) fun _ => .inl rfl
  refine ends_bind (Q := fun _ s => s.timers = n.timers) (ends_update rfl) fun _ s hs => ends_read ?_
  refine ends_when (fun _ => ?_) fun _ => .inl hs
  exact (becomeLeader_renewed (timers_check hs) (by rw [hr]; nofun)).mono
    (fun _ _ h => .inr (.inr h)) fun _ h => h

theorem onAppend_timed (term : ℕ) (leader : ι) (prevIndex : ℕ) (prevTerm : ℤ) (entries : List Entry)
    (commit : ℕ) : Times self n (self.onAppend term leader prevIndex prevTerm entries commit) n
      (Timed self n) := by
  refine ends_read (ends_ite (fun _ => times_end (.inl rfl) fun t => send_untimed _ _) fun _ => ?_)
  refine ends_bind (Q := fun _ s => s.nextQuorumCheck = n.nextQuorumCheck) ?_ fun _ s₁ h₁ => ?_
  · refine ends_when (fun _ => ?_) fun _ => rfl
    exact (stepDown_resets rfl term).mono (fun _ _ h => h.check) fun _ h => h
  · refine ends_bind (Q := fun _ s => s.role ≠ .leader ∧ s.nextQuorumCheck = n.nextQuorumCheck)
      (ends_update ⟨nofun, h₁⟩) fun _ s₂ h₂ => ?_
    refine ends_bind (Q := fun _ => Resets self n) (ends_update ⟨h₂.1, rfl, h₂.2⟩) fun _ s₃ h₃ => ?_
    refine times_bind (.inr (.inl h₃)) (fun t => mergeWindow_untimed _ _ _) fun r s₄ h₄ => ends_read ?_
    refine times_bind h₄ (fun t => keeps_when ?_) fun _ s₅ h₅ => ?_
    · exact keeps_bind (keeps_update fun _ h => h) fun _ => applyCommitted_untimed
    · exact ends_read (times_end h₅ fun t => send_untimed _ _)

theorem onAppendResp_timed (term : ℕ) (sender : ι) (success : Bool) (matchIndex : ℕ)
    (conflict : Option ℕ) :
    Times self n (self.onAppendResp term sender success matchIndex conflict) n (Timed self n) := by
  refine ends_read (ends_ite (fun _ => ?_) fun _ => ?_)
  · refine ends_when (fun _ => ?_) fun _ => .inl rfl
    exact (stepDown_resets rfl term).mono (fun _ _ h => .inr (.inl h)) fun _ h => h
  · have hack : ∀ t, Untimed t (self.onAck sender matchIndex) := fun t => keeps_read fun n => by
      cases n.matchIndex sender with
      | none => exact keeps_raise _
      | some mi => exact keeps_bind (keeps_update fun _ h => h) fun _ => advanceCommit_untimed
    have hnack : ∀ t, Untimed t (self.onNack sender conflict) := fun t => keeps_read fun n => by
      cases n.nextIndex sender with
      | none => exact keeps_raise _
      | some ni => exact keeps_bind (keeps_update fun _ h => h) fun _ => sendAppend_untimed sender
    refine times_bind (.inl rfl) (fun t => keeps_update fun _ h => h) fun _ s hs => ?_
    exact ends_ite (fun _ => times_end hs hack) fun _ => times_end hs hnack

omit [LinearOrder ι] in
theorem onInstallSnapshot_timed (term : ℕ) (leader : ι) (s : Snapshot δ) :
    Times self n (self.onInstallSnapshot term leader s) n (Timed self n) := by
  refine ends_read (ends_ite (fun _ => times_end (.inl rfl) fun t => send_untimed _ _) fun _ => ?_)
  refine ends_bind (Q := fun _ s => s.role ≠ .leader ∧ s.nextQuorumCheck = n.nextQuorumCheck) ?_
    fun _ s₁ h₁ => ?_
  · refine ends_when (fun _ => ?_) fun hc => ⟨fun hl => ?_, rfl⟩
    · exact (stepDown_resets rfl term).mono (fun _ _ h => ⟨h.role, h.check⟩) fun _ h => h
    · exact hc (.inr (by rw [hl]; decide))
  · refine ends_bind (Q := fun _ s => s.role ≠ .leader ∧ s.nextQuorumCheck = n.nextQuorumCheck)
      (ends_update h₁) fun _ s₂ h₂ => ?_
    refine ends_bind (Q := fun _ => Resets self n) (ends_update ⟨h₂.1, rfl, h₂.2⟩) fun _ s₃ h₃ => ?_
    refine ends_read (times_bind (.inr (.inl h₃)) (fun t => keeps_when (install_untimed s)) ?_)
    intro _ s₄ h₄
    refine times_bind h₄ (fun t => keeps_update fun _ h => h) fun _ s₅ h₅ => ?_
    exact times_end h₅ fun t => send_untimed _ _

/-- A message leaves the timers alone or renews all of them. -/
theorem handle_timed (m : Msg ι δ) : Times self n (self.handle m) n (Timed self n) := by
  cases m with
  | prevote => exact times_end (.inl rfl) fun t => keeps_read fun _ => send_untimed _ _
  | prevoteResp term sender granted => exact onPrevoteResp_timed term sender granted
  | vote term candidate lastIndex lastTerm => exact onVote_timed term candidate lastIndex lastTerm
  | voteResp term sender granted => exact onVoteResp_timed term sender granted
  | append term leader prevIndex prevTerm entries commit =>
    exact onAppend_timed term leader prevIndex prevTerm entries commit
  | appendResp term sender success matchIndex conflict =>
    exact onAppendResp_timed term sender success matchIndex conflict
  | installSnapshot term leader s => exact onInstallSnapshot_timed term leader s
  | timeoutNow term =>
    refine ends_read (ends_when (fun hc => ?_) fun _ => .inl rfl)
    exact (startElection_renewed rfl fun hl => absurd hl hc.2).mono (fun _ _ h => .inr h) fun _ h => h

/-! ### Ticks -/

/-- What the tick of a leader does to its timers. -/
inductive Ticked (self : Self ι σ δ) (n n' : Node ι σ δ) : Prop
  | kept (hr : n'.role = .leader)
      (hh : n'.nextHeartbeat =
        if n.nextHeartbeat ≤ self.now then self.now + self.heartbeatInterval else n.nextHeartbeat)
      (hc : n'.nextQuorumCheck =
        if n.nextQuorumCheck ≤ self.now then self.now + self.quorumCheckInterval else n.nextQuorumCheck)
      (ht : n'.transferTarget =
        if n.transferTarget.isSome ∧ n.transferDeadline ≤ self.now then none else n.transferTarget)
      (hd : n'.transferTarget.isSome → n'.transferDeadline = n.transferDeadline)
      (hf : n.nextQuorumCheck ≤ self.now → self.majorityFresh n (self.electionMax * 2) = true)
  | lost (hr : n'.role ≠ .leader) (hd : n'.electionDeadline = self.deadline)
      (hc : n'.nextQuorumCheck = self.now + self.quorumCheckInterval)

omit [LinearOrder ι] in
/-- `_send_all_appends` only sends. -/
theorem sendAllAppends_still (s : Node ι σ δ) :
    Ends self.sendAllAppends s (fun _ s' => s' = s) fun _ => False := by
  have hcalm : Calm id self.sendAllAppends :=
    calm_read fun n => calm_each (fun _ => calm_read fun _ => calm_emit _) n.peers
  obtain ⟨s', o, a, hrun, hs⟩ := hcalm s
  unfold Ends
  rw [hrun]
  exact hs

theorem checkQuorum_ends (s : Node ι σ δ) : Ends self.checkQuorum s
    (fun _ s' => self.majorityFresh s (self.electionMax * 2) = true ∧ s' = s ∨ Resets self s s')
    fun _ => False := by
  refine Ends.returns (E := fun n' => Timed self s n' ∨ Stalled s n') (ends_read ?_) checkQuorum_idle
  refine ends_when (fun _ => ?_) fun hf => .inl ⟨by simpa using hf, rfl⟩
  exact (stepDown_resets rfl _).mono (fun _ _ h => .inr h) fun _ h => h

/-- The leader before the quorum check of its tick. -/
def Self.beaten (self : Self ι σ δ) (n : Node ι σ δ) : Node ι σ δ :=
  let n₁ : Node ι σ δ := if n.transferTarget.isSome = true ∧ n.transferDeadline ≤ self.now then
    { n with transferTarget := none, transferDeadline := 0 } else n
  if n.nextHeartbeat ≤ self.now then { n₁ with nextHeartbeat := self.now + self.heartbeatInterval }
  else n₁

theorem beaten_kept (hr : n.role = .leader) {q : ℚ}
    (hq : q = if n.nextQuorumCheck ≤ self.now then self.now + self.quorumCheckInterval
      else n.nextQuorumCheck)
    (hf : n.nextQuorumCheck ≤ self.now → self.majorityFresh n (self.electionMax * 2) = true) :
    Ticked self n { self.beaten n with nextQuorumCheck := q } := by
  refine .kept ?_ ?_ hq ?_ ?_ hf <;> unfold Self.beaten <;> split_ifs <;> simp_all

/-- The tick of a leader does not raise. -/
theorem tick_leader (hr : n.role = .leader) :
    Ends self.tick n (fun _ => Ticked self n) fun _ => False := by
  refine ends_read ?_
  rw [if_pos hr]
  let n₁ : Node ι σ δ := if n.transferTarget.isSome = true ∧ n.transferDeadline ≤ self.now then
    { n with transferTarget := none, transferDeadline := 0 } else n
  refine ends_bind (Q := fun _ s => s = n₁) (ends_when (fun hc => ?_) fun hc => (if_neg hc).symm) ?_
  · refine ends_bind (Q := fun _ s => s = n₁) (ends_update (if_pos hc).symm) fun _ s hs => ?_
    rw [hs]
    exact sendAllAppends_still n₁
  rintro _ _ rfl
  refine ends_bind (Q := fun _ s => s = self.beaten n)
    (ends_when (fun hc => ?_) fun hc => (if_neg hc).symm) ?_
  · exact ends_bind (sendAllAppends_still n₁) fun _ s hs => ends_update (hs ▸ (if_pos hc).symm)
  rintro _ _ rfl
  refine ends_when (fun hc => ?_) fun hc => ?_
  · refine ends_bind (checkQuorum_ends _) fun _ s hs => ends_update ?_
    rcases hs with ⟨hf, rfl⟩ | hs
    · refine beaten_kept hr (if_pos hc).symm fun _ => ?_
      have hsame : self.majorityFresh (self.beaten n) = self.majorityFresh n := by
        unfold Self.beaten
        split_ifs <;> rfl
      rwa [← hsame]
    · exact .lost hs.role hs.deadline rfl
  · have hsame : Ticked self n { self.beaten n with nextQuorumCheck := n.nextQuorumCheck } :=
      beaten_kept hr (if_neg hc).symm fun h => absurd h hc
    convert hsame using 1
    unfold Self.beaten
    split_ifs <;> rfl

theorem tick_waiting (hr : n.role ≠ .leader) : Times self n self.tick n fun n' =>
    n'.timers = n.timers ∧ self.now < n.electionDeadline ∨ Renewed self n n' := by
  refine ends_read ?_
  rw [if_neg hr]
  refine ends_when (fun _ => ?_) fun hd => .inl ⟨rfl, not_le.mp hd⟩
  exact (startPrevoteOrElection_renewed hr).mono (fun _ _ h => .inr h) fun _ h => h

end

end Pylog.Raft
