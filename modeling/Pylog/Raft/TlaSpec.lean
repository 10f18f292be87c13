import Pylog.Raft.Faults

/-!
# Pylog.Raft.TlaSpec — the TLA+ module next to the code (tla/pylog.tla)

The actions of the module, and the variables a cluster is mapped to.  `Init` leaves every server a
follower and no action changes a role, so no action is ever enabled (`init_dead`): the module has one
reachable state, and the code is in it until the first election.
-/

namespace Pylog.Raft

open Effect Effect.Handler Transition

variable {ι σ δ : Type} [LinearOrder ι]

namespace Tla

/-- `[term: 0..MaxTerm, index: Nat]`. -/
structure Row where
  term : ℕ
  index : ℕ
  deriving DecidableEq

/-- The variables of the module. -/
structure Vars (ι : Type) where
  currentTerm : ι → ℕ
  votedFor : ι → Option ι
  log : ι → List Row
  commitIndex : ι → ℕ
  role : ι → Role
  leader : Option ι

/-- `Init`. -/
structure Init (servers : Finset ι) (v : Vars ι) : Prop where
  currentTerm : ∀ s ∈ servers, v.currentTerm s = 0
  votedFor : ∀ s ∈ servers, v.votedFor s = none
  log : ∀ s ∈ servers, v.log s = []
  commitIndex : ∀ s ∈ servers, v.commitIndex s = 0
  role : ∀ s ∈ servers, v.role s = .follower
  leader : v.leader = none

def RequestVote (s t : ι) (v v' : Vars ι) : Prop :=
  v.role s = .candidate ∧ v.currentTerm t < v.currentTerm s ∧ v.votedFor t = none ∧
    v' = { v with votedFor := Function.update v.votedFor t (some s) }

/-- Indices of the module count from 1; `SubSeq(log[t], 1, prevIndex)` is `take`. -/
def AppendEntries (s t : ι) (prevIndex prevTerm : ℕ) (entries : List Row) (v v' : Vars ι) : Prop :=
  v.role s = .leader ∧ prevIndex ≤ (v.log t).length ∧
    (prevIndex = 0 ∨ ((v.log t)[prevIndex - 1]?).map Row.term = some prevTerm) ∧
    v' = { v with log := Function.update v.log t ((v.log t).take prevIndex ++ entries) }

def Next (servers : Finset ι) (v v' : Vars ι) : Prop :=
  ∃ s ∈ servers, ∃ t ∈ servers, RequestVote s t v v' ∨
    ∃ prevIndex prevTerm entries, AppendEntries s t prevIndex prevTerm entries v v'

/-- No action is enabled in the initial states. -/
theorem init_dead {servers : Finset ι} {v v' : Vars ι} (hv : Init servers v) : ¬Next servers v v' := by
  rintro ⟨s, hs, t, -, ⟨hr, -⟩ | ⟨_, _, _, hr, -⟩⟩
  · rw [hv.role s hs] at hr
    cases hr
  · rw [hv.role s hs] at hr
    cases hr

end Tla

/-- What the module sees of a cluster; `leader` has its initial value, which no action changes. -/
def Cluster.vars (c : Cluster ι σ δ) : Tla.Vars ι where
  currentTerm i := (c.node i).currentTerm
  votedFor i := (c.node i).votedFor
  log i := (c.node i).log.entries.map fun e => ⟨e.term, e.index⟩
  commitIndex i := (c.node i).commitIndex
  role i := (c.node i).role
  leader := none

/-- The event is a step of `Next`, or leaves the variables unchanged. -/
def Setup.Covered (S : Setup ι σ δ) (c : Cluster ι σ δ) (e : Event ι δ) : Prop :=
  Tla.Next S.servers c.vars (S.step c e).vars ∨ (S.step c e).vars = c.vars

/-- The event starts an election: its save is done before the crash, if there is one. -/
def Setup.startsElection (S : Setup ι σ δ) (c : Cluster ι σ δ) (e : Event ι δ) : Bool :=
  match e.action with
  | .call k => (S.self e).elects (c.node e.node) k
  | .crash k effects => (S.self e).elects (c.node e.node) k && decide (2 ≤ effects)
  | .restart => false

/-! ### Calls before the first election -/

/-- A message of a pre-vote round. -/
def Msg.isPrevote : Msg ι δ → Bool
  | .prevote .. | .prevoteResp .. => true
  | _ => false

/-- An effect that changes no file and sends only pre-vote messages. -/
def Out.isFaint : Out ι σ δ → Bool
  | .send _ m => m.isPrevote
  | .writeTmp _ _ => true
  | _ => false

/-- The fields the module sees, and those a restart or a snapshot starts from. -/
def Node.face (n : Node ι σ δ) : Role × ℕ × Option ι × RaftLog × ℕ × ℕ × List (Snapshot δ) :=
  (n.role, n.currentTerm, n.votedFor, n.log, n.commitIndex, n.appliedIndex, n.snapshotFiles)

/-- The node has these fields as built on an empty disk. -/
def Dormant (n : Node ι σ δ) : Prop := n.face = (.follower, 0, none, {}, 0, 0, [])

section Calls

variable {self : Self ι σ δ} {n : Node ι σ δ} {k : Call ι δ}

omit [LinearOrder ι] in
theorem Dormant.role (hn : Dormant n) : n.role = .follower := congrArg Prod.fst hn

omit [LinearOrder ι] in
theorem Dormant.applied (hn : Dormant n) : n.appliedIndex = 0 := congrArg (·.2.2.2.2.2.1) hn

omit [LinearOrder ι] in
theorem Dormant.durable (hn : Dormant n) : n.durable = {} := by
  simp only [Dormant, Node.face, Prod.mk.injEq] at hn
  obtain ⟨-, ht, hv, hl, -, -, hf⟩ := hn
  unfold Node.durable
  rw [ht, hv, hl, hf]

/-- A dormant node that starts no election sends pre-vote messages at most. -/
theorem call_faint (hn : Dormant n) (hk : self.elects n k = false)
    (hm : ∀ m, k = .handle m → m.isPrevote = true) :
    Stays Node.face (fun _ o => o.2.isFaint = true) (self.call k) n := by
  have hr : n.role ≠ .leader := by simp [hn.role]
  cases k with
  | tick =>
    refine stays_read (stays_ite (fun hl => absurd hl hr) fun _ => stays_when fun hd => stays_read
      (stays_ite (fun _ => ?_) fun hu => ?_))
    · refine stays_bind (stays_update rfl) fun _ _ _ => stays_bind (stays_each _ _ fun p _ _ _ => ?_)
        fun _ _ _ => stays_update rfl
      exact stays_emit rfl
    · exact absurd ⟨hr, hd, hu⟩ (of_decide_eq_false hk)
  | handle m =>
    have hpre := hm m rfl
    cases m with
    | prevote term candidate lastIndex lastTerm =>
      refine stays_read ?_
      exact stays_emit rfl
    | prevoteResp term sender granted =>
      refine stays_read (stays_ite (fun _ => stays_pure _) fun hg => ?_)
      rw [not_or, Bool.not_eq_false, not_not] at hg
      have hlose : n.hasMajority (if granted then insert sender n.votes else n.votes) = false := by
        simpa [Self.elects, hg] using hk
      cases granted with
      | true =>
        refine stays_of_run { n with votes := insert sender n.votes } rfl rfl (stays_read ?_)
        refine stays_ite (fun hw => ?_) fun _ => stays_when fun _ => stays_update rfl
        exact absurd (hw.symm.trans hlose) (by decide)
      | false =>
        refine stays_of_run n rfl rfl (stays_read ?_)
        refine stays_ite (fun hw => ?_) fun _ => stays_when fun _ => stays_update rfl
        exact absurd (hw.symm.trans hlose) (by decide)
    | _ => cases hpre
  | propose payload =>
    exact stays_bind (stays_read (stays_ite (fun _ => stays_pure _) fun h => absurd (.inl hr) h))
      fun _ _ _ => stays_pure _
  | transferLeadership target =>
    exact stays_bind (stays_read (stays_ite (fun _ => stays_pure _) fun h => absurd (.inl hr) h))
      fun _ _ _ => stays_pure _
  | proposeAddServer newId =>
    exact stays_bind (stays_read (stays_ite (fun _ => stays_pure _) fun h => absurd (.inl hr) h))
      fun _ _ _ => stays_pure _
  | proposeRemoveServer rmId =>
    exact stays_bind (stays_read (stays_ite (fun _ => stays_pure _) fun h => absurd (.inl hr) h))
      fun _ _ _ => stays_pure _
  | takeSnapshot =>
    have hnone : self.snapshotOf n = none := by
      unfold Self.snapshotOf
      cases self.stateMachine <;> cases n.machine <;> simp [hn.applied]
    refine stays_bind (stays_read ?_) fun _ _ _ => stays_pure _
    rw [hnone]
    exact stays_pure _

/-- A call that elects is `_start_election`, in the term of the node. -/
theorem elects_eq (hk : self.elects n k = true) :
    ∃ n', n'.currentTerm = n.currentTerm ∧ self.call k n = self.startElection n' := by
  cases k with
  | tick =>
    obtain ⟨hr, hd, hu⟩ := of_decide_eq_true hk
    refine ⟨{ n with preCandidate := false }, rfl, ?_⟩
    show (if n.role = .leader then _ else when (n.electionDeadline ≤ self.now) _ : Act ι σ δ Unit) n = _
    rw [if_neg hr, when_eq_of_pos hd]
    show (if _ then _ else _ : Act ι σ δ Unit) n = _
    rw [if_neg hu]
    rfl
  | handle m =>
    cases m with
    | timeoutNow term =>
      refine ⟨n, rfl, ?_⟩
      exact when_eq_of_pos (of_decide_eq_true hk) _ _
    | prevoteResp term sender granted =>
      simp only [Self.elects, Bool.and_eq_true] at hk
      obtain ⟨hp, hw⟩ := hk
      obtain ⟨hp, ht⟩ := of_decide_eq_true hp
      have hpass : ¬(n.preCandidate = false ∨ term ≠ n.prevoteTerm) := by simp [hp, ht]
      have hcall : self.call (.handle (.prevoteResp term sender granted)) n = (do
          when (granted = true) (update fun n => { n with votes := insert sender n.votes })
          let n ← read
          if n.hasMajority n.votes = true then
            update fun n => { n with preCandidate := false }
            self.startElection
          else when (granted = false) self.resetElectionDeadline : Act ι σ δ Unit) n := by
        show (if _ then _ else _ : Act ι σ δ Unit) n = _
        rw [if_neg hpass]
      rw [hcall]
      cases granted with
      | true =>
        refine ⟨{ n with votes := insert sender n.votes, preCandidate := false }, rfl, ?_⟩
        show (if Node.hasMajority { n with votes := insert sender n.votes } (insert sender n.votes) = true
          then _ else _ : Act ι σ δ Unit) { n with votes := insert sender n.votes } = _
        rw [if_pos (show Node.hasMajority { n with votes := insert sender n.votes }
          (insert sender n.votes) = true from hw)]
        rfl
      | false =>
        refine ⟨{ n with preCandidate := false }, rfl, ?_⟩
        show (if n.hasMajority n.votes = true then _ else _ : Act ι σ δ Unit) n = _
        rw [if_pos (show n.hasMajority n.votes = true from hw)]
        rfl
    | _ => cases hk
  | _ => cases hk

/-- An election saves the next term first and no other. -/
theorem startElection_out (self : Self ι σ δ) (n : Node ι σ δ) : ∃ v rest,
    (self.startElection n).out = (self.id, .writeTmp (n.currentTerm + 1) v) ::
      (self.id, .replace (n.currentTerm + 1) v) :: rest ∧
    (∀ o ∈ rest, ∀ t v, o.2 ≠ .replace t v) ∧
    (self.startElection n).state.currentTerm = n.currentTerm + 1 := by
  obtain ⟨n', hrun, ht⟩ : ∃ n', self.becomeCandidate n = ⟨n',
      [(self.id, .writeTmp (n.currentTerm + 1) (some self.id)),
        (self.id, .replace (n.currentTerm + 1) (some self.id)), (self.id, .campaign n')], .ok ()⟩ ∧
      n'.currentTerm = n.currentTerm + 1 := ⟨_, rfl, rfl⟩
  have hrest : ActsWithin (do
      let n ← read
      each (fun p => self.send p (.vote n.currentTerm self.id n.progress.2 n.progress.1)) n.peers
      when (n.peers = [] ∨ (n.peers.length + 1) / 2 < n.votes.card) self.becomeLeader) n' :=
    stays_read (stays_bind (stays_each _ _ fun p _ n'' hn'' => send_within (congrArg some hn''.symm))
      fun _ _ _ => stays_when fun _ => becomeLeader_within)
  unfold Self.startElection
  rw [bind_eq hrun]
  refine ⟨some self.id, _, rfl, fun o ho t v he => ?_, hrest.view.trans ht⟩
  rcases List.mem_cons.mp ho with rfl | ho
  · cases he
  · rcases hrest.out o ho with hi | ⟨p, m, hs, -⟩
    · rw [he] at hi
      cases hi
    · rw [he] at hs
      cases hs

end Calls

/-! ### Clusters before the first election -/

/-- Every server is as built on an empty disk, and only pre-vote messages were sent. -/
structure Asleep (c : Cluster ι σ δ) : Prop where
  node : ∀ i, Dormant (c.node i)
  flight : ∀ i m, InFlight c.history i m → m.isPrevote = true

section Runs

variable {S : Setup ι σ δ} {c : Cluster ι σ δ} {e : Event ι δ}

theorem dormant_boot (P : Params ι σ δ) (i : ι) (now draw : ℚ) : Dormant (P.boot i now draw {}) := by
  obtain ⟨l, ci, ai, m, s, hb, -, hfiles⟩ := boot_eq P i now draw {}
  obtain ⟨rfl, rfl, rfl, rfl⟩ := hfiles rfl
  rw [hb]
  rfl

theorem asleep_init : Asleep S.init := by
  refine ⟨fun i => dormant_boot _ i 0 0, ?_⟩
  rintro i m ⟨j, hj⟩
  cases hj

omit [LinearOrder ι] in
theorem Asleep.vars (hc : Asleep c) : c.vars =
    ⟨fun _ => 0, fun _ => none, fun _ => [], fun _ => 0, fun _ => .follower, none⟩ := by
  have hface := fun i => hc.node i
  simp only [Dormant, Node.face, Prod.mk.injEq] at hface
  simp [Cluster.vars, hface]

omit [LinearOrder ι] in
theorem Asleep.initial (hc : Asleep c) : Tla.Init S.servers c.vars := by
  rw [hc.vars]
  constructor <;> simp

/-- A dormant node with faint effects. -/
theorem Asleep.put {i : ι} {n : Node ι σ δ} {out : History ι σ δ} (hc : Asleep c) (hn : Dormant n)
    (hout : ∀ o ∈ out, o.2.isFaint = true) : Asleep (c.put i n out) := by
  refine ⟨fun j => ?_, ?_⟩
  · by_cases hj : j = i
    · subst hj
      simpa [Cluster.put_eq] using hn
    · simpa [Cluster.put_eq, hj] using hc.node j
  · rintro j m ⟨v, hv⟩
    rcases List.mem_append.mp hv with hv | hv
    · exact hc.flight j m ⟨v, hv⟩
    · exact hout _ hv

omit [LinearOrder ι] in
theorem disk_faint {out : History ι σ δ} (hout : ∀ o ∈ out, o.2.isFaint = true) (d : Durable ι δ) :
    diskAfter d out = d := by
  induction out with
  | nil => rfl
  | cons o out ih =>
    have ho : d.write o.2 = d := by
      have hfaint := hout o (by simp)
      obtain ⟨j, o⟩ := o
      cases o with
      | replace t v => cases hfaint
      | store l => cases hfaint
      | snapshotFile s => cases hfaint
      | _ => rfl
    show diskAfter (d.write o.2) out = d
    rw [ho]
    exact ih fun o' ho' => hout o' (by simp [ho'])

omit [LinearOrder ι] in
theorem disk_term {out : History ι σ δ} (hout : ∀ o ∈ out, ∀ t v, o.2 ≠ .replace t v)
    (d : Durable ι δ) : (diskAfter d out).currentTerm = d.currentTerm := by
  induction out using List.reverseRecOn with
  | nil => rfl
  | append_singleton out o ih =>
    rw [diskAfter_append]
    refine (Durable.write_idle _ (hout o (by simp))).trans ?_
    exact ih fun o' ho' => hout o' (by simp [ho'])

/-- Without an election the cluster stays asleep. -/
theorem asleep_step (hc : Asleep c) (he : S.Enabled c e) (hs : S.startsElection c e = false) :
    Asleep (S.step c e) := by
  have hmsg (k : Call ι δ) (hk : k ∈ e.action.made) : ∀ m, k = .handle m → m.isPrevote = true := by
    rintro m rfl
    refine hc.flight e.node m (he.2.2 m ?_)
    unfold Action.message
    rw [show e.action.made = some (.handle m) from hk]
    rfl
  obtain ⟨i, now, draw, action⟩ := e
  cases action with
  | call k =>
    obtain ⟨hface, hout⟩ := call_faint (hc.node i) hs (hmsg k rfl)
    exact hc.put (hface.trans (hc.node i)) hout
  | restart =>
    show Asleep (c.put i _ [])
    refine hc.put ?_ (by simp)
    rw [(hc.node i).durable]
    exact dormant_boot _ i now draw
  | crash k effects =>
    have hout : ∀ o ∈ (S.outcome c ⟨i, now, draw, .crash k effects⟩ k).out.take effects,
        o.2.isFaint = true := by
      cases hk : (S.self ⟨i, now, draw, .crash k effects⟩).elects (c.node i) k with
      | false =>
        intro o ho
        exact (call_faint (hc.node i) hk (hmsg k rfl)).out o (List.mem_of_mem_take ho)
      | true =>
        -- the crash comes before `os.replace`
        have hlt : effects < 2 := by
          simp only [Setup.startsElection, hk, Bool.true_and, decide_eq_false_iff_not] at hs
          omega
        obtain ⟨n', -, hcall⟩ := elects_eq hk
        obtain ⟨v, rest, hrun, -⟩ := startElection_out (S.self ⟨i, now, draw, .crash k effects⟩) n'
        unfold Setup.outcome
        rw [hcall, hrun]
        intro o ho
        obtain rfl | rfl : effects = 0 ∨ effects = 1 := by omega
        · cases ho
        · rw [List.take_succ_cons, List.take_zero, List.mem_singleton] at ho
          rw [ho]
          rfl
    refine hc.put ?_ hout
    rw [(hc.node i).durable]
    have hdisk := disk_faint hout {}
    unfold diskAfter at hdisk
    rw [hdisk]
    exact dormant_boot _ i now draw

/-- An election shows in the term. -/
theorem electing_term (hs : S.startsElection c e = true) :
    ((S.step c e).node e.node).currentTerm = (c.node e.node).currentTerm + 1 := by
  obtain ⟨i, now, draw, action⟩ := e
  cases action with
  | call k =>
    obtain ⟨n', ht, hcall⟩ := elects_eq hs
    obtain ⟨-, -, -, -, hterm⟩ := startElection_out (S.self ⟨i, now, draw, .call k⟩) n'
    show ((c.put i (S.outcome c ⟨i, now, draw, .call k⟩ k).state _).node i).currentTerm = _
    rw [Cluster.put_eq, Cluster.at_node_self, Setup.outcome, hcall, hterm, ht]
  | restart => cases hs
  | crash k effects =>
    simp only [Setup.startsElection, Bool.and_eq_true, decide_eq_true_eq] at hs
    obtain ⟨hk, heff⟩ := hs
    obtain ⟨n', ht, hcall⟩ := elects_eq hk
    obtain ⟨v, rest, hout, hrest, -⟩ := startElection_out (S.self ⟨i, now, draw, .crash k effects⟩) n'
    obtain ⟨m, rfl⟩ := Nat.exists_eq_add_of_le' heff
    show ((c.put i _ _).node i).currentTerm = _
    rw [Cluster.put_eq, Cluster.at_node_self, boot_term, Setup.outcome, hcall, hout,
      List.take_succ_cons, List.take_succ_cons]
    show (diskAfter (Durable.write _ _) (rest.take m)).currentTerm = _
    rw [disk_term fun o ho => hrest o (List.mem_of_mem_take ho), ← ht]
    rfl

theorem covered_iff (hc : Asleep c) (he : S.Enabled c e) :
    S.Covered c e ↔ S.startsElection c e = false := by
  refine ⟨fun h => ?_, fun hs => .inr ((asleep_step hc he hs).vars.trans hc.vars.symm)⟩
  rcases h with hnext | heq
  · exact absurd hnext (Tla.init_dead hc.initial)
  · by_contra hs
    rw [Bool.not_eq_false] at hs
    have hterm : ((S.step c e).node e.node).currentTerm = (c.node e.node).currentTerm :=
      congrFun (congrArg Tla.Vars.currentTerm heq) e.node
    have := electing_term hs
    omega

/-- **What the module covers.**  Along any run, every step is a step of `Next` or changes nothing the
module sees if and only if no step starts an election. -/
theorem spec_covers_iff (es : List (Event ι δ)) (hes : Along S.step S.Enabled S.init es) :
    Along S.step S.Covered S.init es ↔
      Along S.step (fun c e => S.startsElection c e = false) S.init es :=
  along_iff Asleep (fun _ _ => covered_iff) (fun _ _ => asleep_step) es S.init asleep_init hes

/-- A pre-vote round whose answer is lost. -/
theorem spec_covers_iff_prevote :
    let S := lab 3 true 256
    let es : List (Event ℕ Unit) := [callAt 400 0 .tick, callAt 401 1 (.handle (.prevote 1 0 0 0))]
    InFlight (S.replay es).history 0 (.prevoteResp 1 1 true) ∧ Along S.step S.Covered S.init es := by
  intro S es
  have hes : Along S.step S.Enabled S.init es := along_of_meets
    (fun c e (h : decide (S.Enabled c e) = true) => of_decide_eq_true h) es _ (by decide +kernel)
  refine ⟨by decide +kernel, (spec_covers_iff es hes).mpr ?_⟩
  exact along_of_meets (fun c e (h : (!S.startsElection c e) = true) => by simpa using h) es _
    (by decide +kernel)

/-- The first election of three servers without snapshots and membership changes: the term of
server 0 goes up, which no action of the module does. -/
theorem election_not_covered :
    let S := lab 3 false 256
    let e : Event ℕ Unit := callAt 400 0 .tick
    S.FullMesh ∧ S.NoAutoSnapshot ∧ S.Enabled S.init e ∧ e.KeepsMembership S ∧ e.Plain ∧
      ((S.step S.init e).node 0).currentTerm = 1 ∧ ((S.step S.init e).node 0).role = .candidate ∧
      ¬S.Covered S.init e := by
  intro S e
  refine ⟨lab_fullMesh _ _ _, lab_noAutoSnapshot _ _ _, by decide +kernel, by decide +kernel,
    by decide +kernel, by decide +kernel, by decide +kernel, ?_⟩
  have hterm : (S.step S.init e).vars.currentTerm 0 = 1 := by decide +kernel
  rintro (hnext | heq)
  · exact Tla.init_dead asleep_init.initial hnext
  · rw [heq] at hterm
    exact absurd hterm (by decide)

end Runs

end Pylog.Raft
