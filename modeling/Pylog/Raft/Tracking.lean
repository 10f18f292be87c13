import Pylog.Raft.Apply
import Pylog.Raft.Joint
import Pylog.Raft.Payloads

/-!
# Pylog.Raft.Tracking — the dicts of a leader and the exceptions of its handlers

`next_index` and `match_index` have the same keys, all of them peers, and on a leader every peer is a
key (`roster_reach`).  A handler raises `KeyError` for an answer of the leader's term from a server
that is no peer, after it has put the server into `last_peer_ack`; without such answers the three
dicts keep the same keys and no handler raises (`handlers_never_fail`).
-/

namespace Pylog.Raft

open Effect Effect.Handler Transition Trace

variable {ι σ δ : Type} [LinearOrder ι]

/-! ### The keys of `next_index` and `match_index` -/

/-- The peers are the members but the node itself; `match_index` and `next_index` have the same
keys, which are peers, and on a leader all peers. -/
structure Roster (i : ι) (n : Node ι σ δ) (_ : History ι σ δ) : Prop where
  members : ∀ p, p ∈ n.peers ↔ p ∈ n.config ∧ p ≠ i
  same : ∀ p, (n.matchIndex p).isSome = (n.nextIndex p).isSome
  within : ∀ p, (n.nextIndex p).isSome = true → p ∈ n.peers
  led : n.role = .leader → ∀ p ∈ n.peers, (n.nextIndex p).isSome = true

section Roster

variable {S : Setup ι σ δ} {c : Cluster ι σ δ} {i : ι} {n : Node ι σ δ} {h h' : History ι σ δ}
  {self : Self ι σ δ}

omit [LinearOrder ι] in
theorem Roster.anytime (hs : Roster i n h) (h' : History ι σ δ) : Roster i n h' :=
  ⟨hs.members, hs.same, hs.within, hs.led⟩

/-- The key `p` of a dict with the keys of `next_index`, after a configuration was adopted. -/
theorem adopted_key {α : Type} {p : ι} (d : Dict ι α) (v : α) (w : ℕ)
    (hd : (d p).isSome = (n.nextIndex p).isSome) (servers : Finset ι) :
    let fresh := decide (p ∈ servers ∧ p ≠ i) && (n.nextIndex p).isNone
    let gone := (if fresh then some w else n.nextIndex p).isSome && decide (p ∉ servers)
    (if gone then none else if fresh then some v else d p).isSome =
      decide (p ∈ servers ∧ (p ≠ i ∨ (n.nextIndex p).isSome = true)) := by
  intro fresh gone
  by_cases hp : p ∈ servers
  · have hgone : gone = false := by simp [gone, hp]
    rw [hgone, if_neg (by decide)]
    by_cases hf : fresh = true
    · have hpi : p ≠ i := by
        simp only [fresh, Bool.and_eq_true, decide_eq_true_eq] at hf
        exact hf.1.2
      simp [hf, hp, hpi]
    · rw [if_neg hf, hd]
      have hor : p ≠ i ∨ (n.nextIndex p).isSome = true ↔ (n.nextIndex p).isSome = true := by
        refine or_iff_right_of_imp fun hpi => ?_
        simpa [fresh, hp, hpi, Option.ne_none_iff_isSome] using hf
      simp [hp, hor]
  · have hfresh : fresh = false := by simp [fresh, hp]
    have hnone : (if gone then none else if fresh then some v else d p).isSome = false := by
      cases hni : (n.nextIndex p).isSome with
      | true => simp [gone, hfresh, hp, hni]
      | false => simp [gone, hfresh, hp, hni, hd]
    rw [hnone]
    simp [hp]

theorem Roster.adopt (hs : Roster i n h) (now : ℚ) (servers : Finset ι) (index : ℕ) :
    Roster i { n.adoptConfig i now servers with appliedIndex := index } h' := by
  have hnext : ∀ p, ((n.adoptConfig i now servers).nextIndex p).isSome =
      decide (p ∈ servers ∧ (p ≠ i ∨ (n.nextIndex p).isSome = true)) :=
    fun p => adopted_key n.nextIndex (n.log.lastIndex + 1) (n.log.lastIndex + 1) rfl servers
  have hmatch : ∀ p, ((n.adoptConfig i now servers).matchIndex p).isSome =
      decide (p ∈ servers ∧ (p ≠ i ∨ (n.nextIndex p).isSome = true)) :=
    fun p => adopted_key n.matchIndex 0 (n.log.lastIndex + 1) (hs.same p) servers
  have hpeers : ∀ p, p ∈ (n.adoptConfig i now servers).peers ↔ p ∈ servers ∧ p ≠ i := by
    intro p
    show p ∈ sortedIds (servers.erase i) ↔ _
    rw [mem_sortedIds, Finset.mem_erase, and_comm]
  refine ⟨hpeers, fun p => (hmatch p).trans (hnext p).symm, fun p hp => ?_, fun _ p hp => ?_⟩
  · have hp' := of_decide_eq_true ((hnext p).symm.trans hp)
    exact (hpeers p).mpr ⟨hp'.1, hp'.2.elim id fun ht => ((hs.members p).mp (hs.within p ht)).2⟩
  · obtain ⟨hmem, hpi⟩ := (hpeers p).mp hp
    exact (hnext p).trans (decide_eq_true ⟨hmem, .inl hpi⟩)

theorem Roster.joint (hs : Roster self.id n h) (hr : n.role = .leader) (new : Finset ι) (l : RaftLog) :
    Roster self.id { self.joint n new with log := l } h' := by
  have hnext : ∀ p, ((self.joint n new).nextIndex p).isSome = true ↔
      p ∈ new ∧ p ≠ self.id ∨ (n.nextIndex p).isSome = true := by
    intro p
    unfold Self.joint
    dsimp only
    split_ifs with hf
    · rw [Bool.and_eq_true, decide_eq_true_eq] at hf
      exact iff_of_true rfl (.inl hf.1)
    · refine (or_iff_right_of_imp fun hp => ?_).symm
      simpa [hp, Option.ne_none_iff_isSome] using hf
  have hpeers : ∀ p, p ∈ (self.joint n new).peers ↔ p ∈ n.config ∪ new ∧ p ≠ self.id := by
    intro p
    show p ∈ sortedIds ((n.config ∪ new).erase self.id) ↔ _
    rw [mem_sortedIds, Finset.mem_erase, and_comm]
  refine ⟨hpeers, fun p => ?_, fun p hp => ?_, fun _ p hp => ?_⟩
  · have hsame := hs.same p
    unfold Self.joint
    dsimp only
    split_ifs
    · rfl
    · exact hsame
  · refine (hpeers p).mpr ?_
    rcases (hnext p).mp hp with ⟨hmem, hpi⟩ | ht
    · exact ⟨Finset.mem_union_right _ hmem, hpi⟩
    · obtain ⟨hmem, hpi⟩ := (hs.members p).mp (hs.within p ht)
      exact ⟨Finset.mem_union_left _ hmem, hpi⟩
  · obtain ⟨hmem, hpi⟩ := (hpeers p).mp hp
    refine (hnext p).mpr ?_
    rcases Finset.mem_union.mp hmem with hmem | hmem
    · exact .inr (hs.led hr p ((hs.members p).mpr ⟨hmem, hpi⟩))
    · exact .inl ⟨hmem, hpi⟩

theorem micro_roster {n₀ : Node ι σ δ} {k : Call ι δ} {p q : Node ι σ δ × History ι σ δ}
    (hm : Micro self n₀ k p q) (hs : Roster self.id p.1 p.2) : Roster self.id q.1 q.2 := by
  cases hm with
  | retreat | raise => exact ⟨hs.members, hs.same, hs.within, fun hr => by cases hr⟩
  | campaign n n' h d hr h0 hel hn =>
    subst hn
    exact ⟨hs.members, hs.same, hs.within, fun hr => by cases hr⟩
  | win n n' h hr hq hn =>
    subst hn
    refine ⟨hs.members, fun p => ?_, fun p hp => ?_, fun _ p hp => ?_⟩
    · dsimp only
      split_ifs <;> rfl
    · by_contra hmem
      dsimp only at hp
      rw [if_neg hmem] at hp
      cases hp
    · dsimp only
      rw [if_pos hp]
      rfl
  | reconfig n n' h new hr hc hn =>
    subst hn
    exact hs.joint hr new _
  | adopt n n' h x servers hlt hx hcf hr hn =>
    subst hn
    exact hs.adopt self.now servers _
  | matched n h p mi' mi cf hk hr hmi =>
    have hp : (n.nextIndex p).isSome = true := by
      rw [← hs.same p]
      exact Option.isSome_iff_exists.mpr ⟨mi, hmi⟩
    have hnext := isSome_update hp (max mi mi' + 1)
    have hmatch := isSome_update ((hs.same p).trans hp) (max mi mi')
    refine ⟨hs.members, fun q => ?_, fun q hq => ?_, fun hr q hq => ?_⟩
    · exact (hmatch q).trans ((hs.same q).trans (hnext q).symm)
    · exact hs.within q ((hnext q).symm.trans hq)
    · exact (hnext q).trans (hs.led hr q hq)
  | backOff n h p ni hint hr hni =>
    have hp : (n.nextIndex p).isSome = true := Option.isSome_iff_exists.mpr ⟨ni, hni⟩
    have hnext := isSome_update hp (max 1 (min (ni - 1) hint))
    refine ⟨hs.members, fun q => ?_, fun q hq => ?_, fun hr q hq => ?_⟩
    · exact (hs.same q).trans (hnext q).symm
    · exact hs.within q ((hnext q).symm.trans hq)
    · exact (hnext q).trans (hs.led hr q hq)
  | _ => exact ⟨hs.members, hs.same, hs.within, hs.led⟩

theorem boot_roster (P : Params ι σ δ) (i : ι) (now draw : ℚ) (d : Durable ι δ) :
    Roster i (P.boot i now draw d) h := by
  obtain ⟨l, ci, ai, m, s, hb, -⟩ := boot_eq P i now draw d
  rw [hb]
  refine ⟨fun p => ?_, fun p => rfl, fun p hp => ?_, fun hr => ?_⟩
  · by_cases hpi : p = i <;> simp [hpi]
  · cases hp
  · cases hr

/-- In every run, crashes included. -/
theorem roster_reach (hr : Reach S.step S.Enabled S.init c) (i : ι) :
    Roster i (c.node i) c.history := by
  have key : Local (fun _ _ => True) Roster c := by
    refine hr.inv _ ⟨fun _ _ _ _ => trivial, fun i => boot_roster _ _ _ _ _⟩ fun c e hs hI he => ?_
    refine local_step ((votesKept_reach hs).2 e.node).calm ?_ ?_ ?_ hI
    · exact fun i n h h' _ _ hs => hs.anytime h'
    · exact fun k _ p q hm _ _ hs => ⟨fun _ _ _ _ => trivial, micro_roster hm hs⟩
    · exact fun out _ _ _ => boot_roster _ _ _ _ _
  exact key.2 i

end Roster

/-! ### Exceptions -/

section Returns

variable {self : Self ι σ δ} {n n₀ : Node ι σ δ} {k : Call ι δ}

/-- Every payload of the log is one the state machine accepts. -/
def Params.AcceptsLog (P : Params ι σ δ) (l : RaftLog) : Prop := ∀ e ∈ l.entries, P.Accepts e.payload

omit [LinearOrder ι] in
theorem accepts_noop (P : Params ι σ δ) : P.Accepts noop := fun h => absurd h (by decide)

theorem isCfg_tag (rest : Bytes) : isCfg (cfgTag ++ rest) = true :=
  List.isPrefixOf_iff_prefix.mpr (List.prefix_append _ _)

omit [LinearOrder ι] in
theorem accepts_config (P : Params ι σ δ) (rest : Bytes) : P.Accepts (cfgTag ++ rest) :=
  fun h => by simp [isCommand, isCfg_tag] at h

omit [LinearOrder ι] in
theorem Params.AcceptsLog.appendEntry {P : Params ι σ δ} {l : RaftLog} (h : P.AcceptsLog l) {t : ℕ}
    {payload : Bytes} (hp : P.Accepts payload) : P.AcceptsLog (l.appendEntry t payload) :=
  RaftLog.forall_appendEntry h hp

omit [LinearOrder ι] in
theorem Params.AcceptsLog.merge {P : Params ι σ δ} {l : RaftLog} (h : P.AcceptsLog l) {prevIndex : ℕ}
    {prevTerm : ℤ} {entries : List Entry} (he : ∀ e ∈ entries, P.Accepts e.payload) :
    P.AcceptsLog (l.merge prevIndex prevTerm entries).log :=
  RaftLog.forall_merge h he

theorem advanceCommit_returns (h : self.AcceptsLog n.log) :
    ∃ n' o, self.advanceCommit n = ⟨n', o, .ok ()⟩ := by
  unfold Self.advanceCommit
  rw [read_bind]
  cases n.findCommit self.id with
  | none => exact ⟨_, _, rfl⟩
  | some candidate =>
    obtain ⟨n', o, hrun⟩ := applyCommitted_returns (n := { n with commitIndex := candidate }) h
    exact ⟨n', _, bind_run rfl hrun⟩

theorem record_returns (h : self.AcceptsLog n.log) {payload : Bytes} (hp : self.Accepts payload) :
    ∃ n' o, self.record payload n = ⟨n', o, .ok ()⟩ := by
  obtain ⟨n', o, hrun⟩ := advanceCommit_returns (n := { n with
    log := n.log.appendEntry n.currentTerm payload }) (h.appendEntry hp)
  exact ⟨n', _, bind_run rfl hrun⟩

theorem office_returns (h : self.AcceptsLog n.log) : ∃ n' o, self.office n = ⟨n', o, .ok ()⟩ := by
  have hlog : self.AcceptsLog (self.takeOffice n).state.log := h
  have htake : ∃ o, self.takeOffice n = ⟨(self.takeOffice n).state, o, .ok ()⟩ := ⟨_, rfl⟩
  obtain ⟨o, htake⟩ := htake
  obtain ⟨n', o', hrun⟩ : ∃ n' o', when ((self.takeOffice n).state.machine.isSome = true)
      (self.record noop) (self.takeOffice n).state = ⟨n', o', .ok ()⟩ := by
    unfold when
    split_ifs
    · exact record_returns hlog (accepts_noop _)
    · exact ⟨_, _, rfl⟩
  exact ⟨n', o ++ o', bind_run htake hrun⟩

theorem receive_returns {prevIndex : ℕ} {prevTerm : ℤ} {entries : List Entry}
    (h : self.AcceptsLog (n.log.merge prevIndex prevTerm entries).log) (commit : ℕ) :
    ∃ n' o, self.receive prevIndex prevTerm entries commit n = ⟨n', o, .ok ()⟩ := by
  generalize hr : n.log.merge prevIndex prevTerm entries = r at h
  obtain ⟨o, hmerge⟩ := mergeWindow_run self hr
  obtain ⟨n', o', hrun⟩ := takeOver_returns (n := { n with log := r.log }) h
    (r.ok = true ∧ n.commitIndex < commit) commit
  exact ⟨n', o ++ o', bind_run hmerge hrun⟩

/-- The answer of a peer raises `KeyError` iff the peer is not in the dicts. -/
theorem answered_raises_iff {sender : ι} {success : Bool} {matchIndex : ℕ} {conflict : Option ℕ}
    (h : self.AcceptsLog n.log) (hs : (n.matchIndex sender).isSome = (n.nextIndex sender).isSome) :
    (∃ x, (self.answered sender success matchIndex conflict n).result = .error x) ↔
      (n.nextIndex sender).isSome = false := by
  have hstart : self.answered sender success matchIndex conflict n =
      (if success = true then self.onAck sender matchIndex else self.onNack sender conflict)
        (self.heard n sender) := rfl
  rw [hstart]
  cases success with
  | true =>
    rw [if_pos rfl, ← hs]
    unfold Self.onAck
    rw [read_bind]
    have hheard : (self.heard n sender).matchIndex sender = n.matchIndex sender := rfl
    rw [hheard]
    cases n.matchIndex sender with
    | none => exact iff_of_true ⟨_, rfl⟩ rfl
    | some mi =>
      obtain ⟨n', o, hrun⟩ := advanceCommit_returns (n := { self.heard n sender with
        matchIndex := Function.update n.matchIndex sender (some (max mi matchIndex))
        nextIndex := Function.update n.nextIndex sender (some (max mi matchIndex + 1)) }) h
      refine iff_of_false ?_ (by simp)
      rintro ⟨x, hx⟩
      have hx' := (congrArg Outcome.result hrun).symm.trans hx
      cases hx'
  | false =>
    rw [if_neg (by decide)]
    unfold Self.onNack
    rw [read_bind]
    have hheard : (self.heard n sender).nextIndex sender = n.nextIndex sender := rfl
    rw [hheard]
    cases n.nextIndex sender with
    | none => exact iff_of_true ⟨_, rfl⟩ rfl
    | some ni =>
      refine iff_of_false ?_ (by simp)
      rintro ⟨x, hx⟩
      cases hx

theorem onAppendResp_answered (hr : n.role = .leader) (sender : ι) (success : Bool) (matchIndex : ℕ)
    (conflict : Option ℕ) : self.onAppendResp n.currentTerm sender success matchIndex conflict n =
      self.answered sender success matchIndex conflict n := by
  unfold Self.onAppendResp
  rw [read_bind, if_neg (by simp [hr])]
  rfl

/-- An answer of the leader's term from a server that is no peer. -/
def Node.strangerAnswers (n : Node ι σ δ) : Call ι δ → Bool
  | .handle (.appendResp term sender _ _ _) =>
    decide (n.role = .leader ∧ term = n.currentTerm ∧ n.peers.contains sender = false)
  | _ => false

/-- A leader that no stranger answers is answered by a peer. -/
theorem Node.answers_peer {n : Node ι σ δ} {sender : ι} {success : Bool} {matchIndex : ℕ}
    {conflict : Option ℕ} (hr : n.role = .leader)
    (hno : n.strangerAnswers (.handle (.appendResp n.currentTerm sender success matchIndex conflict)) =
      false) : sender ∈ n.peers := by
  by_contra hout
  exact of_decide_eq_false hno ⟨hr, rfl, by simpa using hout⟩

/-- What the call brings to the log of the node is accepted by its state machine. -/
def Params.AcceptsCall (P : Params ι σ δ) (n : Node ι σ δ) : Call ι δ → Prop
  | .propose payload => n.Admits → P.Accepts payload
  | .handle (.append _ _ _ _ entries _) => ∀ e ∈ entries, P.Accepts e.payload
  | _ => True

theorem turn_returns {x : Act ι σ δ Unit} (ht : Turn self n₀ k x n) (h : self.AcceptsLog n₀.log)
    (hk : self.AcceptsCall n₀ k) (hs : Roster self.id n₀ []) (hno : n₀.strangerAnswers k = false) :
    ∀ e, (x n).result ≠ .error e := by
  have hok : (∃ n' o, x n = ⟨n', o, .ok ()⟩) → ∀ e, (x n).result ≠ .error e := by
    rintro ⟨n', o, hrun⟩ e he
    rw [hrun] at he
    cases he
  cases ht with
  | still _ _ hn => exact hok ⟨_, _, rfl⟩
  | propose payload hr htarget => exact hok (record_returns h (hk ⟨hr, htarget⟩))
  | elected _ _ hn hw =>
    have hlog : n.log = n₀.log := (congrArg Node.log hn :)
    exact hok (office_returns (hlog ▸ h))
  | answered sender success matchIndex conflict hr =>
    intro e he
    have hnone := (answered_raises_iff h (hs.same sender)).mp ⟨e, he⟩
    rw [hs.led hr sender (Node.answers_peer hr hno)] at hnone
    cases hnone
  | receive _ term leader prevIndex prevTerm entries commit hn _ =>
    have hlog : n.log = n₀.log := (congrArg Node.log hn :)
    exact hok (receive_returns (hlog ▸ h.merge hk) commit)
  | cover _ term leader s hn _ =>
    refine hok ?_
    unfold Self.cover Self.install Self.writeSnapshotFile
    rw [read_bind]
    unfold when
    split_ifs <;> exact ⟨_, _, rfl⟩
  | snapshot =>
    obtain ⟨n', o, r, hrun, -⟩ := (takeSnapshot_returns : Returns self.takeSnapshot) n
    exact hok ⟨n', _, bind_run hrun rfl⟩
  | change _ new hr hc =>
    obtain ⟨o, hopen⟩ := openJoint_run self n new hc.1
    obtain ⟨n', o', hrun⟩ := advanceCommit_returns (n := { self.joint n new with
      log := n.log.appendEntry n.currentTerm (cfgTag ++ self.json.dumps (sortedIds new)) })
      (h.appendEntry (accepts_config _ _))
    exact hok ⟨n', _, bind_run hopen hrun⟩

/-- **A call raises iff a stranger answers**, when all payloads are accepted. -/
theorem call_raises_iff (self : Self ι σ δ) (h : self.AcceptsLog n.log) (hk : self.AcceptsCall n k)
    (hs : Roster self.id n []) :
    (∃ e, (self.call k n).result = .error e) ↔ n.strangerAnswers k = true := by
  constructor
  · rintro ⟨e, he⟩
    by_contra hno
    obtain ⟨x, n₁, ht, hends⟩ := call_turn self n k
    exact turn_returns ht h hk hs (Bool.not_eq_true _ ▸ hno) e ((hends.error e).mp he)
  · intro hno
    unfold Node.strangerAnswers at hno
    split at hno
    · rename_i term sender success matchIndex conflict
      obtain ⟨hr, rfl, hpeer⟩ := of_decide_eq_true hno
      have hcall : self.call (.handle (.appendResp n.currentTerm sender success matchIndex conflict)) n =
          self.answered sender success matchIndex conflict n := onAppendResp_answered hr ..
      rw [hcall]
      refine (answered_raises_iff h (hs.same sender)).mpr ?_
      rw [Bool.eq_false_iff]
      intro hnext
      have hmem := List.contains_iff_mem.mpr (hs.within sender hnext)
      rw [hpeer] at hmem
      cases hmem
    · cases hno

end Returns

/-! ### The keys of `last_peer_ack` -/

section Even

variable {self : Self ι σ δ} {n n' n₀ : Node ι σ δ} {k : Call ι δ}

/-- `last_peer_ack` and `next_index` have the same keys. -/
def Node.Even (n : Node ι σ δ) : Prop := ∀ p, (n.lastPeerAck p).isSome = (n.nextIndex p).isSome

theorem applyStep_even (hs : ApplyStep self n n') (h : n.Even) : n'.Even := by
  cases hs with
  | adopted e servers hlt he hc =>
    intro p
    exact (adopted_key n.lastPeerAck self.now (n.log.lastIndex + 1) (h p) servers).trans
      (adopted_key n.nextIndex (n.log.lastIndex + 1) (n.log.lastIndex + 1) rfl servers).symm
  | _ => exact h

theorem applyCommitted_even (h : n.Even) : (self.applyCommitted n).state.Even :=
  applyCommitted_steps.keeps Node.Even (fun _ _ hs => applyStep_even hs) h

theorem advanceCommit_even (h : n.Even) : (self.advanceCommit n).state.Even := by
  rw [advanceCommit_state]
  cases n.findCommit self.id with
  | none => exact h
  | some candidate => exact applyCommitted_even h

/-- A new leader tracks its peers; what it acknowledged before were peers. -/
theorem takeOffice_even (h : n.Even) (hw : ∀ p, (n.nextIndex p).isSome = true → p ∈ n.peers) :
    (self.takeOffice n).state.Even := by
  intro p
  show (if p ∈ n.peers then some self.now else n.lastPeerAck p).isSome =
    (if p ∈ n.peers then some (n.log.lastIndex + 1) else none).isSome
  by_cases hp : p ∈ n.peers
  · rw [if_pos hp, if_pos hp]
    rfl
  · rw [if_neg hp, if_neg hp, h p, Bool.eq_false_iff.mpr fun hnext => hp (hw p hnext)]
    rfl

theorem joint_even (h : n.Even) (new : Finset ι) : (self.joint n new).Even := by
  intro p
  unfold Self.joint
  dsimp only
  split_ifs
  · rfl
  · exact h p

/-- Every turn but the answer of a stranger keeps the keys in line. -/
theorem turn_even {x : Act ι σ δ Unit} (ht : Turn self n₀ k x n) (h : n₀.Even)
    (hs : Roster self.id n₀ []) (hno : n₀.strangerAnswers k = false) : (x n).state.Even := by
  have hcore : ∀ {n : Node ι σ δ}, n.core = n₀.core → n.Even := by
    intro n hn p
    have hack : n.lastPeerAck = n₀.lastPeerAck := (congrArg Node.lastPeerAck hn :)
    have hnext : n.nextIndex = n₀.nextIndex := (congrArg Node.nextIndex hn :)
    rw [hack, hnext]
    exact h p
  cases ht with
  | still _ _ hn => exact hcore hn
  | propose payload hr htarget =>
    rw [record_state]
    exact advanceCommit_even h
  | elected _ _ hn hw =>
    have hpeers : n.peers = n₀.peers := (congrArg Node.peers hn :)
    have hnext : n.nextIndex = n₀.nextIndex := (congrArg Node.nextIndex hn :)
    have hoffice : (self.takeOffice n).state.Even :=
      takeOffice_even (hcore hn) (hpeers ▸ hnext ▸ hs.within)
    rw [office_state]
    split_ifs
    · rw [record_state]
      exact advanceCommit_even hoffice
    · exact hoffice
  | answered sender success matchIndex conflict hr =>
    have htracked := hs.led hr sender (Node.answers_peer hr hno)
    have hack : (n.lastPeerAck sender).isSome = true := (h sender).trans htracked
    have hheard : (self.heard n sender).Even := fun p => (isSome_update hack self.now p).trans (h p)
    rw [answered_state]
    split_ifs
    · rw [onAck_state]
      split
      · exact hheard
      · refine advanceCommit_even fun p => ?_
        exact (hheard p).trans (isSome_update htracked _ p).symm
    · obtain ⟨next, hstate, hkeys⟩ := onNack_state self (self.heard n sender) sender conflict
      rw [hstate]
      exact fun p => (hheard p).trans (hkeys p).symm
  | receive _ term leader prevIndex prevTerm entries commit hn _ =>
    have heven := hcore hn
    rw [receive_state self n rfl]
    split_ifs
    · exact applyCommitted_even heven
    · exact heven
  | cover _ term leader s hn _ =>
    have heven := hcore hn
    rw [cover_state, install_state]
    split_ifs <;> exact heven
  | snapshot =>
    rw [snapshot_state]
    exact takeSnapshot_steps.keeps Node.Even (fun _ _ hs => applyStep_even hs) h
  | change _ new hr hc =>
    obtain ⟨o, hopen⟩ := openJoint_run self n new hc.1
    have hstate : (self.change new n).state = (self.advanceCommit { self.joint n new with
        log := n.log.appendEntry n.currentTerm (cfgTag ++ self.json.dumps (sortedIds new)) }).state := by
      unfold Self.change
      rw [bind_eq hopen]
    rw [hstate]
    exact advanceCommit_even (joint_even h new)

end Even

/-! ### Runs -/

section Runs

variable {S : Setup ι σ δ} {c : Cluster ι σ δ} {e : Event ι δ}

/-- The payload is accepted by the state machine of every server. -/
def Setup.AcceptsPayload (S : Setup ι σ δ) (payload : Bytes) : Prop :=
  ∀ i ∈ S.servers, (S.params i).Accepts payload

/-- A proposed payload is one the state machines accept. -/
def Event.AcceptsPayloads (S : Setup ι σ δ) (e : Event ι δ) : Prop :=
  ∀ payload, e.action.made = some (.propose payload) → S.AcceptsPayload payload

/-- The event is not the answer of a stranger. -/
def Acquainted (c : Cluster ι σ δ) (e : Event ι δ) : Prop :=
  ∀ k ∈ e.action.made, (c.node e.node).strangerAnswers k = false

instance (c : Cluster ι σ δ) (e : Event ι δ) : Decidable (Acquainted c e) :=
  inferInstanceAs (Decidable (∀ k ∈ e.action.made, (c.node e.node).strangerAnswers k = false))

omit [LinearOrder ι] in
theorem sources_of_accepts {k : Call ι δ} (he : e.AcceptsPayloads S) (hk : k ∈ e.action.made) :
    Sources S S.AcceptsPayload (c.node e.node) k := by
  refine ⟨fun i _ => accepts_noop _, fun i l j _ => accepts_config _ _, ?_⟩
  rintro payload rfl -
  exact he payload hk

theorem even_reach (hr : Reach S.step (fun c e => S.Enabled c e ∧ Acquainted c e) S.init c) (i : ι) :
    (c.node i).Even := by
  have hboot : ∀ (P : Params ι σ δ) now draw d, (P.boot i now draw d).Even := by
    intro P now draw d
    obtain ⟨l, ci, ai, m, s, hb, -⟩ := boot_eq P i now draw d
    rw [hb]
    exact fun p => rfl
  refine node_inv Node.Even (hboot _ _ _ _) ?_ (fun c now draw d _ hnode => hnode ▸ hboot _ _ _ _) hr
  rintro c e k hs ⟨he, hno⟩ rfl ha h
  have hroster := (roster_reach (hs.mono fun _ _ h => h.1) e.node).anytime []
  obtain ⟨x, n₁, ht, hends⟩ := call_turn (S.self e) (c.node e.node) k
  have heven := turn_even ht h hroster (hno k (made_of_call ha))
  intro p
  have hack := (congrArg Node.lastPeerAck hends.view :)
  have hnext := (congrArg Node.nextIndex hends.view :)
  exact (congrArg (fun d => (d p).isSome) hack).trans
    ((heven p).trans (congrArg (fun d => (d p).isSome) hnext).symm)

/-- **Handlers and the keys of a leader**: in every run in which state machines accept what is proposed
and no leader gets an answer of its term from a server that is no peer, the three dicts of a leader
have its peers as keys, and a call of `handle` on a message in flight raises iff it is such an
answer. -/
theorem handlers_never_fail (hr : Reach S.step (fun c e => S.Enabled c e ∧ e.AcceptsPayloads S ∧
      Acquainted c e) S.init c) :
    (∀ i, (c.node i).role = .leader → ∀ p,
      ((c.node i).nextIndex p).isSome = decide (p ∈ (c.node i).peers) ∧
      ((c.node i).matchIndex p).isSome = decide (p ∈ (c.node i).peers) ∧
      ((c.node i).lastPeerAck p).isSome = decide (p ∈ (c.node i).peers)) ∧
    ∀ e m, S.Enabled c e → e.action = .call (.handle m) →
      ((∃ x, (S.outcome c e (.handle m)).result = .error x) ↔
        (c.node e.node).strangerAnswers (.handle m) = true) := by
  have henabled := hr.mono fun c e he => he.1
  have hpayloads : Local (Carries S.AcceptsPayload) (Holding S.AcceptsPayload) c :=
    payloads_reach (fun c e he => ⟨he.1, fun k hk => sources_of_accepts he.2.1 hk⟩) hr
  refine ⟨fun i hrole p => ?_, fun e m he ha => ?_⟩
  · have hroster := roster_reach henabled i
    have hnext : ((c.node i).nextIndex p).isSome = decide (p ∈ (c.node i).peers) := by
      rw [Bool.eq_iff_iff, decide_eq_true_eq]
      exact ⟨hroster.within p, hroster.led hrole p⟩
    refine ⟨hnext, (hroster.same p).trans hnext, ?_⟩
    exact (even_reach (hr.mono fun c e he => ⟨he.1, he.2.2⟩) i p).trans hnext
  · have hi := he.1
    refine call_raises_iff (S.self e) (fun x hx => hpayloads.2 e.node x hx e.node hi) ?_
      ((roster_reach henabled e.node).anytime [])
    cases m with
    | append term leader prevIndex prevTerm entries commit =>
      have hsent : InFlight c.history e.node (.append term leader prevIndex prevTerm entries commit) :=
        he.2.2 _ (by rw [ha]; rfl)
      exact fun x hx => carried_window hpayloads.1 hsent x hx e.node hi
    | _ => trivial

end Runs

/-- Server 2 answers the append that carries its removal, after the removal was applied. -/
def removedAnswers : List (Event ℕ Unit) :=
  removal 1 ++ [callAt 1006 2 (.handle (.append 1 0 0 0
    [⟨1, 1, noop⟩, ⟨2, 1, cfgTag ++ letters.dumps [0, 1]⟩] 0))]

theorem lab_accepts (size : ℕ) (prevote : Bool) (maxBatch : ℕ) (e : Event ℕ Unit) :
    e.AcceptsPayloads (lab size prevote maxBatch) := by
  intro payload _ i _ _ sm hsm s
  cases hsm
  rfl

theorem handlers_never_fail_removal :
    let c := (lab 3 false 256).replay removedAnswers
    ((c.node 0).role = .leader ∧ (c.node 0).peers = [1]) ∧
      ∀ p, ((c.node 0).lastPeerAck p).isSome = decide (p ∈ (c.node 0).peers) := by
  intro c
  have hr : Reach (lab 3 false 256).step (fun c e => (lab 3 false 256).Enabled c e ∧ Acquainted c e)
      (lab 3 false 256).init c := reach_replay removedAnswers (by decide +kernel)
  have hrole : (c.node 0).role = .leader := by decide +kernel
  refine ⟨⟨hrole, by decide +kernel⟩, fun p => ?_⟩
  exact ((handlers_never_fail (hr.mono fun c e he => ⟨he.1, lab_accepts 3 false 256 e, he.2⟩)).1
    0 hrole p).2.2

/-- The answer of the removed server raises `KeyError` and leaves it in `last_peer_ack`. -/
theorem removed_answer_raises :
    let S := lab 3 false 256
    let m : Msg ℕ Unit := .appendResp 1 2 true 2 (some 0)
    ∃ c, Reach S.step (fun c e => S.Enabled c e ∧ e.AcceptsPayloads S) S.init c ∧
      InFlight c.history 0 m ∧
      (S.outcome c (callAt 1007 0 (.handle m)) (.handle m)).result = .error .keyError ∧
      ((S.step c (callAt 1007 0 (.handle m))).node 0).role = .leader ∧
      (((S.step c (callAt 1007 0 (.handle m))).node 0).lastPeerAck 2).isSome = true ∧
      (((S.step c (callAt 1007 0 (.handle m))).node 0).nextIndex 2).isSome = false := by
  intro S m
  have hr : Reach S.step S.Enabled S.init (S.replay removedAnswers) :=
    reach_replay removedAnswers (by decide +kernel)
  exact ⟨S.replay removedAnswers, hr.mono fun c e he => ⟨he, lab_accepts 3 false 256 e⟩,
    by decide +kernel, by decide +kernel, by decide +kernel, by decide +kernel, by decide +kernel⟩

end Pylog.Raft
