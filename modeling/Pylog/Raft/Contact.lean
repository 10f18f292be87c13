import Mathlib.Tactic.Linarith
import Pylog.Raft.Fixed
import Pylog.Raft.Timers

/-!
# Pylog.Raft.Contact — a leader and its majority

`_check_quorum` (raft.py:722) makes a leader step down that has not heard from a majority for twice the
election timeout.  The check runs in ticks, so a leader that keeps its office over a tick had answers
of a majority within the interval of the check and this window (`quorum_in_contact`).
-/

namespace Pylog.Raft

open Effect Effect.Handler Transition Trace

variable {ι σ δ : Type} [LinearOrder ι] {S : Setup ι σ δ} {c : Cluster ι σ δ} {e : Event ι δ}
  {es : List (Event ι δ)} {i p : ι} {t : ℕ} {a : ℚ}

/-! ### Statement -/

/-- The node leads in term `t`. -/
def Leads (c : Cluster ι σ δ) (i : ι) (t : ℕ) : Prop :=
  (c.node i).role = .leader ∧ (c.node i).currentTerm = t

instance (c : Cluster ι σ δ) (i : ι) (t : ℕ) : Decidable (Leads c i t) :=
  inferInstanceAs (Decidable (_ ∧ _))

/-- At time `a` the event is an answer of `p` to the leader of term `t` at `i`, or it makes `i` that
leader. -/
def Contact (c : Cluster ι σ δ) (S : Setup ι σ δ) (e : Event ι δ) (i : ι) (t : ℕ) (p : ι) (a : ℚ) : Prop :=
  e.node = i ∧ e.now = a ∧
    ((Leads c i t ∧ ∃ success matchIndex conflict,
        e.action = .call (.handle (.appendResp t p success matchIndex conflict))) ∨
      ¬ Leads c i t ∧ Leads (S.step c e) i t)

/-- The leader of term `t` at `i` heard from `p` at time `a` of the run. -/
def Heard (S : Setup ι σ δ) (es : List (Event ι δ)) (i : ι) (t : ℕ) (p : ι) (a : ℚ) : Prop :=
  ∃ before e, before ++ [e] <+: es ∧ Contact (S.replay before) S e i t p a

/-- Time does not run backwards. -/
def Clockwise (es : List (Event ι δ)) : Prop :=
  es.Pairwise (fun e e' => e.now ≤ e'.now) ∧ ∀ e ∈ es, 0 ≤ e.now

instance (es : List (Event ι δ)) : Decidable (Clockwise es) :=
  inferInstanceAs (Decidable (List.Pairwise _ _ ∧ _))

theorem Heard.mono {es' : List (Event ι δ)} (h : Heard S es i t p a) (hes : es <+: es') :
    Heard S es' i t p a := by
  obtain ⟨before, e, hb, hc⟩ := h
  exact ⟨before, e, hb.trans hes, hc⟩

theorem heard_last (h : Contact (S.replay es) S e i t p a) : Heard S (es ++ [e]) i t p a :=
  ⟨es, e, List.prefix_rfl, h⟩

/-! ### What a call does to the acknowledgements -/

section Acks

variable {self : Self ι σ δ} {n n' n₀ : Node ι σ δ} {k : Call ι δ} {d : Dict ι ℚ}

/-- No entry reads as a configuration. -/
def Params.NoConfigs (P : Params ι σ δ) (l : RaftLog) : Prop :=
  ∀ x ∈ l.entries, P.configOf x.payload = none

theorem Params.NoConfigs.appendEntry {P : Params ι σ δ} {l : RaftLog} (h : P.NoConfigs l) {t : ℕ}
    {payload : Bytes} (hp : P.configOf payload = none) : P.NoConfigs (l.appendEntry t payload) :=
  @RaftLog.forall_appendEntry l (fun b => P.configOf b = none) h t payload hp

theorem Params.NoConfigs.merge {P : Params ι σ δ} {l : RaftLog} (h : P.NoConfigs l) {prevIndex : ℕ}
    {prevTerm : ℤ} {entries : List Entry} (he : ∀ x ∈ entries, P.configOf x.payload = none) :
    P.NoConfigs (l.merge prevIndex prevTerm entries).log :=
  @RaftLog.forall_merge l _ _ entries (fun b => P.configOf b = none) h he

/-- The call brings no configuration. -/
def Params.BringsNone (P : Params ι σ δ) : Call ι δ → Prop
  | .propose payload => P.configOf payload = none
  | .handle (.append _ _ _ _ entries _) => ∀ x ∈ entries, P.configOf x.payload = none
  | .proposeAddServer _ | .proposeRemoveServer _ => False
  | _ => True

/-- The log brings no configuration, and the acknowledgements are `d`. -/
def Acked (self : Self ι σ δ) (d : Dict ι ℚ) (n : Node ι σ δ) : Prop :=
  self.NoConfigs n.log ∧ n.lastPeerAck = d

theorem applyStep_acked (hs : ApplyStep self n n') (h : Acked self d n) : Acked self d n' := by
  cases hs with
  | adopted e servers hlt he hc =>
    have hnone := h.1 e (RaftLog.mem_of_get he)
    rw [hc] at hnone
    cases hnone
  | compacted s l hs hc hf => exact ⟨fun x hx => h.1 x (RaftLog.mem_compact hc hx), h.2⟩
  | _ => exact h

theorem applyCommitted_acked (h : Acked self d n) : Acked self d (self.applyCommitted n).state :=
  applyCommitted_steps.keeps (Acked self d) (fun _ _ hs => applyStep_acked hs) h

theorem advanceCommit_acked (h : Acked self d n) : Acked self d (self.advanceCommit n).state := by
  rw [advanceCommit_state]
  cases n.findCommit self.id with
  | none => exact h
  | some candidate => exact applyCommitted_acked (n := { n with commitIndex := candidate }) h

theorem advanceCommit_acks (h : self.NoConfigs n.log) :
    (self.advanceCommit n).state.lastPeerAck = n.lastPeerAck := (advanceCommit_acked ⟨h, rfl⟩).2

/-- What a call of a node that is not elected in it does to the acknowledgements: only an answer to
the leader is noted. -/
theorem turn_acks {x : Act ι σ δ Unit} (ht : Turn self n₀ k x n) (h : self.NoConfigs n₀.log)
    (hk : self.BringsNone k) (hw : self.wins n₀ k = false) (p : ι) :
    (x n).state.lastPeerAck p = n₀.lastPeerAck p ∨
      (x n).state.lastPeerAck p = some self.now ∧ ∃ success matchIndex conflict,
        k = .handle (.appendResp n₀.currentTerm p success matchIndex conflict) := by
  have hcore : ∀ {n : Node ι σ δ}, n.core = n₀.core → Acked self n₀.lastPeerAck n := by
    intro n hn
    have hlog : n.log = n₀.log := (congrArg Node.log hn :)
    exact ⟨hlog ▸ h, (congrArg Node.lastPeerAck hn :)⟩
  have hsame : ∀ {n' : Node ι σ δ}, Acked self n₀.lastPeerAck n' →
      n'.lastPeerAck p = n₀.lastPeerAck p := fun hn' => congrFun hn'.2 p
  cases ht with
  | still _ _ hn => exact .inl (hsame (hcore hn))
  | propose payload hr htarget =>
    rw [record_state]
    exact .inl (congrFun (advanceCommit_acks (h.appendEntry hk)) p)
  | elected _ _ hn hw' =>
    rw [hw] at hw'
    cases hw'
  | answered sender success matchIndex conflict hr =>
    have hstate : ((self.answered sender success matchIndex conflict) n).state.lastPeerAck =
        Function.update n.lastPeerAck sender (some self.now) := by
      rw [answered_state]
      split_ifs
      · rw [onAck_state]
        split
        · rfl
        · exact advanceCommit_acks h
      · obtain ⟨next, hstate, -⟩ := onNack_state self (self.heard n sender) sender conflict
        rw [hstate]
        rfl
    rw [hstate]
    by_cases hp : p = sender
    · subst hp
      exact .inr ⟨Function.update_self .., success, matchIndex, conflict, rfl⟩
    · exact .inl (Function.update_of_ne hp _ _)
  | receive _ term leader prevIndex prevTerm entries commit hn _ =>
    obtain ⟨hlog, hack⟩ := hcore hn
    have hmerge : self.NoConfigs (n.log.merge prevIndex prevTerm entries).log :=
      hlog.merge hk
    rw [receive_state self n rfl]
    split_ifs
    · exact .inl (hsame (applyCommitted_acked ⟨hmerge, hack⟩))
    · exact .inl (congrFun hack p)
  | cover _ term leader s hn _ =>
    have hack := (hcore hn).2
    rw [cover_state, install_state]
    split_ifs <;> exact .inl (congrFun hack p)
  | snapshot =>
    rw [snapshot_state]
    exact .inl (hsame (takeSnapshot_steps.keeps (Acked self n.lastPeerAck)
      (fun _ _ hs => applyStep_acked hs) ⟨h, rfl⟩))
  | change _ new hr hc =>
    rcases hc.2 with ⟨x, rfl, -⟩ | ⟨x, rfl, -⟩ <;> exact hk.elim

/-- A leader that is in no pre-vote round is not elected. -/
theorem wins_leader (hr : n.role = .leader) (hpre : n.preCandidate = false) : self.wins n k = false := by
  have helects : ∀ k, self.elects n k = false := by
    intro k
    unfold Self.elects
    rw [hr, hpre]
    split <;> simp
  unfold Self.wins
  rw [hr]
  split
  · simp
  · rw [helects]
    rfl

/-! ### What a call does to the quorum check -/

/-- What a call does to the role and the quorum check of a node. -/
inductive Scheduled (self : Self ι σ δ) (n n' : Node ι σ δ) : Prop
  | same (hr : n'.role = n.role) (hc : n'.nextQuorumCheck = n.nextQuorumCheck)
  | renewed (h : Renewed self n n')
  | stalled (h : Stalled n n')
  | ticked (hr : n.role = .leader) (h : Ticked self n n')

theorem scheduled_of_times {x : Act ι σ δ Unit} (h : Times self n x n (Timed self n)) :
    Scheduled self n (x n).state := by
  have hstate : Timed self n (x n).state ∨ Stalled n (x n).state :=
    (h.mono (fun _ _ h => .inl h) fun _ h => h).state (I := fun n' => Timed self n n' ∨ Stalled n n')
  rcases hstate with (h | h) | h
  · exact .same (timers_role h) (timers_check h)
  · exact .renewed h
  · exact .stalled h

theorem scheduled_of_untimed {α : Type} {x : Act ι σ δ α} (h : ∀ t, Untimed t x) :
    Scheduled self n ((x >>= fun _ => pure ()) n : Outcome (Node ι σ δ) (ι × Out ι σ δ) Exn Unit).state :=
  have ht := h n.timers n rfl
  .same (by rw [bind_pure_state]; exact timers_role ht) (by rw [bind_pure_state]; exact timers_check ht)

theorem call_scheduled (self : Self ι σ δ) (n : Node ι σ δ) (k : Call ι δ) :
    Scheduled self n (self.call k n).state := by
  cases k with
  | tick =>
    by_cases hr : n.role = .leader
    · have h : Ends self.tick n (fun _ => Ticked self n) (Ticked self n) :=
        (tick_leader hr).mono (fun _ _ h => h) fun _ h => h.elim
      exact .ticked hr h.state
    · refine scheduled_of_times ((tick_waiting hr).mono (fun _ _ h => ?_) fun _ h => h)
      exact h.imp_left And.left
  | handle m => exact scheduled_of_times (handle_timed m)
  | propose payload => exact scheduled_of_untimed fun t => propose_untimed payload
  | transferLeadership target =>
    have hkeep : Keeps (fun n' : Node ι σ δ => n'.role = n.role ∧ n'.nextQuorumCheck = n.nextQuorumCheck)
        (self.transferLeadership target) := by
      refine keeps_read fun s => ?_
      split_ifs
      · exact keeps_pure _
      · refine keeps_bind (keeps_update fun _ h => h) fun _ => ?_
        exact keeps_bind (keeps_emit _) fun _ => keeps_pure _
    have h := keeps_bind hkeep (fun _ => keeps_pure ()) n ⟨rfl, rfl⟩
    exact .same h.1 h.2
  | proposeAddServer x =>
    refine scheduled_of_untimed fun t => keeps_read fun s => ?_
    split_ifs
    · exact keeps_pure _
    · exact proposeConfig_untimed _
  | proposeRemoveServer x =>
    refine scheduled_of_untimed fun t => keeps_read fun s => ?_
    split_ifs
    · exact keeps_pure _
    · exact keeps_pure _
    · exact proposeConfig_untimed _
  | takeSnapshot => exact scheduled_of_untimed fun t => takeSnapshot_untimed

/-- A call leaves the time of the check as it was or sets it anew. -/
theorem call_check (self : Self ι σ δ) (n : Node ι σ δ) (k : Call ι δ) :
    (self.call k n).state.nextQuorumCheck = n.nextQuorumCheck ∨
      (self.call k n).state.nextQuorumCheck = self.now + self.quorumCheckInterval := by
  cases call_scheduled self n k with
  | same hr hc => exact .inl hc
  | renewed h =>
    rcases h with h | h
    · exact .inl h.check
    · exact .inr h.check
  | stalled h => exact .inl h.2
  | ticked hr h =>
    cases h with
    | kept _ _ hc =>
      rw [hc]
      split_ifs
      · exact .inr rfl
      · exact .inl rfl
    | lost _ _ hc => exact .inr hc

/-- Of a leader that stays in office only a tick moves the check, after a check that found a majority. -/
theorem leader_check (hr : n.role = .leader) (hpre : n.preCandidate = false)
    (hr' : (self.call k n).state.role = .leader) :
    (self.call k n).state.nextQuorumCheck = n.nextQuorumCheck ∨
      (self.call k n).state.nextQuorumCheck = self.now + self.quorumCheckInterval ∧
        self.majorityFresh n (self.electionMax * 2) = true := by
  cases call_scheduled self n k with
  | same _ hc => exact .inl hc
  | renewed h =>
    rcases h with h | h
    · exact absurd hr' h.role
    · have hround := h.new hr
      rw [hpre] at hround
      cases hround
  | stalled h => exact .inl h.2
  | ticked _ h =>
    cases h with
    | kept _ _ hc _ _ hf =>
      rw [hc]
      split_ifs with hdue
      · exact .inr ⟨rfl, hf hdue⟩
      · exact .inl rfl
    | lost hr'' => exact absurd hr' hr''

end Acks

/-! ### What an event does -/

/-- A leader after a call led before it in the same term, or took office and counts its peers as heard. -/
def Seated (S : Setup ι σ δ) (e : Event ι δ) (n n' : Node ι σ δ) : Prop :=
  n'.role = .leader → (n.role = .leader ∧ n'.currentTerm = n.currentTerm) ∨
    ∀ p ∈ S.servers, p ≠ e.node → n'.lastPeerAck p = some e.now

theorem micro_seated {k : Call ι δ} {n : Node ι σ δ} {q q' : Node ι σ δ × History ι σ δ}
    (hm : Micro (S.self e) n k q q') (hk : k.keepsMembership S = true) (he : e.node ∈ S.servers)
    (hs : S.Steady e.node q.1 q.2) (h : Seated S e n q.1) : Seated S e n q'.1 := by
  have hv := hs.1 he
  cases hm with
  | raise => exact fun hr => by cases hr
  | retreat => exact fun hr => by cases hr
  | campaign n n' h d hr h0 hel hn => exact fun hr => by subst hn; cases hr
  | win n n' h hr hq hn =>
    subst hn
    exact fun _ => .inr fun p hp hpi => if_pos ((hv.2.2 p).mpr ⟨hp, hpi⟩)
  | peerAck n h p hr =>
    refine fun hr => (h hr).imp_right fun hall q hq hqi => ?_
    show Function.update n.lastPeerAck p (some e.now) q = some e.now
    by_cases hqp : q = p
    · rw [hqp, Function.update_self]
    · rw [Function.update_of_ne hqp]
      exact hall q hq hqi
  | reconfig n n' h new hr hch hn h0 => rcases hch.2 with ⟨x, rfl, -⟩ | ⟨x, rfl, -⟩ <;> cases hk
  | adopt n n' h x servers hlt hx hcf hr hn =>
    have hx' := hs.2 x (RaftLog.mem_of_get hx) e.node he
    rw [show (S.params e.node).configOf x.payload = (S.self e).configOf x.payload from rfl, hcf] at hx'
    cases hx'
  | _ => exact h

theorem seat_step (hS : Local S.Settled S.Steady c)
    (hpre : (c.node e.node).role = .leader → (c.node e.node).preCandidate = false)
    (he : S.Enabled c e) (hk : e.KeepsMembership S) :
    Seated S e (c.node e.node) ((S.step c e).node e.node) := by
  rcases step_node_self (S := S) (c := c) (e := e) with ⟨k, ha, -⟩ | ⟨d, hboot⟩
  · have hmade := made_of_call ha
    have hinv := after_inv (S := S) (e := e) (k := k)
      (fun c' => Local S.Settled S.Steady c' ∧ Seated S e (c.node e.node) (c'.node e.node)) hpre
      ⟨hS, fun hr => .inl ⟨hr, rfl⟩⟩ ?_
    · rw [step_call_eq ha]
      exact hinv.2
    · rintro ⟨n, h⟩ ⟨n', h'⟩ hm hg ⟨hlocal, hseat⟩
      have hsteady := hlocal.2 e.node
      rw [Cluster.at_node_self] at hseat hsteady ⊢
      exact ⟨fixed_micro hlocal hm he.1 (fun _ => rfl) (hk k hmade)
        ((arrived_of_enabled he hmade).mono hg.isPrefix), micro_seated hm (hk k hmade) he.1 hsteady hseat⟩
  · intro hr
    rw [hboot, boot_role] at hr
    cases hr

theorem bringsNone_of_keeps {k : Call ι δ} (hc : Causal S.Settled c.history) (he : S.Enabled c e)
    (hk : e.KeepsMembership S) (ha : e.action = .call k) : (S.self e).BringsNone k := by
  have hmade := made_of_call ha
  have hkeeps := hk k hmade
  cases k with
  | propose payload =>
    have hall : ∀ i ∈ S.servers, (S.params i).configOf payload = none := of_decide_eq_true hkeeps
    exact hall e.node he.1
  | handle m =>
    cases m with
    | append => exact fun x hx =>
        ordinary_of_inFlight hc (arrived_of_enabled he hmade _ rfl) x hx e.node he.1
    | _ => exact trivial
  | proposeAddServer => cases hkeeps
  | proposeRemoveServer => cases hkeeps
  | _ => exact trivial

/-- A check that finds a majority has a quorum of fresh peers. -/
theorem fresh_quorum {self : Self ι σ δ} {n : Node ι σ δ} {window : ℚ} (hi : self.id ∈ S.servers)
    (hv : S.View self.id n) (hf : self.majorityFresh n window = true) :
    S.Quorum (insert self.id (S.servers.filter (self.fresh n window ·))) := by
  have hid : self.id ∉ S.servers.filter (self.fresh n window ·) := by
    intro h
    have hne := (of_decide_eq_true (Finset.mem_filter.mp h).2).1
    exact hne rfl
  refine ⟨Finset.insert_subset hi (Finset.filter_subset _ _), ?_⟩
  unfold Self.majorityFresh at hf
  rw [hv.2.1, hv.1] at hf
  have hcard := of_decide_eq_true hf
  rw [Finset.card_insert_of_notMem hid]
  omega

/-! ### Runs -/

/-- What the quorum check of server `i` rests on: it is not set too late, every peer of a leader was
heard when the leader says so, and the last check of a leader found a majority. -/
structure Contacts (S : Setup ι σ δ) (es : List (Event ι δ)) (i : ι) : Prop where
  check : ∀ T, 0 ≤ T → (∀ e ∈ es, e.now ≤ T) →
    ((S.replay es).node i).nextQuorumCheck ≤ T + (S.params i).quorumCheckInterval
  acks : ∀ t, Leads (S.replay es) i t → ∀ p ∈ S.servers, p ≠ i →
    ∃ a, ((S.replay es).node i).lastPeerAck p = some a ∧ Heard S es i t p a
  majority : ∀ t, Leads (S.replay es) i t → ∃ s Q,
    ((S.replay es).node i).nextQuorumCheck ≤ s + (S.params i).quorumCheckInterval ∧
      S.Quorum Q ∧ ∀ p ∈ Q, p ≠ i → ∃ a, s - (S.params i).electionMax * 2 ≤ a ∧ Heard S es i t p a

theorem replay_concat (es : List (Event ι δ)) (e : Event ι δ) :
    S.replay (es ++ [e]) = S.step (S.replay es) e := by
  unfold Setup.replay
  rw [List.foldl_append]
  rfl

/-- An event at another server. -/
theorem Contacts.other (h : Contacts S es i) (hi : i ≠ e.node) : Contacts S (es ++ [e]) i := by
  have hnode : (S.replay (es ++ [e])).node i = (S.replay es).node i := by
    rw [replay_concat, step_node_of_ne hi]
  have hleads : ∀ t, Leads (S.replay (es ++ [e])) i t → Leads (S.replay es) i t := by
    unfold Leads
    rw [hnode]
    exact fun t h => h
  have hpre : es <+: es ++ [e] := List.prefix_append _ _
  refine ⟨fun T hT hall => ?_, fun t ht p hp hpi => ?_, fun t ht => ?_⟩
  · rw [hnode]
    exact h.check T hT fun e' he' => hall e' (List.mem_append_left _ he')
  · obtain ⟨a, ha, hh⟩ := h.acks t (hleads t ht) p hp hpi
    exact ⟨a, by rw [hnode]; exact ha, hh.mono hpre⟩
  · obtain ⟨s, Q, hs, hQ, hheard⟩ := h.majority t (hleads t ht)
    refine ⟨s, Q, by rw [hnode]; exact hs, hQ, fun p hp hpi => ?_⟩
    obtain ⟨a, ha, hh⟩ := hheard p hp hpi
    exact ⟨a, ha, hh.mono hpre⟩

/-- The server restarts. -/
theorem Contacts.boot {d : Durable ι δ} (hI : 0 ≤ (S.params i).quorumCheckInterval) {now draw : ℚ}
    (hnode : (S.replay es).node i = (S.params i).boot i now draw d) : Contacts S es i := by
  have hrole : ((S.replay es).node i).role ≠ .leader := by
    rw [hnode, boot_role]
    nofun
  refine ⟨fun T hT _ => ?_, fun t ht => absurd ht.1 hrole, fun t ht => absurd ht.1 hrole⟩
  obtain ⟨l, ci, ai, m, s, hb, -⟩ := boot_eq (S.params i) i now draw d
  rw [hnode, hb]
  exact add_nonneg hT hI

/-- A call at the server. -/
theorem Contacts.call {k : Call ι δ} (h : Contacts S es e.node)
    (hS : Local S.Settled S.Steady (S.replay es))
    (hpre : ((S.replay es).node e.node).role = .leader → ((S.replay es).node e.node).preCandidate = false)
    (he : S.Enabled (S.replay es) e) (hk : e.KeepsMembership S) (ha : e.action = .call k)
    (hnow : ∀ e' ∈ es, e'.now ≤ e.now) (hpos : 0 ≤ e.now)
    (hW : 0 ≤ (S.params e.node).electionMax) : Contacts S (es ++ [e]) e.node := by
  set c := S.replay es with hc
  have hstep : S.replay (es ++ [e]) = S.step c e := replay_concat es e
  have hpreOf : es <+: es ++ [e] := List.prefix_append _ _
  have hnode : (S.step c e).node e.node = ((S.self e).call k (c.node e.node)).state := by
    rw [step_call_eq ha, Setup.after, Cluster.at_node_self]
    rfl
  have hcheck : ∀ T, 0 ≤ T → (∀ e' ∈ es ++ [e], e'.now ≤ T) →
      ((S.step c e).node e.node).nextQuorumCheck ≤ T + (S.params e.node).quorumCheckInterval := by
    intro T hT hall
    rw [hnode]
    rcases call_check (S.self e) (c.node e.node) k with heq | heq
    · rw [heq]
      exact h.check T hT fun e' he' => hall e' (List.mem_append_left _ he')
    · rw [heq]
      exact add_le_add_left (hall e (by simp)) _
  -- what a leader knows of each peer, and of a majority at its last check
  have hleader : ∀ t, Leads (S.step c e) e.node t →
      (∀ p ∈ S.servers, p ≠ e.node → ∃ a, ((S.step c e).node e.node).lastPeerAck p = some a ∧
        Heard S (es ++ [e]) e.node t p a) ∧
      ∃ s Q, ((S.step c e).node e.node).nextQuorumCheck ≤ s + (S.params e.node).quorumCheckInterval ∧
        S.Quorum Q ∧ ∀ p ∈ Q, p ≠ e.node → ∃ a, s - (S.params e.node).electionMax * 2 ≤ a ∧
          Heard S (es ++ [e]) e.node t p a := by
    intro t ht
    by_cases hkept : Leads c e.node t
    · have hsteady := hS.2 e.node
      have hlog : (S.self e).NoConfigs (c.node e.node).log := fun x hx => hsteady.2 x hx e.node he.1
      obtain ⟨x, n₁, hturn, hends⟩ := call_turn (S.self e) (c.node e.node) k
      have hack : ((S.self e).call k (c.node e.node)).state.lastPeerAck = (x n₁).state.lastPeerAck :=
        (congrArg Node.lastPeerAck hends.view :)
      have hacks := turn_acks hturn hlog (bringsNone_of_keeps hS.1 he hk ha)
        (wins_leader hkept.1 (hpre hkept.1))
      refine ⟨fun p hp hpi => ?_, ?_⟩
      · rw [hnode, hack]
        rcases hacks p with heq | ⟨heq, success, matchIndex, conflict, rfl⟩
        · obtain ⟨a, hpa, hh⟩ := h.acks t hkept p hp hpi
          exact ⟨a, heq.trans hpa, hh.mono hpreOf⟩
        · refine ⟨e.now, heq, heard_last ⟨rfl, rfl, .inl ⟨hkept, success, matchIndex, conflict, ?_⟩⟩⟩
          rw [ha, hkept.2]
      · have hrole : ((S.self e).call k (c.node e.node)).state.role = .leader := hnode ▸ ht.1
        rcases leader_check hkept.1 (hpre hkept.1) hrole with heq | ⟨heq, hfresh⟩
        · obtain ⟨s, Q, hs, hQ, hheard⟩ := h.majority t hkept
          refine ⟨s, Q, by rw [hnode, heq]; exact hs, hQ, fun p hp hpi => ?_⟩
          obtain ⟨a, hsa, hh⟩ := hheard p hp hpi
          exact ⟨a, hsa, hh.mono hpreOf⟩
        · refine ⟨e.now, _, by rw [hnode, heq]; exact le_rfl,
            fresh_quorum he.1 (hsteady.1 he.1) hfresh, fun p hp hpi => ?_⟩
          obtain ⟨hp, hfp⟩ := Finset.mem_filter.mp ((Finset.mem_insert.mp hp).resolve_left hpi)
          obtain ⟨a, hpa, hh⟩ := h.acks t hkept p hp hpi
          have hwin := (of_decide_eq_true hfp).2
          rw [hpa] at hwin
          exact ⟨a, sub_le_comm.mp hwin, hh.mono hpreOf⟩
    · have hall := (seat_step hS hpre he hk ht.1).resolve_left fun hold =>
        hkept ⟨hold.1, hold.2.symm.trans ht.2⟩
      have hheard : ∀ p, Heard S (es ++ [e]) e.node t p e.now := fun p =>
        heard_last ⟨rfl, rfl, .inr ⟨hkept, ht⟩⟩
      refine ⟨fun p hp hpi => ⟨e.now, hall p hp hpi, hheard p⟩, e.now, S.servers, ?_, ?_, ?_⟩
      · refine hcheck e.now hpos fun e' he' => ?_
        rcases List.mem_append.mp he' with he' | he'
        · exact hnow e' he'
        · rw [List.mem_singleton.mp he']
      · have hcard : 0 < S.servers.card := Finset.card_pos.mpr ⟨e.node, he.1⟩
        exact ⟨subset_rfl, Nat.div_lt_self hcard Nat.one_lt_two⟩
      · exact fun p _ _ => ⟨e.now, sub_le_self _ (mul_nonneg hW zero_le_two), hheard p⟩
  refine ⟨?_, ?_, ?_⟩
  · rw [hstep]
    exact hcheck
  · rw [hstep]
    exact fun t ht => (hleader t ht).1
  · rw [hstep]
    exact fun t ht => (hleader t ht).2

theorem settled_reach (hS : S.FullMesh)
    (hr : Reach S.step (fun c e => S.Enabled c e ∧ e.KeepsMembership S) S.init c) :
    Local S.Settled S.Steady c := by
  refine hr.inv _ (fixed_init hS) fun s e hs hI he => ?_
  exact fixed_step hS ((votesKept_reach (hs.mono fun _ _ h => h.1)).2 e.node).calm he.1 he.2 hI

/-- The timing of the constructor makes sense. -/
def Setup.Punctual (S : Setup ι σ δ) : Prop :=
  ∀ i, 0 ≤ (S.params i).electionMax ∧ 0 ≤ (S.params i).quorumCheckInterval

theorem contacts_run (hS : S.FullMesh) (hT : S.Punctual)
    (hr : Along S.step (fun c e => S.Enabled c e ∧ e.KeepsMembership S) S.init es)
    (hclock : Clockwise es) : ∀ i, Contacts S es i := by
  refine along_inv (fun es _ => Clockwise es → ∀ i, Contacts S es i) (fun _ i => ?_) ?_ es hr hclock
  · exact Contacts.boot (hT i).2 (show (S.init).node i = (S.params i).boot i 0 0 {} from rfl)
  · intro es e hes he hI hclock i
    obtain ⟨hsorted, hpos⟩ := hclock
    have hbefore := List.pairwise_append.mp hsorted
    have hold := hI ⟨hbefore.1, fun e' he' => hpos e' (List.mem_append_left _ he')⟩
    by_cases hi : i = e.node
    · subst hi
      have hreach := along_reach es S.init hes
      rcases step_node_self (S := S) (c := S.replay es) (e := e) with ⟨k, ha, -⟩ | ⟨d, hboot⟩
      · exact (hold e.node).call (settled_reach hS hreach)
          ((votesKept_reach (hreach.mono fun _ _ h => h.1)).2 e.node).calm he.1 he.2 ha
          (fun e' he' => hbefore.2.2 e' he' e (by simp)) (hpos e (by simp)) (hT e.node).1
      · exact Contacts.boot (hT e.node).2 (by rw [replay_concat]; exact hboot)
    · exact (hold i).other hi

/-- **A leader keeps in contact with a majority.**  Whoever leads after a tick had, no longer ago than the
interval of the quorum check and twice the election timeout, from every other member of some majority
an answer in its term, or took office since. -/
theorem quorum_in_contact (hS : S.FullMesh) (hT : S.Punctual) (htick : e.action = .call .tick)
    (hr : Along S.step (fun c e => S.Enabled c e ∧ e.KeepsMembership S) S.init (es ++ [e]))
    (hclock : Clockwise (es ++ [e])) (hl : Leads (S.replay (es ++ [e])) e.node t) :
    ∃ Q, S.Quorum Q ∧ ∀ p ∈ Q, p ≠ e.node → ∃ a,
      e.now - ((S.params e.node).quorumCheckInterval + (S.params e.node).electionMax * 2) ≤ a ∧
        Heard S (es ++ [e]) e.node t p a := by
  obtain ⟨hbefore, he⟩ := (along_concat es S.init).mp hr
  obtain ⟨hW, hI⟩ := hT e.node
  by_cases hkept : Leads (S.replay es) e.node t
  · obtain ⟨s, Q, hs, hQ, hheard⟩ := (contacts_run hS hT hr hclock e.node).majority t hl
    -- the tick leaves a check that is not due before `now`
    have hlate : e.now ≤ ((S.replay (es ++ [e])).node e.node).nextQuorumCheck := by
      have hnode : (S.replay (es ++ [e])).node e.node =
          ((S.self e).tick ((S.replay es).node e.node)).state := by
        rw [replay_concat, step_call_eq htick, Setup.after, Cluster.at_node_self]
        rfl
      have hticked : Ends (S.self e).tick ((S.replay es).node e.node)
          (fun _ => Ticked (S.self e) ((S.replay es).node e.node))
          (Ticked (S.self e) ((S.replay es).node e.node)) :=
        (tick_leader hkept.1).mono (fun _ _ h => h) fun _ h => h.elim
      rw [hnode]
      cases hticked.state with
      | kept _ _ hc =>
        rw [hc]
        split_ifs with hdue
        · exact le_add_of_nonneg_right hI
        · exact (not_le.mp hdue).le
      | lost _ _ hc =>
        rw [hc]
        exact le_add_of_nonneg_right hI
    refine ⟨Q, hQ, fun p hp hpi => ?_⟩
    obtain ⟨a, ha, hh⟩ := hheard p hp hpi
    exact ⟨a, by linarith, hh⟩
  · rw [replay_concat] at hl
    have hcard : 0 < S.servers.card := Finset.card_pos.mpr ⟨e.node, he.1.1⟩
    refine ⟨S.servers, ⟨subset_rfl, Nat.div_lt_self hcard Nat.one_lt_two⟩, fun p _ _ => ?_⟩
    exact ⟨e.now, by linarith, heard_last ⟨rfl, rfl, .inr ⟨hkept, hl⟩⟩⟩

/-- Server 0 is elected by server 1, which answers an append half a second later. -/
def answeredOnce : List (Event ℕ Unit) :=
  [callAt 1000 0 .tick, callAt 1001 1 (.handle (.vote 1 0 0 0)),
   callAt 1002 0 (.handle (.voteResp 1 1 true)),
   callAt 1003 1 (.handle (.append 1 0 0 0 [⟨1, 1, noop⟩] 0)),
   callAt 1500 0 (.handle (.appendResp 1 1 true 1 (some 0)))]

/-- The answer keeps server 0 in office at its first check; without it the server steps down. -/
theorem quorum_in_contact_once :
    let S := lab 3 false 256
    let check := callAt 1700 0 .tick
    ¬ Leads (S.replay (answeredOnce.take 4 ++ [check])) 0 1 ∧
      ∃ Q, S.Quorum Q ∧ ∀ p ∈ Q, p ≠ 0 → ∃ a, 1700 - (600 + 300 * 2) ≤ a ∧
        Heard S (answeredOnce ++ [check]) 0 1 p a := by
  intro S check
  refine ⟨by decide +kernel, ?_⟩
  have hT : S.Punctual := fun _ => ⟨show (0 : ℚ) ≤ 300 by decide, show (0 : ℚ) ≤ 600 by decide⟩
  exact quorum_in_contact (e := check) (lab_fullMesh 3 false 256) hT rfl
    (along_of_meets (fun _ _ => of_decide_eq_true) _ _ (by decide +kernel)) (by decide +kernel)
    (by decide +kernel)

end Pylog.Raft
