import Pylog.Raft.Apply
import Pylog.Raft.Fixed

/-!
# Pylog.Raft.Prevote — what opens a real election

`listen` records the granted pre-votes a node received since its pre-vote round started.  The votes a
node counts in a round are among them, and only their majority opens an election, as long as the
timer does not end a round and no late vote of the last election is counted in one
(`prevote_gates_elections`).
-/

namespace Pylog.Raft

open Effect Effect.Handler Transition Trace

variable {ι σ δ : Type} [LinearOrder ι]

/-! ### What a node hears in a pre-vote round -/

namespace Self

variable (self : Self ι σ δ) (n : Node ι σ δ)

/-- The tick starts a pre-vote round. -/
def opensRound : Bool :=
  decide (n.role ≠ .leader ∧ n.electionDeadline ≤ self.now ∧ self.usePrevote = true ∧
    n.preCandidate = false)

/-- The granted pre-votes received since the round started, each with its term, after a call. -/
def listen (heard : Finset (ℕ × ι)) : Call ι δ → Finset (ℕ × ι)
  | .tick => if self.opensRound n then ∅ else heard
  | .handle (.prevoteResp term sender true) => insert (term, sender) heard
  | _ => heard

/-- The ways into an election without a pre-vote majority: the timer runs out in a round, or a vote
of the last election is counted in one. -/
def bypasses : Call ι δ → Bool
  | .tick =>
    decide (n.role ≠ .leader ∧ n.electionDeadline ≤ self.now ∧ n.preCandidate = true) &&
      !n.hasMajority n.votes
  | .handle (.voteResp term sender true) =>
    decide (n.role = .candidate ∧ term = n.currentTerm ∧ n.preCandidate = true ∧ sender ∉ n.votes) &&
      !n.hasMajority (insert sender n.votes)
  | _ => false

end Self

/-- In a round for the next term, the votes are the node's own and granted pre-votes it heard. -/
def Gathers (i : ι) (heard : Finset (ℕ × ι)) (n : Node ι σ δ) : Prop :=
  n.preCandidate = true → n.prevoteTerm = n.currentTerm + 1 ∧
    ∀ v ∈ n.votes, v = i ∨ (n.currentTerm + 1, v) ∈ heard

/-! ### Code after which no round is open -/

section Closed

variable {self : Self ι σ δ} {n : Node ι σ δ}

/-- The code opens no round. -/
abbrev Closes {α : Type} (x : Act ι σ δ α) : Prop := Keeps (fun n => n.preCandidate = false) x

omit [LinearOrder ι] in
theorem sendAllAppends_closes : Closes self.sendAllAppends :=
  keeps_read fun n => keeps_each (fun _ => keeps_read fun _ => keeps_emit _) n.peers

theorem applyCommitted_closes : Closes self.applyCommitted := by
  intro n hn
  refine applyCommitted_steps.keeps (fun n => n.preCandidate = false) (fun n₁ n₂ hs h => ?_) hn
  cases hs <;> exact h

theorem advanceCommit_closes : Closes self.advanceCommit := by
  refine keeps_read fun n => ?_
  cases n.findCommit self.id with
  | none => exact keeps_pure ()
  | some candidate =>
    refine keeps_bind (keeps_read fun _ => ?_) fun _ => applyCommitted_closes
    exact keeps_bind (keeps_emit _) fun _ => keeps_update fun _ h => h

theorem propose_closes (payload : Bytes) : Closes (self.propose payload) := by
  refine keeps_read fun n => ?_
  split_ifs
  · exact keeps_pure _
  · refine keeps_bind (keeps_read fun _ => ?_) fun _ => keeps_bind advanceCommit_closes fun _ =>
      keeps_bind sendAllAppends_closes fun _ => keeps_pure _
    exact keeps_bind (keeps_update fun _ h => h) fun _ => keeps_emit _

/-- `_become_leader` ends a round. -/
theorem becomeLeader_closed (n : Node ι σ δ) : (self.becomeLeader n).state.preCandidate = false := by
  let rest : Unit → Act ι σ δ Unit := fun _ => do
    let n ← read
    when (n.machine.isSome = true) (do let _ ← self.propose noop)
    self.sendAllAppends
    update fun n => { n with
      nextHeartbeat := self.now + self.heartbeatInterval
      nextQuorumCheck := self.now + self.quorumCheckInterval }
  have hrest : Closes (rest ()) := by
    refine keeps_read fun n => keeps_bind (keeps_when ?_) fun _ => ?_
    · exact keeps_bind (propose_closes noop) fun _ => keeps_pure _
    · exact keeps_bind sendAllAppends_closes fun _ => keeps_update fun _ h => h
  exact hrest (self.takeOffice n).state rfl

theorem startElection_closes : Closes self.startElection := by
  refine keeps_bind ?_ fun _ => keeps_read fun n => ?_
  · exact fun n hn => hn
  · refine keeps_bind (keeps_each (fun _ => keeps_emit _) _) fun _ => keeps_when ?_
    exact fun n _ => becomeLeader_closed n

end Closed

/-! ### A call keeps the votes of a round within what was heard -/

section Calls

variable {self : Self ι σ δ} {n n₀ : Node ι σ δ} {k : Call ι δ} {heard : Finset (ℕ × ι)}

omit [LinearOrder ι] in
theorem gathers_closed {i : ι} (h : n.preCandidate = false) : Gathers i heard n := by
  intro hp
  rw [h] at hp
  cases hp

/-- A small step of a call that reaches no election and counts no vote. -/
theorem micro_gathers {p q : Node ι σ δ × History ι σ δ} (hm : Micro self n₀ k p q)
    (hel : self.elects n₀ k = false) (hvote : ∀ t v, k ≠ .handle (.voteResp t v true))
    (hheard : ∀ t v, k = .handle (.prevoteResp t v true) → (t, v) ∈ heard)
    (h : Gathers self.id heard p.1) : Gathers self.id heard q.1 := by
  cases hm with
  | retreat | raise | clearPre => exact gathers_closed rfl
  | win n n' h hr hq hn =>
    subst hn
    exact gathers_closed rfl
  | prevote n h hu hp hr => exact fun _ => ⟨rfl, fun v hv => .inl (Finset.mem_singleton.mp hv)⟩
  | campaign n n' h d hr h0 hk hn =>
    rw [hel] at hk
    cases hk
  | countVote n h v hk hr => exact absurd hk (hvote _ v)
  | countPrevote n h' v hk h0 hp hq =>
    intro hp'
    obtain ⟨hterm, hvotes⟩ := h hp'
    refine ⟨hterm, fun w hw => ?_⟩
    rcases Finset.mem_insert.mp hw with rfl | hw
    · exact .inr (hterm ▸ hheard _ w hk)
    · exact hvotes w hw
  | reconfig n n' h' new hr hc hn =>
    subst hn
    exact h
  | adopt n n' h' x servers hlt hx hcf hr hn =>
    subst hn
    exact h
  | _ => exact h

/-- A call that reaches an election from a round ends the round. -/
theorem elects_closed (hel : self.elects n k = true) (hk : ∀ t, k ≠ .handle (.timeoutNow t)) :
    (self.call k n).state.preCandidate = false := by
  unfold Self.elects at hel
  split at hel
  · obtain ⟨hr, hd, hp⟩ := of_decide_eq_true hel
    show (self.tick n).state.preCandidate = false
    unfold Self.tick
    rw [read_bind, if_neg hr, when, if_pos hd]
    unfold Self.startPrevoteOrElection
    rw [read_bind, if_neg hp, update_bind]
    exact startElection_closes _ rfl
  · exact absurd rfl (hk _)
  · rename_i term sender granted
    rw [Bool.and_eq_true] at hel
    obtain ⟨hp, hmaj⟩ := hel
    have hp := of_decide_eq_true hp
    show (self.onPrevoteResp term sender granted n).state.preCandidate = false
    unfold Self.onPrevoteResp
    rw [read_bind, if_neg (by simp [hp])]
    have hcount : when (granted = true) (update fun n : Node ι σ δ =>
        { n with votes := insert sender n.votes }) n =
        (⟨{ n with votes := if granted then insert sender n.votes else n.votes }, [], .ok ()⟩ :
          Outcome _ (ι × Out ι σ δ) Exn _) := by
      cases granted <;> rfl
    have hmaj' : Node.hasMajority { n with votes := if granted then insert sender n.votes else n.votes }
        (if granted then insert sender n.votes else n.votes) = true := hmaj
    rw [bind_eq hcount]
    dsimp only
    rw [read_bind, if_pos hmaj', update_bind]
    exact startElection_closes _ rfl
  · cases hel

/-- A granted vote, unless it is one of the last election counted in a round. -/
theorem voteResp_gathers {t : ℕ} {v : ι} (h : Gathers self.id heard n)
    (hk : self.bypasses n (.handle (.voteResp t v true)) = false) :
    Gathers self.id heard (self.onVoteResp t v true n).state := by
  unfold Self.onVoteResp
  rw [read_bind]
  by_cases hr : n.role ≠ .candidate ∨ t ≠ n.currentTerm
  · rw [if_pos hr]
    exact h
  · rw [if_neg hr, when, if_pos rfl, update_bind, read_bind]
    rw [not_or, not_not, not_not] at hr
    by_cases hmaj : n.hasMajority (insert v n.votes) = true
    · rw [when, if_pos ⟨hr.1, hmaj⟩]
      exact gathers_closed (becomeLeader_closed _)
    · rw [when, if_neg fun hc => hmaj hc.2]
      intro hp
      have hp' : n.preCandidate = true := hp
      have hmem : v ∈ n.votes := by
        by_contra hv
        simp [Self.bypasses, hr, hp', hv, Bool.not_eq_true _ ▸ hmaj] at hk
      obtain ⟨hterm, hvotes⟩ := h hp'
      refine ⟨hterm, fun w hw => hvotes w ?_⟩
      exact Finset.insert_eq_self.mpr hmem ▸ hw

/-- **A call keeps the votes of a round within what was heard.** -/
theorem call_gathers (self : Self ι σ δ) (hpre : n.role = .leader → n.preCandidate = false) (h : Gathers self.id heard n)
    (hk : self.bypasses n k = false) (hno : ∀ t, k ≠ .handle (.timeoutNow t)) :
    Gathers self.id (self.listen n heard k) (self.call k n).state := by
  by_cases hel : self.elects n k = true
  · exact gathers_closed (elects_closed hel hno)
  by_cases hvote : ∃ t v, k = .handle (.voteResp t v true)
  · obtain ⟨t, v, rfl⟩ := hvote
    exact voteResp_gathers h hk
  have hstart : Gathers self.id (self.listen n heard k) n := by
    intro hp
    obtain ⟨hterm, hvotes⟩ := h hp
    refine ⟨hterm, fun v hv => (hvotes v hv).imp_right fun hmem => ?_⟩
    unfold Self.listen
    split
    · have hopen : self.opensRound n = false := by simp [Self.opensRound, hp]
      rw [hopen]
      exact hmem
    · exact Finset.mem_insert_of_mem hmem
    · exact hmem
  have hsteps : Does self n k (self.call k) n [] _ := call_follows hpre
  refine hsteps.inv (fun n' _ => Gathers self.id (self.listen n heard k) n') (fun p q hm hp => ?_) hstart
  refine micro_gathers hm (Bool.not_eq_true _ ▸ hel) (fun t v hk => hvote ⟨t, v, hk⟩) ?_ hp
  rintro t v rfl
  exact Finset.mem_insert_self _ _

end Calls

/-! ### Campaigns and letters -/

section Marks

variable {self : Self ι σ δ} {n n₀ : Node ι σ δ} {k : Call ι δ}

/-- A campaign is for the next term, in a call that reaches `_start_election`. -/
def Stands (self : Self ι σ δ) (n₀ : Node ι σ δ) (k : Call ι δ) (_ : History ι σ δ) :
    ι × Out ι σ δ → Prop
  | (_, .campaign n) => self.elects n₀ k = true ∧ n.currentTerm = n₀.currentTerm + 1
  | _ => True

theorem micro_stands {p q : Node ι σ δ × History ι σ δ} (hm : Micro self n₀ k p q)
    (hc : Causal (Stands self n₀ k) p.2) : Causal (Stands self n₀ k) q.2 := by
  cases hm with
  | raise | reconfig => exact causal_concat₂.mpr ⟨hc, trivial, trivial⟩
  | grant => exact causal_concat₃.mpr ⟨hc, trivial, trivial, trivial⟩
  | campaign n n' h d hr h0 hk hn =>
    refine causal_concat₃.mpr ⟨hc, trivial, trivial, hk, ?_⟩
    rw [hn, ← h0.1]
  | merge n h l pi pt es ci r =>
    dsimp only
    split_ifs
    · exact causal_concat₂.mpr ⟨hc, trivial, trivial⟩
    · exact causal_concat.mpr ⟨hc, trivial⟩
  | _ =>
    first
    | exact hc
    | exact causal_concat.mpr ⟨hc, trivial⟩

theorem campaign_stands (self : Self ι σ δ) (hpre : n.role = .leader → n.preCandidate = false) {i : ι} {n' : Node ι σ δ}
    (hn : (i, .campaign n') ∈ (self.call k n).out) :
    self.elects n k = true ∧ n'.currentTerm = n.currentTerm + 1 := by
  have hsteps : Does self n k (self.call k) n [] _ := call_follows hpre
  have hc := hsteps.inv (fun _ h => Causal (Stands self n k) h) (fun p q hm => micro_stands hm)
    causal_nil
  obtain ⟨h₁, h₂, -, hj⟩ := hc.mem hn
  exact hj

/-- A pre-vote answer names its sender, and nobody is told to time out. -/
def Signed (_ : History ι σ δ) : ι × Out ι σ δ → Prop
  | (i, .send _ (.prevoteResp _ sender _)) => sender = i
  | (_, .send _ (.timeoutNow _)) => False
  | _ => True

theorem micro_signed {p q : Node ι σ δ × History ι σ δ} (hm : Micro self n₀ k p q)
    (hk : ∀ x, k ≠ .transferLeadership x) (hc : Causal Signed p.2) : Causal Signed q.2 := by
  cases hm with
  | raise | reconfig => exact causal_concat₂.mpr ⟨hc, trivial, trivial⟩
  | grant | campaign => exact causal_concat₃.mpr ⟨hc, trivial, trivial, trivial⟩
  | sendAppend n h p hr =>
    refine causal_concat.mpr ⟨hc, ?_⟩
    unfold Self.appendMsg
    dsimp only
    split_ifs <;> trivial
  | sendTimeoutNow n h p hr hp hk' => exact absurd hk' (hk p)
  | prevoteReply => exact causal_concat.mpr ⟨hc, rfl⟩
  | merge n h l pi pt es ci r =>
    dsimp only
    split_ifs
    · exact causal_concat₂.mpr ⟨hc, trivial, trivial⟩
    · exact causal_concat.mpr ⟨hc, trivial⟩
  | _ =>
    first
    | exact hc
    | exact causal_concat.mpr ⟨hc, trivial⟩

end Marks

/-! ### Runs -/

section Runs

variable {S : Setup ι σ δ} {c : Cluster ι σ δ} {e : Event ι δ} {heard : ι → Finset (ℕ × ι)}

/-- The cluster with what each node heard in its pre-vote round. -/
abbrev Overheard (ι σ δ : Type) := Cluster ι σ δ × (ι → Finset (ℕ × ι))

/-- What the node of the event has heard after it. -/
def Setup.hears (S : Setup ι σ δ) (s : Overheard ι σ δ) (e : Event ι δ) : Finset (ℕ × ι) :=
  match e.action.made with
  | some k => (S.self e).listen (s.1.node e.node) (s.2 e.node) k
  | none => s.2 e.node

def Setup.overhear (S : Setup ι σ δ) (s : Overheard ι σ δ) (e : Event ι δ) : Overheard ι σ δ :=
  (S.step s.1 e, Function.update s.2 e.node (S.hears s e))

/-- The servers that granted a pre-vote of the term. -/
def granters (heard : Finset (ℕ × ι)) (term : ℕ) : Finset ι :=
  (heard.filter fun g => g.1 = term).image Prod.snd

/-- The effects hold a campaign of `i` for term `t`. -/
def Campaigned (h : History ι σ δ) (i : ι) (t : ℕ) : Prop :=
  ∃ n, (i, .campaign n) ∈ h ∧ n.currentTerm = t

instance (h : History ι σ δ) (i : ι) (t : ℕ) : Decidable (Campaigned h i t) :=
  decidable_of_iff (h.any fun o => match o with
    | (j, .campaign n) => decide (j = i ∧ n.currentTerm = t)
    | _ => false) <| by
    rw [List.any_eq_true]
    constructor
    · rintro ⟨⟨j, o⟩, ho, hm⟩
      cases o with
      | campaign n =>
        obtain ⟨rfl, rfl⟩ := of_decide_eq_true hm
        exact ⟨n, ho, rfl⟩
      | _ => cases hm
    · rintro ⟨n, hn, rfl⟩
      exact ⟨_, hn, decide_eq_true ⟨rfl, rfl⟩⟩

/-- The call is not `transfer_leadership`. -/
def Call.noTransfer : Call ι δ → Bool
  | .transferLeadership _ => false
  | _ => true

/-- The steps of the runs: no membership change and no transfer of leadership. -/
def Setup.Peaceful (S : Setup ι σ δ) (c : Cluster ι σ δ) (e : Event ι δ) : Prop :=
  S.Enabled c e ∧ e.KeepsMembership S ∧ ∀ k ∈ e.action.made, k.noTransfer = true

/-- The event does not bypass the pre-vote. -/
def Setup.Gated (S : Setup ι σ δ) (c : Cluster ι σ δ) (e : Event ι δ) : Prop :=
  ∀ k ∈ e.action.made, (S.self e).bypasses (c.node e.node) k = false

instance [DecidableEq δ] : Decidable (S.Peaceful c e) :=
  inferInstanceAs (Decidable (_ ∧ _ ∧ ∀ k ∈ e.action.made, _))

instance : Decidable (S.Gated c e) := inferInstanceAs (Decidable (∀ k ∈ e.action.made, _))

theorem signed_reach (hr : Reach S.step S.Peaceful S.init c) : Causal Signed c.history := by
  have key : Local Signed (fun _ _ _ => True) c := by
    refine hr.inv _ ⟨causal_nil, fun _ => trivial⟩ fun c e hs hI he => ?_
    refine local_step ((votesKept_reach (hs.mono fun _ _ h => h.1)).2 e.node).calm
      (fun _ _ _ _ _ _ h => h) ?_ (fun _ _ _ _ => trivial) hI
    refine fun k hmade p q hm _ hc _ => ⟨micro_signed hm ?_ hc, trivial⟩
    rintro x rfl
    cases he.2.2 _ hmade
  exact key.1

omit [LinearOrder ι] in
/-- No `timeout_now` is handled. -/
theorem not_timeoutNow (hc : Causal Signed c.history) (he : S.Enabled c e) {k : Call ι δ}
    (hk : k ∈ e.action.made) (t : ℕ) : k ≠ .handle (.timeoutNow t) := by
  rintro rfl
  obtain ⟨j, hj⟩ := arrived_of_enabled he hk _ rfl
  obtain ⟨h₁, h₂, -, hsigned⟩ := hc.mem hj
  exact hsigned

/-- What a node hears comes from servers. -/
theorem heard_server (hc : Causal Signed c.history) (hf : Causal S.Settled c.history)
    (he : S.Enabled c e) {t : ℕ} {v : ι} {granted : Bool}
    (hk : .handle (.prevoteResp t v granted) ∈ e.action.made) : v ∈ S.servers := by
  obtain ⟨j, hj⟩ := arrived_of_enabled he hk _ rfl
  obtain ⟨h₁, h₂, -, hsigned⟩ := hc.mem hj
  have hv : v = j := hsigned
  rw [hv]
  exact settled_server hf hj

theorem fixed_peaceful (hS : S.FullMesh) (hr : Reach S.step S.Peaceful S.init c) :
    Local S.Settled S.Steady c := by
  refine hr.inv _ (fixed_init hS) fun c e hs hI he => ?_
  exact fixed_step hS ((votesKept_reach (hs.mono fun _ _ h => h.1)).2 e.node).calm he.1 he.2.1 hI

/-- The rounds of all nodes, and the servers they heard. -/
def Setup.Polling (S : Setup ι σ δ) (s : Overheard ι σ δ) : Prop :=
  ∀ i, Gathers i (s.2 i) (s.1.node i) ∧ ∀ g ∈ s.2 i, g.2 ∈ S.servers

theorem boot_gathers (P : Params ι σ δ) (i : ι) (now draw : ℚ) (d : Durable ι δ)
    (heard : Finset (ℕ × ι)) : Gathers i heard (P.boot i now draw d) := by
  obtain ⟨l, ci, ai, m, s, hb, -⟩ := boot_eq P i now draw d
  rw [hb]
  exact gathers_closed rfl

/-- What is heard by an event comes from servers. -/
theorem hears_servers (hc : Causal Signed c.history) (hf : Causal S.Settled c.history)
    (he : S.Enabled c e) (h : ∀ g ∈ heard e.node, g.2 ∈ S.servers) :
    ∀ g ∈ S.hears (c, heard) e, g.2 ∈ S.servers := by
  intro g hg
  unfold Setup.hears at hg
  cases hmade : e.action.made with
  | none =>
    rw [hmade] at hg
    exact h g hg
  | some k =>
    rw [hmade] at hg
    dsimp only at hg
    unfold Self.listen at hg
    split at hg
    · split_ifs at hg
      · cases hg
      · exact h g hg
    · rcases Finset.mem_insert.mp hg with rfl | hg
      · exact heard_server hc hf he hmade
      · exact h g hg
    · exact h g hg

theorem polling_reach (hS : S.FullMesh)
    (hr : Reach S.overhear (fun s e => S.Peaceful s.1 e ∧ S.Gated s.1 e) (S.init, fun _ => ∅) (c, heard)) :
    S.Polling (c, heard) := by
  refine hr.inv S.Polling (fun i => ⟨boot_gathers _ _ _ _ _ _, fun g hg => by cases hg⟩) ?_
  rintro ⟨c, heard⟩ e hs hI ⟨he, hgate⟩ i
  have hcluster : Reach S.step S.Peaceful S.init c :=
    hs.map Prod.fst (fun _ _ => rfl) fun _ _ h => h.1
  have hsigned := signed_reach hcluster
  by_cases hi : i = e.node
  · subst hi
    have hstate : (S.overhear (c, heard) e).2 e.node = S.hears (c, heard) e := Function.update_self ..
    rw [hstate]
    refine ⟨?_, hears_servers hsigned (fixed_peaceful hS hcluster).1 he.1 (hI e.node).2⟩
    show Gathers _ _ ((S.step c e).node e.node)
    rcases step_node_self (S := S) (c := c) (e := e) with ⟨k, ha, hnode⟩ | ⟨d, hnode⟩
    · have hmade := made_of_call ha
      have hhears : S.hears (c, heard) e = (S.self e).listen (c.node e.node) (heard e.node) k := by
        unfold Setup.hears
        rw [Option.mem_def.mp hmade]
      rw [hnode, hhears]
      exact call_gathers (S.self e)
        ((votesKept_reach (hcluster.mono fun _ _ h => h.1)).2 e.node).calm (hI e.node).1
        (hgate k hmade) (not_timeoutNow hsigned he.1 hmade)
    · rw [hnode]
      exact boot_gathers _ _ _ _ _ _
  · have hheard : (S.overhear (c, heard) e).2 i = heard i := Function.update_of_ne hi _ _
    have hnode : (S.overhear (c, heard) e).1.node i = c.node i := step_node_of_ne hi
    rw [hheard, hnode]
    exact hI i

/-- A majority of votes that were heard is a quorum of granters. -/
theorem quorum_of_heard {n : Node ι σ δ} {i : ι} {t : ℕ} {heard : Finset (ℕ × ι)} {U : Finset ι}
    (hi : i ∈ S.servers) (hservers : ∀ g ∈ heard, g.2 ∈ S.servers) (hconfig : n.config = S.servers)
    (hold : n.oldConfig = none) (hmaj : n.hasMajority U = true)
    (hU : ∀ v ∈ U, v = i ∨ (t, v) ∈ heard) : S.Quorum (insert i (granters heard t)) := by
  refine ⟨fun v hv => ?_, ?_⟩
  · rcases Finset.mem_insert.mp hv with rfl | hv
    · exact hi
    · obtain ⟨g, hg, rfl⟩ := Finset.mem_image.mp hv
      exact hservers g (Finset.mem_filter.mp hg).1
  · have hsub : U ⊆ insert i (granters heard t) := by
      intro v hv
      rcases hU v hv with rfl | hmem
      · exact Finset.mem_insert_self _ _
      · refine Finset.mem_insert_of_mem (Finset.mem_image.mpr ⟨(t, v), ?_, rfl⟩)
        exact Finset.mem_filter.mpr ⟨hmem, rfl⟩
    have hcard := Finset.card_le_card hsub
    unfold Node.hasMajority at hmaj
    rw [hold, hconfig] at hmaj
    have hlt := of_decide_eq_true hmaj
    omega

/-- **The pre-vote gates every election**: with pre-vote on and fixed membership, in every run without
transfers whose steps bypass nothing, a node that raises its term in `_start_election` has heard, in
its round and for that term, granted pre-votes of servers that are a majority with it. -/
theorem prevote_gates_elections (hS : S.FullMesh) (hon : ∀ i ∈ S.servers, (S.params i).usePrevote = true)
    (hr : Reach S.overhear (fun s e => S.Peaceful s.1 e ∧ S.Gated s.1 e) (S.init, fun _ => ∅) (c, heard))
    (he : S.Peaceful c e) (hgate : S.Gated c e) {k : Call ι δ} (hk : k ∈ e.action.made)
    {t : ℕ} (hn : Campaigned (S.outcome c e k).out e.node t) :
    t = (c.node e.node).currentTerm + 1 ∧
      S.Quorum (insert e.node (granters (S.hears (c, heard) e) t)) := by
  obtain ⟨n, hn, rfl⟩ := hn
  have hcluster : Reach S.step S.Peaceful S.init c :=
    hr.map Prod.fst (fun _ _ => rfl) fun _ _ h => h.1
  have hcalm := ((votesKept_reach (hcluster.mono fun _ _ h => h.1)).2 e.node).calm
  have hsigned := signed_reach hcluster
  have hfixed := fixed_peaceful hS hcluster
  obtain ⟨hgathers, hmembers⟩ := polling_reach hS hr e.node
  obtain ⟨helects, hterm⟩ := campaign_stands (S.self e) hcalm hn
  have hhears : S.hears (c, heard) e = (S.self e).listen (c.node e.node) (heard e.node) k := by
    unfold Setup.hears
    rw [Option.mem_def.mp hk]
  have hservers := hears_servers hsigned hfixed.1 he.1 hmembers
  obtain ⟨hconfig, hold, -⟩ := (hfixed.2 e.node).1 he.1.1
  have hquorum {U : Finset ι} (hmaj : (c.node e.node).hasMajority U = true) :=
    quorum_of_heard (t := n.currentTerm) he.1.1 hservers hconfig hold hmaj
  refine ⟨hterm, ?_⟩
  unfold Self.elects at helects
  split at helects
  · -- the timer: only when the votes are a majority already
    obtain ⟨hrole, hdeadline, hround⟩ := of_decide_eq_true helects
    have hpre : (c.node e.node).preCandidate = true := by
      by_contra hp
      exact hround ⟨hon _ he.1.1, Bool.not_eq_true _ ▸ hp⟩
    have hmaj : (c.node e.node).hasMajority (c.node e.node).votes = true := by
      have hb := hgate _ hk
      unfold Self.bypasses at hb
      dsimp only at hb
      rw [decide_eq_true ⟨hrole, hdeadline, hpre⟩] at hb
      simpa using hb
    refine hquorum hmaj fun v hv => ((hgathers hpre).2 v hv).imp_right fun hmem => ?_
    have hopen : (S.self e).opensRound (c.node e.node) = false := by simp [Self.opensRound, hpre]
    rw [hhears, hterm]
    simpa [Self.listen, hopen] using hmem
  · exact absurd rfl (not_timeoutNow hsigned he.1 hk _)
  · rename_i term sender granted
    rw [Bool.and_eq_true] at helects
    obtain ⟨hpre, rfl⟩ := of_decide_eq_true helects.1
    obtain ⟨hnext, hvotes⟩ := hgathers hpre
    refine hquorum helects.2 fun v hv => ?_
    rw [hhears, hterm]
    cases granted with
    | true =>
      rcases Finset.mem_insert.mp hv with rfl | hv
      · exact .inr (hnext ▸ Finset.mem_insert_self _ _)
      · exact (hvotes v hv).imp_right fun hmem => Finset.mem_insert_of_mem hmem
    | false => exact hvotes v hv
  · cases helects

end Runs

/-- Server 0 of three opens a round, and server 1 grants its pre-vote. -/
def granting : List (Event ℕ Unit) :=
  [callAt 1000 0 .tick, callAt 1001 1 (.handle (.prevote 1 0 0 0))]

theorem prevote_gates_elections_granted :
    let S := lab 3 true 256
    let s := granting.foldl S.overhear (S.init, fun _ => ∅)
    let e : Event ℕ Unit := callAt 1002 0 (.handle (.prevoteResp 1 1 true))
    Campaigned (S.outcome s.1 e (.handle (.prevoteResp 1 1 true))).out 0 1 ∧
      S.Quorum (insert 0 (granters (S.hears s e) 1)) := by
  intro S s e
  have hcampaign : Campaigned (S.outcome s.1 e (.handle (.prevoteResp 1 1 true))).out 0 1 := by
    decide +kernel
  have hr : Reach S.overhear (fun s e => S.Peaceful s.1 e ∧ S.Gated s.1 e) (S.init, fun _ => ∅) s :=
    reach_of_meets (fun _ _ h => of_decide_eq_true h) granting _ (by decide +kernel)
  refine ⟨hcampaign, (prevote_gates_elections (lab_fullMesh 3 true 256) (fun _ _ => rfl) hr ?_ ?_ rfl
    hcampaign).2⟩
  · decide +kernel
  · decide +kernel

/-- Server 0 hears nobody; its timer runs out twice and it raises its term. -/
theorem prevote_bypassed_by_timer :
    let S := lab 3 true 256
    let s := S.overhear (S.init, fun _ => ∅) (callAt 1000 0 .tick)
    let e : Event ℕ Unit := callAt 1400 0 .tick
    Reach S.overhear (fun s e => S.Peaceful s.1 e) (S.init, fun _ => ∅) s ∧ S.Peaceful s.1 e ∧
      Campaigned (S.outcome s.1 e .tick).out 0 1 ∧
      ¬S.Quorum (insert 0 (granters (S.hears s e) 1)) := by
  intro S s e
  refine ⟨.step .refl ?_, ?_, ?_, ?_⟩
  · decide +kernel
  · decide +kernel
  · decide +kernel
  · unfold Setup.Quorum
    decide +kernel

end Pylog.Raft
