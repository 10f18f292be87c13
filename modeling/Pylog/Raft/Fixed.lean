import Pylog.Raft.Elections

/-!
# Pylog.Raft.Fixed — clusters whose membership does not change

Without membership calls no log and no message holds an entry a server reads as a configuration, so
every server keeps the configuration of its constructor (`fixed_step`).  Quorums are then majorities
of one set and meet, which gives election safety with pre-vote off, and with pre-vote on as long as
no stray pre-vote is counted.
-/

namespace Pylog.Raft

open Effect Transition Trace

variable {ι σ δ : Type} [LinearOrder ι] {S : Setup ι σ δ} {c c' : Cluster ι σ δ} {e : Event ι δ}
  {i j : ι} {n n' n₀ : Node ι σ δ} {h h' : History ι σ δ} {self : Self ι σ δ} {k : Call ι δ}

/-- No server reads the payload as a configuration. -/
def Setup.Ordinary (S : Setup ι σ δ) (payload : Bytes) : Prop :=
  ∀ i ∈ S.servers, (S.params i).configOf payload = none

/-- The membership of the constructor. -/
def Setup.View (S : Setup ι σ δ) (i : ι) (n : Node ι σ δ) : Prop :=
  n.config = S.servers ∧ n.oldConfig = none ∧ ∀ p, p ∈ n.peers ↔ p ∈ S.servers ∧ p ≠ i

/-- A server with the membership of its constructor and ordinary entries. -/
def Setup.Steady (S : Setup ι σ δ) (i : ι) (n : Node ι σ δ) (_ : History ι σ δ) : Prop :=
  (i ∈ S.servers → S.View i n) ∧ ∀ x ∈ n.log.entries, S.Ordinary x.payload

/-- Effects of servers that keep the membership. -/
def Setup.Settled (S : Setup ι σ δ) (_ : History ι σ δ) : ι × Out ι σ δ → Prop
  | (i, .store l) => i ∈ S.servers ∧ ∀ x ∈ l.entries, S.Ordinary x.payload
  | (i, .send _ (.append _ _ _ _ entries _)) =>
    i ∈ S.servers ∧ ∀ x ∈ entries, S.Ordinary x.payload
  | (i, .campaign n) => i ∈ S.servers ∧ S.View i n
  | (i, .lead n) => i ∈ S.servers ∧ S.View i n
  | (i, _) => i ∈ S.servers

omit [LinearOrder ι] in
theorem Setup.View.congr (hv : S.View i n) (hs : SameMembers n n') : S.View i n' := by
  obtain ⟨hp, hc, ho⟩ := hs
  unfold Setup.View
  rw [hp, hc, ho]
  exact hv

theorem ordinary_noop : S.Ordinary noop := by
  intro i _
  rfl

theorem settled_appendMsg (hi : i ∈ S.servers) (hn : ∀ x ∈ n.log.entries, S.Ordinary x.payload)
    (p : ι) : S.Settled h (i, .send p (self.appendMsg n p)) := by
  unfold Self.appendMsg
  dsimp only
  split_ifs
  · exact hi
  · exact ⟨hi, fun x hx => hn x (RaftLog.mem_entriesFrom hx)⟩

/-- Window entries in flight are ordinary. -/
theorem ordinary_of_inFlight (hc : Causal S.Settled h) {t : ℕ} {l : ι} {pi : ℕ} {pt : ℤ}
    {es : List Entry} {ci : ℕ} (hm : InFlight h i (.append t l pi pt es ci)) :
    ∀ x ∈ es, S.Ordinary x.payload := by
  obtain ⟨s, hs⟩ := hm
  obtain ⟨h₁, h₂, -, hj⟩ := hc.mem hs
  exact hj.2

/-- A small step of a call that changes no membership. -/
theorem micro_settled {p q : Node ι σ δ × History ι σ δ} (hm : Micro self n₀ k p q)
    (hi : self.id ∈ S.servers) (hcfg : ∀ x, self.configOf x = (S.params self.id).configOf x)
    (hk : k.keepsMembership S = true) (ha : Arrived p.2 self.id k)
    (hc : Causal S.Settled p.2) (hs : S.Steady self.id p.1 p.2) :
    Causal S.Settled q.2 ∧ S.Steady self.id q.1 q.2 := by
  have hv := hs.1 hi
  have hproposed : ∀ payload, Proposed n₀ k payload → S.Ordinary payload := by
    rintro payload (rfl | ⟨rfl, -⟩)
    · exact ordinary_noop
    · have hall : ∀ i ∈ S.servers, (S.params i).configOf payload = none := of_decide_eq_true hk
      exact hall
  -- a step that stores a log of ordinary entries
  have hstored : ∀ (n : Node ι σ δ) (l : RaftLog), SameMembers p.1 n → n.log = l →
      (∀ x ∈ l.entries, S.Ordinary x.payload) →
      Causal S.Settled (p.2 ++ [(self.id, .store l)]) ∧
        S.Steady self.id n (p.2 ++ [(self.id, .store l)]) := by
    intro n l hsm hl hx
    subst hl
    exact ⟨causal_concat.mpr ⟨hc, hi, hx⟩, fun _ => hv.congr hsm, hx⟩
  cases hm with
  | raise => exact ⟨causal_concat₂.mpr ⟨hc, hi, hi⟩, hs⟩
  | grant => exact ⟨causal_concat₃.mpr ⟨hc, hi, hi, hi⟩, hs⟩
  | campaign n n' h d hr h0 hel hn =>
    subst hn
    exact ⟨causal_concat₃.mpr ⟨hc, hi, hi, hi, hv⟩, hs⟩
  | win n n' h hr hq hn =>
    subst hn
    exact ⟨causal_concat.mpr ⟨hc, hi, hv⟩, hs⟩
  | sendAppend n h p hr =>
    exact ⟨causal_concat.mpr ⟨hc, settled_appendMsg hi hs.2 p⟩, hs⟩
  | append n h payload hr hp =>
    exact hstored _ _ ⟨rfl, rfl, rfl⟩ rfl (RaftLog.forall_appendEntry hs.2 (hproposed payload hp))
  | reconfig n n' h new hr hch hn =>
    -- the call would ask for a membership change
    rcases hch.2 with ⟨x, rfl, -⟩ | ⟨x, rfl, -⟩ <;> cases hk
  | adopt n n' h x servers hlt hx hcf hr hn =>
    have hx' := hs.2 x (RaftLog.mem_of_get hx) self.id hi
    rw [← hcfg, hcf] at hx'
    cases hx'
  | merge n h l pi pt es ci r hk' hr hlog hci ht hj hm =>
    subst hm
    have hent : ∀ x ∈ (n.log.merge pi pt es).log.entries, S.Ordinary x.payload :=
      RaftLog.forall_merge hs.2 (ordinary_of_inFlight hc (ha _ hk'))
    have hs' : S.Steady self.id { n with log := (n.log.merge pi pt es).log } h :=
      ⟨fun _ => hv.congr ⟨rfl, rfl, rfl⟩, hent⟩
    dsimp only
    split_ifs
    · exact ⟨causal_concat₂.mpr ⟨hc, ⟨hi, hent⟩, hi⟩, hs'⟩
    · exact ⟨causal_concat.mpr ⟨hc, hi, hent⟩, hs'⟩
  | compact n h s l hk' hs' hcm =>
    exact hstored _ _ ⟨rfl, rfl, rfl⟩ rfl fun x hx => hs.2 x (RaftLog.mem_compact hcm hx)
  | install n h l s l' machine hk' hr hlog ht ha' hm hl =>
    subst hl
    exact hstored _ _ ⟨rfl, rfl, rfl⟩ rfl fun x hx => hs.2 x (List.mem_of_mem_filter hx)
  | _ =>
    first
    | exact ⟨hc, hs⟩
    | exact ⟨causal_concat.mpr ⟨hc, hi⟩, hs⟩

/-- The same, for the cluster. -/
theorem fixed_micro (hI : Local S.Settled S.Steady (c.at self.id n h))
    (hm : Micro self n₀ k (n, h) (n', h')) (hi : self.id ∈ S.servers)
    (hcfg : ∀ x, self.configOf x = (S.params self.id).configOf x)
    (hk : k.keepsMembership S = true) (ha : Arrived h self.id k) :
    Local S.Settled S.Steady (c.at self.id n' h') := by
  have hown := hI.2 self.id
  rw [Cluster.at_node_self] at hown
  obtain ⟨hc', hs'⟩ := micro_settled hm hi hcfg hk ha hI.1 hown
  have hput := hI.put hc' hs' fun j _ hN => hN
  rwa [Cluster.at_at] at hput

theorem steady_boot (hS : S.FullMesh) {now draw : ℚ} {d : Durable ι δ}
    (hd : ∀ x ∈ d.log.entries, S.Ordinary x.payload) :
    S.Steady i ((S.params i).boot i now draw d) h := by
  obtain ⟨l, ci, ai, m, s, hb, hl, -⟩ := boot_eq (S.params i) i now draw d
  rw [hb]
  refine ⟨fun hi => ⟨?_, rfl, fun p => ?_⟩, fun x hx => hd x (hl x hx)⟩
  · ext p
    have hp := hS i hi p
    by_cases hpi : p = i
    · subst hpi
      simp [hi]
    · simp only [hpi, false_or] at hp
      simp [hpi, hp]
  · have hp := hS i hi p
    by_cases hpi : p = i
    · subst hpi
      simp
    · simp only [hpi, false_or] at hp
      simp [hpi, hp]

/-- **Without membership calls the membership stays.** -/
theorem fixed_step (hS : S.FullMesh)
    (hpre : (c.node e.node).role = .leader → (c.node e.node).preCandidate = false)
    (he : S.Enabled c e) (hk : e.KeepsMembership S) (hI : Local S.Settled S.Steady c) :
    Local S.Settled S.Steady (S.step c e) := by
  refine local_step hpre (fun i n h h' _ _ hs => hs) ?_ ?_ hI
  · intro k hmade p q hm hg hc hs
    exact micro_settled hm he.1 (fun _ => rfl) (hk k hmade)
      ((arrived_of_enabled he hmade).mono hg.isPrefix) hc hs
  · intro out hown hc hs
    refine steady_boot hS fun x hx => ?_
    rcases write_log out (c.node e.node).durable with hl | ⟨i, hl⟩
    · rw [hl] at hx
      exact hs.2 x hx
    · obtain ⟨h₁, h₂, -, hj⟩ := hc.mem (List.mem_append_right _ hl)
      exact hj.2 x hx

theorem fixed_init (hS : S.FullMesh) : Local S.Settled S.Steady S.init :=
  ⟨causal_nil, fun _ => steady_boot hS fun x hx => by cases hx⟩

theorem settled_server (hc : Causal S.Settled h) {o : Out ι σ δ} (ho : (i, o) ∈ h) :
    i ∈ S.servers := by
  obtain ⟨h₁, h₂, -, hj⟩ := hc.mem ho
  cases o with
  | store | campaign | lead => exact hj.1
  | send p m =>
    cases m with
    | append => exact hj.1
    | _ => exact hj
  | _ => exact hj

/-- A majority of the servers. -/
def Setup.Quorum (S : Setup ι σ δ) (Q : Finset ι) : Prop :=
  Q ⊆ S.servers ∧ S.servers.card / 2 < Q.card

theorem quorum_meet (Q Q' : Finset ι) (h : S.Quorum Q) (h' : S.Quorum Q') : ∃ v, v ∈ Q ∧ v ∈ Q' := by
  obtain ⟨h1, h2⟩ := h
  obtain ⟨h3, h4⟩ := h'
  obtain ⟨v, hv⟩ := Finset.inter_nonempty_of_card_lt_card_add_card h1 h3 (by omega)
  exact ⟨v, Finset.mem_inter.mp hv⟩

/-- With the membership of the constructor only majorities win. -/
theorem View.quorum (hi : i ∈ S.servers) (hv : S.View i n) {U : Finset ι}
    (hU : U ⊆ insert i n.peers.toFinset) (hw : Wins i n U) : S.Quorum U := by
  refine ⟨fun v hvU => ?_, ?_⟩
  · rcases Finset.mem_insert.mp (hU hvU) with rfl | hvp
    · exact hi
    · exact ((hv.2.2 v).mp (List.mem_toFinset.mp hvp)).1
  · rcases hw.2 with hnil | hq
    · -- a server without peers is alone
      have hone : S.servers ⊆ {i} := by
        intro p hp
        by_contra hpi
        have hmem := (hv.2.2 p).mpr ⟨hp, fun hh => hpi (Finset.mem_singleton.mpr hh)⟩
        rw [hnil] at hmem
        cases hmem
      have h1 := Finset.card_le_card hone
      have h2 := Finset.card_pos.mpr ⟨i, hw.1⟩
      rw [Finset.card_singleton] at h1
      omega
    · unfold Node.hasMajority at hq
      rw [hv.2.1, hv.1] at hq
      exact of_decide_eq_true hq

/-- Majorities of one server set meet. -/
theorem View.quorumsMeet (hi : i ∈ S.servers) (hj : j ∈ S.servers) (hv : S.View i n)
    (hv' : S.View j n') : QuorumsMeet i n j n' := by
  intro U hU W hW h1 h2
  obtain ⟨v, hvU, hvW⟩ := quorum_meet U W (View.quorum hi hv (Finset.mem_powerset.mp hU) h1)
    (View.quorum hj hv' (Finset.mem_powerset.mp hW) h2)
  exact ⟨v, Finset.mem_inter.mpr ⟨hvU, hvW⟩⟩

/-! ### Election safety -/

theorem fixed_reach (hS : S.FullMesh)
    (hr : Reach S.step (fun c e => S.Enabled c e ∧ NoStray c e ∧ e.KeepsMembership S) S.init c) :
    Local S.Settled S.Steady c := by
  refine hr.inv _ (fixed_init hS) fun s e hs hI he => ?_
  exact fixed_step hS ((electionsKept_reach hs).2 e.node).1.calm he.1 he.2.2 hI

theorem election_unique_fixed (hS : S.FullMesh)
    (hr : Reach S.step (fun c e => S.Enabled c e ∧ NoStray c e ∧ e.KeepsMembership S) S.init c)
    {t : ℕ} (hi : Led c.history i t) (hj : Led c.history j t) : i = j := by
  obtain ⟨hJ, hT⟩ := causal_and.mp (electionsKept_reach hr).1
  have hF := fixed_reach hS hr
  obtain ⟨n, hn, htn⟩ := hi
  obtain ⟨n', hn', htn'⟩ := hj
  refine elected_unique hJ (tallied_mem hT hn) (tallied_mem hT hn') (htn.trans htn'.symm)
    fun _ => ?_
  obtain ⟨h₁, h₂, -, hi, hv⟩ := hF.1.mem hn
  obtain ⟨h₃, h₄, -, hj, hv'⟩ := hF.1.mem hn'
  exact View.quorumsMeet hi hj hv hv'

/-- **Election safety with fixed membership**, as long as no stray pre-vote is counted: in every run
whose steps all meet the condition, no two nodes become LEADER in one term. -/
theorem election_safety_no_stray (hS : S.FullMesh)
    (hr : Reach S.step (fun c e => S.Enabled c e ∧ NoStray c e ∧ e.KeepsMembership S) S.init c) :
    ∀ t i j, Led c.history i t → Led c.history j t → i = j :=
  fun _ _ _ hi hj => election_unique_fixed hS hr hi hj

/-- Server 0 asks for votes of term 1, opens a new pre-vote round while still CANDIDATE, and counts
the pre-vote of server 2, which voted for server 1, with the vote of server 3. -/
def strayRun : List (Event ℕ Unit) :=
  [callAt 1000 0 .tick, callAt 1200 0 .tick, callAt 1200 1 .tick, callAt 1400 1 .tick,
   callAt 1401 3 (.handle (.vote 1 0 0 0)),
   callAt 1401 2 (.handle (.vote 1 1 0 0)), callAt 1401 4 (.handle (.vote 1 1 0 0)),
   callAt 1402 1 (.handle (.voteResp 1 2 true)), callAt 1402 1 (.handle (.voteResp 1 4 true)),
   callAt 1500 0 .tick, callAt 1501 2 (.handle (.prevote 2 0 0 0)),
   callAt 1502 0 (.handle (.prevoteResp 2 2 true)), callAt 1503 0 (.handle (.voteResp 1 3 true))]

/-- Two leaders of term 1 among five servers in the default mode. -/
theorem election_unsafe_by_stray_prevote :
    let S := lab 5 true 256
    S.FullMesh ∧ ∃ c, Reach S.step (fun c e => S.Enabled c e ∧ e.Plain ∧ e.KeepsMembership S)
      S.init c ∧ Led c.history 0 1 ∧ Led c.history 1 1 := by
  intro S
  refine ⟨lab_fullMesh _ _ _, _, reach_replay strayRun ?_, ?_⟩
  · decide +kernel
  · decide +kernel

/-- The same run before the stray pre-vote arrives. -/
theorem election_safety_no_stray_run :
    let S := lab 5 true 256
    let c := S.replay (strayRun.take 11)
    Led c.history 1 1 ∧ ∀ t i j, Led c.history i t → Led c.history j t → i = j := by
  intro S c
  refine ⟨by decide +kernel, election_safety_no_stray (lab_fullMesh 5 true 256)
    (reach_replay (strayRun.take 11) ?_)⟩
  decide +kernel

/-- **Election safety with pre-vote off.**  No two nodes lead in one term, and every member of a
candidate's vote set has saved its vote for the candidate. -/
theorem election_safety_prevote_off (hS : S.FullMesh) (hoff : S.PrevoteOff)
    (hr : Reach S.step (fun c e => S.Enabled c e ∧ e.KeepsMembership S) S.init c) :
    (∀ t i j, Led c.history i t → Led c.history j t → i = j) ∧
    ∀ i, (c.node i).role = .candidate → ∀ v ∈ (c.node i).votes,
      (v, .replace (c.node i).currentTerm (some i)) ∈ c.history := by
  have hns : Reach S.step (fun c e => S.Enabled c e ∧ NoStray c e ∧ e.KeepsMembership S)
      S.init c := hr.strengthen fun s e hs he =>
    ⟨he.1, noStray_of_prevoteOff hoff (hs.mono fun _ _ h => h.1), he.2⟩
  have hE := electionsKept_reach hns
  obtain ⟨hJ, -⟩ := causal_and.mp hE.1
  refine ⟨fun t i j hi hj => election_unique_fixed hS hns hi hj, fun i hr v hv => ?_⟩
  obtain ⟨hvoter, hp⟩ := hE.2 i
  rcases (hp hr).2 v hv with rfl | hm
  · obtain ⟨nc, hnc, hs⟩ := hvoter.ran hr
    rw [hs.1]
    exact campaign_saved hJ hnc
  · exact granted_saved hJ hm

/-- Server 0 of three is a candidate with the votes of servers 0 and 1, in a cluster where server 1
crashed before it answered. -/
theorem election_safety_prevote_off_run :
    let S := lab 5 false 256
    let c := S.replay [callAt 1000 0 .tick, ⟨1, 1001, 0, .crash (.handle (.vote 1 0 0 0)) 2⟩,
      callAt 1002 1 (.handle (.vote 1 0 0 0)), callAt 1003 0 (.handle (.voteResp 1 1 true))]
    ((c.node 0).role = .candidate ∧ 1 ∈ (c.node 0).votes) ∧
      (∀ t i j, Led c.history i t → Led c.history j t → i = j) ∧
      ∀ i, (c.node i).role = .candidate → ∀ v ∈ (c.node i).votes,
        (v, .replace (c.node i).currentTerm (some i)) ∈ c.history := by
  intro S c
  refine ⟨by decide +kernel, election_safety_prevote_off (lab_fullMesh 5 false 256)
    (lab_prevoteOff 5 256) (reach_replay _ ?_)⟩
  decide +kernel

end Pylog.Raft
