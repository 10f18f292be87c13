import Mathlib.Data.Finset.Powerset
import Pylog.Raft.Votes

/-!
# Pylog.Raft.Elections — who is in a vote set, and who can win (raft.py:221–229, 292–334, 406–458)

`Polled`: every member of a candidate's vote set has granted it a vote of its term.  The pre-vote
round adds to the same set, so this needs a condition: no stray pre-vote, that is, no granted
pre-vote that a CANDIDATE counts towards its real election (`Node.strays`).  From it, two winners of
one term are one node wherever the quorums of their campaigns meet (`elected_unique`).
-/

namespace Pylog.Raft

open Effect Transition Trace

variable {ι σ δ : Type} [LinearOrder ι] {S : Setup ι σ δ} {c c' : Cluster ι σ δ} {e : Event ι δ}
  {i j : ι} {n n' n₀ : Node ι σ δ} {h h' : History ι σ δ} {self : Self ι σ δ} {k : Call ι δ}

/-! ### Vote sets -/

/-- The node counts itself and servers that sent it a vote of its term. -/
def Polled (h : History ι σ δ) (i : ι) (n : Node ι σ δ) : Prop :=
  i ∈ n.votes ∧ ∀ v ∈ n.votes, v = i ∨ (v, .send i (.voteResp n.currentTerm v true)) ∈ h

omit [LinearOrder ι] in
theorem Polled.mono (hp : Polled h i n) (hh : h <+: h') : Polled h' i n :=
  ⟨hp.1, fun v hv => (hp.2 v hv).imp_right fun hm => hh.subset hm⟩

/-- The node won a campaign with these votes. -/
def Elected (h : History ι σ δ) (i : ι) (n : Node ι σ δ) : Prop :=
  (∃ nc, (i, .campaign nc) ∈ h ∧ SameView nc n) ∧ Polled h i n ∧
    (n.peers = [] ∨ n.hasMajority n.votes = true)

theorem Elected.mono (hw : Elected h i n) (hh : h <+: h') : Elected h' i n := by
  obtain ⟨⟨nc, hm, hs⟩, hp, hq⟩ := hw
  exact ⟨⟨nc, hh.subset hm, hs⟩, hp.mono hh, hq⟩

/-- Every node that takes office was elected. -/
def Tallied (h : History ι σ δ) : ι × Out ι σ δ → Prop
  | (i, .lead n) => Elected h i n
  | _ => True

theorem tallied_mem (hc : Causal Tallied h) (hm : (i, .lead n) ∈ h) : Elected h i n := by
  obtain ⟨h₁, h₂, rfl, hj⟩ := hc.mem hm
  exact Elected.mono hj (List.prefix_append _ _)

/-- Node `i` became LEADER in term `t`. -/
def Led (h : History ι σ δ) (i : ι) (t : ℕ) : Prop := ∃ n, (i, .lead n) ∈ h ∧ n.currentTerm = t

instance (h : History ι σ δ) (i : ι) (t : ℕ) : Decidable (Led h i t) :=
  decidable_of_iff (h.any fun o => match o.2 with
    | .lead n => decide (o.1 = i ∧ n.currentTerm = t)
    | _ => false) <| by
    rw [List.any_eq_true]
    constructor
    · rintro ⟨⟨j, o⟩, ho, hm⟩
      cases o with
      | lead n =>
        obtain ⟨rfl, rfl⟩ := of_decide_eq_true hm
        exact ⟨n, ho, rfl⟩
      | _ => cases hm
    · rintro ⟨n, hn, rfl⟩
      exact ⟨_, hn, decide_eq_true ⟨rfl, rfl⟩⟩

/-- A granted pre-vote that the CANDIDATE counts towards its election without a majority: the
branch of `_on_prevote_resp` that mixes the two rounds. -/
def Node.strays (n : Node ι σ δ) : Call ι δ → Bool
  | .handle (.prevoteResp term sender true) =>
    decide (n.role = .candidate ∧ n.preCandidate = true ∧ term = n.prevoteTerm ∧ sender ∉ n.votes) &&
      !n.hasMajority (insert sender n.votes)
  | _ => false

/-- The sender of a granted vote in flight is the server it names. -/
theorem granted_sender (hc : Causal Justified h) {t : ℕ} {v : ι}
    (hm : InFlight h i (.voteResp t v true)) : (v, .send i (.voteResp t v true)) ∈ h := by
  obtain ⟨s, hs⟩ := hm
  obtain ⟨h₁, h₂, -, hjust⟩ := hc.mem hs
  obtain rfl : v = s := hjust.1
  exact hs

/-- A small step without a stray pre-vote keeps the vote sets. -/
theorem micro_polled {p q : Node ι σ δ × History ι σ δ} (hm : Micro self n₀ k p q)
    (ha : Arrived p.2 self.id k) (hns : n₀.strays k = false) (hc : Causal Justified p.2)
    (hv : Voter self.id p.1 p.2) (ht : Causal Tallied p.2)
    (hp : p.1.role = .candidate → Polled p.2 self.id p.1) :
    Causal Tallied q.2 ∧ (q.1.role = .candidate → Polled q.2 self.id q.1) := by
  have keep : ∀ (n' : Node ι σ δ) o, Tallied p.2 (self.id, o) →
      (n'.role = .candidate → Polled p.2 self.id n') →
      Causal Tallied (p.2 ++ [(self.id, o)]) ∧
        (n'.role = .candidate → Polled (p.2 ++ [(self.id, o)]) self.id n') := by
    intro n' o hj hp'
    exact ⟨causal_concat.mpr ⟨ht, hj⟩, fun hr => (hp' hr).mono (List.prefix_append _ _)⟩
  cases hm with
  | retreat n h => exact ⟨ht, fun hr => by cases hr⟩
  | raise n h t _ hlt => exact ⟨causal_concat₂.mpr ⟨ht, trivial, trivial⟩, fun hr => by cases hr⟩
  | prevote n h _ _ _ => exact ⟨ht, fun _ => ⟨by simp, by simp⟩⟩
  | campaign n n' h d hr h0 hk hn =>
    subst hn
    exact ⟨causal_concat₃.mpr ⟨ht, trivial, trivial, trivial⟩, fun _ => ⟨by simp, by simp⟩⟩
  | win n n' h hr hq hn =>
    subst hn
    exact keep _ _ ⟨hv.ran hr, hp hr, hq⟩ fun hr' => by cases hr'
  | reconfig n n' h new hr hch hn =>
    subst hn
    refine ⟨causal_concat₂.mpr ⟨ht, trivial, trivial⟩, fun hr' => ?_⟩
    rw [show n.role = .candidate from hr'] at hr
    cases hr
  | adopt n n' h e servers hlt he hcf hr hn =>
    subst hn
    exact keep _ _ trivial fun hr' => absurd hr' hr
  | grant n h x li lt d hk hvf hu =>
    exact ⟨causal_concat₃.mpr ⟨ht, trivial, trivial, trivial⟩,
      fun hr => (hp hr).mono (List.prefix_append _ _)⟩
  | countVote n h v hk hr =>
    refine ⟨ht, fun _ => ⟨Finset.mem_insert_of_mem (hp hr).1, fun w hw => ?_⟩⟩
    rcases Finset.mem_insert.mp hw with rfl | hw
    · exact .inr (granted_sender hc (ha _ hk))
    · exact (hp hr).2 w hw
  | countPrevote n h v hk h0 hpre hq =>
    subst h0
    refine ⟨ht, fun hr => ?_⟩
    -- the set does not change: a new member would be a stray
    have hmem : v ∈ n.votes := by
      by_contra hv'
      rw [hk] at hns
      unfold Node.strays at hns
      dsimp only at hns
      rw [hq, decide_eq_true ⟨hr, hpre, rfl, hv'⟩] at hns
      cases hns
    rw [Finset.insert_eq_of_mem hmem]
    exact hp hr
  | merge n h l pi pt es ci r hk hr hlog hci hle hj hm =>
    dsimp only
    split_ifs
    · exact ⟨causal_concat₂.mpr ⟨ht, trivial, trivial⟩,
        fun hr => (hp hr).mono (List.prefix_append _ _)⟩
    · exact keep _ _ trivial hp
  | _ =>
    first
    | exact ⟨ht, hp⟩
    | exact keep _ _ trivial hp

/-- The election facts of a cluster without stray pre-votes. -/
def ElectionsKept (c : Cluster ι σ δ) : Prop :=
  Local (fun h o => Justified h o ∧ Tallied h o)
    (fun i n h => Voter i n h ∧ (n.role = .candidate → Polled h i n)) c

/-- Nobody counts a stray pre-vote in this step. -/
def NoStray (c : Cluster ι σ δ) (e : Event ι δ) : Prop :=
  ∀ k ∈ e.action.made, (c.node e.node).strays k = false

instance (c : Cluster ι σ δ) (e : Event ι δ) : Decidable (NoStray c e) :=
  inferInstanceAs (Decidable (∀ k ∈ e.action.made, (c.node e.node).strays k = false))

/-- A small step without a stray pre-vote keeps the election facts of the cluster. -/
theorem electionsKept_micro (hI : ElectionsKept (c.at self.id n h))
    (hm : Micro self n₀ k (n, h) (n', h')) (ha : Arrived h self.id k) (hns : n₀.strays k = false) :
    ElectionsKept (c.at self.id n' h') := by
  have hown := hI.2 self.id
  rw [Cluster.at_node_self] at hown
  obtain ⟨hj, ht⟩ := causal_and.mp hI.1
  obtain ⟨hj', hv'⟩ := micro_voter hm ha hj hown.1
  obtain ⟨ht', hp'⟩ := micro_polled hm ha hns hj hown.1 ht hown.2
  have hput := Local.put hI (causal_and.mpr ⟨hj', ht'⟩) ⟨hv', hp'⟩ fun j hjn hN => by
    obtain ⟨out, ho, hout⟩ := micro_own hm
    dsimp only at ho
    subst ho
    exact ⟨hN.1.mono (fileOf_other hout hjn), fun hr => (hN.2 hr).mono (List.prefix_append _ _)⟩
  rwa [Cluster.at_at] at hput

theorem electionsKept_step (hI : ElectionsKept c) (he : S.Enabled c e) (hns : NoStray c e) :
    ElectionsKept (S.step c e) := by
  refine local_step (hI.2 e.node).1.calm ?_ ?_ ?_ hI
  · rintro i n h h' hi ⟨out, rfl, hown⟩ ⟨hv, hp⟩
    exact ⟨hv.mono (fileOf_other hown hi), fun hr => (hp hr).mono (List.prefix_append _ _)⟩
  · rintro k hk p q hm hg hc ⟨hv, hp⟩
    have ha := (arrived_of_enabled he hk).mono hg.isPrefix
    obtain ⟨hj, ht⟩ := causal_and.mp hc
    obtain ⟨hj', hv'⟩ := micro_voter hm ha hj hv
    obtain ⟨ht', hp'⟩ := micro_polled hm ha (hns k hk) hj hv ht hp
    exact ⟨causal_and.mpr ⟨hj', ht'⟩, hv', hp'⟩
  · rintro out hown - ⟨hv, -⟩
    refine ⟨voter_boot ?_, fun hr => ?_⟩
    · rw [write_file hown, fileOf_append, hv.file]
      rfl
    · rw [boot_role] at hr
      cases hr

theorem electionsKept_init : ElectionsKept S.init := by
  refine ⟨causal_nil, fun _ => ⟨voter_boot rfl, fun hr => ?_⟩⟩
  rw [show (S.init.node _).role = .follower from boot_role ..] at hr
  cases hr

/-! ### Winners of one term -/

/-- The servers `U` can make the node a leader. -/
def Wins (i : ι) (n : Node ι σ δ) (U : Finset ι) : Prop :=
  i ∈ U ∧ (n.peers = [] ∨ n.hasMajority U = true)

instance (i : ι) (n : Node ι σ δ) (U : Finset ι) : Decidable (Wins i n U) :=
  inferInstanceAs (Decidable (_ ∧ _))

/-- Any two vote sets that can win these two campaigns share a server. -/
def QuorumsMeet (i : ι) (n : Node ι σ δ) (j : ι) (n' : Node ι σ δ) : Prop :=
  ∀ U ∈ (insert i n.peers.toFinset).powerset, ∀ W ∈ (insert j n'.peers.toFinset).powerset,
    Wins i n U → Wins j n' W → (U ∩ W).Nonempty

instance (i : ι) (n : Node ι σ δ) (j : ι) (n' : Node ι σ δ) : Decidable (QuorumsMeet i n j n') :=
  inferInstanceAs (Decidable (∀ U ∈ (insert i n.peers.toFinset).powerset,
    ∀ W ∈ (insert j n'.peers.toFinset).powerset, Wins i n U → Wins j n' W → (U ∩ W).Nonempty))

/-- A node campaigns once in a term. -/
theorem campaign_unique (hc : Causal Justified h) (h1 : (i, .campaign n) ∈ h)
    (h2 : (i, .campaign n') ∈ h) (ht : n.currentTerm = n'.currentTerm) : n = n' := by
  induction h using List.reverseRecOn with
  | nil => simp at h1
  | append_singleton h o ih =>
    obtain ⟨hc, hj⟩ := causal_concat.mp hc
    rcases List.mem_append.mp h1 with h1' | h1' <;> rcases List.mem_append.mp h2 with h2' | h2'
    · exact ih hc h1' h2'
    · rw [List.mem_singleton] at h2'
      subst h2'
      exact absurd (hj.2 n h1') (by omega)
    · rw [List.mem_singleton] at h1'
      subst h1'
      exact absurd (hj.2 n' h2') (by omega)
    · rw [List.mem_singleton] at h1' h2'
      rw [← h1'] at h2'
      cases h2'
      rfl

/-- Whoever voted for a winner was asked by it. -/
theorem Elected.voters (hw : Elected h i n) (hc : Causal Justified h) :
    n.votes ⊆ insert i n.peers.toFinset := by
  intro v hv
  rw [Finset.mem_insert, List.mem_toFinset]
  obtain ⟨⟨nc, hnc, hs⟩, ⟨-, hp⟩, -⟩ := hw
  rcases hp v hv with rfl | hm
  · exact .inl rfl
  · obtain ⟨h₁, h₂, rfl, -, -, li, lt, hreq⟩ := hc.mem hm
    obtain ⟨h₃, h₄, rfl, -, nc', hnc', ht, hpeer, -⟩ := hc.take.mem hreq
    obtain rfl : nc = nc' := campaign_unique hc hnc (by simp [hnc']) (hs.1.symm.trans ht.symm)
    rw [← hs.2.1] at hpeer
    exact .inr hpeer

/-- Every voter of a winner saved its vote. -/
theorem Elected.saved (hw : Elected h i n) (hc : Causal Justified h) {v : ι} (hv : v ∈ n.votes) :
    (v, .replace n.currentTerm (some i)) ∈ h := by
  obtain ⟨⟨nc, hnc, hs⟩, ⟨-, hp⟩, -⟩ := hw
  rcases hp v hv with rfl | hm
  · rw [hs.1]
    exact campaign_saved hc hnc
  · exact granted_saved hc hm

/-- **Two winners of one term whose quorums meet are one node.** -/
theorem elected_unique (hc : Causal Justified h) (h1 : Elected h i n) (h2 : Elected h j n')
    (ht : n.currentTerm = n'.currentTerm) (hmeet : i ≠ j → QuorumsMeet i n j n') : i = j := by
  by_contra hij
  obtain ⟨v, hv⟩ := hmeet hij n.votes (Finset.mem_powerset.mpr (h1.voters hc)) n'.votes
    (Finset.mem_powerset.mpr (h2.voters hc)) ⟨h1.2.1.1, h1.2.2⟩ ⟨h2.2.1.1, h2.2.2⟩
  obtain ⟨hv1, hv2⟩ := Finset.mem_inter.mp hv
  have hs1 := h1.saved hc hv1
  have hs2 := h2.saved hc hv2
  rw [← ht] at hs2
  exact hij (saved_unique hc hs1 hs2)

/-! ### Pre-vote switched off -/

/-- Without pre-vote no node is ever in a pre-vote round. -/
theorem noRound_step (hS : S.PrevoteOff) (he : S.Enabled c e)
    (hI : Local (fun _ _ => True) (fun _ n _ => n.preCandidate = false) c) :
    Local (fun _ _ => True) (fun _ n _ => n.preCandidate = false) (S.step c e) := by
  refine local_step (fun _ => hI.2 e.node) (fun i n h h' _ _ hp => hp) ?_ ?_ hI
  · rintro k - p q hm - - hp
    refine ⟨fun _ _ _ _ => trivial, ?_⟩
    cases hm with
    | prevote n h hu _ _ =>
      have hoff : (S.self e).usePrevote = false := hS e.node he.1
      rw [hoff] at hu
      cases hu
    | retreat | raise | clearPre => rfl
    | campaign n n' h d hr h0 hk hn => subst hn; exact hp
    | win n n' h hr hq hn => subst hn; rfl
    | reconfig n n' h new hr hch hn => subst hn; exact hp
    | adopt n n' h e servers hlt he hcf hr hn => subst hn; exact hp
    | _ => exact hp
  · rintro out - - -
    obtain ⟨l, ci, ai, m, s, hb, -⟩ := boot_eq (S.params e.node) e.node e.now e.draw _
    rw [hb]

theorem noStray_of_prevoteOff (hS : S.PrevoteOff) (hr : Reach S.step S.Enabled S.init c) :
    NoStray c e := by
  have hround : Local (fun _ _ => True) (fun _ n _ => n.preCandidate = false) c := by
    refine hr.inv _ ⟨causal_nil, fun i => ?_⟩ fun _ _ _ hI he => noRound_step hS he hI
    obtain ⟨l, ci, ai, m, s, hb, -⟩ := boot_eq (S.params i) i 0 0 {}
    show ((S.params i).boot i 0 0 {}).preCandidate = false
    rw [hb]
  intro k _
  unfold Node.strays
  split
  · rw [hround.2 e.node]
    simp
  · rfl

theorem electionsKept_reach {ok : Cluster ι σ δ → Event ι δ → Prop}
    (hr : Reach S.step (fun c e => S.Enabled c e ∧ NoStray c e ∧ ok c e) S.init c) :
    ElectionsKept c :=
  hr.inv ElectionsKept electionsKept_init fun _ _ _ hI he => electionsKept_step hI he.1 he.2.1

/-! ### Overlapping campaigns -/

theorem SameMembers.wins (hs : SameMembers n n') {U : Finset ι} (hw : Wins i n' U) : Wins i n U := by
  obtain ⟨hp, hc, ho⟩ := hs
  unfold Wins Node.hasMajority at *
  rwa [← hp, ← hc, ← ho]

theorem QuorumsMeet.congr {m m' : Node ι σ δ} (hq : QuorumsMeet i n j n') (hn : SameMembers n m)
    (hn' : SameMembers n' m') : QuorumsMeet i m j m' := by
  intro U hU W hW h1 h2
  rw [hn.1] at hU
  rw [hn'.1] at hW
  exact hq U hU W hW (hn.wins h1) (hn'.wins h2)

theorem QuorumsMeet.symm (hq : QuorumsMeet i n j n') : QuorumsMeet j n' i n := by
  intro U hU W hW h1 h2
  rw [Finset.inter_comm]
  exact hq W hW U hU h2 h1

/-- The effect is no campaign of another node, for the next term of `n`, whose quorums can miss
those of `n`. -/
def meetsCampaign (i : ι) (n : Node ι σ δ) : ι × Out ι σ δ → Bool
  | (j, .campaign n') => decide (j ≠ i → n'.currentTerm = n.currentTerm + 1 → QuorumsMeet i n j n')
  | _ => true

/-- A node that starts an election has quorums that meet those of every campaign of that term. -/
def Setup.Overlaps (S : Setup ι σ δ) (c : Cluster ι σ δ) (e : Event ι δ) : Prop :=
  ∀ k ∈ e.action.made, (S.self e).elects (c.node e.node) k = true →
    ∀ o ∈ c.history, meetsCampaign e.node (c.node e.node) o = true

instance (c : Cluster ι σ δ) (e : Event ι δ) : Decidable (S.Overlaps c e) :=
  inferInstanceAs (Decidable (∀ k ∈ e.action.made, (S.self e).elects (c.node e.node) k = true →
    ∀ o ∈ c.history, meetsCampaign e.node (c.node e.node) o = true))

/-- Campaigns of one term have quorums that meet. -/
def Overlapping (h : History ι σ δ) : ι × Out ι σ δ → Prop
  | (i, .campaign n) => ∀ j n', (j, .campaign n') ∈ h → j ≠ i → n'.currentTerm = n.currentTerm →
      QuorumsMeet i n j n'
  | _ => True

theorem overlapping_step
    (hpre : (c.node e.node).role = .leader → (c.node e.node).preCandidate = false)
    (ho : S.Overlaps c e) (hI : Local Overlapping (fun _ _ _ => True) c) :
    Local Overlapping (fun _ _ _ => True) (S.step c e) := by
  refine local_step hpre (fun _ _ _ _ _ _ _ => trivial) ?_ (fun _ _ _ _ => trivial) hI
  rintro k hk p q hm hg hc -
  refine ⟨?_, trivial⟩
  cases hm with
  | campaign n n' h d hr h0 hel hn =>
    refine causal_concat₃.mpr ⟨hc, trivial, trivial, ?_⟩
    intro j nj hj hne ht
    have hj' : (j, Out.campaign nj) ∈ h := by simpa using hj
    have hcj := hg.mem_of_ne hj' hne
    have hmeet := ho k hk hel _ hcj
    subst hn
    have hq : QuorumsMeet e.node (c.node e.node) j nj := by
      refine of_decide_eq_true hmeet hne ?_
      rw [ht, ← h0.1]
    exact hq.congr h0.2 ⟨rfl, rfl, rfl⟩
  | raise | reconfig => exact causal_concat₂.mpr ⟨hc, trivial, trivial⟩
  | grant => exact causal_concat₃.mpr ⟨hc, trivial, trivial, trivial⟩
  | merge =>
    dsimp only
    split_ifs
    · exact causal_concat₂.mpr ⟨hc, trivial, trivial⟩
    · exact causal_concat.mpr ⟨hc, trivial⟩
  | _ => first | exact hc | exact causal_concat.mpr ⟨hc, trivial⟩

theorem overlapping_mem (hc : Causal Overlapping h)
    (h1 : (i, .campaign n) ∈ h) (h2 : (j, .campaign n') ∈ h) (hij : i ≠ j)
    (ht : n.currentTerm = n'.currentTerm) : QuorumsMeet i n j n' := by
  induction h using List.reverseRecOn with
  | nil => simp at h1
  | append_singleton h o ih =>
    obtain ⟨hc, hlast⟩ := causal_concat.mp hc
    rcases List.mem_append.mp h1 with h1' | h1' <;> rcases List.mem_append.mp h2 with h2' | h2'
    · exact ih hc h1' h2'
    · rw [List.mem_singleton] at h2'
      subst h2'
      exact (hlast i n h1' hij ht).symm
    · rw [List.mem_singleton] at h1'
      subst h1'
      exact hlast j n' h2' hij.symm ht.symm
    · rw [List.mem_singleton] at h1' h2'
      rw [← h1'] at h2'
      cases h2'
      exact absurd rfl hij

/-- **Election safety under membership change, where campaigns overlap.**  If no node starts an
election whose quorums can miss those of another campaign of the same term, then no two nodes take
office in one term. -/
theorem election_safety_reconfig (hS : S.PrevoteOff)
    (hr : Reach S.step (fun c e => S.Enabled c e ∧ S.Overlaps c e) S.init c) {t : ℕ}
    (hi : Led c.history i t) (hj : Led c.history j t) : i = j := by
  have hns : Reach S.step (fun c e => S.Enabled c e ∧ NoStray c e ∧ S.Overlaps c e) S.init c :=
    hr.strengthen fun s e hs he =>
      ⟨he.1, noStray_of_prevoteOff hS (hs.mono fun _ _ h => h.1), he.2⟩
  have hE := electionsKept_reach hns
  have hO : Local Overlapping (fun _ _ _ => True) c := by
    refine hns.inv _ ⟨causal_nil, fun _ => trivial⟩ fun s e hs hI he => ?_
    exact overlapping_step ((electionsKept_reach hs).2 e.node).1.calm he.2.2 hI
  obtain ⟨hJ, hT⟩ := causal_and.mp hE.1
  obtain ⟨n, hn, htn⟩ := hi
  obtain ⟨n', hn', htn'⟩ := hj
  have h1 := tallied_mem hT hn
  have h2 := tallied_mem hT hn'
  refine elected_unique hJ h1 h2 (htn.trans htn'.symm) fun hij => ?_
  obtain ⟨⟨nc, hnc, hs⟩, -⟩ := h1
  obtain ⟨⟨nc', hnc', hs'⟩, -⟩ := h2
  have hterm : nc.currentTerm = nc'.currentTerm := by
    rw [← hs.1, ← hs'.1, htn, htn']
  exact (overlapping_mem hO.1 hnc hnc' hij hterm).congr hs.2 hs'.2

/-- Server 0 leads, asks for the removal of server 2 and loses its office to it; server 2 commits
its own removal and stays a candidate that counts itself. -/
def selfRemoval : List (Event ℕ Unit) :=
  let e1 : Entry := ⟨1, 1, noop⟩
  let e2 : Entry := ⟨2, 1, cfgTag ++ letters.dumps [0, 1, 3]⟩
  let e3 : Entry := ⟨3, 2, noop⟩
  [callAt 1000 0 .tick,
   callAt 1001 1 (.handle (.vote 1 0 0 0)), callAt 1001 2 (.handle (.vote 1 0 0 0)),
   callAt 1002 0 (.handle (.voteResp 1 1 true)), callAt 1002 0 (.handle (.voteResp 1 2 true)),
   callAt 1003 0 (.proposeRemoveServer 2),
   callAt 1004 1 (.handle (.append 1 0 0 0 [e1, e2] 0)),
   callAt 1004 2 (.handle (.append 1 0 0 0 [e1, e2] 0)),
   callAt 2000 2 .tick,
   callAt 2001 1 (.handle (.vote 2 2 2 1)), callAt 2001 3 (.handle (.vote 2 2 2 1)),
   callAt 2002 2 (.handle (.voteResp 2 1 true)), callAt 2002 2 (.handle (.voteResp 2 3 true)),
   callAt 2003 0 (.handle (.append 2 2 2 1 [e3] 0)), callAt 2003 1 (.handle (.append 2 2 2 1 [e3] 0)),
   callAt 2004 2 (.handle (.appendResp 2 0 true 3 (some 0))),
   callAt 2004 2 (.handle (.appendResp 2 1 true 3 (some 0))),
   callAt 2100 2 .tick, callAt 2101 0 (.handle (.append 2 2 3 2 [] 3)),
   callAt 3000 2 .tick]

/-- The last campaigns of the run: server 2 with server 1, server 0 with server 3. -/
def splitTerm : List (Event ℕ Unit) :=
  [callAt 3200 2 .tick, callAt 3200 0 .tick,
   callAt 3201 1 (.handle (.vote 3 2 3 2)), callAt 3201 3 (.handle (.vote 3 0 3 2)),
   callAt 3202 2 (.handle (.voteResp 3 1 true)), callAt 3202 0 (.handle (.voteResp 3 3 true))]

/-- Two leaders of term 3, each with two of the three servers it knows. -/
theorem election_unsafe_after_self_removal :
    let S := lab 4 false 256
    S.FullMesh ∧ S.PrevoteOff ∧
      ∃ c, Reach S.step (fun c e => S.Enabled c e ∧ e.Plain) S.init c ∧
        Led c.history 2 3 ∧ Led c.history 0 3 := by
  intro S
  refine ⟨lab_fullMesh _ _ _, lab_prevoteOff _ _, _, reach_replay (selfRemoval ++ splitTerm) ?_, ?_⟩
  · decide +kernel
  · decide +kernel

/-- Before the split the quorums of every two campaigns of a term met. -/
theorem election_safety_reconfig_selfRemoval :
    let S := lab 4 false 256
    let c := S.replay selfRemoval
    Led c.history 2 2 ∧ ∀ j, Led c.history j 2 → j = 2 := by
  intro S c
  have hled : Led c.history 2 2 := by decide +kernel
  refine ⟨hled, fun j hj => ?_⟩
  refine election_safety_reconfig (lab_prevoteOff 4 256) (reach_replay selfRemoval ?_) hj hled
  decide +kernel

end Pylog.Raft
