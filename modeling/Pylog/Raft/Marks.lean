import Pylog.Raft.Commit

/-!
# Pylog.Raft.Marks — applied entries and the leaders that committed them

Every entry a node applies was committed by some leader before.  A node may be on an index that lies
above what its log has in common with the leaders, as long as it has applied everything up to it: it
is then `Ajar`, and stays so until it takes over a commit index or wins an election.
-/

namespace Pylog.Raft

open Effect Transition Trace Replication

variable {ι σ δ : Type} [LinearOrder ι] {S : Setup ι σ δ} {c c' : Cluster ι σ δ} {e : Event ι δ}
  {i j : ι} {n n' n₀ : Node ι σ δ} {h h' : History ι σ δ} {self : Self ι σ δ} {k : Call ι δ}
  {a a' : State ι Entry}

/-- Some leader's commit index got to `m`. -/
def Reached (h : History ι σ δ) (m : ℕ) : Prop := m = 0 ∨ ∃ j M n, (j, .commit M n) ∈ h ∧ m ≤ M

/-- Some leader set its commit index to `index` or more, with this payload at `index` in its log. -/
def CommittedAs (h : History ι σ δ) (index : ℕ) (payload : Bytes) : Prop :=
  ∃ j M n, (j, .commit M n) ∈ h ∧ index ≤ M ∧ (n.log.get index).map Entry.payload = some payload

/-- An entry is applied at its own index and after a leader committed it. -/
def LeaderCommitted (h : History ι σ δ) : ι × Out ι σ δ → Prop
  | (_, .apply index x) => x.index = index ∧ CommittedAs h index x.payload
  | _ => True

omit [LinearOrder ι] in
theorem Reached.mono {m : ℕ} (hr : Reached h m) (hh : h <+: h') : Reached h' m := by
  refine hr.imp_right ?_
  rintro ⟨j, M, n, hc, hm⟩
  exact ⟨j, M, n, hh.subset hc, hm⟩

omit [LinearOrder ι] in
theorem Reached.le {m m' : ℕ} (hr : Reached h m) (hm : m' ≤ m) : Reached h m' := by
  rcases hr with rfl | ⟨j, M, n, hc, hle⟩
  · exact .inl (Nat.le_zero.mp hm)
  · exact .inr ⟨j, M, n, hc, hm.trans hle⟩

omit [LinearOrder ι] in
theorem CommittedAs.mono {index : ℕ} {payload : Bytes} (hc : CommittedAs h index payload)
    (hh : h <+: h') : CommittedAs h' index payload := by
  obtain ⟨j, M, n, hm, hrest⟩ := hc
  exact ⟨j, M, n, hh.subset hm, hrest⟩

omit [LinearOrder ι] in
theorem CommittedAs.reached {index : ℕ} {payload : Bytes} (hc : CommittedAs h index payload) :
    Reached h index := by
  obtain ⟨j, M, n, hm, hle, -⟩ := hc
  exact .inr ⟨j, M, n, hm, hle⟩

/-! ### The invariant -/

/-- A quorum acknowledged `M` entries in `T`, and none of it votes for `i` in `t`. -/
def Setup.Shut (S : Setup ι σ δ) (a : State ι Entry) (h : History ι σ δ) (i : ι) (t T M : ℕ) : Prop :=
  ∃ Q, S.Quorum Q ∧ ∀ v ∈ Q, M ≤ a.acked v T ∧ (v, .send i (.voteResp t v true)) ∉ h

/-- The node has applied up to its commit index, and as much is committed.  If this was in a term
above that of a candidate, the candidate cannot win. -/
structure Setup.Ajar (S : Setup ι σ δ) (a : State ι Entry) (h : History ι σ δ) (i : ι)
    (n : Node ι σ δ) : Prop where
  applied : n.commitIndex ≤ n.appliedIndex
  role : n.role ≠ .leader
  bound : n.commitIndex = 0 ∨ ∃ T M, S.Sealed a T M ∧ n.commitIndex ≤ M ∧
    (n.role = .candidate → n.currentTerm < T → S.Shut a h i n.currentTerm T M)

/-- The commit index of the node is on committed entries, or the node is ajar. -/
def Setup.Guarded (S : Setup ι σ δ) (a : State ι Entry) (h : History ι σ δ) (i : ι) (n : Node ι σ δ) :
    Prop :=
  Secured Entry.term S.Quorum a n.currentTerm n.commitIndex n.log.entries ∨ S.Ajar a h i n

structure Accounted (S : Setup ι σ δ) (a : State ι Entry) (c : Cluster ι σ δ) : Prop where
  warranted : S.Warranted a c.history
  nodes : ∀ j, S.Guarded a c.history j (c.node j)
  reached : ∀ j, Reached c.history (c.node j).commitIndex
  carried : ∀ j p t l pi pt es ci, (j, .send p (.append t l pi pt es ci)) ∈ c.history →
    Reached c.history ci
  marks : Causal LeaderCommitted c.history

/-- New votes of a step are cast in the term of the node. -/
theorem micro_votes (hm : Micro self n₀ k (n, h) (n', h')) {v x : ι} {t : ℕ}
    (hv : (v, .send x (.voteResp t v true)) ∈ h') :
    (v, .send x (.voteResp t v true)) ∈ h ∨ v = self.id ∧ t = n.currentTerm := by
  cases hm with
  | sendAppend _ _ p hr =>
    refine (List.mem_append.mp hv).imp_right fun hv => ?_
    rw [List.mem_singleton] at hv
    unfold Self.appendMsg at hv
    dsimp only at hv
    split_ifs at hv <;> cases hv
  | merge =>
    refine (List.mem_append.mp hv).imp_right fun hv => ?_
    split_ifs at hv <;> simp at hv
  | grant _ _ y li lt d hk' hvf hu =>
    refine (List.mem_append.mp hv).imp_right fun hv => ?_
    simp only [List.mem_cons, List.not_mem_nil, or_false, Prod.mk.injEq, reduceCtorEq, and_false,
      false_or, Out.send.injEq, Msg.voteResp.injEq] at hv
    exact ⟨hv.1, hv.2.2.1⟩
  | _ =>
    first
    | exact .inl hv
    | exact .inl (by simpa using hv)

omit [LinearOrder ι] in
theorem Shut.mono {t T M : ℕ} (hs : S.Shut a h i t T M) (hI : S.GhostInv a) (h0 : 0 < M) (ht : t < T)
    (hm : Moved j a a') (hnew : ∀ v, (v, .send i (.voteResp t v true)) ∈ h' →
      (v, .send i (.voteResp t v true)) ∈ h ∨ a.term v ≤ t) : S.Shut a' h' i t T M := by
  obtain ⟨Q, hQ, hv⟩ := hs
  refine ⟨Q, hQ, fun v hvQ => ⟨(hv v hvQ).1.trans (hm.acked v T), fun hvote => ?_⟩⟩
  rcases hnew v hvote with hold | hle
  · exact (hv v hvQ).2 hold
  · have := (hI.acked_le h0 (hv v hvQ).1).1
    omega

/-- An ajar node after a step that keeps it from office. -/
theorem Ajar.keep (hn : S.Ajar a h i n) (hI : S.GhostInv a) (hm : Moved j a a')
    (hci : n'.commitIndex = n.commitIndex) (hai : n'.appliedIndex = n.appliedIndex)
    (hr : n'.role = .follower ∨ n'.role = n.role ∧ n'.currentTerm = n.currentTerm)
    (hnew : ∀ v t, (v, .send i (.voteResp t v true)) ∈ h' →
      (v, .send i (.voteResp t v true)) ∈ h ∨ a.term v ≤ t) : S.Ajar a' h' i n' := by
  refine ⟨by rw [hci, hai]; exact hn.applied, ?_, ?_⟩
  · rcases hr with hr | ⟨hr, -⟩
    · rw [hr]
      decide
    · rw [hr]
      exact hn.role
  · rw [hci]
    refine hn.bound.imp_right ?_
    rintro ⟨T, M, hs, hM, hshut⟩
    refine ⟨T, M, hs.mono hm.grows hm.acked (hs.led quorum_meet hI), hM, fun hc ht => ?_⟩
    rcases hr with hr | ⟨hr, hterm⟩
    · rw [hr] at hc
      cases hc
    · rw [hterm] at ht ⊢
      exact Shut.mono (hshut (hr ▸ hc) ht) hI hs.1 ht hm fun v hv => hnew v _ hv

theorem Guarded.keep (hn : S.Guarded a h i n) (hI : S.GhostInv a) (hm : Moved j a a')
    (hnew : ∀ v t, (v, .send i (.voteResp t v true)) ∈ h' →
      (v, .send i (.voteResp t v true)) ∈ h ∨ a.term v ≤ t) : S.Guarded a' h' i n :=
  hn.imp (Secured.mono quorum_meet hI hm.grows hm.acked)
    fun hn => Ajar.keep hn hI hm rfl rfl (.inr ⟨rfl, rfl⟩) hnew

/-! ### Small steps -/

section Cases

variable (hI : S.GhostInv a) (hM : Mirrors S a (c.at i n h))

include hI hM

/-- No member of the quorum of a later term votes for a new campaign. -/
theorem shut_campaign (hm : Moved i a a') {T M : ℕ}
    (hs : S.Sealed a T M) {t : ℕ} (ht : n.currentTerm < t)
    (hnew : ∀ v, (v, .send i (.voteResp t v true)) ∈ h' → (v, .send i (.voteResp t v true)) ∈ h) :
    S.Shut a' h' i t T M := by
  obtain ⟨-, -, Q, hQ, hacks⟩ := hs
  refine ⟨Q, hQ, fun v hvQ => ⟨(hacks v hvQ).trans (hm.acked v T), fun hvote => ?_⟩⟩
  -- a vote answers a campaign, and the campaigns of `i` are of its terms
  obtain ⟨l, nc, -, hnc, rfl, -⟩ := hM.events _ (hnew v hvote)
  have hballot := hI.ballot_term _ _ _ (hM.events _ hnc).1
  rw [(own_tracks hM).term] at hballot
  omega

/-- An ajar candidate that wins has everything that was committed. -/
theorem secured_win (hI' : S.GhostInv a') (hM' : Mirrors S a' (c.at i n' (h ++ [(i, .lead n')])))
    (hsane : S.Sane (c.at i n h)) (hi : i ∈ S.servers) (hm : Moved i a a') (hn : S.Ajar a h i n)
    (hr : n.role = .candidate) (hq : n.peers = [] ∨ n.hasMajority n.votes = true)
    (hterm : n'.currentTerm = n.currentTerm) (hci : n'.commitIndex = n.commitIndex) :
    Secured Entry.term S.Quorum a' n'.currentTerm n'.commitIndex n'.log.entries := by
  rw [hterm, hci]
  rcases hn.bound with h0 | ⟨T, M, hs, hMle, hshut⟩
  · exact .inl h0
  have hled := hs.led quorum_meet hI
  obtain ⟨hlead, hbase, -⟩ := hM'.events (i, .lead n') (by simp)
  rw [hterm] at hlead hbase
  rcases lt_trichotomy T n.currentTerm with hlt | rfl | hgt
  · have hs' := hs.mono hm.grows hm.acked hled
    have hp := leader_completeness quorum_meet hI' hs' _ hlt (by rw [hlead]; simp)
    rw [hbase] at hp
    exact .inr ⟨T, M, hlt.le, hMle, hs', (List.take_prefix_take_left hMle).trans hp⟩
  · -- the leader of this term was elected before
    have hsame := hm.grows.leader _ hled
    rw [hlead] at hsame
    exact absurd hsame.symm ((own_tracks hM).runner hr).1
  · -- some voter is in the quorum of the later term
    obtain ⟨Q, hQ, hvotes⟩ := hshut hr hgt
    obtain ⟨hJ, -⟩ := causal_and.mp hsane.elections.1
    have hown := hsane.elections.2 i
    have hsteady := hsane.fixed.2 i
    rw [Cluster.at_node_self] at hown hsteady
    have hel : Elected h i n := ⟨hown.1.ran hr, hown.2 hr, hq⟩
    obtain ⟨v, hvQ, hvw⟩ := quorum_meet Q n.votes hQ
      (View.quorum hi (hsteady.1 hi) (hel.voters hJ) ⟨hel.2.1.1, hq⟩)
    rcases hel.2.1.2 v hvw with rfl | hvote
    · have hle := (hI.acked_le hs.1 (hvotes v hvQ).1).1
      rw [(own_tracks hM).term] at hle
      omega
    · exact absurd hvote (hvotes v hvQ).2

end Cases

/-- **Every small step of an ajar node** keeps it ajar or brings it back on committed entries; it
applies nothing. -/
theorem ajar_micro (hsane : S.Sane (c.at self.id n h)) (hI : S.GhostInv a) (hI' : S.GhostInv a')
    (hmv : Moved self.id a a') (hM : Mirrors S a (c.at self.id n h))
    (hM' : Mirrors S a' (c.at self.id n' h')) (hev : S.Warranted a h) (hn : S.Ajar a h self.id n)
    (hm : Micro self n₀ k (n, h) (n', h')) (hk : S.Tame self n₀ k) (ha : Arrived h self.id k)
    (hc : c.node self.id = n₀) (hp₀ : n₀.log.Plain) (hno : c.overruns self.id k = false) :
    (∃ out, h' = h ++ out ∧ ∀ o ∈ out, S.Vouched a' o) ∧ S.Guarded a' h' self.id n' := by
  have hvotes : ∀ v t, (v, .send self.id (.voteResp t v true)) ∈ h' →
      (v, .send self.id (.voteResp t v true)) ∈ h ∨ a.term v ≤ t := by
    intro v t hv
    refine (micro_votes hm hv).imp_right ?_
    rintro ⟨rfl, rfl⟩
    exact (own_tracks hM).term.le
  have hkeep (hci : n'.commitIndex = n.commitIndex) (hai : n'.appliedIndex = n.appliedIndex)
      (hr : n'.role = .follower ∨ n'.role = n.role ∧ n'.currentTerm = n.currentTerm) :
      S.Guarded a' h' self.id n' := .inr (Ajar.keep hn hI hmv hci hai hr hvotes)
  have hemit {n' : Node ι σ δ} {out : History ι σ δ} (hout : ∀ o ∈ out, S.Vouched a' o)
      (hg : S.Guarded a' (h ++ out) self.id n') :
      (∃ out', h ++ out = h ++ out' ∧ ∀ o ∈ out', S.Vouched a' o) ∧
        S.Guarded a' (h ++ out) self.id n' := ⟨⟨out, rfl, hout⟩, hg⟩
  have hstay {n' : Node ι σ δ} (hg : S.Guarded a' h self.id n') :
      (∃ out, h = h ++ out ∧ ∀ o ∈ out, S.Vouched a' o) ∧ S.Guarded a' h self.id n' :=
    ⟨⟨[], by simp, by simp⟩, hg⟩
  cases hm with
  | raise => exact hemit (by simp [Setup.Vouched]) (hkeep rfl rfl (.inl rfl))
  | retreat => exact hstay (hkeep rfl rfl (.inl rfl))
  | campaign _ _ _ d hr h0 hel he =>
    subst he
    refine hemit (by simp [Setup.Vouched]) (.inr ⟨hn.applied, by simp, hn.bound.imp_right ?_⟩)
    rintro ⟨T, M, hs, hMle, -⟩
    refine ⟨T, M, hs.mono hmv.grows hmv.acked (hs.led quorum_meet hI), hMle, fun _ _ => ?_⟩
    exact shut_campaign hI hM hmv hs (Nat.lt_succ_self _) fun v hv => by simpa using hv
  | win _ _ _ hr hq he =>
    subst he
    exact hemit (by simp [Setup.Vouched])
      (.inl (secured_win hI hM hI' hM' hsane hk.server hmv hn hr hq rfl rfl))
  | sendAppend _ _ p hr => exact absurd hr hn.role
  | append _ _ payload hr hp => exact absurd hr hn.role
  | reconfig _ _ _ new hr hch he => exact absurd hr hn.role
  | commit _ _ m hr hcm => exact absurd hr hn.role
  | apply _ _ x machine hlt hx hcf hap => exact absurd hn.applied (not_le.mpr hlt)
  | adopt _ _ _ x servers hlt hx hcf hr he => exact absurd hn.applied (not_le.mpr hlt)
  | applyRaise _ _ x sm s hlt => exact absurd hn.applied (not_le.mpr hlt)
  | skipHole _ _ hlt => exact absurd hn.applied (not_le.mpr hlt)
  | merge _ _ x pi pt es ci r hk' hr hlog hci hle hj hr' =>
    refine hemit ?_ (hkeep rfl rfl (.inr ⟨rfl, rfl⟩))
    split_ifs <;> simp [Setup.Vouched]
  | followCommit _ _ x pi pt es ci r hk' hr hr' hok hlog hci hle hacc hlt =>
    subst hr' hk'
    have hin := ha _ rfl
    obtain ⟨j, hj⟩ := id hin
    exact hstay (.inl (Secured.mono quorum_meet hI hmv.grows hmv.acked
      (secured_followCommit hI hM hc hp₀ hle (hci ▸ hlt) hin hok hlog hno hacc (hev _ _ _ hj))))
  | snapFile _ _ s hs' hd => exact (hM.no_snapshot hk ha hs').elim
  | snapMark _ _ s hs' => exact (hM.no_snapshot hk ha hs').elim
  | compact _ _ s l hk' hs' hc => exact (hM.no_snapshot hk ha (.inl ⟨hs', hk'⟩)).elim
  | install _ _ x s l m hk' => exact (hM.no_install ha hk').elim
  | installIndex _ _ x s b hk' => exact (hM.no_install ha hk').elim
  | ackInstall _ _ x s hk' => exact (hM.no_install ha hk').elim
  | _ =>
    first
    | exact hstay (hkeep rfl rfl (.inr ⟨rfl, rfl⟩))
    | exact hemit (by simp [Setup.Vouched]) (hkeep rfl rfl (.inr ⟨rfl, rfl⟩))

/-- A node on committed entries, or ajar, stays so. -/
theorem guarded_micro (hsane : S.Sane (c.at self.id n h)) (hI : S.GhostInv a) (hI' : S.GhostInv a')
    (hmv : Moved self.id a a') (hM : Mirrors S a (c.at self.id n h))
    (hM' : Mirrors S a' (c.at self.id n' h')) (hev : S.Warranted a h) (hn : S.Guarded a h self.id n)
    (hm : Micro self n₀ k (n, h) (n', h')) (hk : S.Tame self n₀ k) (ha : Arrived h self.id k)
    (hc : c.node self.id = n₀) (hp₀ : n₀.log.Plain) (hno : c.overruns self.id k = false) :
    (∃ out, h' = h ++ out ∧ ∀ o ∈ out, S.Vouched a' o) ∧ S.Guarded a' h' self.id n' := by
  rcases hn with hn | hn
  · obtain ⟨hout, hn'⟩ := secured_micro hI hmv hM hM' hev hn hm hk ha hc hp₀ hno
    exact ⟨hout, .inl hn'⟩
  · exact ajar_micro hsane hI hI' hmv hM hM' hev hn hm hk ha hc hp₀ hno

/-- Commit indexes, of nodes and in messages, go back to those of leaders. -/
theorem reached_micro (hM : Mirrors S a (c.at self.id n h)) (hr : Reached h n.commitIndex)
    (hin : ∀ j p t l pi pt es ci, (j, .send p (.append t l pi pt es ci)) ∈ h → Reached h ci)
    (hm : Micro self n₀ k (n, h) (n', h')) (ha : Arrived h self.id k) :
    Reached h' n'.commitIndex ∧
      ∀ j p t l pi pt es ci, (j, .send p (.append t l pi pt es ci)) ∈ h' → Reached h' ci := by
  have hemit {m : ℕ} {out : History ι σ δ} (hm : Reached (h ++ out) m)
      (hout : ∀ j p t l pi pt es ci, (j, .send p (.append t l pi pt es ci)) ∈ out → Reached h ci) :
      Reached (h ++ out) m ∧ ∀ j p t l pi pt es ci,
        (j, .send p (.append t l pi pt es ci)) ∈ h ++ out → Reached (h ++ out) ci := by
    refine ⟨hm, fun j p t l pi pt es ci ho => ?_⟩
    rcases List.mem_append.mp ho with ho | ho
    · exact (hin _ _ _ _ _ _ _ _ ho).mono (List.prefix_append _ _)
    · exact (hout _ _ _ _ _ _ _ _ ho).mono (List.prefix_append _ _)
  have hgrow (out : History ι σ δ) : Reached (h ++ out) n.commitIndex :=
    hr.mono (List.prefix_append _ _)
  cases hm with
  | campaign _ _ _ d hr' h0 hel he =>
    subst he
    exact hemit (hgrow _) (by simp)
  | win _ _ _ hr' hq he =>
    subst he
    exact hemit (hgrow _) (by simp)
  | sendAppend _ _ p hr' =>
    refine hemit (hgrow _) fun j q t l pi pt es ci ho => ?_
    rw [List.mem_singleton] at ho
    unfold Self.appendMsg at ho
    dsimp only at ho
    split_ifs at ho <;> cases ho
    exact hr
  | reconfig _ _ _ new hr' hch he =>
    subst he
    exact hemit (hgrow _) (by simp)
  | commit _ _ m hr' hcm =>
    exact hemit (.inr ⟨self.id, m, n, by simp, le_rfl⟩) (by simp)
  | adopt _ _ _ x servers hlt hx hcf hr' he =>
    subst he
    exact hemit (hgrow _) (by simp)
  | merge _ _ x pi pt es ci r hk' =>
    refine hemit (hgrow _) ?_
    split_ifs <;> simp
  | followCommit _ _ x pi pt es ci r hk' =>
    obtain ⟨j, hj⟩ := ha _ hk'
    exact ⟨(hin _ _ _ _ _ _ _ _ hj).le (min_le_left _ _), hin⟩
  | installIndex _ _ x s b hk' => exact (hM.no_install ha hk').elim
  | _ =>
    first
    | exact ⟨hr, hin⟩
    | exact hemit (hgrow _) (by simp)

/-- An entry below a commit index that goes back to a leader is the one this leader committed. -/
theorem committedAs_of_secured (hI : S.GhostInv a) (hM : Mirrors S a (c.at i n h))
    (hs : Secured Entry.term S.Quorum a n.currentTerm n.commitIndex n.log.entries)
    (hr : Reached h n.commitIndex) {index : ℕ} {x : Entry} (hlt : index < n.commitIndex)
    (hx : n.log.get (index + 1) = some x) :
    x.index = index + 1 ∧ CommittedAs h (index + 1) x.payload := by
  have ht := own_tracks hM
  obtain ⟨-, T, M, hc, hM', hT⟩ := vouched_apply (i := i) ht.plain hs hlt hx
  rcases hr with h0 | ⟨j, m, nc, hmark, hle⟩
  · omega
  obtain ⟨-, hsealed, hplain, htake⟩ := hM.events _ hmark
  have heq := committed_agree quorum_meet hI hc hsealed hM' (show index < m by omega)
  rw [Nat.add_sub_cancel] at hT heq
  refine ⟨ht.plain.indexed _ _ (by rw [← ht.plain.get]; exact hx), j, m, nc, hmark, by omega, ?_⟩
  rw [hplain.get, ← List.getElem?_take_of_lt (show index < m by omega), htake,
    List.getElem?_take_of_lt (by omega), ← heq, hT]
  rfl

/-- An entry is applied after a leader committed it. -/
theorem marks_micro (hI : S.GhostInv a) (hM : Mirrors S a (c.at self.id n h))
    (hn : S.Guarded a h self.id n) (hr : Reached h n.commitIndex) (hc : Causal LeaderCommitted h)
    (hm : Micro self n₀ k (n, h) (n', h')) : Causal LeaderCommitted h' := by
  have happly {x : Entry} (hlt : n.appliedIndex < n.commitIndex)
      (hx : n.log.get (n.appliedIndex + 1) = some x) :
      Causal LeaderCommitted (h ++ [(self.id, .apply (n.appliedIndex + 1) x)]) := by
    refine causal_concat.mpr ⟨hc, ?_⟩
    rcases hn with hn | hn
    · exact committedAs_of_secured hI hM hn hr hlt hx
    · exact absurd hn.applied (not_le.mpr hlt)
  cases hm with
  | apply _ _ x machine hlt hx hcf hap => exact happly hlt hx
  | adopt _ _ _ x servers hlt hx hcf hr' he => exact happly hlt hx
  | merge _ _ x pi pt es ci r hk' =>
    refine hc.extend fun o ho h' _ => ?_
    split_ifs at ho with hok
    · rcases List.mem_cons.mp ho with rfl | ho
      · trivial
      · rw [List.mem_singleton.mp ho]
        trivial
    · rw [List.mem_singleton.mp ho]
      trivial
  | _ =>
    first
    | exact hc
    | exact hc.extend (by simp [LeaderCommitted])

/-- **Every small step keeps the account of what is applied.** -/
theorem accounted_micro (hsane : S.Sane (c.at self.id n h)) (hI : S.GhostInv a) (hI' : S.GhostInv a')
    (hmv : Moved self.id a a') (hM : Mirrors S a (c.at self.id n h))
    (hM' : Mirrors S a' (c.at self.id n' h')) (hX : Accounted S a (c.at self.id n h))
    (hm : Micro self n₀ k (n, h) (n', h')) (hk : S.Tame self n₀ k) (ha : Arrived h self.id k)
    (hc : c.node self.id = n₀) (hp₀ : n₀.log.Plain) (hno : c.overruns self.id k = false) :
    Accounted S a' (c.at self.id n' h') := by
  have hn := hX.nodes self.id
  have hr := hX.reached self.id
  rw [Cluster.at_node_self] at hn hr
  obtain ⟨hr', hcarried⟩ := reached_micro hM hr hX.carried hm ha
  obtain ⟨⟨out, rfl, hout⟩, hn'⟩ :=
    guarded_micro hsane hI hI' hmv hM hM' hX.warranted hn hm hk ha hc hp₀ hno
  refine ⟨fun j p m ho => ?_, fun j => ?_, fun j => ?_, hcarried, marks_micro hI hM hn hr hX.marks hm⟩
  · rcases List.mem_append.mp ho with ho | ho
    · exact Vouched.mono (hX.warranted j p m ho) hI hmv hM ho
    · exact hout _ ho
  · by_cases hj : j = self.id
    · subst hj
      rw [Cluster.at_node_self]
      exact hn'
    · have hnj := hX.nodes j
      rw [Cluster.at_node_of_ne hj] at hnj ⊢
      refine Guarded.keep hnj hI hmv fun v t hv => (micro_votes hm hv).imp_right ?_
      rintro ⟨rfl, rfl⟩
      exact (own_tracks hM).term.le
  · by_cases hj : j = self.id
    · subst hj
      rw [Cluster.at_node_self]
      exact hr'
    · have hrj := hX.reached j
      rw [Cluster.at_node_of_ne hj] at hrj ⊢
      exact hrj.mono (List.prefix_append _ _)

theorem accounted_init : Accounted S blank S.init := by
  have hci : ∀ j, (S.init.node j).commitIndex = 0 := by
    intro j
    obtain ⟨l, ci, ai, m, s, hb, -, hl⟩ := boot_eq (S.params j) j 0 0 {}
    obtain ⟨-, rfl, -⟩ := hl rfl
    rw [show (S.init : Cluster ι σ δ).node j = _ from hb]
  exact ⟨(fun _ _ _ ho => by cases ho), fun j => .inl (.inl (hci j)), fun j => .inl (hci j),
    (fun _ _ _ _ _ _ _ _ ho => by cases ho), causal_nil⟩

end Pylog.Raft
