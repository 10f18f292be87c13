import Pylog.Raft.Logs

/-!
# Pylog.Raft.Commit — commit indexes and what is applied

A follower moves its commit index to `min leader_commit last_index` after a merge, and `last_index`
may lie past the window of the message.  `NoOverrun` says that what lies there is what the leader
has; along runs with it, every commit index covers committed entries only (`Safe`), so nodes apply
the same entries and a leader that committed in its term has everything that was committed.
-/

namespace Pylog.Raft

open Effect Transition Trace Replication

variable {ι σ δ : Type} [LinearOrder ι] {S : Setup ι σ δ} {c : Cluster ι σ δ} {e : Event ι δ}
  {i j : ι} {n n' n₀ : Node ι σ δ} {h h' : History ι σ δ} {self : Self ι σ δ} {k : Call ι δ}
  {a a' : State ι Entry}

/-- A follower is about to commit past the window of an append: its log holds the window and goes on
with an entry, up to the leader's commit index, that the leader does not have there. -/
def Cluster.overruns (c : Cluster ι σ δ) (i : ι) : Call ι δ → Bool
  | .handle (.append term leader prevIndex prevTerm entries commit) => decide (
      (c.node i).currentTerm ≤ term ∧ (c.node i).commitIndex < commit ∧
      (c.node i).log.termAt prevIndex = prevTerm ∧
      (∀ x ∈ entries, (c.node i).log.termAt x.index = (x.term : ℤ)) ∧
      ∃ index ≤ min commit (c.node i).log.lastIndex, prevIndex + entries.length < index ∧
        (c.node i).log.get index ≠ (c.node leader).log.get index)
  | _ => false

/-- No follower commits past the window of an append what the leader does not have. -/
def NoOverrun (c : Cluster ι σ δ) (e : Event ι δ) : Prop :=
  ∀ k ∈ e.action.made, c.overruns e.node k = false

instance (c : Cluster ι σ δ) (e : Event ι δ) : Decidable (NoOverrun c e) :=
  inferInstanceAs (Decidable (∀ k ∈ e.action.made, c.overruns e.node k = false))

/-! ### The invariant -/

/-- What an effect says about commitment. -/
def Setup.Vouched (S : Setup ι σ δ) (a : State ι Entry) : ι × Out ι σ δ → Prop
  | (_, .send _ (.append t _ _ _ _ ci)) => Secured Entry.term S.Quorum a t ci (a.llog t)
  | (_, .apply index x) => 0 < index ∧ ∃ T M, S.Sealed a T M ∧ index - 1 < M ∧
      (a.llog T)[index - 1]? = some x
  | _ => True

/-- A leader's commit index is not below what it committed in its term. -/
def Reigns (h : History ι σ δ) (i : ι) (n : Node ι σ δ) : Prop :=
  n.role = .leader → ∀ m n₁, (i, .commit m n₁) ∈ h → n₁.currentTerm = n.currentTerm →
    m ≤ n.commitIndex

structure Safe (S : Setup ι σ δ) (a : State ι Entry) (c : Cluster ι σ δ) : Prop where
  events : ∀ o ∈ c.history, S.Vouched a o
  nodes : ∀ j, Secured Entry.term S.Quorum a (c.node j).currentTerm (c.node j).commitIndex
    (c.node j).log.entries
  reigns : ∀ j, Reigns c.history j (c.node j)

theorem vouched_apply_mono {index : ℕ} {x : Entry} (hv : S.Vouched a (i, .apply index x))
    (hI : S.GhostInv a) (hm : Moved j a a') : S.Vouched a' (i, .apply index x) := by
  obtain ⟨h0, T, M, hs, hM, hx⟩ := hv
  have hled := hs.led quorum_meet hI
  refine ⟨h0, T, M, hs.mono hm.grows hm.acked hled, hM, ?_⟩
  obtain ⟨r, hr⟩ := hm.grows.llog T hled
  rw [← hr, List.getElem?_append_left (List.getElem?_eq_some_iff.mp hx).1]
  exact hx

theorem Vouched.mono {o : ι × Out ι σ δ} (hv : S.Vouched a o) (hI : S.GhostInv a)
    (hm : Moved i a a') (hM : Mirrors S a c) (ho : o ∈ c.history) : S.Vouched a' o := by
  obtain ⟨j, o⟩ := o
  cases o with
  | send p m =>
    cases m with
    | append t l pi pt es ci =>
      obtain ⟨hl, -⟩ := hM.events _ ho
      exact (Secured.mono quorum_meet hI hm.grows hm.acked hv).extend le_rfl
        (hm.grows.llog t (by rw [hl]; simp))
    | _ => trivial
  | apply index x => exact vouched_apply_mono hv hI hm
  | _ => trivial

/-- The invariant after a step of node `i`. -/
theorem Safe.put (hX : Safe S a (c.at i n h)) (hI : S.GhostInv a) (hM : Mirrors S a (c.at i n h))
    (hm : Moved i a a') (out : History ι σ δ) (hown : ∀ o ∈ out, o.1 = i)
    (hout : ∀ o ∈ out, S.Vouched a' o)
    (hn : Secured Entry.term S.Quorum a' n'.currentTerm n'.commitIndex n'.log.entries)
    (hr : Reigns (h ++ out) i n') : Safe S a' (c.at i n' (h ++ out)) := by
  have hg : Grown i h (h ++ out) := ⟨out, rfl, hown⟩
  refine ⟨fun o ho => ?_, fun j => ?_, fun j => ?_⟩
  · rcases List.mem_append.mp ho with ho | ho
    · exact Vouched.mono (hX.events o ho) hI hm hM ho
    · exact hout o ho
  · by_cases hj : j = i
    · subst hj
      rw [Cluster.at_node_self]
      exact hn
    · have hs := hX.nodes j
      rw [Cluster.at_node_of_ne hj] at hs ⊢
      exact Secured.mono quorum_meet hI hm.grows hm.acked hs
  · by_cases hj : j = i
    · subst hj
      rw [Cluster.at_node_self]
      exact hr
    · have hs := hX.reigns j
      rw [Cluster.at_node_of_ne hj] at hs ⊢
      exact fun hrole m n₁ h1 ht => hs hrole m n₁ (hg.mem_of_ne h1 hj) ht

/-! ### Steps that move the commit index -/

theorem get_of_take_prefix {src l : List Entry} {m q : ℕ} (hp : src.take m <+: l) (hq : q < m)
    (hm : q < src.length) : src[q]? = l[q]? := by
  obtain ⟨r, rfl⟩ := hp
  rw [List.getElem?_append_left (by rw [List.length_take]; omega), List.getElem?_take_of_lt hq]

theorem take_prefix_of_get {src l : List Entry} {m : ℕ}
    (h : ∀ q < m, src[q]? = l[q]?) : src.take m <+: l := by
  have heq : src.take m = l.take m := by
    refine List.ext_getElem? fun q => ?_
    rw [List.getElem?_take, List.getElem?_take]
    split_ifs with hq
    · exact h q hq
    · rfl
  rw [heq]
  exact List.take_prefix _ _

section Cases

variable (hI : S.GhostInv a) (hM : Mirrors S a (c.at i n h))

include hM

/-- The node after a merge holds the window, and past it what the leader holds: `n₀` is the node
before the call. -/
theorem agrees_past_window {x : ι} {pi : ℕ} {pt : ℤ} {es : List Entry} {ci m : ℕ} (hc : c.node i = n₀)
    (hp₀ : n₀.log.Plain) (hle : n₀.currentTerm ≤ n.currentTerm) (hlt : n₀.commitIndex < ci)
    (hin : InFlight h i (.append n.currentTerm x pi pt es ci))
    (hok : (n₀.log.merge pi pt es).ok = true) (hlog : n.log = (n₀.log.merge pi pt es).log)
    (hno : c.overruns i (.handle (.append n.currentTerm x pi pt es ci)) = false)
    (h1 : pi + es.length < m) (h2 : m ≤ min ci n.log.lastIndex) :
    n.log.get m = (c.node x).log.get m := by
  have htr := own_tracks hM
  obtain ⟨hpi, hpt, -⟩ := RaftLog.merge_ok hok
  rw [htr.plain.lastIndex] at h2
  obtain ⟨hsame, hterms⟩ := RaftLog.merge_long hp₀ hok (by rw [← hlog]; omega)
  rw [hsame] at hlog
  obtain ⟨j, hj⟩ := hin
  obtain ⟨hled, -, hw⟩ := hM.events _ hj
  have hwin : RaftLog.Window (a.llog n.currentTerm) pi pt es := by
    rcases hw with rfl | hw
    · exact absurd hok fun hok => RaftLog.merge_nowhere hp₀ hok
    · exact hw
  by_contra hne
  refine absurd hno (Bool.not_eq_false _ ▸ decide_eq_true ?_)
  rw [hc]
  refine ⟨hle, hlt, hpt, fun y hy => ?_, m, ?_, h1, by rw [← hlog]; exact hne⟩
  · obtain ⟨q, hq⟩ := List.mem_iff_getElem?.mp hy
    rw [hM.indexed _ (by rw [hled]; simp) _ _ (hwin.get hq), ← hterms q y hq]
    congr 1
    omega
  · rw [← hlog, htr.plain.lastIndex]
    exact h2

include hI

/-- **The commit rule of a follower.** -/
theorem secured_followCommit {x : ι} {pi : ℕ} {pt : ℤ} {es : List Entry} {ci : ℕ} (hc : c.node i = n₀)
    (hp₀ : n₀.log.Plain) (hle : n₀.currentTerm ≤ n.currentTerm) (hlt : n₀.commitIndex < ci)
    (hin : InFlight h i (.append n.currentTerm x pi pt es ci))
    (hok : (n₀.log.merge pi pt es).ok = true) (hlog : n.log = (n₀.log.merge pi pt es).log)
    (hno : c.overruns i (.handle (.append n.currentTerm x pi pt es ci)) = false)
    (hacc : (i, .accept n.currentTerm (n₀.log.merge pi pt es).matchIndex) ∈ h)
    (hs : Secured Entry.term S.Quorum a n.currentTerm ci (a.llog n.currentTerm)) :
    Secured Entry.term S.Quorum a n.currentTerm (min ci n.log.lastIndex) n.log.entries := by
  have htr := own_tracks hM
  have hack : pi + es.length ≤ a.acked i n.currentTerm := by
    rw [← (RaftLog.merge_ok hok).2.2]
    exact hM.events _ hacc
  have hled : a.leader n.currentTerm = some x := by
    obtain ⟨j, hj⟩ := id hin
    obtain ⟨hled, rfl, -⟩ := hM.events _ hj
    exact hled
  -- both the follower, up to the window's end, and the leader hold the leader's log of the term
  have hmine := (hs.take (min_le_left ci (pi + es.length))).kept quorum_meet hI
    ((min_le_right _ _).trans hack)
  have hhis := hs.kept quorum_meet hI (hs.length_le.trans (hI.own_ack _ x hled))
  rw [htr.log] at hmine
  have hci := hs.length_le
  have hpre : (a.llog n.currentTerm).take (min ci n.log.lastIndex) <+: n.log.entries := by
    by_cases hxi : x = i
    · rw [hxi, htr.log] at hhis
      exact (List.take_prefix_take_left (min_le_left _ _)).trans hhis
    have hx := hM.nodes x
    rw [Cluster.at_node_of_ne hxi] at hx
    rw [hx.log] at hhis
    refine take_prefix_of_get fun q hq => ?_
    by_cases hqw : q < pi + es.length
    · exact get_of_take_prefix hmine (by omega) (by omega)
    · have := agrees_past_window hM hc hp₀ hle hlt hin hok hlog hno
        (show pi + es.length < q + 1 by omega) hq
      rw [htr.plain.get, hx.plain.get] at this
      rw [this]
      exact get_of_take_prefix hhis (by omega) (by omega)
  rcases hs.take (min_le_left ci n.log.lastIndex) with h0 | ⟨T, M, hT, hm, hcom, hp⟩
  · exact .inl h0
  · exact .inr ⟨T, M, hT, hm, hcom,
      (List.prefix_take_iff.mpr ⟨hp, List.length_take_le _ _⟩).trans hpre⟩

end Cases

omit [LinearOrder ι] in
/-- An entry below the commit index of a node is committed. -/
theorem vouched_apply (hp : n.log.Plain)
    (hs : Secured Entry.term S.Quorum a n.currentTerm n.commitIndex n.log.entries) {index : ℕ} {x : Entry}
    (hlt : index < n.commitIndex) (hx : n.log.get (index + 1) = some x) :
    S.Vouched a (i, .apply (index + 1) x) := by
  rw [hp.get] at hx
  obtain ⟨T, M, hc, hk, heq⟩ := hs.get hlt
  exact ⟨Nat.succ_pos _, T, M, hc, hk, heq.trans hx⟩

/-- What was sent so far is vouched for. -/
def Setup.Warranted (S : Setup ι σ δ) (a : State ι Entry) (h : History ι σ δ) : Prop :=
  ∀ j p m, (j, .send p m) ∈ h → S.Vouched a (j, .send p m)

/-- The node is on committed entries after a step, and what the step emitted is vouched for. -/
def Setup.Secures (S : Setup ι σ δ) (a : State ι Entry) (n : Node ι σ δ) (h h' : History ι σ δ) : Prop :=
  (∃ out, h' = h ++ out ∧ ∀ o ∈ out, S.Vouched a o) ∧
    Secured Entry.term S.Quorum a n.currentTerm n.commitIndex n.log.entries

/-- **Every small step keeps the commit index of the node on committed entries.** -/
theorem secured_micro (hI : S.GhostInv a)
    (hmv : Moved self.id a a') (hM : Mirrors S a (c.at self.id n h))
    (hM' : Mirrors S a' (c.at self.id n' h')) (hev : S.Warranted a h)
    (hn : Secured Entry.term S.Quorum a n.currentTerm n.commitIndex n.log.entries)
    (hm : Micro self n₀ k (n, h) (n', h')) (hk : S.Tame self n₀ k) (ha : Arrived h self.id k)
    (hc : c.node self.id = n₀) (hp₀ : n₀.log.Plain) (hno : c.overruns self.id k = false) :
    S.Secures a' n' h h' := by
  have ht := own_tracks hM
  have ht' := own_tracks hM'
  have hn' := Secured.mono quorum_meet hI hmv.grows hmv.acked hn
  have hsecure (n' : Node ι σ δ) (out : History ι σ δ) (hout : ∀ o ∈ out, S.Vouched a' o)
      (hs : Secured Entry.term S.Quorum a' n'.currentTerm n'.commitIndex n'.log.entries) :
      S.Secures a' n' h (h ++ out) := ⟨⟨out, rfl, hout⟩, hs⟩
  have hstay (hs : Secured Entry.term S.Quorum a' n'.currentTerm n'.commitIndex n'.log.entries) :
      S.Secures a' n' h h := ⟨⟨[], by simp, by simp⟩, hs⟩
  cases hm with
  | raise _ _ t _ hlt =>
    exact hsecure _ _ (by simp [Setup.Vouched]) (hn'.extend hlt.le (List.prefix_refl _))
  | campaign _ _ _ d hr h0 hel he =>
    subst he
    exact hsecure _ _ (by simp [Setup.Vouched]) (hn'.extend (Nat.le_succ _) (List.prefix_refl _))
  | win _ _ _ hr hq he =>
    subst he
    exact hsecure _ _ (by simp [Setup.Vouched]) hn'
  | sendAppend _ _ p hr =>
    refine hsecure _ _ ?_ hn'
    simp only [List.mem_singleton, forall_eq]
    unfold Self.appendMsg
    dsimp only
    split_ifs
    · trivial
    · show Secured Entry.term S.Quorum a' n.currentTerm n.commitIndex (a'.llog n.currentTerm)
      rw [(ht'.office hr).llog]
      exact hn'
  | append _ _ payload hr hp =>
    exact hsecure _ _ (by simp [Setup.Vouched]) (hn'.extend le_rfl (List.prefix_append _ _))
  | reconfig _ _ _ new hr hch he =>
    have := hk.membership
    rcases hch.2 with ⟨x, rfl, -⟩ | ⟨x, rfl, -⟩ <;> cases this
  | commit _ _ m hr hcm =>
    obtain ⟨-, hsealed, -, htake⟩ := hM'.events (self.id, .commit m n) (by simp)
    refine hsecure _ _ (by simp [Setup.Vouched]) (.inr ⟨n.currentTerm, m, le_rfl, le_rfl, hsealed, ?_⟩)
    rw [← htake]
    exact List.take_prefix _ _
  | apply _ _ x machine hlt hx hcf hap =>
    refine hsecure _ _ ?_ hn'
    simpa using vouched_apply_mono (vouched_apply ht.plain hn hlt hx) hI hmv
  | adopt _ _ _ x servers hlt hx hcf hr he =>
    subst he
    refine hsecure _ _ ?_ hn'
    simpa using vouched_apply_mono (vouched_apply ht.plain hn hlt hx) hI hmv
  | merge _ _ x pi pt es ci r hk' hr hlog hci hle hj hr' =>
    subst hr'
    refine hsecure _ _ ?_ (Secured.mono quorum_meet hI hmv.grows hmv.acked ?_)
    · split_ifs <;> simp [Setup.Vouched]
    · cases hok : (n.log.merge pi pt es).ok with
      | true =>
        obtain ⟨hled, -, -, -, hcopy⟩ := merge_copies hI hM (ha _ hk') hok
        exact hn.copy quorum_meet hI (by rw [hled]; simp) hcopy
      | false =>
        rw [RaftLog.merge_fails hok]
        exact hn
  | followCommit _ _ x pi pt es ci r hk' hr hr' hok hlog hci hle hacc hlt =>
    subst hr' hk'
    have hin := ha _ rfl
    obtain ⟨j, hj⟩ := id hin
    exact hstay (Secured.mono quorum_meet hI hmv.grows hmv.acked (secured_followCommit hI hM hc hp₀ hle
      (hci ▸ hlt) hin hok hlog hno hacc (hev _ _ _ hj)))
  | snapFile _ _ s hs' hd => exact (hM.no_snapshot hk ha hs').elim
  | snapMark _ _ s hs' => exact (hM.no_snapshot hk ha hs').elim
  | compact _ _ s l hk' hs' hc => exact (hM.no_snapshot hk ha (.inl ⟨hs', hk'⟩)).elim
  | install _ _ x s l m hk' => exact (hM.no_install ha hk').elim
  | installIndex _ _ x s b hk' => exact (hM.no_install ha hk').elim
  | ackInstall _ _ x s hk' => exact (hM.no_install ha hk').elim
  | _ =>
    first
    | exact hstay hn'
    | exact hsecure _ _ (by simp [Setup.Vouched]) hn'

/-- **Every small step keeps a leader's commit index on what it committed.** -/
theorem reigns_micro (hM : Mirrors S a (c.at self.id n h)) (hr : Reigns h self.id n)
    (hm : Micro self n₀ k (n, h) (n', h')) : Reigns h' self.id n' := by
  have ht := own_tracks hM
  cases hm with
  | raise => intro hrole; cases hrole
  | retreat => intro hrole; cases hrole
  | campaign _ _ _ d hr' h0 hel he =>
    subst he
    intro hrole
    cases hrole
  | win _ _ _ hr' hq he =>
    subst he
    -- it has led this term at no time before
    intro _ m n₁ h1 ht₁
    have h1 : (self.id, Out.commit m n₁) ∈ h := by simpa using h1
    obtain ⟨hl, -⟩ := hM.events _ h1
    rw [ht₁] at hl
    exact absurd hl (ht.runner hr').1
  | commit _ _ m hrole hcm =>
    intro _ m' n₁ h1 ht₁
    rcases List.mem_append.mp h1 with h1 | h1
    · exact (hr hrole m' n₁ h1 ht₁).trans (findCommit_spec hcm).1.le
    · obtain ⟨rfl, -⟩ : m' = m ∧ n₁ = n := by simpa using h1
      exact le_rfl
  | followCommit _ _ x pi pt es ci r hk' hr' =>
    intro hrole
    rw [show n.role = .leader from hrole] at hr'
    cases hr'
  | installIndex _ _ x s b hk' hr' =>
    intro hrole
    rw [show n.role = .leader from hrole] at hr'
    cases hr'
  | merge _ _ x pi pt es ci r hk' hr' =>
    intro hrole
    rw [show n.role = .leader from hrole] at hr'
    cases hr'
  | reconfig _ _ _ new hr' hch he =>
    subst he
    exact fun hrole m n₁ h1 ht₁ => hr hrole m n₁ (by simpa using h1) ht₁
  | adopt _ _ _ x servers hlt hx hcf hr' he =>
    subst he
    exact fun hrole m n₁ h1 ht₁ => hr hrole m n₁ (by simpa using h1) ht₁
  | _ =>
    first
    | exact hr
    | exact fun hrole m n₁ h1 ht₁ => hr hrole m n₁ (by simpa using h1) ht₁

/-- **Every small step keeps commit indexes on committed entries.** -/
theorem safe_micro (hI : S.GhostInv a)
    (hmv : Moved self.id a a') (hM : Mirrors S a (c.at self.id n h))
    (hM' : Mirrors S a' (c.at self.id n' h')) (hX : Safe S a (c.at self.id n h))
    (hm : Micro self n₀ k (n, h) (n', h')) (hk : S.Tame self n₀ k) (ha : Arrived h self.id k)
    (hc : c.node self.id = n₀) (hp₀ : n₀.log.Plain) (hno : c.overruns self.id k = false) :
    Safe S a' (c.at self.id n' h') := by
  have hn := hX.nodes self.id
  have hreign := hX.reigns self.id
  rw [Cluster.at_node_self] at hn hreign
  have hreign' := reigns_micro hM hreign hm
  obtain ⟨⟨out, rfl, hout⟩, hn'⟩ :=
    secured_micro hI hmv hM hM' (fun _ _ _ ho => hX.events _ ho) hn hm hk ha hc hp₀ hno
  obtain ⟨out', heq, hown⟩ := micro_own hm
  obtain rfl : out = out' := List.append_cancel_left heq
  exact hX.put hI hM hmv out hown hout hn' hreign'

/-- A restart resets the commit index. -/
theorem safe_restart (hX : Safe S a c) (hM : Mirrors S a c) (now draw : ℚ) :
    Safe S a (c.at i ((S.params i).boot i now draw (c.node i).durable) c.history) := by
  obtain ⟨l, ci, ai, m, s, hb, -, hl⟩ := boot_eq (S.params i) i now draw (c.node i).durable
  obtain ⟨-, rfl, -⟩ := hl (hM.nodes i).files
  refine ⟨hX.events, fun j => ?_, fun j => ?_⟩
  · by_cases hj : j = i
    · rw [hj, Cluster.at_node_self, hb]
      exact .inl rfl
    · rw [Cluster.at_node_of_ne hj]
      exact hX.nodes j
  · by_cases hj : j = i
    · rw [hj, Cluster.at_node_self, hb]
      intro hr
      cases hr
    · rw [Cluster.at_node_of_ne hj]
      exact hX.reigns j

theorem safe_init : Safe S blank S.init := by
  refine ⟨(fun o ho => by cases ho), fun j => ?_, fun j _ m n₁ h1 => (by cases h1)⟩
  obtain ⟨l, ci, ai, m, s, hb, -, hl⟩ := boot_eq (S.params j) j 0 0 {}
  obtain ⟨-, rfl, -⟩ := hl rfl
  rw [show (S.init : Cluster ι σ δ).node j = _ from hb]
  exact .inl rfl

/-- Runs without overruns keep commit indexes on committed entries, with any further fact `X` that the
small steps and restarts keep. -/
theorem safe_from (X : State ι Entry → Cluster ι σ δ → Prop) {c₀ : Cluster ι σ δ} (hS : S.FullMesh)
    (hauto : S.NoAutoSnapshot)
    (h0 : S.Sane c₀ ∧ ∃ a, S.GhostInv a ∧ Mirrors S a c₀ ∧ Safe S a c₀ ∧ X a c₀)
    (hmicro : ∀ c e k p q a a', S.Ordered c e → k ∈ e.action.made → Grown e.node c.history p.2 →
      Micro (S.self e) (c.node e.node) k p q → S.GhostInv a → Moved e.node a a' →
      Mirrors S a (c.at e.node p.1 p.2) → X a (c.at e.node p.1 p.2) → X a' (c.at e.node q.1 q.2))
    (hboot : ∀ c i a now draw, Mirrors S a c → X a c →
      X a (c.at i ((S.params i).boot i now draw (c.node i).durable) c.history))
    (hr : Reach S.step (fun c e => S.Ordered c e ∧ NoOverrun c e) c₀ c) :
    S.Sane c ∧ ∃ a, S.GhostInv a ∧ Mirrors S a c ∧ Safe S a c ∧ X a c := by
  refine mirrored_from (fun a c => Safe S a c ∧ X a c) hS hauto h0 ?_ ?_ hr
  · intro c e k p q a a' he hno hmade hplain hg hm hI hI' hmv hM hM' hsane hX
    have ha := (arrived_of_enabled he.1 hmade).mono hg.isPrefix
    exact ⟨safe_micro hI hmv hM hM' hX.1 hm (he.tame hauto hmade) ha rfl (hplain _)
      (hno k hmade), hmicro c e k p q a a' he hmade hg hm hI hmv hM hX.2⟩
  · intro c i a now draw hI hM hX
    exact ⟨safe_restart hX.1 hM now draw, hboot c i a now draw hM hX.2⟩

/-- **Commit indexes cover committed entries only**, in every run without overruns. -/
theorem safe_sane (hS : S.FullMesh) (hauto : S.NoAutoSnapshot)
    (hr : Reach S.step (fun c e => S.Ordered c e ∧ NoOverrun c e) S.init c) :
    S.Sane c ∧ ∃ a, S.GhostInv a ∧ Mirrors S a c ∧ Safe S a c := by
  have h0 : S.Sane S.init ∧ ∃ a, S.GhostInv a ∧ Mirrors S a S.init ∧ Safe S a S.init ∧ True :=
    ⟨⟨electionsKept_init, fixed_init hS⟩, blank, ghostInv_blank, mirrors_init, safe_init, trivial⟩
  obtain ⟨hsane, a, hI, hM, hX, -⟩ := safe_from (fun _ _ => True) hS hauto h0
    (fun _ _ _ _ _ _ _ _ _ _ _ _ _ _ _ => trivial) (fun _ _ _ _ _ _ _ => trivial) hr
  exact ⟨hsane, a, hI, hM, hX⟩

theorem safe_reach (hS : S.FullMesh) (hauto : S.NoAutoSnapshot)
    (hr : Reach S.step (fun c e => S.Ordered c e ∧ NoOverrun c e) S.init c) :
    ∃ a, S.GhostInv a ∧ Mirrors S a c ∧ Safe S a c := (safe_sane hS hauto hr).2

/-! ### State machine safety -/

/-- Node `i` applied `x` at `index`. -/
def Applied (h : History ι σ δ) (i : ι) (index : ℕ) (x : Entry) : Prop := (i, .apply index x) ∈ h

instance (h : History ι σ δ) (i : ι) (index : ℕ) (x : Entry) : Decidable (Applied h i index x) :=
  decidable_of_iff (h.any fun o => match o.2 with
    | .apply m y => decide (o.1 = i ∧ m = index ∧ y = x)
    | _ => false) <| by
    rw [List.any_eq_true]
    constructor
    · rintro ⟨⟨j, o⟩, ho, hm⟩
      cases o with
      | apply m y =>
        obtain ⟨rfl, rfl, rfl⟩ := of_decide_eq_true hm
        exact ho
      | _ => cases hm
    · intro hx
      exact ⟨_, hx, decide_eq_true ⟨rfl, rfl, rfl⟩⟩

/-- **State machine safety**, in runs without overruns: two nodes that apply an entry at one index
apply the same entry. -/
theorem state_machine_safety (hS : S.FullMesh) (hauto : S.NoAutoSnapshot) (hoff : S.PrevoteOff)
    (hr : Reach S.step (fun c e => S.Enabled c e ∧ e.KeepsMembership S ∧ e.Plain ∧ NoOverrun c e)
      S.init c) {index : ℕ} {x y : Entry} (hx : Applied c.history i index x)
    (hy : Applied c.history j index y) : x = y := by
  obtain ⟨a, hI, -, hX⟩ := safe_reach hS hauto (ordered_of_prevoteOff hoff hr)
  obtain ⟨-, T, M, hc, hlt, hT⟩ := hX.events _ hx
  obtain ⟨-, T', M', hc', hlt', hT'⟩ := hX.events _ hy
  have heq := committed_agree quorum_meet hI hc hc' hlt hlt'
  rw [hT, hT'] at heq
  exact Option.some.inj heq

/-- Server 0 commits its first entry with server 1, which hears of it by a heartbeat. -/
def heartbeat : List (Event ℕ Unit) :=
  handover.take 5 ++ [callAt 1060 0 .tick, callAt 1061 1 (.handle (.append 1 0 1 1 [] 1))]

theorem state_machine_safety_heartbeat :
    let c := (lab 3 false 256).replay heartbeat
    ∃ x y, Applied c.history 0 1 x ∧ Applied c.history 1 1 y ∧ x = y := by
  intro c
  have h0 : Applied c.history 0 1 ⟨1, 1, noop⟩ := by decide +kernel
  have h1 : Applied c.history 1 1 ⟨1, 1, noop⟩ := by decide +kernel
  exact ⟨_, _, h0, h1, state_machine_safety (lab_fullMesh 3 false 256)
    (lab_noAutoSnapshot 3 false 256) (lab_prevoteOff 3 256)
    (reach_replay heartbeat (by decide +kernel)) h0 h1⟩

/-- Batches of one entry.  Server 0 leads term 1 and proposes an entry nobody else gets; server 1
leads terms 2 and 3, commits up to index 3 with server 2 and then repairs server 0 from index 1 on. -/
def overrun : List (Event ℕ Unit) :=
  [callAt 1000 0 .tick, callAt 1001 1 (.handle (.vote 1 0 0 0)),
   callAt 1002 0 (.handle (.voteResp 1 1 true)),
   callAt 1003 1 (.handle (.append 1 0 0 0 [⟨1, 1, noop⟩] 0)),
   callAt 1003 2 (.handle (.append 1 0 0 0 [⟨1, 1, noop⟩] 0)),
   callAt 1004 0 (.propose [7]),
   callAt 2000 1 .tick, callAt 2001 2 (.handle (.vote 2 1 1 1)),
   callAt 2002 1 (.handle (.voteResp 2 2 true)),
   callAt 2003 2 (.handle (.append 2 1 1 1 [⟨2, 2, noop⟩] 0)),
   callAt 3300 1 .tick, callAt 3500 1 .tick, callAt 3501 2 (.handle (.vote 3 1 2 2)),
   callAt 3502 1 (.handle (.voteResp 3 2 true)),
   callAt 3503 2 (.handle (.append 3 1 2 2 [⟨3, 3, noop⟩] 0)),
   callAt 3504 1 (.handle (.appendResp 3 2 true 3 (some 0))),
   callAt 3505 0 (.handle (.append 3 1 2 2 [⟨3, 3, noop⟩] 0)),
   callAt 3506 1 (.handle (.appendResp 3 0 false 0 (some 1))),
   callAt 3507 0 (.handle (.append 3 1 0 0 [⟨1, 1, noop⟩] 3))]

/-- Server 0 holds the window of the last append and applies the entry that lies past it, where
server 1 applied its own. -/
theorem state_machine_unsafe_by_overrun :
    ∃ c, Reach (lab 3 false 1).step (fun c e => (lab 3 false 1).Enabled c e ∧
      e.KeepsMembership (lab 3 false 1) ∧ e.Plain) (lab 3 false 1).init c ∧
      Applied c.history 0 2 ⟨2, 1, [7]⟩ ∧ Applied c.history 1 2 ⟨2, 2, noop⟩ ∧
      (⟨2, 1, [7]⟩ : Entry) ≠ ⟨2, 2, noop⟩ :=
  ⟨(lab 3 false 1).replay overrun, reach_replay overrun (by decide +kernel), by decide +kernel,
    by decide +kernel, by decide⟩

/-! ### Lease reads -/

/-- `can_serve_linearizable_read()` of a node at a time. -/
def Setup.canServe (S : Setup ι σ δ) (c : Cluster ι σ δ) (i : ι) (now : ℚ) : Bool :=
  Self.canServeLinearizableRead { S.params i with id := i, now := now, draw := 0 } (c.node i)

/-- A leader that committed in its term has everything of earlier terms. -/
theorem covers_earlier (hI : S.GhostInv a) (hM : Mirrors S a c) (hrole : (c.node i).role = .leader)
    (hown : (c.node i).log.termAt (c.node i).commitIndex = (c.node i).currentTerm) {T m : ℕ}
    (hs : S.Sealed a T m) (hT : T < (c.node i).currentTerm) : m ≤ (c.node i).commitIndex := by
  have ht := hM.nodes i
  have ho := ht.office hrole
  have hled : a.leader (c.node i).currentTerm ≠ none := by rw [ho.leader]; simp
  by_contra hlt
  cases hq : (c.node i).commitIndex with
  | zero =>
    rw [hq] at hown
    have : (0 : ℤ) = (c.node i).currentTerm := hown
    omega
  | succ q =>
    rw [hq] at hown hlt
    have hbase := Replication.leader_completeness quorum_meet hI hs _ hT hled
    have hlen := hs.length_le
    obtain ⟨x, hx⟩ : ∃ x, (a.llog T)[q]? = some x := ⟨_, List.getElem?_eq_getElem (by omega)⟩
    have hxb : (a.base (c.node i).currentTerm)[q]? = some x := by
      rw [← get_of_take_prefix hbase (by omega) (by omega)]
      exact hx
    have hxl : (c.node i).log.entries[q]? = some x := by
      obtain ⟨r, hr⟩ := hI.base_prefix hled
      rw [← ho.llog, ← hr, List.getElem?_append_left (List.getElem?_eq_some_iff.mp hxb).1]
      exact hxb
    rw [ht.plain.termAt, RaftLog.termBefore_succ hxl] at hown
    have := hI.base_lt _ hled x (List.mem_of_getElem? hxb)
    omega

/-- **Lease reads**, for a leader that applied all it committed, the last of it of its own term,
while nobody committed in a later term: what any leader committed is applied, with the same
entries. -/
theorem lease_read_covers (hS : S.FullMesh) (hauto : S.NoAutoSnapshot)
    (hr : Reach S.step (fun c e => S.Ordered c e ∧ NoOverrun c e) S.init c) {now : ℚ}
    (hserve : S.canServe c i now = true)
    (happ : (c.node i).appliedIndex = (c.node i).commitIndex)
    (hown : (c.node i).log.termAt (c.node i).commitIndex = (c.node i).currentTerm)
    (hlast : ∀ j m n, (j, .commit m n) ∈ c.history → n.currentTerm ≤ (c.node i).currentTerm)
    {m : ℕ} (hc : (j, .commit m n) ∈ c.history) :
    m ≤ (c.node i).appliedIndex ∧ ∀ index, 1 ≤ index → index ≤ m → ∃ x,
      n.log.get index = some x ∧ (c.node i).log.get index = some x ∧
      ∀ y, Applied c.history i index y → y = x := by
  obtain ⟨a, hI, hM, hX⟩ := safe_reach hS hauto hr
  unfold Setup.canServe Self.canServeLinearizableRead at hserve
  rw [Bool.and_eq_true] at hserve
  have hrole : (c.node i).role = .leader := of_decide_eq_true hserve.1
  have ht := hM.nodes i
  have ho := ht.office hrole
  obtain ⟨hled, hs, hplain, htake⟩ := hM.events _ hc
  have hle := hlast _ _ _ hc
  refine ⟨?_, fun index h1 h2 => ?_⟩
  · rw [happ]
    rcases Nat.lt_or_ge n.currentTerm (c.node i).currentTerm with hlt | hge
    · exact covers_earlier hI hM hrole hown hs hlt
    · have heq := le_antisymm hle hge
      rw [heq, ho.leader] at hled
      cases hled
      exact hX.reigns i hrole m n hc heq
  · obtain ⟨q, rfl⟩ := Nat.exists_eq_succ_of_ne_zero (show index ≠ 0 by omega)
    have hlen := hs.length_le
    obtain ⟨x, hx⟩ : ∃ x, (a.llog n.currentTerm)[q]? = some x :=
      ⟨_, List.getElem?_eq_getElem (by omega)⟩
    have hin := hs.in_llog quorum_meet hI hle (by rw [ho.leader]; simp)
    refine ⟨x, ?_, ?_, fun y hy => ?_⟩
    · rw [hplain.get, ← List.getElem?_take_of_lt (show q < m by omega), htake,
        List.getElem?_take_of_lt (by omega)]
      exact hx
    · rw [ht.plain.get, ← ho.llog, ← get_of_take_prefix hin (by omega) (by omega)]
      exact hx
    · obtain ⟨-, T, M, hs', hlt', hy'⟩ := hX.events _ hy
      have heq := committed_agree quorum_meet hI hs' hs hlt' (show q < m by omega)
      have heq := hy'.symm.trans (heq.trans hx)
      exact Option.some.inj heq

/-- Every commit so far is of a term up to `t`. -/
def committedWithin (h : History ι σ δ) (t : ℕ) : Bool :=
  h.all fun o => match o.2 with
    | .commit _ n => decide (n.currentTerm ≤ t)
    | _ => true

omit [LinearOrder ι] in
theorem currentTerm_le_of_committedWithin {h : History ι σ δ} {t : ℕ}
    (hall : committedWithin h t = true) {j : ι} {m : ℕ} {n : Node ι σ δ}
    (hn : (j, .commit m n) ∈ h) : n.currentTerm ≤ t :=
  of_decide_eq_true (List.all_eq_true.mp hall _ hn)

theorem lease_read_covers_heartbeat :
    let c := (lab 3 false 256).replay heartbeat
    (lab 3 false 256).canServe c 0 1062 = true ∧ ∃ n, (0, .commit 1 n) ∈ c.history ∧
      1 ≤ (c.node 0).appliedIndex ∧ ∀ index, 1 ≤ index → index ≤ 1 → ∃ x,
        n.log.get index = some x ∧ (c.node 0).log.get index = some x ∧
        ∀ y, Applied c.history 0 index y → y = x := by
  intro c
  have hserve : (lab 3 false 256).canServe c 0 1062 = true := by decide +kernel
  obtain ⟨n, hn, -⟩ : Advanced c.history 0 1 1 := by decide +kernel
  refine ⟨hserve, n, hn, lease_read_covers (lab_fullMesh 3 false 256) (lab_noAutoSnapshot 3 false 256)
    (ordered_of_prevoteOff (lab_prevoteOff 3 256) (reach_replay heartbeat (by decide +kernel)))
    hserve (by decide +kernel) (by decide +kernel) ?_ hn⟩
  have hall : committedWithin c.history (c.node 0).currentTerm = true := by decide +kernel
  exact fun _ _ _ hn => currentTerm_le_of_committedWithin hall hn

/-- A leader serves reads as soon as it is elected: server 0 committed index 1, server 1 has applied
nothing. -/
theorem lease_read_stale :
    ∃ c, Reach (lab 3 false 256).step (fun c e => (lab 3 false 256).Enabled c e ∧
      e.KeepsMembership (lab 3 false 256) ∧ e.Plain) (lab 3 false 256).init c ∧
      (handover.map Event.now).Pairwise (· ≤ ·) ∧ c = (lab 3 false 256).replay handover ∧
      (lab 3 false 256).canServe c 1 2002 = true ∧ Advanced c.history 0 1 1 ∧
      (c.node 1).appliedIndex = 0 :=
  ⟨_, reach_replay handover handover_allowed, by decide +kernel, rfl, by decide +kernel,
    by decide +kernel, by decide +kernel⟩

end Pylog.Raft
