import Pylog.Raft.Commit

/-!
# Pylog.Raft.Permanence — what was committed, from then on

Two moments of one run, with pre-vote on or off and no stray pre-votes.  What a leader commits is in
the logs of a majority of the servers ever after, and in that of every leader of its term or a later
one (`committed_on_majority`).  Without overruns, what a node has committed stays in its log and is
what every node commits there at any other moment (`committed_stays`).
-/

namespace Pylog.Raft

open Effect Transition Trace Replication

variable {ι σ δ : Type} [LinearOrder ι] {S : Setup ι σ δ} {c c' : Cluster ι σ δ} {e : Event ι δ}
  {i j : ι} {n n' n₀ : Node ι σ δ} {h h' : History ι σ δ} {self : Self ι σ δ} {k : Call ι δ}
  {a a' : State ι Entry} {l : List Entry}

instance [DecidableEq δ] (c : Cluster ι σ δ) (e : Event ι δ) : Decidable (S.Ordered c e) :=
  inferInstanceAs (Decidable (_ ∧ _ ∧ _ ∧ _))

/-! ### A committed part of a log -/

/-- `l` is committed and the start of the node's log. -/
structure Anchored (S : Setup ι σ δ) (a : State ι Entry) (l : List Entry) (n : Node ι σ δ) : Prop where
  part : l <+: n.log.entries
  secured : Secured Entry.term S.Quorum a n.currentTerm l.length n.log.entries

omit [LinearOrder ι] in
theorem Anchored.of_secured {m : ℕ}
    (hn : Secured Entry.term S.Quorum a n.currentTerm m n.log.entries) :
    Anchored S a (n.log.entries.take m) n := by
  refine ⟨List.take_prefix _ _, ?_⟩
  rw [List.length_take, min_eq_left hn.length_le]
  exact hn

theorem Anchored.mono (hn : Anchored S a l n) (hI : S.GhostInv a) (hm : Moved i a a') :
    Anchored S a' l n :=
  ⟨hn.part, Secured.mono quorum_meet hI hm.grows hm.acked hn.secured⟩

omit [LinearOrder ι] in
/-- The log grows at its end. -/
theorem Anchored.extend (hn : Anchored S a l n) (ht : n.currentTerm ≤ n'.currentTerm)
    (hlog : n.log.entries <+: n'.log.entries) : Anchored S a l n' :=
  ⟨hn.part.trans hlog, hn.secured.extend ht hlog⟩

omit [LinearOrder ι] in
theorem Anchored.same (hn : Anchored S a l n) (ht : n'.currentTerm = n.currentTerm)
    (hlog : n'.log = n.log) : Anchored S a l n' :=
  hn.extend ht.ge (by rw [hlog])

omit [LinearOrder ι] in
/-- The committed part itself. -/
theorem Anchored.take (hn : Anchored S a l n) : n.log.entries.take l.length = l :=
  (List.prefix_iff_eq_take.mp hn.part).symm

/-- A merge of a message of the leader of the term keeps what is committed. -/
theorem Anchored.merge (hn : Anchored S a l n) (hI : S.GhostInv a) (hM : Mirrors S a (c.at i n h))
    {x : ι} {pi : ℕ} {pt : ℤ} {es : List Entry} {ci : ℕ}
    (hin : InFlight h i (.append n.currentTerm x pi pt es ci)) :
    Anchored S a l { n with log := (n.log.merge pi pt es).log } := by
  cases hok : (n.log.merge pi pt es).ok with
  | false =>
    rw [RaftLog.merge_fails hok]
    exact hn
  | true =>
    obtain ⟨hled, -, -, -, hcopy⟩ := merge_copies hI hM hin hok
    have hled : a.leader n.currentTerm ≠ none := by rw [hled]; simp
    have hsrc := Secured.in_llog quorum_meet hI hn.secured hled
    rw [hn.take] at hsrc
    exact ⟨copy_keeps hcopy hn.part hsrc, Secured.copy quorum_meet hI hn.secured hled hcopy⟩

/-- **Every small step keeps a committed part of the node's log.** -/
theorem anchored_micro (hI : S.GhostInv a) (hmv : Moved self.id a a')
    (hM : Mirrors S a (c.at self.id n h)) (hm : Micro self n₀ k (n, h) (n', h'))
    (hk : S.Tame self n₀ k) (ha : Arrived h self.id k) (hn : Anchored S a l n) :
    Anchored S a' l n' := by
  cases hm with
  | raise _ _ t _ hlt => exact (hn.mono hI hmv).extend hlt.le (List.prefix_refl _)
  | campaign _ _ _ d hr h0 hel he =>
    subst he
    exact (hn.mono hI hmv).extend (Nat.le_succ _) (List.prefix_refl _)
  | win _ _ _ hr hq he =>
    subst he
    exact (hn.mono hI hmv).same rfl rfl
  | append _ _ payload hr hp => exact (hn.mono hI hmv).extend le_rfl (List.prefix_append _ _)
  | reconfig _ _ _ new hr hch he =>
    have := hk.membership
    rcases hch.2 with ⟨x, rfl, -⟩ | ⟨x, rfl, -⟩ <;> cases this
  | adopt _ _ _ x servers hlt hx hcf hr he =>
    subst he
    exact (hn.mono hI hmv).same rfl rfl
  | merge _ _ x pi pt es ci r hk' hr hlog hci hle hj hr' =>
    subst hr'
    exact (hn.merge hI hM (ha _ hk')).mono hI hmv
  | snapFile _ _ s hs' hd => exact (hM.no_snapshot hk ha hs').elim
  | snapMark _ _ s hs' => exact (hM.no_snapshot hk ha hs').elim
  | compact _ _ s l hk' hs' hc => exact (hM.no_snapshot hk ha (.inl ⟨hs', hk'⟩)).elim
  | install _ _ x s l m hk' => exact (hM.no_install ha hk').elim
  | installIndex _ _ x s b hk' => exact (hM.no_install ha hk').elim
  | _ => exact (hn.mono hI hmv).same rfl rfl

/-- A restart keeps the log. -/
theorem anchored_restart (hM : Mirrors S a c) (hn : Anchored S a l (c.node i)) (now draw : ℚ) :
    Anchored S a l ((S.params i).boot i now draw (c.node i).durable) := by
  obtain ⟨l', ci, ai, m, s, hb, -, hl⟩ := boot_eq (S.params i) i now draw (c.node i).durable
  obtain ⟨rfl, -⟩ := hl (hM.nodes i).files
  rw [hb]
  exact hn.same rfl rfl

/-! ### Majorities -/

/-- **What a leader commits stays on a majority**, and every leader of its term or a later one has it. -/
theorem committed_on_majority (hS : S.FullMesh) (hauto : S.NoAutoSnapshot)
    (hr : Reach S.step S.Ordered S.init c) {m : ℕ} (hc : (i, .commit m n) ∈ c.history) :
    m ≤ n.log.entries.length ∧
    S.servers.card / 2 <
      (S.servers.filter fun v => n.log.entries.take m <+: (c.node v).log.entries).card ∧
    ∀ j, (c.node j).role = .leader → n.currentTerm ≤ (c.node j).currentTerm →
      n.log.entries.take m <+: (c.node j).log.entries := by
  have hr : Reach S.step (fun c e => S.Ordered c e ∧ True) S.init c :=
    hr.mono fun _ _ he => ⟨he, trivial⟩
  obtain ⟨-, a, hI, hM, -⟩ := mirrored_reach (fun _ _ => True) hS hauto trivial
    (fun _ _ _ _ _ _ _ _ _ _ _ _ _ _ _ _ _ _ _ _ => trivial) (fun _ _ _ _ _ _ _ _ => trivial) hr
  obtain ⟨hled, hs, -, htake⟩ := hM.events _ hc
  have hsec : Secured Entry.term S.Quorum a n.currentTerm m (a.llog n.currentTerm) :=
    .inr ⟨_, m, le_rfl, le_rfl, hs, List.take_prefix _ _⟩
  refine ⟨?_, ?_, fun j hj ht => ?_⟩
  · have hlen := congrArg List.length htake
    have := hs.length_le
    rw [List.length_take, List.length_take] at hlen
    omega
  · obtain ⟨-, -, Q, ⟨hQ, hcard⟩, hack⟩ := hs
    refine hcard.trans_le (Finset.card_le_card fun v hv => ?_)
    have hkept := hsec.kept quorum_meet hI (hack v hv)
    rw [(hM.nodes v).log, ← htake] at hkept
    exact Finset.mem_filter.mpr ⟨hQ hv, hkept⟩
  · have ho := (hM.nodes j).office hj
    rw [htake, ← ho.llog]
    exact hs.in_llog quorum_meet hI ht (by rw [ho.leader]; simp)

/-- With pre-vote: server 0 leads term 1 and commits its first entry with server 1. -/
def firstTerm : List (Event ℕ Unit) :=
  [callAt 1000 0 .tick, callAt 1001 1 (.handle (.prevote 1 0 0 0)),
   callAt 1002 0 (.handle (.prevoteResp 1 1 true)), callAt 1003 1 (.handle (.vote 1 0 0 0)),
   callAt 1004 0 (.handle (.voteResp 1 1 true)),
   callAt 1005 1 (.handle (.append 1 0 0 0 [⟨1, 1, noop⟩] 0)),
   callAt 1006 0 (.handle (.appendResp 1 1 true 1 (some 0)))]

/-- Server 0 restarts; server 1 leads term 2, repairs server 2 and commits both entries with it. -/
def secondTerm : List (Event ℕ Unit) :=
  [⟨0, 1900, 0, .restart⟩, callAt 2000 1 .tick, callAt 2001 2 (.handle (.prevote 2 1 1 1)),
   callAt 2002 1 (.handle (.prevoteResp 2 2 true)), callAt 2003 2 (.handle (.vote 2 1 1 1)),
   callAt 2004 1 (.handle (.voteResp 2 2 true)),
   callAt 2005 2 (.handle (.append 2 1 1 1 [⟨2, 2, noop⟩] 0)),
   callAt 2006 1 (.handle (.appendResp 2 2 false 0 (some 1))),
   callAt 2007 2 (.handle (.append 2 1 0 0 [⟨1, 1, noop⟩, ⟨2, 2, noop⟩] 0)),
   callAt 2008 1 (.handle (.appendResp 2 2 true 2 (some 0)))]

theorem committed_on_majority_terms :
    let S := lab 3 true 256
    let c := S.replay (firstTerm ++ secondTerm)
    ∃ n, (0, .commit 1 n) ∈ c.history ∧ n.currentTerm = 1 ∧ 1 ≤ n.log.entries.length ∧
      1 < (S.servers.filter fun v => n.log.entries.take 1 <+: (c.node v).log.entries).card ∧
      n.log.entries.take 1 <+: (c.node 1).log.entries := by
  intro S c
  obtain ⟨n, hn, ht⟩ : Advanced c.history 0 1 1 := by decide +kernel
  have hr : Reach S.step S.Ordered S.init c :=
    reach_replay (firstTerm ++ secondTerm) (by decide +kernel)
  have hterm : (c.node 1).currentTerm = 2 := by decide +kernel
  obtain ⟨hlen, hmajority, hleader⟩ :=
    committed_on_majority (lab_fullMesh 3 true 256) (lab_noAutoSnapshot 3 true 256) hr hn
  exact ⟨n, hn, ht, hlen, hmajority, hleader 1 (by decide +kernel) (by omega)⟩

/-! ### Two moments of a run -/

/-- What a node has committed at one moment, at a later one. -/
theorem anchored_reach (hS : S.FullMesh) (hauto : S.NoAutoSnapshot)
    (hr : Reach S.step (fun c e => S.Ordered c e ∧ NoOverrun c e) S.init c)
    (hr' : Reach S.step (fun c e => S.Ordered c e ∧ NoOverrun c e) c c') (i : ι) :
    (c.node i).commitIndex ≤ (c.node i).log.entries.length ∧
    ∃ a', S.GhostInv a' ∧ Safe S a' c' ∧
      Anchored S a' ((c.node i).log.entries.take (c.node i).commitIndex) (c'.node i) := by
  obtain ⟨hsane, a, hI, hM, hX⟩ := safe_sane hS hauto hr
  set l := (c.node i).log.entries.take (c.node i).commitIndex
  have hkept : S.Sane c' ∧ ∃ a', S.GhostInv a' ∧ Mirrors S a' c' ∧ Safe S a' c' ∧
      Anchored S a' l (c'.node i) := by
    refine safe_from (fun a c => Anchored S a l (c.node i)) hS hauto
      ⟨hsane, a, hI, hM, hX, .of_secured (hX.nodes i)⟩ ?_ ?_ hr'
    · intro c e k p q a a' he hmade hg hm hI hmv hM hn
      by_cases hi : i = e.node
      · subst hi
        rw [Cluster.at_node_self] at hn ⊢
        exact anchored_micro hI hmv hM hm (he.tame hauto hmade)
          ((arrived_of_enabled he.1 hmade).mono hg.isPrefix) hn
      · rw [Cluster.at_node_of_ne hi] at hn ⊢
        exact hn.mono hI hmv
    · intro c j a now draw hM hn
      by_cases hi : i = j
      · subst hi
        rw [Cluster.at_node_self]
        exact anchored_restart hM hn now draw
      · rwa [Cluster.at_node_of_ne hi]
  obtain ⟨-, a', hI', -, hX', hn⟩ := hkept
  exact ⟨(hX.nodes i).length_le, a', hI', hX', hn⟩

/-- Any two nodes at any two moments have committed the same entries, as far as both have committed. -/
theorem committed_same (hS : S.FullMesh) (hauto : S.NoAutoSnapshot)
    (hr : Reach S.step (fun c e => S.Ordered c e ∧ NoOverrun c e) S.init c)
    (hr' : Reach S.step (fun c e => S.Ordered c e ∧ NoOverrun c e) c c') {m : ℕ}
    (hm : m ≤ (c.node i).commitIndex) (hm' : m ≤ (c'.node j).commitIndex) :
    (c.node i).log.entries.take m = (c'.node j).log.entries.take m := by
  obtain ⟨hle, a', hI', hX', hn⟩ := anchored_reach hS hauto hr hr' i
  set l := (c.node i).log.entries.take (c.node i).commitIndex
  have hlen : l.length = (c.node i).commitIndex := by
    rw [List.length_take, min_eq_left hle]
  have hl : l.take m = (c.node i).log.entries.take m := by
    rw [List.take_take, min_eq_left hm]
  have hpart : (c'.node i).log.entries.take m = l.take m := by
    rw [← hn.take, List.take_take, min_eq_left (by omega)]
  rw [← hl, ← hpart]
  exact Secured.agree quorum_meet hI' (hn.secured.take (by omega)) ((hX'.nodes j).take hm')

/-- **What a node committed stays**: it is in its log at every later moment, and any two nodes at any
two moments have committed the same entries, as far as both have committed. -/
theorem committed_stays (hS : S.FullMesh) (hauto : S.NoAutoSnapshot)
    (hr : Reach S.step (fun c e => S.Ordered c e ∧ NoOverrun c e) S.init c)
    (hr' : Reach S.step (fun c e => S.Ordered c e ∧ NoOverrun c e) c c') (i : ι) :
    (c.node i).commitIndex ≤ (c.node i).log.entries.length ∧
    (c.node i).log.entries.take (c.node i).commitIndex <+: (c'.node i).log.entries ∧
    ∀ j, ∀ m ≤ (c.node i).commitIndex, m ≤ (c'.node j).commitIndex →
      (c.node i).log.entries.take m = (c'.node j).log.entries.take m := by
  obtain ⟨hle, a', -, -, hn⟩ := anchored_reach hS hauto hr hr' i
  exact ⟨hle, hn.part, fun j m hm hm' => committed_same hS hauto hr hr' hm hm'⟩

/-- Server 0 has committed its entry before it restarts; afterwards it has committed nothing, and server
1 has committed the same entry and its own. -/
theorem committed_stays_terms :
    let S := lab 3 true 256
    let c := S.replay firstTerm
    let c' := S.replay (firstTerm ++ secondTerm)
    (c.node 0).commitIndex = 1 ∧ (c'.node 0).commitIndex = 0 ∧ (c'.node 1).commitIndex = 2 ∧
      (c.node 0).log.entries.take 1 <+: (c'.node 0).log.entries ∧
      (c.node 0).log.entries.take 1 = (c'.node 1).log.entries.take 1 := by
  intro S c c'
  have h0 : (c.node 0).commitIndex = 1 := by decide +kernel
  have h1 : (c'.node 1).commitIndex = 2 := by decide +kernel
  have hr : Reach S.step (fun c e => S.Ordered c e ∧ NoOverrun c e) S.init c :=
    reach_replay firstTerm (by decide +kernel)
  have hr' : Reach S.step (fun c e => S.Ordered c e ∧ NoOverrun c e) c c' :=
    reach_replay_append firstTerm secondTerm (by decide +kernel)
  obtain ⟨-, hkept, hsame⟩ :=
    committed_stays (lab_fullMesh 3 true 256) (lab_noAutoSnapshot 3 true 256) hr hr' 0
  rw [h0] at hkept hsame
  exact ⟨h0, by decide +kernel, h1, hkept, hsame 1 1 le_rfl (by omega)⟩

end Pylog.Raft
