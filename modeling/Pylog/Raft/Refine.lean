import Pylog.Base.Replication
import Pylog.Raft.Fixed

/-!
# Pylog.Raft.Refine — the cluster as a replicated log

With fixed membership, without snapshots and without stray pre-votes, the code refines the abstract
system of `Replication`: `Mirrors S a c` relates a cluster to an abstract state `a` whose terms and
logs are those of the nodes, and every small step of the code is zero or more steps of the abstract
system (`mirrors_micro`).
-/

namespace Pylog.Raft

open Effect Transition Trace Replication

variable {ι σ δ : Type} [LinearOrder ι] {S : Setup ι σ δ} {c c' : Cluster ι σ δ} {e : Event ι δ}
  {i j : ι} {n n' n₀ : Node ι σ δ} {h h' : History ι σ δ} {self : Self ι σ δ} {k : Call ι δ}
  {a a' : State ι Entry}

/-- The invariant of the abstract system, for the servers of `S`. -/
abbrev Setup.GhostInv (S : Setup ι σ δ) (a : State ι Entry) : Prop := Inv Entry.term S.Quorum a

/-- The part is committed in the abstract system. -/
abbrev Setup.Sealed (S : Setup ι σ δ) (a : State ι Entry) (T m : ℕ) : Prop :=
  Committed Entry.term S.Quorum a T m

/-! ### The relation -/

/-- What an effect says about the abstract state. -/
def Setup.Fits (S : Setup ι σ δ) (a : State ι Entry) (h : History ι σ δ) : ι × Out ι σ δ → Prop
  | (i, .lead n) => a.leader n.currentTerm = some i ∧ a.base n.currentTerm = n.log.entries ∧
      n.log.Plain
  | (i, .campaign n) => a.ballot i n.currentTerm n.log.entries ∧ n.log.Plain
  | (v, .send i (.voteResp t _ true)) => ∃ l nc, a.ballot v t l ∧ (i, .campaign nc) ∈ h ∧
      nc.currentTerm = t ∧ Behind Entry.term l nc.log.entries
  | (i, .send _ (.append t leader prevIndex prevTerm entries _)) => a.leader t = some i ∧
      leader = i ∧ (prevTerm = -1 ∨ RaftLog.Window (a.llog t) prevIndex prevTerm entries)
  | (_, .send _ (.appendResp t sender true m _)) => m ≤ a.acked sender t
  | (_, .send _ (.installSnapshot _ _ _)) => False
  | (i, .accept t m) => m ≤ a.acked i t
  | (i, .commit m n) => a.leader n.currentTerm = some i ∧ S.Sealed a n.currentTerm m ∧ n.log.Plain ∧
      n.log.entries.take m = (a.llog n.currentTerm).take m
  | _ => True

/-- The part of a leader: it is the one of its term, and it knows what its peers hold. -/
structure Office (a : State ι Entry) (i : ι) (n : Node ι σ δ) : Prop where
  leader : a.leader n.currentTerm = some i
  llog : a.llog n.currentTerm = n.log.entries
  own : n.log.entries.length ≤ a.acked i n.currentTerm
  self : n.matchIndex i = none
  matched : ∀ p mi, n.matchIndex p = some mi → mi ≤ a.acked p n.currentTerm

structure Tracks (a : State ι Entry) (h : History ι σ δ) (i : ι) (n : Node ι σ δ) : Prop where
  term : a.term i = n.currentTerm
  log : a.log i = n.log.entries
  plain : n.log.Plain
  files : n.snapshotFiles = []
  next : ∀ p ni, n.nextIndex p = some ni → 0 < ni
  office : n.role = .leader → Office a i n
  runner : n.role = .candidate → a.leader n.currentTerm ≠ some i ∧
    ∃ nc, (i, .campaign nc) ∈ h ∧ nc.currentTerm = n.currentTerm ∧ nc.log = n.log

structure Mirrors (S : Setup ι σ δ) (a : State ι Entry) (c : Cluster ι σ δ) : Prop where
  led : ∀ t j, a.leader t = some j → Led c.history j t
  indexed : ∀ t, a.leader t ≠ none → RaftLog.Indexed (a.llog t)
  events : ∀ o ∈ c.history, S.Fits a c.history o
  nodes : ∀ j, Tracks a c.history j (c.node j)

omit [LinearOrder ι] in
/-- A step that leaves alone what the abstract system knows of the node. -/
theorem Tracks.same (ht : Tracks a h i n) (hterm : n'.currentTerm = n.currentTerm)
    (hlog : n'.log = n.log) (hfiles : n'.snapshotFiles = n.snapshotFiles)
    (hnext : n'.nextIndex = n.nextIndex) (hmatch : n'.matchIndex = n.matchIndex)
    (hrole : n'.role = n.role) : Tracks a h i n' := by
  refine ⟨by rw [hterm]; exact ht.term, by rw [hlog]; exact ht.log, by rw [hlog]; exact ht.plain,
    by rw [hfiles]; exact ht.files, by rw [hnext]; exact ht.next, fun hr => ?_, fun hr => ?_⟩
  · have ho := ht.office (hrole ▸ hr)
    refine ⟨?_, ?_, ?_, ?_, ?_⟩
    · rw [hterm]; exact ho.leader
    · rw [hterm, hlog]; exact ho.llog
    · rw [hterm, hlog]; exact ho.own
    · rw [hmatch]; exact ho.self
    · rw [hterm, hmatch]; exact ho.matched
  · rw [hterm, hlog]
    exact ht.runner (hrole ▸ hr)

omit [LinearOrder ι] in
/-- A follower has no office. -/
theorem Tracks.retreat (ht : Tracks a h i n) (hterm : n'.currentTerm = n.currentTerm)
    (hlog : n'.log = n.log) (hfiles : n'.snapshotFiles = n.snapshotFiles)
    (hnext : n'.nextIndex = n.nextIndex) (hrole : n'.role = .follower) : Tracks a h i n' := by
  refine ⟨by rw [hterm]; exact ht.term, by rw [hlog]; exact ht.log, by rw [hlog]; exact ht.plain,
    by rw [hfiles]; exact ht.files, by rw [hnext]; exact ht.next, fun hr => ?_, fun hr => ?_⟩
  · rw [hrole] at hr
    cases hr
  · rw [hrole] at hr
    cases hr

/-- Assigning to a key of a dict keeps a property of its items that the new one has. -/
theorem forall_update {α : Type} {d : Dict ι α} {p : ι} {v : α} {Q : ι → α → Prop} (hv : Q p v)
    (hd : ∀ q m, d q = some m → Q q m) :
    ∀ q m, Function.update d p (some v) q = some m → Q q m := by
  intro q m hq
  by_cases hqp : q = p
  · subst hqp
    rw [Function.update_self] at hq
    cases hq
    exact hv
  · rw [Function.update_of_ne hqp] at hq
    exact hd q m hq

/-- A leader whose `match_index` of a peer goes up to what that peer has acknowledged. -/
theorem Tracks.matched (ht : Tracks a h i n) (hr : n.role = .leader) {p : ι} {m mi : ℕ}
    (hmi : n.matchIndex p = some mi) (hack : m ≤ a.acked p n.currentTerm) :
    Tracks a h i { n with
      matchIndex := Function.update n.matchIndex p (some (max mi m))
      nextIndex := Function.update n.nextIndex p (some (max mi m + 1)) } := by
  have ho := ht.office hr
  have hne : i ≠ p := by
    rintro rfl
    rw [ho.self] at hmi
    cases hmi
  exact ⟨ht.term, ht.log, ht.plain, ht.files, forall_update (Nat.succ_pos _) ht.next,
    fun _ => ⟨ho.leader, ho.llog, ho.own, (Function.update_of_ne hne ..).trans ho.self,
      forall_update (max_le (ho.matched p mi hmi) hack) ho.matched⟩, ht.runner⟩

/-- A `next_index` that stays positive. -/
theorem Tracks.aimed (ht : Tracks a h i n) (p : ι) {ni : ℕ} (hni : 0 < ni) :
    Tracks a h i { n with nextIndex := Function.update n.nextIndex p (some ni) } :=
  ⟨ht.term, ht.log, ht.plain, ht.files, forall_update hni ht.next,
    fun hr => ⟨(ht.office hr).leader, (ht.office hr).llog, (ht.office hr).own, (ht.office hr).self,
      (ht.office hr).matched⟩, ht.runner⟩

omit [LinearOrder ι] in
theorem Tracks.grow (ht : Tracks a h i n) (hh : h <+: h') : Tracks a h' i n := by
  refine ⟨ht.term, ht.log, ht.plain, ht.files, ht.next, ht.office, fun hr => ?_⟩
  obtain ⟨hl, nc, hnc, hrest⟩ := ht.runner hr
  exact ⟨hl, nc, hh.subset hnc, hrest⟩

omit [LinearOrder ι] in
/-- Steps of another node leave a node as it is. -/
theorem Tracks.moved (ht : Tracks a h j n) (hm : Moved i a a') (hij : j ≠ i) : Tracks a' h j n := by
  obtain ⟨h1, h2⟩ := hm.others j hij
  refine ⟨h1.trans ht.term, h2.trans ht.log, ht.plain, ht.files, ht.next, fun hr => ?_, fun hr => ?_⟩
  · have ho := ht.office hr
    have hled : a.leader n.currentTerm ≠ none := by rw [ho.leader]; simp
    exact ⟨(hm.grows.leader _ hled).trans ho.leader, (hm.llog j _ hij ho.leader).trans ho.llog,
      ho.own.trans (hm.acked _ _), ho.self, fun p mi hp => (ho.matched p mi hp).trans (hm.acked _ _)⟩
  · obtain ⟨hl, hrest⟩ := ht.runner hr
    exact ⟨fun hl' => hl (hm.leader j _ hij hl'), hrest⟩

theorem Fits.mono {o : ι × Out ι σ δ} (hf : S.Fits a h o) (hI : S.GhostInv a) (hm : Moved i a a')
    (hh : h <+: h') : S.Fits a' h' o := by
  have hled : ∀ {t v}, a.leader t = some v → a'.leader t = some v ∧ a'.base t = a.base t ∧
      a.llog t <+: a'.llog t := by
    intro t v hl
    have hne : a.leader t ≠ none := by rw [hl]; simp
    exact ⟨(hm.grows.leader t hne).trans hl, hm.grows.base t hne, hm.grows.llog t hne⟩
  obtain ⟨j, o⟩ := o
  cases o with
  | lead n =>
    obtain ⟨h1, h2, h3⟩ := hf
    exact ⟨(hled h1).1, (hled h1).2.1.trans h2, h3⟩
  | campaign n => exact ⟨hm.ballot _ _ _ hf.1, hf.2⟩
  | send p m =>
    cases m with
    | voteResp t s g =>
      cases g with
      | true =>
        obtain ⟨l, nc, hb, hnc, hrest⟩ := hf
        exact ⟨l, nc, hm.ballot _ _ _ hb, hh.subset hnc, hrest⟩
      | false => trivial
    | append t l pi pt es ci =>
      obtain ⟨h1, h2, hw⟩ := hf
      exact ⟨(hled h1).1, h2, hw.imp_right fun hw => hw.mono (hled h1).2.2⟩
    | appendResp t s ok m cf =>
      cases ok with
      | true => exact le_trans hf (hm.acked _ _)
      | false => trivial
    | installSnapshot => exact hf
    | _ => trivial
  | accept t m => exact le_trans hf (hm.acked _ _)
  | commit m n =>
    obtain ⟨h0, h1, h2, h3⟩ := hf
    have hl := h1.led quorum_meet hI
    refine ⟨(hled h0).1, h1.mono hm.grows hm.acked hl, h2, ?_⟩
    rw [h3, hm.grows.take hl h1.length_le]
  | _ => trivial

/-- The relation after steps of node `i`. -/
theorem Mirrors.put (hM : Mirrors S a (c.at i n h)) (hI : S.GhostInv a) (hm : Moved i a a')
    (hg : ∃ out, h' = h ++ out ∧ ∀ o ∈ out, S.Fits a' h' o) (ht : Tracks a' h' i n')
    (hled : ∀ t, a'.leader t = some i → a.leader t = some i ∨ Led h' i t)
    (hind : ∀ t, a'.leader t ≠ none → RaftLog.Indexed (a'.llog t)) :
    Mirrors S a' (c.at i n' h') := by
  obtain ⟨out, rfl, hout⟩ := hg
  have hh : h <+: h ++ out := List.prefix_append _ _
  have hgrow : ∀ {t j}, Led h j t → Led (h ++ out) j t := by
    rintro t j ⟨n, hn, ht⟩
    exact ⟨n, hh.subset hn, ht⟩
  refine ⟨fun t j hj => ?_, hind, fun o ho => ?_, fun j => ?_⟩
  · by_cases hji : j = i
    · subst hji
      rcases hled t hj with h1 | h1
      · exact hgrow (hM.led t j h1)
      · exact h1
    · exact hgrow (hM.led t j (hm.leader j t hji hj))
  · rcases List.mem_append.mp ho with ho | ho
    · exact Fits.mono (hM.events o ho) hI hm hh
    · exact hout o ho
  · by_cases hji : j = i
    · subst hji
      rw [Cluster.at_node_self]
      exact ht
    · have htj := hM.nodes j
      rw [Cluster.at_node_of_ne hji] at htj ⊢
      exact (htj.moved hm hji).grow hh

/-! ### Simulation -/

/-- The cluster facts the simulation rests on. -/
structure Setup.Sane (S : Setup ι σ δ) (c : Cluster ι σ δ) : Prop where
  elections : ElectionsKept c
  fixed : Local S.Settled S.Steady c

/-- What the simulation asks of a call of the server `me.id`. -/
structure Setup.Tame (S : Setup ι σ δ) (me : Self ι σ δ) (n₀ : Node ι σ δ) (k : Call ι δ) : Prop where
  server : me.id ∈ S.servers
  config : ∀ x, me.configOf x = (S.params me.id).configOf x
  membership : k.keepsMembership S = true
  snapshot : k.noSnapshot = true
  auto : me.autoSnapshotEvery = 0
  stray : n₀.strays k = false

theorem sane_micro (hs : S.Sane (c.at self.id n h)) (hm : Micro self n₀ k (n, h) (n', h'))
    (hk : S.Tame self n₀ k) (ha : Arrived h self.id k) : S.Sane (c.at self.id n' h') :=
  ⟨electionsKept_micro hs.elections hm ha hk.stray,
    fixed_micro hs.fixed hm hk.server hk.config hk.membership ha⟩

/-- The node can be followed by the abstract system. -/
def Simulated (S : Setup ι σ δ) (a : State ι Entry) (i : ι) (c : Cluster ι σ δ) : Prop :=
  ∃ a', S.GhostInv a' ∧ Moved i a a' ∧ Mirrors S a' c

/-- The abstract system need not move. -/
theorem simulated_same (hI : S.GhostInv a) (hM : Mirrors S a (c.at i n h))
    (hg : ∃ out, h' = h ++ out ∧ ∀ o ∈ out, S.Fits a h' o) (ht : Tracks a h' i n') :
    Simulated S a i (c.at i n' h') :=
  ⟨a, hI, .refl i a, hM.put hI (.refl i a) hg ht (fun _ hl => .inl hl) hM.indexed⟩

omit [LinearOrder ι] in
/-- Progress of a log without snapshots. -/
theorem progress_plain (hp : n.log.Plain) :
    n.progress = ((lastTm Entry.term n.log.entries : ℤ), n.log.entries.length) := by
  unfold Node.progress
  rw [if_neg (by rw [hp.snap]; omega), hp.lastIndex]
  unfold RaftLog.lastTerm lastTm
  cases n.log.entries.getLast? <;> rfl

omit [LinearOrder ι] in
/-- The freshness test of a vote. -/
theorem behind_of_atLeast (hp : n.log.Plain) (hp' : n'.log.Plain)
    (hu : atLeast n'.progress n.progress = true) : Behind Entry.term n.log.entries n'.log.entries := by
  rw [progress_plain hp, progress_plain hp'] at hu
  rcases of_decide_eq_true hu with hlt | ⟨heq, hle⟩
  · dsimp only at hlt
    exact .inl (by exact_mod_cast hlt)
  · dsimp only at heq
    exact .inr ⟨by exact_mod_cast heq, hle⟩

omit [LinearOrder ι] in
/-- The message of `_send_append` is a window of the leader's log. -/
theorem fits_appendMsg (ht : Tracks a h self.id n) (hr : n.role = .leader) (p : ι) :
    S.Fits a h' (self.id, .send p (self.appendMsg n p)) := by
  have ho := ht.office hr
  unfold Self.appendMsg
  dsimp only
  have hpos : 0 < (n.nextIndex p).getD (n.log.lastIndex + 1) := by
    cases hni : n.nextIndex p with
    | none => exact Nat.succ_pos _
    | some ni => exact ht.next p ni hni
  rw [if_neg (by rw [ht.plain.first]; omega)]
  refine ⟨ho.leader, rfl, ?_⟩
  obtain ⟨pi, hpi⟩ := Nat.exists_eq_succ_of_ne_zero hpos.ne'
  rw [hpi, Nat.succ_sub_one, ht.plain.termAt, ho.llog]
  rcases Nat.lt_or_ge n.log.entries.length pi with hlt | hle
  · left
    obtain ⟨q, rfl⟩ := Nat.exists_eq_succ_of_ne_zero (show pi ≠ 0 by omega)
    rw [RaftLog.termBefore_add_one, List.getElem?_eq_none (by omega)]
  · exact .inr ⟨hle, rfl, ht.plain.entriesFrom pi _⟩

/-- The index `_advance_commit` finds. -/
theorem findCommit_spec {m : ℕ} (hc : n.findCommit i = some m) :
    n.commitIndex < m ∧ m ≤ n.log.lastIndex ∧ n.canCommit i m = true := by
  have hmem := List.mem_of_find?_eq_some hc
  rw [List.mem_reverse, List.mem_range'_1] at hmem
  exact ⟨by omega, by omega, List.find?_some hc⟩

section Cases

variable (hI : S.GhostInv a) (hM : Mirrors S a (c.at i n h))

include hM

theorem own_tracks : Tracks a h i n := by
  have ht := hM.nodes i
  rw [Cluster.at_node_self] at ht
  exact ht

include hI

/-- A new term. -/
theorem simulated_raise {t : ℕ} (ht : n.currentTerm < t) (hn : n'.currentTerm = t)
    (hlog : n'.log = n.log) (hfiles : n'.snapshotFiles = n.snapshotFiles)
    (hnext : n'.nextIndex = n.nextIndex) (hr : n'.role = .follower)
    (hg : ∃ out, h' = h ++ out ∧ ∀ a', ∀ o ∈ out, S.Fits a' h' o) :
    Simulated S a i (c.at i n' h') := by
  have htr := own_tracks hM
  have hstep : Step Entry.term S.Quorum i a _ := .bump t (by rw [htr.term]; exact ht.le)
  obtain ⟨out, rfl, hout⟩ := hg
  refine ⟨_, hstep.inv hI, hstep.moved, hM.put hI hstep.moved ⟨out, rfl, hout _⟩ ?_
    (fun _ hl => .inl hl) hM.indexed⟩
  refine ⟨?_, by rw [hlog]; exact htr.log, by rw [hlog]; exact htr.plain,
    by rw [hfiles]; exact htr.files, by rw [hnext]; exact htr.next, ?_, ?_⟩
  · rw [hn]
    exact Function.update_self ..
  · intro hr'
    rw [hr] at hr'
    cases hr'
  · intro hr'
    rw [hr] at hr'
    cases hr'

/-- A campaign: a new term and a ballot. -/
theorem simulated_campaign (hn : n'.currentTerm = n.currentTerm + 1)
    (hlog : n'.log = n.log) (hfiles : n'.snapshotFiles = n.snapshotFiles)
    (hnext : n'.nextIndex = n.nextIndex) (hr : n'.role = .candidate) {t t' : ℕ} {v v' : Option ι} :
    Simulated S a i (c.at i n' (h ++ [(i, .writeTmp t v), (i, .replace t' v'), (i, .campaign n')])) := by
  have htr := own_tracks hM
  have hbump : Step Entry.term S.Quorum i a _ := .bump (n.currentTerm + 1) (by rw [htr.term]; omega)
  have hI₁ := hbump.inv hI
  set a₁ : State ι Entry :=
    { a with term := Function.update a.term i (n.currentTerm + 1) } with ha₁
  have hcast : Step Entry.term S.Quorum i a₁ _ := .cast
  have hterm : a₁.term i = n.currentTerm + 1 := Function.update_self ..
  refine ⟨_, hcast.inv hI₁, hbump.moved.trans hcast.moved, ?_⟩
  refine hM.put hI (hbump.moved.trans hcast.moved) ⟨_, rfl, ?_⟩ ?_ (fun _ hl => .inl hl) hM.indexed
  · intro o ho
    simp only [List.mem_cons, List.not_mem_nil, or_false] at ho
    rcases ho with rfl | rfl | rfl
    · trivial
    · trivial
    · refine ⟨.inr ⟨rfl, ?_, ?_⟩, by rw [hlog]; exact htr.plain⟩
      · rw [hterm, hn]
      · rw [hlog]
        exact htr.log.symm
  · refine ⟨hterm.trans hn.symm, by rw [hlog]; exact htr.log, by rw [hlog]; exact htr.plain,
      by rw [hfiles]; exact htr.files, by rw [hnext]; exact htr.next, ?_, ?_⟩
    · intro hr'
      rw [hr] at hr'
      cases hr'
    · intro _
      refine ⟨fun hl => ?_, n', by simp, rfl, rfl⟩
      -- it led no term beyond its own
      have := hI.leader_term _ _ (show a.leader n'.currentTerm = some i from hl)
      rw [htr.term] at this
      omega

/-- A leader adds an entry. -/
theorem simulated_append {x : Entry} (hr : n.role = .leader) (hx : x.term = n.currentTerm)
    (hn : n' = { n with log := { n.log with entries := n.log.entries ++ [x] } })
    (hp : n'.log.Plain) (l : RaftLog) : Simulated S a i (c.at i n' (h ++ [(i, .store l)])) := by
  have htr := own_tracks hM
  have ho := htr.office hr
  have hstep : Step Entry.term S.Quorum i a _ := .append x
    (by rw [htr.term]; exact ho.leader) (by rw [htr.term, htr.log]; exact ho.llog)
    (by rw [htr.term]; exact hx)
  subst hn
  refine ⟨_, hstep.inv hI, hstep.moved, hM.put hI hstep.moved ⟨_, rfl, ?_⟩ ?_
    (fun _ hl => .inl hl) ?_⟩
  · intro o ho
    rw [List.mem_singleton] at ho
    subst ho
    trivial
  · refine ⟨htr.term, ?_, hp, htr.files, htr.next, fun _ => ⟨ho.leader, ?_, ?_, ho.self, ?_⟩, ?_⟩
    · show Function.update a.log i (a.log i ++ [x]) i = _
      rw [Function.update_self, htr.log]
    · show Function.update a.llog (a.term i) (a.log i ++ [x]) n.currentTerm = _
      rw [htr.term, Function.update_self, htr.log]
    · rw [List.length_append, List.length_singleton, ← htr.log]
      exact le_ack_own a i htr.term.symm
    · exact fun p mi hpm => (ho.matched p mi hpm).trans (hstep.moved.acked _ _)
    · intro hr'
      rw [show n.role = .candidate from hr'] at hr
      cases hr
  · intro t ht
    show RaftLog.Indexed (Function.update a.llog (a.term i) (a.log i ++ [x]) t)
    by_cases htt : t = a.term i
    · rw [htt, Function.update_self, htr.log]
      exact hp.indexed
    · rw [Function.update_of_ne htt]
      exact hM.indexed t ht

/-- A vote: a ballot that is not ahead of the candidate's log. -/
theorem simulated_grant {x : ι} (hn : n'.currentTerm = n.currentTerm) (hlog : n'.log = n.log)
    (hfiles : n'.snapshotFiles = n.snapshotFiles) (hnext : n'.nextIndex = n.nextIndex)
    (hmatch : n'.matchIndex = n.matchIndex) (hr : n'.role = n.role)
    {nc : Node ι σ δ} (hnc : (x, .campaign nc) ∈ h) (htc : nc.currentTerm = n.currentTerm)
    (hu : atLeast nc.progress n.progress = true) {t : ℕ} {v : Option ι} :
    Simulated S a i (c.at i n' (h ++ [(i, .writeTmp t v), (i, .replace t v),
      (i, .send x (.voteResp n.currentTerm i true))])) := by
  have htr := own_tracks hM
  have hcast : Step Entry.term S.Quorum i a _ := .cast
  have hplain : nc.log.Plain := (hM.events _ hnc).2
  refine ⟨_, hcast.inv hI, hcast.moved, hM.put hI hcast.moved ⟨_, rfl, ?_⟩ ?_
    (fun _ hl => .inl hl) hM.indexed⟩
  · intro o ho
    simp only [List.mem_cons, List.not_mem_nil, or_false] at ho
    rcases ho with rfl | rfl | rfl
    · trivial
    · trivial
    · exact ⟨n.log.entries, nc, .inr ⟨rfl, htr.term.symm, htr.log.symm⟩, by simp [hnc], htc,
        behind_of_atLeast htr.plain hplain hu⟩
  · refine ⟨htr.term.trans hn.symm, by rw [hlog]; exact htr.log, by rw [hlog]; exact htr.plain,
      by rw [hfiles]; exact htr.files, by rw [hnext]; exact htr.next, fun hr' => ?_, fun hr' => ?_⟩
    · have ho := htr.office (hr ▸ hr')
      refine ⟨?_, ?_, ?_, ?_, ?_⟩ <;> simp only [hn, hlog, hmatch]
      · exact ho.leader
      · exact ho.llog
      · exact ho.own
      · exact ho.self
      · exact ho.matched
    · obtain ⟨hl, nc', hnc', h1, h2⟩ := htr.runner (hr ▸ hr')
      rw [hn, hlog]
      exact ⟨hl, nc', by simp [hnc'], h1, h2⟩

/-- What a merge of a message of the leader of the term leaves. -/
theorem merge_copies {x : ι} {pi : ℕ} {pt : ℤ} {es : List Entry} {ci : ℕ}
    (hin : InFlight h i (.append n.currentTerm x pi pt es ci))
    (hok : (n.log.merge pi pt es).ok = true) :
    a.leader n.currentTerm = some x ∧ RaftLog.Window (a.llog n.currentTerm) pi pt es ∧
    (n.log.merge pi pt es).matchIndex = pi + es.length ∧ (n.log.merge pi pt es).log.Plain ∧
    ((a.llog n.currentTerm).take (pi + es.length) <+: n.log.entries ∧
        (n.log.merge pi pt es).log.entries = n.log.entries ∨
      ¬(a.llog n.currentTerm).take (pi + es.length) <+: n.log.entries ∧
        (n.log.merge pi pt es).log.entries = (a.llog n.currentTerm).take (pi + es.length)) := by
  have htr := own_tracks hM
  obtain ⟨j, hj⟩ := hin
  obtain ⟨hled, rfl, hw⟩ := hM.events _ hj
  have hne : a.leader n.currentTerm ≠ none := by rw [hled]; simp
  have hwin : RaftLog.Window (a.llog n.currentTerm) pi pt es := by
    rcases hw with rfl | hw
    · exact absurd hok (fun hok => RaftLog.merge_nowhere htr.plain hok)
    · exact hw
  have hagree : RaftLog.Agrees n.log.entries (a.llog n.currentTerm) := by
    intro k e e' he he' ht
    have hlog := hI.matches_log i
    rw [htr.log] at hlog
    exact log_matching hlog (hI.matches_llog _ hne) he he' ht
  exact ⟨hled, hwin, RaftLog.merge_window htr.plain (hM.indexed _ hne) hwin hagree hok⟩

/-- A follower merges a window of the leader of its term. -/
theorem simulated_merge {x : ι} {pi : ℕ} {pt : ℤ} {es : List Entry} {ci : ℕ} (hr : n.role = .follower)
    (hin : InFlight h i (.append n.currentTerm x pi pt es ci))
    (hok : (n.log.merge pi pt es).ok = true) :
    Simulated S a i (c.at i { n with log := (n.log.merge pi pt es).log }
      (h ++ [(i, .store (n.log.merge pi pt es).log),
        (i, .accept n.currentTerm (n.log.merge pi pt es).matchIndex)])) := by
  have htr := own_tracks hM
  obtain ⟨hled, hwin, hmatch, hplain, hres⟩ := merge_copies hI hM hin hok
  have hne : a.leader n.currentTerm ≠ none := by rw [hled]; simp
  rw [← htr.log, ← htr.term] at hres
  have hstep : Step Entry.term S.Quorum i a _ := .accept (pi + es.length) _
    (by rw [htr.term]; exact hne) (by rw [htr.term]; exact hwin.length_le) hres
  refine ⟨_, hstep.inv hI, hstep.moved, hM.put hI hstep.moved ⟨_, rfl, ?_⟩ ?_
    (fun _ hl => .inl hl) hM.indexed⟩
  · intro o ho
    simp only [List.mem_cons, List.not_mem_nil, or_false] at ho
    rcases ho with rfl | rfl
    · trivial
    · show (n.log.merge pi pt es).matchIndex ≤ _
      rw [hmatch]
      exact le_ack_own a i htr.term.symm
  · refine ⟨htr.term, Function.update_self .., hplain, htr.files, htr.next, fun hr' => ?_,
      fun hr' => ?_⟩
    · rw [show n.role = .leader from hr'] at hr
      cases hr
    · rw [show n.role = .candidate from hr'] at hr
      cases hr

omit hI in
/-- Nobody has won the term of a node that wins it now. -/
theorem unled_of_elected (hs : S.Sane (c.at i n h)) (hi : i ∈ S.servers) (hr : n.role = .candidate)
    (hel : Elected h i n) : a.leader (a.term i) = none := by
  have htr := own_tracks hM
  obtain ⟨hnotled, -⟩ := htr.runner hr
  obtain ⟨hJ, hT⟩ := causal_and.mp hs.elections.1
  have hsteady := hs.fixed.2 i
  rw [Cluster.at_node_self] at hsteady
  rw [htr.term]
  by_contra hsome
  obtain ⟨j, hj⟩ := Option.ne_none_iff_exists'.mp hsome
  obtain ⟨nj, hnj, htj⟩ := hM.led _ _ hj
  obtain ⟨h₁, h₂, -, hjs, hvj⟩ := hs.fixed.1.mem hnj
  have hij := elected_unique hJ hel (tallied_mem hT hnj) htj.symm fun _ =>
    View.quorumsMeet hi hjs (hsteady.1 hi) hvj
  exact hnotled (hij ▸ hj)

omit hI in
/-- The votes of a winner are ballots for it, from logs that are not ahead. -/
theorem ballots_of_elected (hs : S.Sane (c.at i n h)) (hr : n.role = .candidate)
    (hel : Elected h i n) :
    ∀ v ∈ n.votes, ∃ l, a.ballot v (a.term i) l ∧ Behind Entry.term l (a.log i) := by
  have htr := own_tracks hM
  obtain ⟨-, nc, hnc, htc, hlc⟩ := htr.runner hr
  obtain ⟨hJ, -⟩ := causal_and.mp hs.elections.1
  intro v hv
  rw [htr.term, htr.log, ← hlc]
  rcases hel.2.1.2 v hv with rfl | hm
  · have hb := (hM.events _ hnc).1
    rw [htc] at hb
    exact ⟨_, hb, .inr ⟨rfl, le_rfl⟩⟩
  · obtain ⟨l, nc', hb, hnc', htc', hbeh⟩ := hM.events _ hm
    obtain rfl : nc = nc' := campaign_unique hJ hnc hnc' (htc.trans htc'.symm)
    exact ⟨l, hb, hbeh⟩

/-- A candidate wins its term. -/
theorem simulated_win (hs : S.Sane (c.at i n h)) (hi : i ∈ S.servers) (hr : n.role = .candidate)
    (hq : n.peers = [] ∨ n.hasMajority n.votes = true) (hterm : n'.currentTerm = n.currentTerm)
    (hlog : n'.log = n.log) (hfiles : n'.snapshotFiles = n.snapshotFiles) (hr' : n'.role = .leader)
    (hnext : ∀ p ni, n'.nextIndex p = some ni → 0 < ni)
    (hmatch : ∀ p mi, n'.matchIndex p = some mi → p ∈ n.peers ∧ mi = 0) :
    Simulated S a i (c.at i n' (h ++ [(i, .lead n')])) := by
  have htr := own_tracks hM
  obtain ⟨hJ, -⟩ := causal_and.mp hs.elections.1
  have hown := hs.elections.2 i
  have hsteady := hs.fixed.2 i
  rw [Cluster.at_node_self] at hown hsteady
  have hview := hsteady.1 hi
  have hel : Elected h i n := ⟨hown.1.ran hr, hown.2 hr, hq⟩
  have hstep : Step Entry.term S.Quorum i a _ := .elect n.votes (unled_of_elected hM hs hi hr hel)
    (View.quorum hi hview (hel.voters hJ) ⟨hel.2.1.1, hq⟩) (ballots_of_elected hM hs hr hel)
  refine ⟨_, hstep.inv hI, hstep.moved, hM.put hI hstep.moved ⟨_, rfl, ?_⟩ ?_ ?_ ?_⟩
  · intro o ho
    rw [List.mem_singleton] at ho
    subst ho
    refine ⟨?_, ?_, by rw [hlog]; exact htr.plain⟩
    · show Function.update a.leader (a.term i) (some i) n'.currentTerm = some i
      rw [hterm, htr.term, Function.update_self]
    · show Function.update a.base (a.term i) (a.log i) n'.currentTerm = _
      rw [hterm, htr.term, Function.update_self, hlog, htr.log]
  · refine ⟨htr.term.trans hterm.symm, by rw [hlog]; exact htr.log, by rw [hlog]; exact htr.plain,
      by rw [hfiles]; exact htr.files, hnext, fun _ => ⟨?_, ?_, ?_, ?_, ?_⟩, ?_⟩
    · show Function.update a.leader (a.term i) (some i) n'.currentTerm = some i
      rw [hterm, htr.term, Function.update_self]
    · show Function.update a.llog (a.term i) (a.log i) n'.currentTerm = _
      rw [hterm, htr.term, Function.update_self, hlog, htr.log]
    · rw [hlog, ← htr.log]
      exact le_ack_own a i (hterm.trans htr.term.symm)
    · cases hmi : n'.matchIndex i with
      | none => rfl
      | some mi => exact absurd rfl ((hview.2.2 i).mp (hmatch i mi hmi).1).2
    · intro p mi hp
      rw [(hmatch p mi hp).2]
      exact Nat.zero_le _
    · intro hr''
      rw [hr'] at hr''
      cases hr''
  · intro t ht
    by_cases htt : t = a.term i
    · exact .inr ⟨n', by simp, by rw [hterm, htt, htr.term]⟩
    · exact .inl (by
        have ht' : Function.update a.leader (a.term i) (some i) t = some i := ht
        rwa [Function.update_of_ne htt] at ht')
  · intro t ht
    show RaftLog.Indexed (Function.update a.llog (a.term i) (a.log i) t)
    by_cases htt : t = a.term i
    · rw [htt, Function.update_self, htr.log]
      exact htr.plain.indexed
    · have ht' : Function.update a.leader (a.term i) (some i) t ≠ none := ht
      rw [Function.update_of_ne htt] at ht' ⊢
      exact hM.indexed t ht'

omit hI in
/-- What a leader commits is committed. -/
theorem sealed_of_findCommit (hview : S.View i n) (hi : i ∈ S.servers) (hr : n.role = .leader) {m : ℕ}
    (hc : n.findCommit i = some m) : S.Sealed a n.currentTerm m := by
  have htr := own_tracks hM
  have ho := htr.office hr
  obtain ⟨hlt, hle, hcan⟩ := findCommit_spec hc
  rw [htr.plain.lastIndex] at hle
  unfold Node.canCommit at hcan
  rw [hview.2.1, hview.1, Bool.and_eq_true] at hcan
  obtain ⟨hterm, hcount⟩ := hcan
  have hterm := of_decide_eq_true hterm
  have hcount := of_decide_eq_true hcount
  obtain ⟨q, rfl⟩ := Nat.exists_eq_succ_of_ne_zero (show m ≠ 0 by omega)
  have hq : n.log.entries[q]? = some n.log.entries[q] := List.getElem?_eq_getElem (by omega)
  refine ⟨Nat.succ_pos q, ⟨n.log.entries[q], by rw [ho.llog]; exact hq, ?_⟩,
    insert i (S.servers.filter (n.holds q.succ ·)), ⟨?_, ?_⟩, ?_⟩
  · rw [htr.plain.termAt, RaftLog.termBefore_succ hq] at hterm
    exact_mod_cast hterm
  · intro v hv
    rcases Finset.mem_insert.mp hv with rfl | hv
    · exact hi
    · exact (Finset.mem_filter.mp hv).1
  · rw [Finset.card_insert_of_notMem]
    · omega
    · -- a leader tracks its peers only
      intro hv
      have hh := (Finset.mem_filter.mp hv).2
      unfold Node.holds at hh
      rw [ho.self] at hh
      cases hh
  · intro v hv
    rcases Finset.mem_insert.mp hv with rfl | hv
    · exact le_trans hle ho.own
    · have hh := (Finset.mem_filter.mp hv).2
      unfold Node.holds at hh
      cases hmi : n.matchIndex v with
      | none => rw [hmi] at hh; cases hh
      | some mi =>
        rw [hmi] at hh
        exact le_trans (of_decide_eq_true hh) (ho.matched v mi hmi)

end Cases

/-- Nobody sends snapshots. -/
theorem Mirrors.no_install (hM : Mirrors S a (c.at i n h)) {t : ℕ} {x : ι} {s : Snapshot δ}
    (ha : Arrived h i k) (hk : k = .handle (.installSnapshot t x s)) : False := by
  obtain ⟨j, hj⟩ := ha _ hk
  exact hM.events _ hj

theorem Mirrors.no_snapshot (hM : Mirrors S a (c.at self.id n h)) (ht : S.Tame self n₀ k)
    (ha : Arrived h self.id k) {m : Node ι σ δ} {s : Snapshot δ} (hs : SnapshotAt self m k s) : False := by
  rcases hs with ⟨-, hk | hk⟩ | ⟨x, hk⟩
  · have := ht.snapshot
    rw [hk] at this
    cases this
  · exact hk ht.auto
  · exact hM.no_install ha hk

/-- **Simulation.**  Every small step of the code is matched by steps of the abstract system. -/
theorem mirrors_micro (hs : S.Sane (c.at self.id n h)) (hI : S.GhostInv a)
    (hM : Mirrors S a (c.at self.id n h)) (hm : Micro self n₀ k (n, h) (n', h'))
    (hk : S.Tame self n₀ k) (ha : Arrived h self.id k) :
    Simulated S a self.id (c.at self.id n' h') := by
  have ht := own_tracks hM
  have hsteady := hs.fixed.2 self.id
  rw [Cluster.at_node_self] at hsteady
  have hview := hsteady.1 hk.server
  -- steps that change nothing the abstract system knows, with at most one effect
  have hquiet : ∀ n' : Node ι σ δ, Tracks a h self.id n' → Simulated S a self.id (c.at self.id n' h) :=
    fun n' ht' => simulated_same hI hM ⟨[], by simp, by simp⟩ ht'
  have hone : ∀ (n' : Node ι σ δ) o, Tracks a h self.id n' → S.Fits a (h ++ [(self.id, o)]) (self.id, o) →
      Simulated S a self.id (c.at self.id n' (h ++ [(self.id, o)])) := by
    intro n' o ht' hf
    refine simulated_same hI hM ⟨_, rfl, fun x hx => ?_⟩ (ht'.grow (List.prefix_append _ _))
    rw [List.mem_singleton] at hx
    subst hx
    exact hf
  cases hm with
  | retreat => exact hquiet _ (ht.retreat rfl rfl rfl rfl rfl)
  | raise _ _ t _ hlt =>
    refine simulated_raise hI hM hlt rfl rfl rfl rfl rfl ⟨_, rfl, fun a' o ho => ?_⟩
    simp only [List.mem_cons, List.not_mem_nil, or_false] at ho
    rcases ho with rfl | rfl <;> trivial
  | campaign _ _ _ d hr h0 hel hn =>
    subst hn
    refine simulated_campaign hI hM ?_ ?_ ?_ ?_ ?_ <;> rfl
  | win _ _ _ hr hq hn =>
    subst hn
    refine simulated_win hI hM hs hk.server hr hq rfl rfl rfl rfl ?_ ?_
    · intro p ni hp
      dsimp only at hp
      split_ifs at hp
      cases hp
      exact Nat.succ_pos _
    · intro p mi hp
      dsimp only at hp
      split_ifs at hp with hpp
      cases hp
      exact ⟨hpp, rfl⟩
  | sendAppend _ _ p hr => exact hone _ _ ht (fits_appendMsg ht hr p)
  | append _ _ payload hr hp =>
    exact simulated_append hI hM hr rfl rfl (ht.plain.appendEntry _ _) _
  | reconfig _ _ _ new hr hch hn =>
    have := hk.membership
    rcases hch.2 with ⟨x, rfl, -⟩ | ⟨x, rfl, -⟩ <;> cases this
  | commit _ _ m hr hc =>
    refine hone _ _ (ht.same rfl rfl rfl rfl rfl rfl)
      ⟨(ht.office hr).leader, sealed_of_findCommit hM hview hk.server hr hc, ht.plain, ?_⟩
    rw [(ht.office hr).llog]
  | adopt _ _ _ x servers hlt hx hcf hr hn =>
    have hx' := hsteady.2 x (RaftLog.mem_of_get hx) self.id hk.server
    rw [← hk.config, hcf] at hx'
    cases hx'
  | grant _ _ x li lt d hk' hvf hu =>
    obtain ⟨hJ, -⟩ := causal_and.mp hs.elections.1
    obtain ⟨h₁, h₂, hh, -, nc, hnc, htc, -, hpr⟩ := hJ.mem (vote_sender hJ (ha _ hk'))
    have hnc' : (x, Out.campaign nc) ∈ h := by
      have hh' : h = h₁ ++ _ :: h₂ := hh
      rw [hh']
      exact List.mem_append_left _ hnc
    have hu' : atLeast nc.progress n.progress = true := by
      rw [← hpr]
      exact hu
    refine simulated_grant hI hM ?_ ?_ ?_ ?_ ?_ ?_ hnc' htc hu' <;> rfl
  | merge _ _ x pi pt es ci r hk' hr hlog hci hle hj hr' =>
    subst hr'
    cases hok : (n.log.merge pi pt es).ok with
    | true => exact simulated_merge hI hM hr (ha _ hk') hok
    | false =>
      have hsame := RaftLog.merge_fails hok
      refine hone _ _ ?_ trivial
      rw [hsame]
      exact ht
  | respond _ _ x ok m cf hacc =>
    refine hone _ _ ht ?_
    cases ok with
    | true => exact hM.events _ (hacc rfl)
    | false => trivial
  | matched _ _ p m mi cf hk' hr hmi =>
    obtain ⟨j, hj⟩ := ha _ hk'
    have hack : m ≤ a.acked p n.currentTerm := hM.events _ hj
    exact hquiet _ (ht.matched hr hmi hack)
  | backOff _ _ p ni hint hr hni =>
    exact hquiet _ (ht.aimed p (lt_of_lt_of_le Nat.one_pos (le_max_left _ _)))
  | snapFile _ _ s hs' hd => exact (hM.no_snapshot hk ha hs').elim
  | snapMark _ _ s hs' => exact (hM.no_snapshot hk ha hs').elim
  | compact _ _ s l hk' hs' hc => exact (hM.no_snapshot hk ha (.inl ⟨hs', hk'⟩)).elim
  | install _ _ x s l m hk' => exact (hM.no_install ha hk').elim
  | installIndex _ _ x s b hk' => exact (hM.no_install ha hk').elim
  | ackInstall _ _ x s hk' => exact (hM.no_install ha hk').elim
  | _ =>
    first
    | exact hquiet _ (ht.same rfl rfl rfl rfl rfl rfl)
    | exact hone _ _ (ht.same rfl rfl rfl rfl rfl rfl) trivial

/-! ### Runs -/

/-- The events of the runs the refinement is about. -/
def Setup.Ordered (S : Setup ι σ δ) (c : Cluster ι σ δ) (e : Event ι δ) : Prop :=
  S.Enabled c e ∧ NoStray c e ∧ e.KeepsMembership S ∧ e.Plain

theorem Setup.Ordered.tame (he : S.Ordered c e) (hauto : S.NoAutoSnapshot) (hk : k ∈ e.action.made) :
    S.Tame (S.self e) (c.node e.node) k :=
  ⟨he.1.1, fun _ => rfl, he.2.2.1 k hk, he.2.2.2.2 k hk, hauto e.node he.1.1, he.2.1 k hk⟩

/-- Nothing has happened. -/
def blank : State ι Entry where
  term _ := 0
  log _ := []
  leader _ := none
  base _ := []
  llog _ := []
  ballot _ _ _ := False
  acked _ _ := 0

omit [LinearOrder ι] in
theorem ghostInv_blank : S.GhostInv blank :=
  inv_init _ _ _ (fun _ => rfl) (fun _ => rfl) (fun _ _ _ h => h) fun _ _ => rfl

theorem tracks_boot {now draw : ℚ} {d : Durable ι δ} (hterm : a.term i = d.currentTerm)
    (hlog : a.log i = d.log.entries) (hp : d.log.Plain) (hf : d.snapshotFiles = []) :
    Tracks a h i ((S.params i).boot i now draw d) := by
  obtain ⟨l, ci, ai, m, s, hb, -, hl⟩ := boot_eq (S.params i) i now draw d
  obtain ⟨rfl, -⟩ := hl hf
  rw [hb]
  exact ⟨hterm, hlog, hp, hf, (fun p ni h => by cases h), (fun hr => by cases hr),
    fun hr => by cases hr⟩

theorem mirrors_init : Mirrors S blank S.init :=
  ⟨(fun _ _ h => by cases h), (fun _ h => absurd rfl h), (fun _ h => by cases h),
    fun _ => tracks_boot rfl rfl RaftLog.plain_empty rfl⟩

/-- A restart changes nothing the abstract system knows. -/
theorem mirrors_restart (hI : S.GhostInv a) (hM : Mirrors S a c) (now draw : ℚ) :
    Mirrors S a (c.at i ((S.params i).boot i now draw (c.node i).durable) c.history) := by
  have hM' : Mirrors S a (c.at i (c.node i) c.history) := by
    rw [Cluster.at_self]
    exact hM
  have ht := hM.nodes i
  exact hM'.put hI (.refl i a) ⟨[], by simp, by simp⟩ (tracks_boot ht.term ht.log ht.plain ht.files)
    (fun _ hl => .inl hl) hM.indexed

section Reach

variable (X : State ι Entry → Cluster ι σ δ → Prop) {ok : Cluster ι σ δ → Event ι δ → Prop}

/-- One call is matched by the abstract system, with any further fact `X` that its small steps keep. -/
theorem mirrored_call (hauto : S.NoAutoSnapshot) (he : S.Ordered c e) (hcall : e.action = .call k)
    (hmicro : ∀ p q a a', (∀ j, (c.node j).log.Plain) → Grown e.node c.history p.2 →
      Micro (S.self e) (c.node e.node) k p q → S.GhostInv a → S.GhostInv a' → Moved e.node a a' →
      Mirrors S a (c.at e.node p.1 p.2) → Mirrors S a' (c.at e.node q.1 q.2) →
      S.Sane (c.at e.node p.1 p.2) → X a (c.at e.node p.1 p.2) → X a' (c.at e.node q.1 q.2))
    (hI : S.Sane c ∧ ∃ a, S.GhostInv a ∧ Mirrors S a c ∧ X a c) :
    S.Sane (S.step c e) ∧ ∃ a, S.GhostInv a ∧ Mirrors S a (S.step c e) ∧ X a (S.step c e) := by
  obtain ⟨hsane, a, hg, hM, hX⟩ := hI
  have hplain : ∀ j, (c.node j).log.Plain := fun j => (hM.nodes j).plain
  have hmade : k ∈ e.action.made := by
    rw [hcall]
    rfl
  rw [step_call_eq hcall]
  refine after_inv (fun c => S.Sane c ∧ ∃ a, S.GhostInv a ∧ Mirrors S a c ∧ X a c)
    (hsane.elections.2 e.node).1.calm ⟨hsane, a, hg, hM, hX⟩ ?_
  rintro p q hm hg ⟨hsane', a, hI, hM, hX⟩
  have ha := (arrived_of_enabled he.1 hmade).mono hg.isPrefix
  have htame := he.tame hauto hmade
  obtain ⟨a', hI', hmv, hM'⟩ := mirrors_micro hsane' hI hM hm htame ha
  exact ⟨sane_micro hsane' hm htame ha, a', hI', hM',
    hmicro p q a a' hplain hg hm hI hI' hmv hM hM' hsane' hX⟩

/-- A refinement goes on along every run, with any further fact `X` that the small steps and restarts
keep. -/
theorem mirrored_from {c₀ : Cluster ι σ δ} (hS : S.FullMesh) (hauto : S.NoAutoSnapshot)
    (h0 : S.Sane c₀ ∧ ∃ a, S.GhostInv a ∧ Mirrors S a c₀ ∧ X a c₀)
    (hmicro : ∀ c e k p q a a', S.Ordered c e → ok c e → k ∈ e.action.made →
      (∀ j, (c.node j).log.Plain) → Grown e.node c.history p.2 → Micro (S.self e) (c.node e.node) k p q → S.GhostInv a →
      S.GhostInv a' → Moved e.node a a' → Mirrors S a (c.at e.node p.1 p.2) →
      Mirrors S a' (c.at e.node q.1 q.2) → S.Sane (c.at e.node p.1 p.2) →
      X a (c.at e.node p.1 p.2) → X a' (c.at e.node q.1 q.2))
    (hboot : ∀ c i a now draw, S.GhostInv a → Mirrors S a c → X a c →
      X a (c.at i ((S.params i).boot i now draw (c.node i).durable) c.history))
    (hr : Reach S.step (fun c e => S.Ordered c e ∧ ok c e) c₀ c) :
    S.Sane c ∧ ∃ a, S.GhostInv a ∧ Mirrors S a c ∧ X a c := by
  refine hr.inv (fun c => S.Sane c ∧ ∃ a, S.GhostInv a ∧ Mirrors S a c ∧ X a c) h0 ?_
  rintro c e - hI ⟨he, hok⟩
  cases hact : e.action with
  | call k =>
    have hmade : k ∈ e.action.made := by
      rw [hact]
      rfl
    refine mirrored_call X hauto he hact (fun p q a a' hplain hg hm => ?_) hI
    exact hmicro c e k p q a a' he hok hmade hplain hg hm
  | restart =>
    have hnone : e.action.made = none := by
      rw [hact]
      rfl
    obtain ⟨hsane, a, hI, hM, hX⟩ := hI
    have hcalm := (hsane.elections.2 e.node).1.calm
    have hs : S.Sane (S.step c e) := ⟨electionsKept_step hsane.elections he.1 he.2.1,
      fixed_step hS hcalm he.1 he.2.2.1 hsane.fixed⟩
    rw [step_restart_eq hnone] at hs ⊢
    exact ⟨hs, a, hI, mirrors_restart hI hM _ _, hboot c e.node a _ _ hI hM hX⟩
  | crash k m =>
    have hw := he.2.2.2.1
    rw [hact] at hw
    cases hw

/-- **The code refines the abstract system along every run**, with any further fact `X` that the
small steps and restarts keep. -/
theorem mirrored_reach (hS : S.FullMesh) (hauto : S.NoAutoSnapshot) (hinit : X blank S.init)
    (hmicro : ∀ c e k p q a a', S.Ordered c e → ok c e → k ∈ e.action.made →
      (∀ j, (c.node j).log.Plain) → Grown e.node c.history p.2 → Micro (S.self e) (c.node e.node) k p q → S.GhostInv a →
      S.GhostInv a' → Moved e.node a a' → Mirrors S a (c.at e.node p.1 p.2) →
      Mirrors S a' (c.at e.node q.1 q.2) → S.Sane (c.at e.node p.1 p.2) →
      X a (c.at e.node p.1 p.2) → X a' (c.at e.node q.1 q.2))
    (hboot : ∀ c i a now draw, S.GhostInv a → Mirrors S a c → X a c →
      X a (c.at i ((S.params i).boot i now draw (c.node i).durable) c.history))
    (hr : Reach S.step (fun c e => S.Ordered c e ∧ ok c e) S.init c) :
    S.Sane c ∧ ∃ a, S.GhostInv a ∧ Mirrors S a c ∧ X a c :=
  mirrored_from X hS hauto ⟨⟨electionsKept_init, fixed_init hS⟩, blank, ghostInv_blank, mirrors_init, hinit⟩
    hmicro hboot hr

end Reach

/-- Without pre-vote the condition on stray pre-votes is met. -/
theorem ordered_of_prevoteOff {ok : Cluster ι σ δ → Event ι δ → Prop} (hoff : S.PrevoteOff)
    (hr : Reach S.step (fun c e => S.Enabled c e ∧ e.KeepsMembership S ∧ e.Plain ∧ ok c e) S.init c) :
    Reach S.step (fun c e => S.Ordered c e ∧ ok c e) S.init c :=
  hr.strengthen fun _ _ hs he =>
    ⟨⟨he.1, noStray_of_prevoteOff hoff (hs.mono fun _ _ h => h.1), he.2.1, he.2.2.1⟩, he.2.2.2⟩

theorem mirrored (hS : S.FullMesh) (hauto : S.NoAutoSnapshot) (hoff : S.PrevoteOff)
    (hr : Reach S.step (fun c e => S.Enabled c e ∧ e.KeepsMembership S ∧ e.Plain) S.init c) :
    ∃ a, S.GhostInv a ∧ Mirrors S a c := by
  have hr' : Reach S.step (fun c e => S.Ordered c e ∧ True) S.init c :=
    ordered_of_prevoteOff hoff (hr.mono fun _ _ h => ⟨h.1, h.2.1, h.2.2, trivial⟩)
  obtain ⟨-, a, hI, hM, -⟩ := mirrored_reach (fun _ _ => True) hS hauto trivial
    (fun _ _ _ _ _ _ _ _ _ _ _ _ _ _ _ _ _ _ _ _ => trivial) (fun _ _ _ _ _ _ _ _ => trivial) hr'
  exact ⟨a, hI, hM⟩

end Pylog.Raft
