import Pylog.Raft.Marks
import Pylog.Sim.Partitions

/-!
# Pylog.Sim.Restart — what a restart applies (sim.py:73–113)

`_build_node` puts the commit index of the new node on the end of its log and applies up to there,
whether or not a leader has committed that far.  A restart of a node whose whole log was committed
(`Backed`) applies committed entries, and leaves a node that is `Ajar`: along runs with such restarts
only, all that is applied was committed before.
-/

namespace Pylog.Sim

open Pylog.Raft Effect Transition Trace Replication

variable {ι σ δ : Type} [LinearOrder ι] {S : Scenario ι σ δ} {c : SimCluster ι σ δ} {op : Op ι δ}
  {i : ι} {draw : ℚ} {a : State ι Entry}

instance (h : History ι σ δ) (index : ℕ) (payload : Bytes) : Decidable (CommittedAs h index payload) :=
  decidable_of_iff (h.any fun o => match o.2 with
    | .commit M n => decide (index ≤ M ∧ (n.log.get index).map Entry.payload = some payload)
    | _ => false) <| by
    rw [List.any_eq_true]
    constructor
    · rintro ⟨⟨j, o⟩, ho, hm⟩
      cases o with
      | commit M n => exact ⟨j, M, n, ho, of_decide_eq_true hm⟩
      | _ => cases hm
    · rintro ⟨j, M, n, hm, hrest⟩
      exact ⟨_, hm, decide_eq_true hrest⟩

/-- Every entry of the log of the node was committed by some leader. -/
def Backed (c : Cluster ι σ δ) (i : ι) : Prop :=
  ∀ x ∈ (c.node i).log.entries, CommittedAs c.history x.index x.payload

instance (c : Cluster ι σ δ) (i : ι) : Decidable (Backed c i) :=
  inferInstanceAs (Decidable (∀ x ∈ (c.node i).log.entries, CommittedAs c.history x.index x.payload))

/-- The node the operation restarts. -/
def restarted : Op ι δ → Option ι
  | .restart i _ => some i
  | _ => none

/-- Calls that keep the membership, take no snapshot, count no stray pre-vote and commit nothing past
the window of an append; restarts of nodes whose log is committed. -/
def Scenario.Sound (S : Scenario ι σ δ) (c : SimCluster ι σ δ) (op : Op ι δ) : Prop :=
  (∀ e ∈ S.event c op, NoStray c.toCluster e ∧ e.KeepsMembership S.setup ∧ e.Plain ∧
    NoOverrun c.toCluster e) ∧ ∀ i ∈ restarted op, Backed c.toCluster i

instance (S : Scenario ι σ δ) (c : SimCluster ι σ δ) (op : Op ι δ) : Decidable (S.Sound c op) :=
  inferInstanceAs (Decidable ((∀ e ∈ S.event c op, NoStray c.toCluster e ∧
    e.KeepsMembership S.setup ∧ e.Plain ∧ NoOverrun c.toCluster e) ∧
    ∀ i ∈ restarted op, Backed c.toCluster i))

theorem setup_fullMesh (S : Scenario ι σ δ) : S.setup.FullMesh := by
  intro i hi p
  show p = i ∨ p ∈ S.nodeIds ↔ p ∈ S.nodeIds.toFinset
  rw [List.mem_toFinset]
  refine or_iff_right_of_imp ?_
  rintro rfl
  exact List.mem_toFinset.mp hi

/-! ### The rebuilt node -/

/-- The replay adopts no configuration from a log of ordinary entries. -/
theorem rebuild_steady (hi : i ∈ S.nodeIds) (hs : S.setup.Steady i (c.node i) c.history)
    (h : History ι σ δ) :
    S.setup.Steady i (S.rebuild c i draw).state h ∧
      ∀ p, (S.rebuild c i draw).state.nextIndex p = none := by
  have hi' : i ∈ S.setup.servers := List.mem_toFinset.mpr hi
  have hboot : S.setup.Steady i (S.rebuilt c i draw) h := by
    have hb : S.setup.Steady i (S.params.boot i c.clock draw (c.node i).durable) h :=
      steady_boot (setup_fullMesh S) hs.2
    exact hb
  refine rebuild_inv S c i draw (fun n _ => S.setup.Steady i n h ∧ ∀ p, n.nextIndex p = none) []
    ⟨hboot, fun p => rfl⟩ ?_
  rintro ⟨n, h₁⟩ ⟨n', h₂⟩ ⟨⟨hm, hl⟩, -⟩ ⟨⟨hv, hx⟩, hnext⟩
  dsimp only at hm hl
  cases hm with
  | adopted e servers hlt he hc =>
    have hnone : (S.host c i draw).configOf e.payload = none := hx e (RaftLog.mem_of_get he) i hi'
    rw [hnone] at hc
    cases hc
  | compacted s l hs' hc hf =>
    refine ⟨⟨hv, ?_⟩, hnext⟩
    rw [hl]
    exact hx
  | _ => exact ⟨⟨hv, hx⟩, hnext⟩

theorem sane_restart (hi : i ∈ S.nodeIds) (hs : S.setup.Sane c.toCluster) :
    S.setup.Sane (S.restart c i draw).toCluster := by
  refine ⟨?_, ?_⟩
  · refine local_restart hs.elections (fun _ _ _ => ⟨trivial, trivial⟩) ?_ ?_
    · rintro j n h out hout ⟨hv, hp⟩
      exact ⟨hv.mono (fileOf_marks hout), fun hr => (hp hr).mono (List.prefix_append _ _)⟩
    · refine ⟨voter_rebuild (hs.elections.2 i).1, fun hr => ?_⟩
      rw [(rebuild_saved S c i draw).role] at hr
      cases hr
  · refine local_restart hs.fixed (fun _ _ _ => ?_) (fun _ _ _ _ _ hN => hN)
      (rebuild_steady hi (hs.fixed.2 i) _).1
    exact List.mem_toFinset.mpr hi

/-- A restart changes nothing the abstract system knows. -/
theorem mirrors_restart (hi : i ∈ S.nodeIds) (hI : S.setup.GhostInv a)
    (hs : S.setup.Sane c.toCluster) (hM : Mirrors S.setup a c.toCluster) :
    Mirrors S.setup a (S.restart c i draw).toCluster := by
  obtain ⟨n, hc, hn⟩ := restart_cluster S c i draw
  have hgrow := List.prefix_append c.history (S.rebuild c i draw).out
  have ht : Tracks a (c.history ++ (S.rebuild c i draw).out) i n := by
    rcases hn with rfl | ⟨rfl, -⟩
    · exact (hM.nodes i).grow hgrow
    · have hold := hM.nodes i
      have hsv := rebuild_saved S c i draw
      have hlog : (S.rebuild c i draw).state.log = (c.node i).log := hsv.log
      refine ⟨hold.term.trans hsv.term.symm, by rw [hlog]; exact hold.log, by rw [hlog]; exact hold.plain,
        hsv.files.trans hold.files, fun p ni hp => ?_, fun hr => ?_, fun hr => ?_⟩
      · rw [(rebuild_steady hi (hs.fixed.2 i) []).2 p] at hp
        cases hp
      · rw [hsv.role] at hr
        cases hr
      · rw [hsv.role] at hr
        cases hr
  have hM' : Mirrors S.setup a (c.toCluster.at i (c.node i) c.history) := by
    rw [Cluster.at_self]
    exact hM
  rw [hc, Cluster.put_eq]
  refine hM'.put hI (.refl i a) ⟨_, rfl, fun o ho => ?_⟩ ht (fun _ hl => .inl hl) hM.indexed
  obtain ⟨index, x, rfl, -⟩ := rebuild_out ho
  trivial

/-- The rebuilt node has applied up to its commit index, the end of its log. -/
theorem rebuild_applied (hp : (c.node i).log.Plain) (hr : (S.rebuild c i draw).result = .ok ()) :
    (S.rebuild c i draw).state.commitIndex = (c.node i).log.entries.length ∧
      (c.node i).log.entries.length ≤ (S.rebuild c i draw).state.appliedIndex := by
  have hf : Follows (MarkStep (S.host c i draw)) (S.host c i draw).applyCommitted (S.rebuilt c i draw)
      [] _ := applyCommitted_marks rfl
  obtain ⟨-, hc, hend⟩ := hf.2 () hr
  have hlen : (S.rebuilt c i draw).commitIndex = (c.node i).log.entries.length := hp.lastIndex
  refine ⟨hc.trans hlen, ?_⟩
  rcases hend with hle | hnone
  · exact hlen.symm.le.trans hle
  · have hget : (c.node i).log.get ((S.rebuild c i draw).state.appliedIndex + 1) = none := hnone
    rw [hp.get] at hget
    exact List.getElem?_eq_none_iff.mp hget

/-! ### What is applied -/

omit [LinearOrder ι] in
theorem mem_of_send {h out : History ι σ δ} (hout : Marks i out) {j p : ι} {m : Msg ι δ}
    (ho : (j, .send p m) ∈ h ++ out) : (j, .send p m) ∈ h := by
  rcases List.mem_append.mp ho with ho | ho
  · exact ho
  · obtain ⟨index, x, heq⟩ := hout _ ho
    cases heq

section

variable (hI : S.setup.GhostInv a) (hM : Mirrors S.setup a c.toCluster) (hb : Backed c.toCluster i)

include hM hb

/-- The end of a committed log is where some leader's commit index got to. -/
theorem backed_end : (c.node i).log.entries.length = 0 ∨ ∃ j M nc, (j, .commit M nc) ∈ c.history ∧
    (c.node i).log.entries.length ≤ M := by
  rcases List.eq_nil_or_concat' (c.node i).log.entries with he | ⟨es, x, he⟩
  · exact .inl (by rw [he]; rfl)
  · have hx := (hM.nodes i).plain.indexed es.length x (by rw [he]; simp)
    obtain ⟨j, M, nc, hmark, hle, -⟩ := hb x (by rw [he]; simp)
    refine .inr ⟨j, M, nc, hmark, ?_⟩
    rw [he, List.length_append, List.length_singleton, ← hx]
    exact hle

/-- The rebuilt node is on the end of its log, which is committed. -/
theorem ajar_rebuild (hr : (S.rebuild c i draw).result = .ok ()) (h : History ι σ δ) :
    S.setup.Ajar a h i (S.rebuild c i draw).state := by
  obtain ⟨hci, hai⟩ := rebuild_applied (hM.nodes i).plain hr
  have hrole : (S.rebuild c i draw).state.role = .follower := (rebuild_saved S c i draw).role
  refine ⟨hci.le.trans hai, by rw [hrole]; decide, ?_⟩
  rw [hci]
  refine (backed_end hM hb).imp_right ?_
  rintro ⟨j, M, nc, hmark, hle⟩
  obtain ⟨-, hsealed, -⟩ := hM.events _ hmark
  refine ⟨nc.currentTerm, M, hsealed, hle, fun hc => ?_⟩
  rw [hrole] at hc
  cases hc

include hI in
/-- **A restart of a node whose log is committed** applies committed entries. -/
theorem accounted_restart (hX : Accounted S.setup a c.toCluster) :
    Accounted S.setup a (S.restart c i draw).toCluster := by
  obtain ⟨n, hc, hn⟩ := restart_cluster S c i draw
  have hout := rebuild_marks S c i draw
  have hgrow := List.prefix_append c.history (S.rebuild c i draw).out
  have hplain := (hM.nodes i).plain
  have hkeep (j : ι) {n : Node ι σ δ} (hg : S.setup.Guarded a c.history j n) :
      S.setup.Guarded a (c.history ++ (S.rebuild c i draw).out) j n :=
    Guarded.keep hg hI (.refl j a) fun v t hv => .inl (mem_of_send hout hv)
  rw [hc, Cluster.put_eq]
  refine ⟨fun j p m ho => hX.warranted j p m (mem_of_send hout ho), fun j => ?_, fun j => ?_,
    fun j p t l pi pt es ci ho => (hX.carried j p t l pi pt es ci (mem_of_send hout ho)).mono hgrow,
    hX.marks.extend fun o ho h' hh => ?_⟩
  · by_cases hj : j = i
    · subst hj
      rw [Cluster.at_node_self]
      rcases hn with rfl | ⟨rfl, hr⟩
      · exact hkeep j (hX.nodes j)
      · exact .inr (ajar_rebuild hM hb hr _)
    · rw [Cluster.at_node_of_ne hj]
      exact hkeep j (hX.nodes j)
  · by_cases hj : j = i
    · subst hj
      rw [Cluster.at_node_self]
      rcases hn with rfl | ⟨rfl, hr⟩
      · exact (hX.reached j).mono hgrow
      · rw [(rebuild_applied hplain hr).1]
        refine (backed_end hM hb).imp_right ?_
        rintro ⟨k, M, nc, hmark, hle⟩
        exact ⟨k, M, nc, hgrow.subset hmark, hle⟩
    · rw [Cluster.at_node_of_ne hj]
      exact (hX.reached j).mono hgrow
  · obtain ⟨index, x, rfl, -, hx⟩ := rebuild_out ho
    have hpos : index ≠ 0 := by
      rintro rfl
      unfold RaftLog.get at hx
      rw [hplain.first, if_neg (by omega)] at hx
      cases hx
    obtain ⟨k, rfl⟩ := Nat.exists_eq_succ_of_ne_zero hpos
    have hidx : x.index = k.succ := hplain.indexed k x (by rw [← hplain.get]; exact hx)
    refine ⟨hidx, ?_⟩
    rw [← hidx]
    exact (hb x (RaftLog.mem_of_get hx)).mono hh

end

/-! ### Runs -/

/-- The invariant of the runs. -/
theorem accounted_sim (hr : Reach S.next (fun c op => S.Legal c op ∧ S.Sound c op) S.start c) :
    S.setup.Sane c.toCluster ∧ ∃ a, S.setup.GhostInv a ∧ Mirrors S.setup a c.toCluster ∧
      Accounted S.setup a c.toCluster := by
  have hauto : S.setup.NoAutoSnapshot := fun _ _ => rfl
  refine (sim_inv (fun c op => S.Sound c op)
    (fun c => S.setup.Sane c ∧ ∃ a, S.setup.GhostInv a ∧ Mirrors S.setup a c ∧ Accounted S.setup a c)
    ⟨⟨electionsKept_init, fixed_init (setup_fullMesh S)⟩, blank, ghostInv_blank, mirrors_init,
      accounted_init⟩ ?_ ?_ hr).2
  · intro c op e hok he hen hw hI
    obtain ⟨hns, hkm, hp, hno⟩ := hok.1 e he
    obtain ⟨k, hact⟩ := event_call he
    have hmade : k ∈ e.action.made := by
      rw [hact]
      rfl
    have hord : S.setup.Ordered c.toCluster e := ⟨hen, hns, hkm, hp⟩
    refine mirrored_call (Accounted S.setup) hauto hord hact ?_ hI
    intro p q a a' hplain hg hm hI hI' hmv hM hM' hsane hX
    exact accounted_micro hsane hI hI' hmv hM hM' hX hm (hord.tame hauto hmade)
      ((arrived_of_enabled hen hmade).mono hg.isPrefix) rfl (hplain e.node) (hno k hmade)
  · rintro c i draw hok hi ⟨hs, a, hI, hM, hX⟩
    exact ⟨sane_restart hi hs, a, hI, mirrors_restart hi hI hs hM,
      accounted_restart hI hM (hok.2 i rfl) hX⟩

/-- **What simulations apply.**  In every run that restarts nodes with a committed log only, every
recorded entry was committed by some leader, under its index and with its payload, before it was
recorded. -/
theorem restart_applies_committed
    (hr : Reach S.next (fun c op => S.Legal c op ∧ S.Sound c op) S.start c) (h₁ h₂ : History ι σ δ)
    (o : ι × Out ι σ δ) (heq : c.history = h₁ ++ o :: h₂) (i : ι) (index : ℕ) (payload : Bytes)
    (ho : recorded o = some (i, index, payload)) : CommittedAs h₁ index payload := by
  obtain ⟨-, a, -, -, hX⟩ := accounted_sim hr
  have hmark := hX.marks h₁ o h₂ heq
  obtain ⟨j, o⟩ := o
  cases o with
  | apply m x =>
    unfold recorded at ho
    dsimp only at ho
    split_ifs at ho
    cases ho
    obtain ⟨hidx, hcom⟩ := hmark
    rw [hidx]
    exact hcom
  | _ => cases ho

/-- Server 0 of two is elected, commits a no-op and an entry, and is restarted. -/
def rebooted : List (Op ℕ Unit) :=
  [.restart 1 (1 / 2), .step 0, .step 0, .step 0, .step 0, .step 0, .client 0 0 (.propose [97]),
   .step 0, .step 0, .step 0, .step 0, .crash 0, .restart 0 0]

/-- The entry is applied twice, both times after it was committed. -/
theorem restart_applies_committed_rebooted :
    let c := (simLab 2 false).replay rebooted
    c.applied.count (0, 2, [97]) = 2 ∧ ∀ h₁ h₂ o, c.history = h₁ ++ o :: h₂ → ∀ i index payload,
      recorded o = some (i, index, payload) → CommittedAs h₁ index payload :=
  ⟨by decide +kernel, restart_applies_committed (reach_ops _ (by decide +kernel))⟩

/-- Server 0 is elected, cut off, asked for an entry, and restarted. -/
def cutOff : List (Op ℕ Unit) :=
  [.restart 1 (1 / 2), .step 0, .step 0, .step 0, .partition 0 1, .client 0 0 (.propose [97]),
   .crash 0, .restart 0 0]

/-- It applies an entry that nobody ever commits. -/
theorem restart_applies_uncommitted :
    let S := simLab 2 false
    let c := S.replay cutOff
    Reach S.next S.Legal S.start c ∧ (0, 2, [97]) ∈ c.applied ∧ ¬CommittedAs c.history 2 [97] :=
  ⟨reach_ops _ (by decide +kernel), by decide +kernel, by decide +kernel⟩

end Pylog.Sim
