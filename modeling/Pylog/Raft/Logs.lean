import Pylog.Raft.Refine

/-!
# Pylog.Raft.Logs — log matching and leader completeness of the code

Both are read off the abstract state that mirrors the cluster (`mirrored`).  The runs are those with
fixed membership, pre-vote off and no snapshots; nodes crash and restart between calls.
-/

namespace Pylog.Raft

open Effect Transition Trace Replication

variable {ι σ δ : Type} [LinearOrder ι] {S : Setup ι σ δ} {c : Cluster ι σ δ} {i j : ι}
  {n n' : Node ι σ δ} {a : State ι Entry}

/-- `get` of a log without snapshots, at an index of the list. -/
theorem get_of_take {l l' : RaftLog} (hp : l.Plain) (hp' : l'.Plain) {m index : ℕ}
    (ht : l.entries.take m = l'.entries.take m) (h1 : 1 ≤ index) (hm : index ≤ m) :
    l.get index = l'.get index := by
  obtain ⟨q, rfl⟩ := Nat.exists_eq_succ_of_ne_zero (show index ≠ 0 by omega)
  rw [hp.get, hp'.get, ← List.getElem?_take_of_lt (show q < m by omega), ht,
    List.getElem?_take_of_lt (by omega)]

theorem get_isSome {l : RaftLog} (hp : l.Plain) {index : ℕ} (h1 : 1 ≤ index)
    (h2 : index ≤ l.entries.length) : ∃ x, l.get index = some x := by
  obtain ⟨q, rfl⟩ := Nat.exists_eq_succ_of_ne_zero (show index ≠ 0 by omega)
  exact ⟨_, (hp.get q).trans (List.getElem?_eq_getElem (by omega))⟩

theorem length_of_get {l : RaftLog} (hp : l.Plain) {index : ℕ} {x : Entry}
    (hx : l.get index = some x) :
    1 ≤ index ∧ index ≤ l.entries.length ∧ l.entries[index - 1]? = some x := by
  cases index with
  | zero =>
    unfold RaftLog.get at hx
    rw [hp.first, if_neg (by omega)] at hx
    cases hx
  | succ q =>
    rw [hp.get] at hx
    exact ⟨by omega, (List.getElem?_eq_some_iff.mp hx).1, hx⟩

instance (h : History ι σ δ) (i : ι) (m : ℕ) (P : Node ι σ δ → Prop) [DecidablePred P] :
    Decidable (∃ n, (i, .commit m n) ∈ h ∧ P n) :=
  decidable_of_iff (h.any fun o => match o.2 with
    | .commit m' n => decide (o.1 = i ∧ m' = m ∧ P n)
    | _ => false) <| by
    rw [List.any_eq_true]
    constructor
    · rintro ⟨⟨j, o⟩, ho, hm⟩
      cases o with
      | commit m' n =>
        obtain ⟨rfl, rfl, hn⟩ := of_decide_eq_true hm
        exact ⟨n, ho, hn⟩
      | _ => cases hm
    · rintro ⟨n, hn, hp⟩
      exact ⟨_, hn, decide_eq_true ⟨rfl, rfl, hp⟩⟩

/-- Node `i` as leader of term `t` set its commit index to `m` in `_advance_commit`. -/
def Advanced (h : History ι σ δ) (i : ι) (m t : ℕ) : Prop :=
  ∃ n, (i, .commit m n) ∈ h ∧ n.currentTerm = t

instance (h : History ι σ δ) (i : ι) (m t : ℕ) : Decidable (Advanced h i m t) :=
  inferInstanceAs (Decidable (∃ n, (i, .commit m n) ∈ h ∧ n.currentTerm = t))

/-- Server 0 leads term 1 and commits its first entry with server 1, which leads term 2 with the
vote of server 2. -/
def handover : List (Event ℕ Unit) :=
  [callAt 1000 0 .tick, callAt 1001 1 (.handle (.vote 1 0 0 0)),
   callAt 1002 0 (.handle (.voteResp 1 1 true)),
   callAt 1003 1 (.handle (.append 1 0 0 0 [⟨1, 1, noop⟩] 0)),
   callAt 1004 0 (.handle (.appendResp 1 1 true 1 (some 0))),
   callAt 2000 1 .tick, callAt 2001 2 (.handle (.vote 2 1 1 1)),
   callAt 2002 1 (.handle (.voteResp 2 2 true))]

theorem handover_allowed : (lab 3 false 256).Allows (fun c e => (lab 3 false 256).Enabled c e ∧
    e.KeepsMembership (lab 3 false 256) ∧ e.Plain) (lab 3 false 256).init handover := by
  decide +kernel

/-- **Log matching.**  Two logs with an entry of one term at one index hold the same entries up to
that index. -/
theorem log_matching_nodes (hS : S.FullMesh) (hauto : S.NoAutoSnapshot) (hoff : S.PrevoteOff)
    (hr : Reach S.step (fun c e => S.Enabled c e ∧ e.KeepsMembership S ∧ e.Plain) S.init c)
    {k : ℕ} {x y : Entry} (hx : (c.node i).log.get k = some x) (hy : (c.node j).log.get k = some y)
    (ht : x.term = y.term) :
    ∀ index, 1 ≤ index → index ≤ k →
      ∃ z, (c.node i).log.get index = some z ∧ (c.node j).log.get index = some z := by
  obtain ⟨a, hI, hM⟩ := mirrored hS hauto hoff hr
  have hi := hM.nodes i
  have hj := hM.nodes j
  obtain ⟨h1, h2, hxe⟩ := length_of_get hi.plain hx
  obtain ⟨-, -, hye⟩ := length_of_get hj.plain hy
  have hmi := hI.matches_log i
  have hmj := hI.matches_log j
  rw [hi.log] at hmi
  rw [hj.log] at hmj
  have htake := log_matching hmi hmj hxe hye ht
  rw [Nat.sub_add_cancel h1] at htake
  intro index hidx hle
  obtain ⟨z, hz⟩ := get_isSome hi.plain hidx (hle.trans h2)
  exact ⟨z, hz, (get_of_take hi.plain hj.plain htake hidx hle).symm.trans hz⟩

theorem log_matching_nodes_handover :
    let c := (lab 3 false 256).replay handover
    (c.node 0).log.get 1 = some ⟨1, 1, noop⟩ ∧ ∀ index, 1 ≤ index → index ≤ 1 →
      ∃ z, (c.node 0).log.get index = some z ∧ (c.node 1).log.get index = some z := by
  intro c
  have h0 : (c.node 0).log.get 1 = some ⟨1, 1, noop⟩ := by decide +kernel
  have h1 : (c.node 1).log.get 1 = some ⟨1, 1, noop⟩ := by decide +kernel
  exact ⟨h0, log_matching_nodes (lab_fullMesh 3 false 256) (lab_noAutoSnapshot 3 false 256)
    (lab_prevoteOff 3 256) (reach_replay handover handover_allowed) h0 h1 rfl⟩

/-- **Leader completeness.**  What the leader of a term committed is in the log of every node that
becomes LEADER in a later term, at that moment. -/
theorem leader_completeness_nodes (hS : S.FullMesh) (hauto : S.NoAutoSnapshot) (hoff : S.PrevoteOff)
    (hr : Reach S.step (fun c e => S.Enabled c e ∧ e.KeepsMembership S ∧ e.Plain) S.init c)
    {m : ℕ} (hc : (i, .commit m n) ∈ c.history) (hl : (j, .lead n') ∈ c.history)
    (ht : n.currentTerm < n'.currentTerm) :
    ∀ index, 1 ≤ index → index ≤ m → ∃ x, n.log.get index = some x ∧ n'.log.get index = some x := by
  obtain ⟨a, hI, hM⟩ := mirrored hS hauto hoff hr
  obtain ⟨-, hsealed, hplain, htake⟩ := hM.events _ hc
  obtain ⟨hled, hbase, hplain'⟩ := hM.events _ hl
  have hpre := Replication.leader_completeness quorum_meet hI hsealed _ ht (by rw [hled]; simp)
  rw [hbase, ← htake] at hpre
  have hlen : (n.log.entries.take m).length = m := by
    rw [htake, List.length_take]
    exact min_eq_left hsealed.length_le
  have heq : n.log.entries.take m = n'.log.entries.take m := by
    have := List.prefix_iff_eq_take.mp hpre
    rwa [hlen] at this
  intro index h1 hle
  have hm : m ≤ n.log.entries.length := by
    rw [List.length_take] at hlen
    omega
  obtain ⟨x, hx⟩ := get_isSome hplain h1 (hle.trans hm)
  exact ⟨x, hx, (get_of_take hplain hplain' heq h1 hle).symm.trans hx⟩

theorem leader_completeness_nodes_handover :
    let c := (lab 3 false 256).replay handover
    ∃ n n', (0, .commit 1 n) ∈ c.history ∧ (1, .lead n') ∈ c.history ∧
      n.currentTerm < n'.currentTerm ∧ ∀ index, 1 ≤ index → index ≤ 1 →
        ∃ x, n.log.get index = some x ∧ n'.log.get index = some x := by
  intro c
  obtain ⟨n, hn, ht⟩ : Advanced c.history 0 1 1 := by decide +kernel
  obtain ⟨n', hn', ht'⟩ : Led c.history 1 2 := by decide +kernel
  have hlt : n.currentTerm < n'.currentTerm := by omega
  exact ⟨n, n', hn, hn', hlt, leader_completeness_nodes (lab_fullMesh 3 false 256)
    (lab_noAutoSnapshot 3 false 256) (lab_prevoteOff 3 256) (reach_replay handover handover_allowed)
    hn hn' hlt⟩

end Pylog.Raft
