import Pylog.Sim.Runs

/-!
# Pylog.Sim.Partitions — what a partition cuts (sim.py:115–157)

`step` finds the sender of a message in its `candidate`, `leader` or `from`.  Every message but
`timeout_now` names its sender there (`Signed`), so a partition cuts all others.
-/

namespace Pylog.Sim

open Pylog.Raft Effect Transition Trace

variable {ι σ δ : Type} [LinearOrder ι] {S : Scenario ι σ δ} {c : SimCluster ι σ δ} {op : Op ι δ}
  {i : ι} {draw : ℚ}

/-- A message that is sent names its sender, or is a `timeout_now`. -/
def Signed : ι × Out ι σ δ → Prop
  | (i, .send _ m) => source m = some i ∨ ∃ t, m = .timeoutNow t
  | _ => True

/-- **Every message a node can send**, one case for each place of the code that sends. -/
theorem micro_signed {self : Self ι σ δ} {n₀ : Node ι σ δ} {k : Call ι δ}
    {p q : Node ι σ δ × History ι σ δ} (hm : Micro self n₀ k p q) (hp : ∀ o ∈ p.2, Signed o) :
    ∀ o ∈ q.2, Signed o := by
  have key : ∀ out : History ι σ δ, (∀ o ∈ out, Signed o) → ∀ o ∈ p.2 ++ out, Signed o :=
    fun out hout o ho => (List.mem_append.mp ho).elim (hp o) (hout o)
  cases hm with
  | sendAppend n h p hr =>
    refine key _ ?_
    simp only [List.mem_singleton, forall_eq]
    unfold Self.appendMsg
    dsimp only
    split_ifs <;> exact .inl rfl
  | sendTimeoutNow n h p hr hp hk => exact key _ (by simp [Signed])
  | merge n h leader prevIndex prevTerm entries commit r =>
    refine key _ ?_
    split_ifs <;> simp [Signed]
  | _ =>
    first
    | exact hp
    | exact key _ (by simp [Signed, source])

/-- The facts of a cluster the sender check rests on. -/
def Attributed (c : Cluster ι σ δ) : Prop := VotesKept c ∧ ∀ o ∈ c.history, Signed o

theorem attributed_step {T : Setup ι σ δ} {c : Cluster ι σ δ} {e : Event ι δ} (hI : Attributed c)
    (he : T.Enabled c e) : Attributed (T.step c e) := by
  refine ⟨votesKept_step hI.1 he, ?_⟩
  have hlocal : Local (fun _ o => Signed o) (fun _ _ _ => True) (T.step c e) := by
    refine local_step (hI.1.2 e.node).calm (fun _ _ _ _ _ _ h => h) ?_ (fun _ _ _ _ => trivial)
      ⟨fun h₁ o h₂ heq => hI.2 o (by rw [heq]; simp), fun _ => trivial⟩
    intro k _ p q hm _ hc _
    refine ⟨?_, trivial⟩
    have hq := micro_signed hm fun o ho => by
      obtain ⟨h₁, h₂, -, hs⟩ := hc.mem ho
      exact hs
    exact fun h₁ o h₂ heq => hq o (by rw [heq]; simp)
  intro o ho
  obtain ⟨h₁, h₂, -, hs⟩ := hlocal.1.mem ho
  exact hs

/-- The replay of a restart leaves every vote file alone. -/
theorem fileOf_marks {h out : History ι σ δ} (hout : Marks i out) {j : ι} :
    fileOf j (h ++ out) = fileOf j h := by
  rw [fileOf_append]
  induction out using List.reverseRecOn with
  | nil => rfl
  | append_singleton out o ih =>
    rw [List.foldl_append, ih fun o ho => hout o (List.mem_append_left _ ho)]
    obtain ⟨index, x, rfl⟩ := hout o (by simp)
    rfl

/-- The rebuilt node is a follower with the vote of its file. -/
theorem voter_rebuild (hv : Voter i (c.node i) c.history) :
    Voter i (S.rebuild c i draw).state (c.history ++ (S.rebuild c i draw).out) := by
  have hs := rebuild_saved S c i draw
  refine ⟨?_, fun hr => ?_, fun hr => ?_⟩
  · rw [fileOf_marks (rebuild_marks S c i draw), hv.file, hs.term, hs.voted]
    rfl
  · rw [hs.role] at hr
    cases hr
  · rw [hs.role] at hr
    cases hr

theorem votesKept_restart (hI : VotesKept c.toCluster) :
    VotesKept (S.restart c i draw).toCluster :=
  local_restart hI (fun _ _ _ => trivial) (fun _ _ _ _ hout hv => hv.mono (fileOf_marks hout))
    (voter_rebuild (hI.2 i))

theorem attributed_restart (hI : Attributed c.toCluster) :
    Attributed (S.restart c i draw).toCluster := by
  refine ⟨votesKept_restart hI.1, ?_⟩
  obtain ⟨n, hc, -⟩ := restart_cluster S c i draw
  rw [hc]
  intro o ho
  rcases List.mem_append.mp ho with ho | ho
  · exact hI.2 o ho
  · obtain ⟨index, x, rfl, -⟩ := rebuild_out ho
    trivial

/-! ### Partitions -/

/-- The message a call of `step` hands to a node. -/
def Scenario.handled (S : Scenario ι σ δ) (c : SimCluster ι σ δ) : Option (Parcel ι δ) :=
  match S.turn c with
  | .message p _ => if S.up c p.dest = true ∧ c.cut p = false then some p else none
  | _ => none

/-- `step` hands over no message across a partition. -/
def Scenario.RespectsPartitions (S : Scenario ι σ δ) (c : SimCluster ι σ δ) : Prop :=
  ∀ p ∈ S.handled c, c.apart p.sender p.dest = false

/-- The message `step` takes next is a `timeout_now` to a node that is up, across a partition. -/
def Scenario.transfersAcross (S : Scenario ι σ δ) (c : SimCluster ι σ δ) : Bool :=
  match S.turn c with
  | .message ⟨_, _, dest, .timeoutNow _, sender⟩ _ => S.up c dest && c.apart sender dest
  | _ => false

/-- **What partitions cut.**  In every state of every simulation the next step respects the
partitions if and only if it is not about to deliver a `timeout_now` across one. -/
theorem partitions_cut_iff (hr : Reach S.next S.Legal S.start c) :
    S.RespectsPartitions c ↔ S.transfersAcross c = false := by
  obtain ⟨hp, -, hsigned⟩ := sim_inv (fun _ _ => True) Attributed
    ⟨votesKept_init, fun o ho => by cases ho⟩ (fun _ _ _ _ _ he _ hI => attributed_step hI he)
    (fun _ _ _ _ _ hI => attributed_restart hI) (hr.mono fun _ _ h => ⟨h, trivial⟩)
  unfold Scenario.RespectsPartitions Scenario.handled Scenario.transfersAcross
  cases ht : S.turn c with
  | idle => simp
  | timer j => simp
  | message p rest =>
    have hsrc : source p.msg = some p.sender ∨ ∃ t, p.msg = .timeoutNow t :=
      hsigned (p.sender, .send p.dest p.msg) (hp p (by rw [turn_message ht]; simp))
    obtain ⟨due, seq, dest, m, sender⟩ := p
    rcases hsrc with hsrc | ⟨t, rfl⟩
    · -- the sender is found, so the check of `step` is the one the partition asks for
      have hcut : c.cut ⟨due, seq, dest, m, sender⟩ = c.apart sender dest := by
        unfold SimCluster.cut
        rw [show source m = some sender from hsrc]
      dsimp only
      rw [hcut]
      cases m with
      | timeoutNow t => cases hsrc
      | _ =>
        refine ⟨fun _ => rfl, fun _ q hq => ?_⟩
        split_ifs at hq with h
        · cases hq
          exact h.2
        · cases hq
    · have hcut : c.cut ⟨due, seq, dest, .timeoutNow t, sender⟩ = false := rfl
      dsimp only
      rw [hcut]
      by_cases hup : S.up c dest = true
      · simp [hup]
      · simp [hup]

/-- Server 0 is elected by server 1 and hands the lead over to it; then the two are partitioned. -/
def handoff : List (Op ℕ Unit) :=
  [.restart 1 (1 / 2), .step 0, .step 0, .step 0, .client 0 0 (.transferLeadership 1),
   .partition 0 1, .step 0, .step 0]

/-- The two appends of the leader are cut. -/
theorem partitions_cut_iff_handoff :
    let S := simLab 2 false
    let c := S.replay (handoff.take 7)
    c.apart 0 1 = true ∧ (S.RespectsPartitions c ↔ S.transfersAcross c = false) :=
  ⟨by decide +kernel, partitions_cut_iff (reach_ops _ (by decide +kernel))⟩

/-- The `timeout_now` passes the partition: server 1 starts an election. -/
theorem timeoutNow_crosses_partition :
    let S := simLab 2 false
    let c := S.replay handoff
    Reach S.next S.Legal S.start c ∧ ¬S.RespectsPartitions c ∧
      (∃ p ∈ S.handled c, p.msg = .timeoutNow 1 ∧ c.apart p.sender p.dest = true) ∧
      ((S.next c (.step 0)).node 1).currentTerm = 2 := by
  intro S c
  have hp : ∃ p ∈ S.handled c, p.msg = .timeoutNow 1 ∧ c.apart p.sender p.dest = true := by
    decide +kernel
  refine ⟨reach_ops _ (by decide +kernel), fun h => ?_, hp, by decide +kernel⟩
  obtain ⟨p, hp, -, ha⟩ := hp
  rw [h p hp] at ha
  cases ha

end Pylog.Sim
