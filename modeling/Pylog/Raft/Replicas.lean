import Pylog.Raft.Commands
import Pylog.Raft.Permanence

/-!
# Pylog.Raft.Replicas — the state machines of a cluster

In runs without overruns no window conflicts with what a node has applied, so every node has fed its
state machine the commands of its log up to `applied_index` (`serves_reach`).  The logs agree there
between any two nodes at any two moments: of two replicas one is the other, fed with further commands
(`replicas_agree`).
-/

namespace Pylog.Raft

open Effect Transition Trace Replication

variable {ι σ δ : Type} [LinearOrder ι] {S : Setup ι σ δ} {c c' : Cluster ι σ δ} {e : Event ι δ}
  {i j : ι} {sm : StateMachine σ δ} {client : Bytes → Prop} {k : Call ι δ} {a : State ι Entry}

/-! ### Commands of a prefix -/

namespace RaftLog

variable {l l' : RaftLog} {m m' : ℕ}

theorem Plain.commands (h : l.Plain) (m : ℕ) :
    l.commands m = ((l.entries.take m).map Entry.payload).filter (isCommand ·) := by
  unfold RaftLog.commands
  congr 1
  induction m with
  | zero => simp
  | succ m ih =>
    rw [List.range_succ, List.filterMap_append, ih, List.take_add_one, List.map_append]
    congr 1
    simp only [List.filterMap_cons, List.filterMap_nil, h.get]
    cases l.entries[m]? <;> rfl

theorem Plain.commands_prefix (h : l.Plain) (h' : l'.Plain) (hm : m ≤ m')
    (ht : l.entries.take m = l'.entries.take m) : l.commands m <+: l'.commands m' := by
  rw [h.commands, h'.commands, ht]
  exact ((List.take_prefix_take_left hm).map _).filter _

end RaftLog

/-! ### What is applied is never overwritten -/

/-- The leader of a term at or after the node's holds what the node committed. -/
theorem keepsApplied_of_safe (hI : S.GhostInv a) (hM : Mirrors S a c) (hX : Safe S a c)
    (harr : Arrived c.history i k) (happ : (c.node i).appliedIndex ≤ (c.node i).commitIndex) :
    (c.node i).keepsApplied k = true := by
  unfold Node.keepsApplied
  split
  · rename_i term leader prevIndex prevTerm entries commit
    refine decide_eq_true fun hterm hle hprev => ?_
    have htr := hM.nodes i
    obtain ⟨x, hx⟩ := harr _ rfl
    obtain ⟨hled, -, hw⟩ := hM.events _ hx
    have hwin : RaftLog.Window (a.llog term) prevIndex prevTerm entries := by
      refine hw.resolve_left fun hneg => ?_
      rw [hneg, htr.plain.termAt] at hprev
      rw [htr.plain.lastIndex] at hle
      have := RaftLog.termBefore_eq_neg hprev
      omega
    have hs := hX.nodes i
    have hsrc := Secured.in_llog quorum_meet hI (hs.extend hterm (List.prefix_refl _))
      (by rw [hled]; simp)
    rintro ⟨y, index⟩ hy hindex
    obtain ⟨h1, hy⟩ := List.mem_zipIdx_iff_le_and_getElem?_sub.mp hy
    dsimp only at h1 hy hindex ⊢
    obtain ⟨q, rfl⟩ := Nat.exists_eq_succ_of_ne_zero (show index ≠ 0 by omega)
    have hlen := hs.length_le
    have hget := hwin.get hy
    rw [show prevIndex + (q + 1 - (prevIndex + 1)) = q by omega] at hget
    rw [htr.plain.termAt]
    refine RaftLog.termBefore_succ ?_
    have hsame := get_of_take_prefix hsrc (show q < (c.node i).commitIndex by omega) (by omega)
    exact hsame.trans hget
  · rfl

/-- `propose` accepts payloads of clients only. -/
def HandsOver (client : Bytes → Prop) (c : Cluster ι σ δ) (e : Event ι δ) : Prop :=
  ∀ payload, e.action.made = some (.propose payload) → (c.node e.node).Admits → client payload

/-- Runs without overruns overwrite nothing that was applied. -/
theorem serves_reach (hS : S.FullMesh) (hauto : S.NoAutoSnapshot)
    (hsm : ∀ i ∈ S.servers, (S.params i).stateMachine = some sm)
    (haccept : ∀ payload, client payload → ∀ s, (sm.apply s payload).2 = true)
    (hr : Reach S.step (fun c e => S.Ordered c e ∧ NoOverrun c e ∧ HandsOver client c e) S.init c) :
    Reach S.step (fun c e => S.Enabled c e ∧ Serves client c e) S.init c := by
  induction hr with
  | refl => exact .refl
  | @step c e hr he ih =>
    obtain ⟨he, hno, hoffers⟩ := he
    obtain ⟨a, hI, hM, hX⟩ := safe_reach hS hauto (hr.mono fun _ _ h => ⟨h.1, h.2.1⟩)
    have hcurrent := current_reach hauto he.1.1 (hsm _ he.1.1) haccept ih
    refine ih.step ⟨he.1, fun k hk => he.2.2.2.2 k hk, fun k hk => ?_, hoffers⟩
    exact keepsApplied_of_safe hI hM hX (arrived_of_enabled he.1 (made_of_call hk)) hcurrent.applied

/-! ### Replicas -/

/-- **Replicas agree.**  With a state machine that accepts what clients send: every server has applied
what it committed and fed its state machine the commands up to there; of any two servers at any two
moments of the run, the one that applied less was fed a prefix of the other's commands. -/
theorem replicas_agree (hS : S.FullMesh) (hauto : S.NoAutoSnapshot)
    (hsm : ∀ i ∈ S.servers, (S.params i).stateMachine = some sm)
    (haccept : ∀ payload, client payload → ∀ s, (sm.apply s payload).2 = true)
    (hr : Reach S.step (fun c e => S.Ordered c e ∧ NoOverrun c e ∧ HandsOver client c e) S.init c)
    (hr' : Reach S.step (fun c e => S.Ordered c e ∧ NoOverrun c e ∧ HandsOver client c e) c c')
    (hi : i ∈ S.servers) (hj : j ∈ S.servers) :
    let calls := (c.node i).log.commands (c.node i).appliedIndex
    let calls' := (c'.node j).log.commands (c'.node j).appliedIndex
    (c.node i).appliedIndex = (c.node i).commitIndex ∧ (c.node i).machine = some (sm.fed calls) ∧
      (c'.node j).machine = some (sm.fed calls') ∧
      ((c.node i).appliedIndex ≤ (c'.node j).appliedIndex → calls <+: calls') ∧
      ((c'.node j).appliedIndex ≤ (c.node i).appliedIndex → calls' <+: calls) := by
  have hcurrent := current_reach hauto hi (hsm i hi) haccept (serves_reach hS hauto hsm haccept hr)
  have hcurrent' :=
    current_reach hauto hj (hsm j hj) haccept (serves_reach hS hauto hsm haccept (hr.trans hr'))
  have hsame {m : ℕ} := committed_same (m := m) (i := i) (j := j) hS hauto
    (hr.mono fun _ _ h => ⟨h.1, h.2.1⟩) (hr'.mono fun _ _ h => ⟨h.1, h.2.1⟩)
  refine ⟨hcurrent.equal, hcurrent.machine, hcurrent'.machine, fun hle => ?_, fun hle => ?_⟩
  · exact hcurrent.log.commands_prefix hcurrent'.log hle
      (hsame hcurrent.applied (hle.trans hcurrent'.applied))
  · exact hcurrent'.log.commands_prefix hcurrent.log hle
      (hsame (hle.trans hcurrent.applied) hcurrent'.applied).symm

/-- A state machine that keeps what it is fed, on servers with the default timing. -/
def journals (size : ℕ) : Setup ℕ (List Bytes) Unit where
  servers := Finset.range size
  params _ :=
    { peers := List.range size
      stateMachine := some ⟨[], fun s payload => (s ++ [payload], true), fun _ => (), fun _ => []⟩
      emptyData := ()
      json := letters }

/-- After `firstTerm`: server 0 commits a command with server 1. -/
def oneCommand : List (Event ℕ Unit) :=
  [callAt 1007 0 (.propose [7]), callAt 1008 1 (.handle (.append 1 0 1 1 [⟨2, 1, [7]⟩] 1)),
   callAt 1009 0 (.handle (.appendResp 1 1 true 2 (some 0)))]

/-- Then a second one, of which server 1 hears by a heartbeat. -/
def twoCommands : List (Event ℕ Unit) :=
  [callAt 1010 0 (.propose [8]), callAt 1011 1 (.handle (.append 1 0 2 1 [⟨3, 1, [8]⟩] 2)),
   callAt 1012 0 (.handle (.appendResp 1 1 true 3 (some 0))), callAt 1060 0 .tick,
   callAt 1061 1 (.handle (.append 1 0 3 1 [] 3))]

theorem replicas_agree_commands :
    let S := journals 3
    let c := S.replay (firstTerm ++ oneCommand)
    let c' := S.replay (firstTerm ++ oneCommand ++ twoCommands)
    (c.node 0).appliedIndex = 2 ∧ (c'.node 1).appliedIndex = 3 ∧ (c.node 0).machine = some [[7]] ∧
      (c'.node 1).machine = some [[7], [8]] ∧
      (c.node 0).log.commands (c.node 0).appliedIndex <+:
        (c'.node 1).log.commands (c'.node 1).appliedIndex := by
  intro S c c'
  have h0 : (c.node 0).appliedIndex = 2 := by decide +kernel
  have h1 : (c'.node 1).appliedIndex = 3 := by decide +kernel
  have hS : S.FullMesh := by
    intro i hi p
    simp only [S, journals, Finset.mem_range, List.mem_range] at hi ⊢
    omega
  have hany : ∀ {c c'}, Reach S.step (fun c e => S.Ordered c e ∧ NoOverrun c e) c c' →
      Reach S.step (fun c e => S.Ordered c e ∧ NoOverrun c e ∧ HandsOver (fun _ => True) c e) c c' :=
    fun hr => hr.mono fun _ _ h => ⟨h.1, h.2, fun _ _ _ => trivial⟩
  have hr : Reach S.step (fun c e => S.Ordered c e ∧ NoOverrun c e) S.init c :=
    reach_replay _ (by decide +kernel)
  have hr' : Reach S.step (fun c e => S.Ordered c e ∧ NoOverrun c e) c c' :=
    reach_replay_append _ twoCommands (by decide +kernel)
  obtain ⟨-, -, -, hprefix, -⟩ := replicas_agree (i := 0) (j := 1) hS (fun _ _ => rfl) (fun _ _ => rfl)
    (fun _ _ _ => rfl) (hany hr) (hany hr') (by decide) (by decide)
  exact ⟨h0, h1, by decide +kernel, by decide +kernel, hprefix (by omega)⟩

end Pylog.Raft
