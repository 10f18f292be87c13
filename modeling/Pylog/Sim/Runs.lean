import Pylog.Raft.Apply
import Pylog.Raft.Votes
import Pylog.Sim.Cluster

/-!
# Pylog.Sim.Runs — a simulation as a run of the cluster

Every operation leaves the nodes alone, is a call at one node (`Scenario.event`) that a cluster may
make, or is a restart (`sim_inv`).  A restart replays the log: it emits the marks of the entries it
applies and leaves term, vote and log as they were.
-/

namespace Pylog.Sim

open Pylog.Raft Effect Transition Trace

variable {ι σ δ : Type} [LinearOrder ι] {S : Scenario ι σ δ} {c : SimCluster ι σ δ} {op : Op ι δ}
  {i : ι} {draw : ℚ}

namespace Scenario

/-- The call an operation makes at a node. -/
def event (S : Scenario ι σ δ) (c : SimCluster ι σ δ) : Op ι δ → Option (Event ι δ)
  | .step draw =>
    match S.turn c with
    | .idle => none
    | .timer i => some ⟨i, max c.clock (nextEventDue (c.node i)), draw, .call .tick⟩
    | .message p _ =>
      if S.up c p.dest = true ∧ c.cut p = false then
        some ⟨p.dest, max c.clock p.due, draw, .call (.handle p.msg)⟩
      else none
  | .client i draw k => some ⟨i, c.clock, draw, .call k⟩
  | _ => none

/-- What sees the replay of a restart. -/
def host (S : Scenario ι σ δ) (c : SimCluster ι σ δ) (i : ι) (draw : ℚ) : Self ι σ δ :=
  { S.params with id := i, now := c.clock, draw := draw }

end Scenario

/-! ### Simulations small enough to run -/

/-- Nodes `0, …, size - 1` with the default timing and a state machine that never fails. -/
def simLab (size : ℕ) (prevote : Bool) : Scenario ℕ Unit Unit :=
  { nodeIds := List.range size
    usePrevote := prevote
    stateMachine := ⟨(), fun s _ => (s, true), fun s => s, fun s => s⟩
    emptyData := ()
    json := letters }

/-- The simulation over a list of operations. -/
def Scenario.replay (S : Scenario ι σ δ) (ops : List (Op ι δ)) : SimCluster ι σ δ :=
  ops.foldl S.next S.start

instance (S : Scenario ι σ δ) (c : SimCluster ι σ δ) : (op : Op ι δ) → Decidable (S.Legal c op)
  | .step draw => inferInstanceAs (Decidable (0 ≤ draw ∧ draw < 1))
  | .client i draw k =>
    inferInstanceAs (Decidable (i ∈ S.nodeIds ∧ (0 ≤ draw ∧ draw < 1) ∧ byClient k = true))
  | .restart i draw => inferInstanceAs (Decidable (i ∈ S.nodeIds ∧ 0 ≤ draw ∧ draw < 1))
  | .crash _ | .partition _ _ | .heal _ _ => inferInstanceAs (Decidable True)

theorem reach_ops {ok : SimCluster ι σ δ → Op ι δ → Prop} [∀ c op, Decidable (ok c op)]
    (ops : List (Op ι δ)) (h : meets S.next (fun c op => decide (ok c op)) S.start ops = true) :
    Reach S.next ok S.start (S.replay ops) :=
  reach_of_meets (fun _ _ => of_decide_eq_true) ops _ h

/-! ### The queue -/

/-- Every message in the queue was sent. -/
def Posted (c : SimCluster ι σ δ) : Prop :=
  ∀ p ∈ c.queue, (p.sender, .send p.dest p.msg) ∈ c.history

omit [LinearOrder ι] in
theorem transmit_cluster (out : History ι σ δ) (c : SimCluster ι σ δ) :
    (out.foldl S.transmit c).toCluster = c.toCluster := by
  induction out generalizing c with
  | nil => rfl
  | cons o out ih =>
    rw [List.foldl_cons, ih]
    obtain ⟨j, o⟩ := o
    cases o <;> rfl

omit [LinearOrder ι] in
theorem transmit_queue (out : History ι σ δ) (c : SimCluster ι σ δ) {p : Parcel ι δ}
    (hp : p ∈ (out.foldl S.transmit c).queue) :
    p ∈ c.queue ∨ (p.sender, .send p.dest p.msg) ∈ out := by
  induction out generalizing c with
  | nil => exact .inl hp
  | cons o out ih =>
    rw [List.foldl_cons] at hp
    rcases ih _ hp with hp | hp
    · obtain ⟨j, o⟩ := o
      cases o with
      | send dest m =>
        rcases (List.mem_orderedInsert _).mp hp with rfl | hp
        · exact .inr (by simp)
        · exact .inl hp
      | _ => exact .inl hp
    · exact .inr (List.mem_cons_of_mem _ hp)

theorem call_cluster (k : Call ι δ) :
    (S.call c i draw k).toCluster = S.setup.step c.toCluster ⟨i, c.clock, draw, .call k⟩ := by
  unfold Scenario.call
  dsimp only
  rw [transmit_cluster]

theorem Posted.call (hp : Posted c) (k : Call ι δ) : Posted (S.call c i draw k) := by
  intro p hq
  have hc : (S.call c i draw k).history =
      c.history ++ (S.setup.outcome c.toCluster ⟨i, c.clock, draw, .call k⟩ k).out := by
    rw [call_cluster]
    rfl
  rw [hc, List.mem_append]
  exact (transmit_queue _ _ hq).imp_left (hp p)

theorem turn_message {p : Parcel ι δ} {rest : List (Parcel ι δ)} (ht : S.turn c = .message p rest) :
    c.queue = p :: rest := by
  unfold Scenario.turn at ht
  split at ht
  · cases ht
  · cases ht
  · cases ht
    assumption
  · split_ifs at ht
    cases ht
    assumption

/-! ### The replay of a restart -/

/-- What the steps of the replay keep. -/
theorem rebuild_inv (S : Scenario ι σ δ) (c : SimCluster ι σ δ) (i : ι) (draw : ℚ)
    (I : Node ι σ δ → History ι σ δ → Prop) (h : History ι σ δ) (h0 : I (S.rebuilt c i draw) h)
    (hI : ∀ p q, MarkStep (S.host c i draw) p q → I p.1 p.2 → I q.1 q.2) :
    I (S.rebuild c i draw).state (h ++ (S.rebuild c i draw).out) := by
  have hf : Follows (MarkStep (S.host c i draw)) (S.host c i draw).applyCommitted (S.rebuilt c i draw)
      h _ := applyCommitted_marks rfl
  exact hf.inv I hI h0

/-- The replay keeps the seat and the log. -/
structure SameSaved (n n' : Node ι σ δ) : Prop where
  role : n'.role = n.role
  term : n'.currentTerm = n.currentTerm
  voted : n'.votedFor = n.votedFor
  log : n'.log = n.log
  files : n'.snapshotFiles = n.snapshotFiles
  commit : n'.commitIndex = n.commitIndex

theorem markStep_saved {p q : Node ι σ δ × History ι σ δ} (hm : MarkStep (S.host c i draw) p q) :
    SameSaved p.1 q.1 := by
  obtain ⟨n, h⟩ := p
  obtain ⟨n', h'⟩ := q
  obtain ⟨⟨hs, hl⟩, -⟩ := hm
  dsimp only at hs hl ⊢
  cases hs with
  | file s hs hd => cases hd
  | _ => exact ⟨rfl, rfl, rfl, hl, rfl, rfl⟩

omit [LinearOrder ι] in
theorem SameSaved.trans {a b d : Node ι σ δ} (h1 : SameSaved a b) (h2 : SameSaved b d) :
    SameSaved a d :=
  ⟨h2.role.trans h1.role, h2.term.trans h1.term, h2.voted.trans h1.voted, h2.log.trans h1.log,
    h2.files.trans h1.files, h2.commit.trans h1.commit⟩

theorem rebuild_saved (S : Scenario ι σ δ) (c : SimCluster ι σ δ) (i : ι) (draw : ℚ) :
    SameSaved (S.rebuilt c i draw) (S.rebuild c i draw).state :=
  rebuild_inv S c i draw (fun n _ => SameSaved (S.rebuilt c i draw) n) []
    ⟨rfl, rfl, rfl, rfl, rfl, rfl⟩ fun _ _ hm hs => hs.trans (markStep_saved hm)

/-- The replay emits the marks of entries of the saved log. -/
theorem rebuild_out {o : ι × Out ι σ δ} (ho : o ∈ (S.rebuild c i draw).out) :
    ∃ index x, o = (i, .apply index x) ∧ index ≤ (c.node i).log.lastIndex ∧
      (c.node i).log.get index = some x := by
  have key := rebuild_inv S c i draw
    (fun n h => SameSaved (S.rebuilt c i draw) n ∧ ∀ o ∈ h, ∃ index x, o = (i, .apply index x) ∧
      index ≤ (c.node i).log.lastIndex ∧ (c.node i).log.get index = some x)
    [] ⟨⟨rfl, rfl, rfl, rfl, rfl, rfl⟩, by simp⟩ ?_
  · exact key.2 o ho
  · rintro ⟨n, h⟩ ⟨n', h'⟩ hm ⟨hs, hall⟩
    refine ⟨hs.trans (markStep_saved hm), ?_⟩
    rcases hm.2 with heq | ⟨e, hlt, he, heq⟩
    · rw [show h' = h from heq]
      exact hall
    · rw [show h' = _ from heq]
      intro o ho
      rcases List.mem_append.mp ho with ho | ho
      · exact hall o ho
      · refine ⟨n.appliedIndex + 1, e, List.mem_singleton.mp ho, ?_, ?_⟩
        · have hc : n.commitIndex = (c.node i).log.lastIndex := hs.commit
          rw [← hc]
          exact hlt
        · have hl : n.log = (c.node i).log := hs.log
          rw [← hl]
          exact he

/-- The node after a restart: the old one, or a follower with the saved term, vote and log. -/
theorem restart_cluster (S : Scenario ι σ δ) (c : SimCluster ι σ δ) (i : ι) (draw : ℚ) : ∃ n,
    (S.restart c i draw).toCluster = c.put i n (S.rebuild c i draw).out ∧
      (n = c.node i ∨ n = (S.rebuild c i draw).state ∧ (S.rebuild c i draw).result = .ok ()) := by
  unfold Scenario.restart
  dsimp only
  cases hr : (S.rebuild c i draw).result with
  | ok a => exact ⟨_, rfl, .inr ⟨rfl, rfl⟩⟩
  | error e => exact ⟨_, rfl, .inl rfl⟩

/-- The effects are marks of entries the node applies. -/
def Marks (i : ι) (out : History ι σ δ) : Prop := ∀ o ∈ out, ∃ index x, o = (i, .apply index x)

theorem rebuild_marks (S : Scenario ι σ δ) (c : SimCluster ι σ δ) (i : ι) (draw : ℚ) :
    Marks i (S.rebuild c i draw).out := by
  intro o ho
  obtain ⟨index, x, rfl, -⟩ := rebuild_out ho
  exact ⟨index, x, rfl⟩

/-- What marks leave alone is kept by a restart, if it holds of the rebuilt node. -/
theorem local_restart {J : History ι σ δ → ι × Out ι σ δ → Prop}
    {N : ι → Node ι σ δ → History ι σ δ → Prop} (hI : Local J N c.toCluster)
    (hmark : ∀ h index x, J h (i, .apply index x))
    (hmono : ∀ j n h out, Marks i out → N j n h → N j n (h ++ out))
    (hnew : N i (S.rebuild c i draw).state (c.history ++ (S.rebuild c i draw).out)) :
    Local J N (S.restart c i draw).toCluster := by
  obtain ⟨n, hc, hn⟩ := restart_cluster S c i draw
  have hout := rebuild_marks S c i draw
  rw [hc, Cluster.put_eq]
  refine hI.put (hI.1.extend fun o ho h' _ => ?_) ?_ fun j _ hN => hmono j _ _ _ hout hN
  · obtain ⟨index, x, rfl⟩ := hout o ho
    exact hmark h' index x
  · rcases hn with rfl | ⟨rfl, -⟩
    · exact hmono i _ _ _ hout (hI.2 i)
    · exact hnew

/-! ### Runs -/

theorem next_call {e : Event ι δ} (he : S.event c op = some e) :
    (S.next c op).toCluster = S.setup.step c.toCluster e := by
  cases op with
  | client j d k =>
    cases he
    exact call_cluster k
  | step d =>
    unfold Scenario.event at he
    show (S.step c d).toCluster = _
    unfold Scenario.step
    cases ht : S.turn c with
    | idle =>
      rw [ht] at he
      cases he
    | timer j =>
      rw [ht] at he
      cases he
      exact call_cluster _
    | message p rest =>
      rw [ht] at he
      dsimp only at he ⊢
      split_ifs at he with hup
      cases he
      rw [if_neg (by rw [hup.1]; decide), if_neg (by rw [hup.2]; decide)]
      exact call_cluster _
  | _ => cases he

/-- An operation that makes an event makes a call. -/
theorem event_call {e : Event ι δ} (he : S.event c op = some e) : ∃ k, e.action = .call k := by
  cases op with
  | client j d k =>
    cases he
    exact ⟨k, rfl⟩
  | step d =>
    unfold Scenario.event at he
    dsimp only at he
    split at he
    · cases he
    · cases he
      exact ⟨_, rfl⟩
    · split_ifs at he
      cases he
      exact ⟨_, rfl⟩
  | _ => cases he

theorem next_still (hop : ∀ j d, op ≠ .restart j d) (he : S.event c op = none) :
    (S.next c op).toCluster = c.toCluster := by
  cases op with
  | restart j d => exact absurd rfl (hop j d)
  | client j d k => cases he
  | step d =>
    unfold Scenario.event at he
    show (S.step c d).toCluster = _
    unfold Scenario.step
    cases ht : S.turn c with
    | idle => rfl
    | timer j =>
      rw [ht] at he
      cases he
    | message p rest =>
      rw [ht] at he
      dsimp only at he ⊢
      by_cases hup : S.up c p.dest = false
      · rw [if_pos hup]
      · by_cases hcut : c.cut p = true
        · rw [if_neg hup, if_pos hcut]
        · rw [if_pos ⟨by simpa using hup, by simpa using hcut⟩] at he
          cases he
  | _ => rfl

theorem posted_next (hp : Posted c) : Posted (S.next c op) := by
  cases op with
  | client j d k => exact hp.call k
  | restart j d =>
    intro p hq
    obtain ⟨n, hc, -⟩ := restart_cluster S c j d
    show _ ∈ (S.restart c j d).toCluster.history
    rw [hc]
    exact List.mem_append_left _ (hp p hq)
  | step d =>
    show Posted (S.step c d)
    unfold Scenario.step
    cases ht : S.turn c with
    | idle => exact hp
    | timer j =>
      have hq : Posted { c with clock := max c.clock (nextEventDue (c.node j)) } := hp
      exact hq.call _
    | message p rest =>
      have hq : Posted { c with clock := max c.clock p.due, queue := rest } := by
        intro q hq
        refine hp q ?_
        rw [turn_message ht]
        exact List.mem_cons_of_mem _ hq
      dsimp only
      split_ifs
      · exact hq
      · exact hq
      · exact hq.call _
  | _ => exact hp

/-- The call of a legal operation is one the cluster may make. -/
theorem event_enabled {e : Event ι δ} (hp : Posted c) (hl : S.Legal c op) (he : S.event c op = some e) :
    S.setup.Enabled c.toCluster e ∧ e.action.whole = true := by
  cases op with
  | client j d k =>
    cases he
    obtain ⟨hj, hd, hk⟩ := hl
    refine ⟨⟨List.mem_toFinset.mpr hj, hd, ?_⟩, rfl⟩
    rintro m hm
    cases k with
    | handle m' => cases hk
    | _ => cases hm
  | step d =>
    unfold Scenario.event at he
    cases ht : S.turn c with
    | idle =>
      rw [ht] at he
      cases he
    | timer j =>
      rw [ht] at he
      cases he
      refine ⟨⟨List.mem_toFinset.mpr ?_, hl, fun m hm => by cases hm⟩, rfl⟩
      have hj : S.dueNode c = some j := by
        unfold Scenario.turn at ht
        split at ht
        · cases ht
        · cases ht
          assumption
        · cases ht
        · split_ifs at ht
          cases ht
          assumption
      exact List.mem_of_mem_filter (List.argmin_mem hj)
    | message p rest =>
      rw [ht] at he
      dsimp only at he
      split_ifs at he with hup
      cases he
      have hmem : p.dest ∈ S.nodeIds := List.contains_iff_mem.mp (Bool.and_eq_true_iff.mp hup.1).2
      refine ⟨⟨List.mem_toFinset.mpr hmem, hl, ?_⟩, rfl⟩
      intro m hm
      cases hm
      refine ⟨p.sender, hp p ?_⟩
      rw [turn_message ht]
      exact List.mem_cons_self
  | _ => cases he

/-- **What calls and restarts keep holds of the cluster of every simulation.** -/
theorem sim_inv (ok : SimCluster ι σ δ → Op ι δ → Prop) (I : Cluster ι σ δ → Prop)
    (h0 : I S.setup.init)
    (hcall : ∀ c op e, ok c op → S.event c op = some e → S.setup.Enabled c.toCluster e →
      e.action.whole = true → I c.toCluster → I (S.setup.step c.toCluster e))
    (hrestart : ∀ c i draw, ok c (.restart i draw) → i ∈ S.nodeIds → I c.toCluster →
      I (S.restart c i draw).toCluster)
    (hr : Reach S.next (fun c op => S.Legal c op ∧ ok c op) S.start c) :
    Posted c ∧ I c.toCluster := by
  refine hr.inv (fun c => Posted c ∧ I c.toCluster) ⟨(fun p hp => by cases hp), h0⟩ ?_
  rintro c op - ⟨hp, hI⟩ ⟨hl, hok⟩
  refine ⟨posted_next hp, ?_⟩
  cases he : S.event c op with
  | some e =>
    rw [next_call he]
    obtain ⟨hen, hw⟩ := event_enabled hp hl he
    exact hcall c op e hok he hen hw hI
  | none =>
    by_cases hop : ∃ j d, op = .restart j d
    · obtain ⟨j, d, rfl⟩ := hop
      exact hrestart c j d hok hl.1 hI
    · rw [next_still (fun j d h => hop ⟨j, d, h⟩) he]
      exact hI

end Pylog.Sim
