import Mathlib.Algebra.Order.BigOperators.Group.Finset
import Mathlib.Algebra.Order.Archimedean.Basic
import Mathlib.Tactic.Linarith
import Pylog.Base.Clock
import Pylog.Raft.Timers
import Pylog.Sim.Runs

/-!
# Pylog.Sim.Progress — the clock and the queue of a simulation

A timer that fires is set anew, and a message sent is due after the latency.  Before a time near
enough to the clock there is so only finitely much to do, and the loops over `step` end.  Messages
leave the queue in the order in which they were sent.
-/

namespace Pylog.Sim

open Pylog.Raft Effect Effect.Handler Transition Clocked

variable {ι σ δ : Type} [LinearOrder ι] {S : Scenario ι σ δ} {c c' : SimCluster ι σ δ} {op : Op ι δ}
  {i : ι} {draw : ℚ} {B : ℚ}

/-! ### The loops over `step` -/

/-- How a loop ends: its condition, a `step` that returns `False`, an exception of `step`, or the
`TimeoutError` of `run_until`. -/
inductive Exit
  | done
  | idle
  | raised (e : Exn)
  | timeout
  deriving DecidableEq

namespace Scenario

/-- The exception that leaves `step`. -/
def fault (S : Scenario ι σ δ) (c : SimCluster ι σ δ) (draw : ℚ) : Option Exn :=
  match S.event c (.step draw) with
  | some ⟨i, now, draw, .call k⟩ =>
    match (S.setup.outcome c.toCluster ⟨i, now, draw, .call k⟩ k).result with
    | .error e => some e
    | .ok _ => none
  | _ => none

/-- A round of a loop: the next state, or how the loop ends. -/
def advance (S : Scenario ι σ δ) (c : SimCluster ι σ δ) (draw : ℚ) :
    Except (Exit × SimCluster ι σ δ) (SimCluster ι σ δ) :=
  match S.turn c, S.fault c draw with
  | .idle, _ => .error (.idle, c)
  | _, some e => .error (.raised e, S.step c draw)
  | _, none => .ok (S.step c draw)

/-- The loop of `run_for`, up to the time `stop`, with the draws of its rounds; `none`: the draws are
used up. -/
def runFor (S : Scenario ι σ δ) (stop : ℚ) :
    SimCluster ι σ δ → List ℚ → Option (Exit × SimCluster ι σ δ)
  | c, draws =>
    if c.clock < stop then
      match draws with
      | [] => none
      | draw :: draws =>
        match S.advance c draw with
        | .error r => some r
        | .ok c' => runFor S stop c' draws
    else some (.done, c)

/-- `run_until`, from the time `start`. -/
def runUntil (S : Scenario ι σ δ) (predicate : SimCluster ι σ δ → Bool) (start maxMs : ℚ) :
    SimCluster ι σ δ → List ℚ → Option (Exit × SimCluster ι σ δ)
  | c, draws =>
    if predicate c then some (.done, c)
    else
      match draws with
      | [] => none
      | draw :: draws =>
        match S.advance c draw with
        | .error r => some r
        | .ok c' =>
          if maxMs < c'.clock - start then some (.timeout, c')
          else runUntil S predicate start maxMs c' draws

/-- The times of the constructor are positive and the election timeout is a range. -/
def Timely (S : Scenario ι σ δ) : Prop :=
  0 < S.latency ∧ 0 < S.heartbeatInterval ∧ 0 < S.electionMin ∧ S.electionMin ≤ S.electionMax

instance (S : Scenario ι σ δ) : Decidable S.Timely :=
  inferInstanceAs (Decidable (_ ∧ _ ∧ _ ∧ _))

/-- The loops end before the next state. -/
def Halts (S : Scenario ι σ δ) (c : SimCluster ι σ δ) (draw : ℚ) : Prop :=
  ∃ r, S.advance c draw = .error r

/-- The time up to which the work is finite, ahead of the clock. -/
def window (S : Scenario ι σ δ) : ℚ := min S.latency (min S.heartbeatInterval S.electionMin)

end Scenario

theorem advance_next (h : ¬ S.Halts c draw) :
    S.advance c draw = .ok (S.step c draw) ∧ S.turn c ≠ .idle ∧ S.fault c draw = none := by
  unfold Scenario.Halts at h
  unfold Scenario.advance at h ⊢
  split at h
  · exact absurd ⟨_, rfl⟩ h
  · exact absurd ⟨_, rfl⟩ h
  · rename_i hf ht
    exact ⟨rfl, ht, hf⟩

/-! ### The work of a node -/

/-- The timers that are due before `B`. -/
def dueTimers (B : ℚ) (t : Timers ι) : ℕ :=
  if t.role = .leader then
    (if t.nextHeartbeat < B then 1 else 0) + (if t.nextQuorumCheck < B then 1 else 0) +
      (if t.transferTarget.isSome ∧ t.transferDeadline < B then 1 else 0)
  else if t.electionDeadline < B then 1 else 0

section

variable {self : Self ι σ δ} {n n' : Node ι σ δ}

/-- The timers a call sets are due at `B` or later. -/
structure Ahead (me : Self ι σ δ) (B : ℚ) : Prop where
  deadline : B ≤ me.deadline
  heartbeat : B ≤ me.now + me.heartbeatInterval
  check : B ≤ me.now + me.quorumCheckInterval

omit [LinearOrder ι] in
theorem dueTimers_deadline (hr : n.role ≠ .leader) (hd : B ≤ n.electionDeadline) :
    dueTimers B n.timers = 0 := by
  have hmask : n.timers.electionDeadline = n.electionDeadline := if_neg hr
  unfold dueTimers
  rw [if_neg (show n.timers.role ≠ .leader from hr), hmask, if_neg (not_lt.mpr hd)]

omit [LinearOrder ι] in
theorem renewed_idle (h : Renewed self n n') (ha : Ahead self B) : dueTimers B n'.timers = 0 := by
  rcases h with h | h
  · exact dueTimers_deadline h.role (ha.deadline.trans_eq h.deadline.symm)
  · have hh : ¬ n'.timers.nextHeartbeat < B := not_lt.mpr (ha.heartbeat.trans_eq h.heartbeat.symm)
    have hc : ¬ n'.timers.nextQuorumCheck < B := not_lt.mpr (ha.check.trans_eq h.check.symm)
    have ht : n'.timers.transferTarget = none := h.transfer
    unfold dueTimers
    rw [if_pos (show n'.timers.role = .leader from h.role), if_neg hh, if_neg hc, ht, if_neg (by simp)]

omit [LinearOrder ι] in
theorem timed_work (h : Timed self n n') (ha : Ahead self B) :
    dueTimers B n'.timers ≤ dueTimers B n.timers := by
  rcases h with h | h
  · rw [h]
  · rw [renewed_idle h ha]
    exact Nat.zero_le _

/-- A timer that is set anew when it is due. -/
theorem timer_drop {x x' y now : ℚ} (hx : x' = if x ≤ now then y else x) (hy : B ≤ y) (hB : now < B) :
    (if x' < B then 1 else 0) ≤ (if x < B then 1 else 0) ∧
      (x ≤ now → (if x' < B then 1 else 0) < (if x < B then 1 else 0)) := by
  by_cases hdue : x ≤ now
  · rw [if_pos hdue] at hx
    rw [if_neg (not_lt.mpr (hx ▸ hy)), if_pos (hdue.trans_lt hB)]
    exact ⟨Nat.zero_le _, fun _ => Nat.one_pos⟩
  · rw [if_neg hdue] at hx
    rw [hx]
    exact ⟨le_rfl, fun h => absurd h hdue⟩

/-- A timer of the leader is due, and its tick sets it anew. -/
theorem ticked_work (h : Ticked self n n') (ha : Ahead self B) (hr : n.role = .leader)
    (hdue : nextEventDue n ≤ self.now) (hB : self.now < B) :
    dueTimers B n'.timers < dueTimers B n.timers := by
  have hsome : n.nextHeartbeat ≤ self.now ∨ n.nextQuorumCheck ≤ self.now ∨
      (n.transferTarget.isSome ∧ n.transferDeadline ≤ self.now) := by
    unfold nextEventDue at hdue
    rw [if_pos hr] at hdue
    dsimp only at hdue
    split_ifs at hdue with ht
    · rcases min_le_iff.mp hdue with h | h
      · exact (min_le_iff.mp h).imp_right .inl
      · exact .inr (.inr ⟨ht, h⟩)
    · exact (min_le_iff.mp hdue).imp_right .inl
  cases h with
  | kept hr' hh hc ht hd hf =>
    obtain ⟨hh₁, hh₂⟩ := timer_drop hh ha.heartbeat hB
    obtain ⟨hc₁, hc₂⟩ := timer_drop hc ha.check hB
    have ht₁ : (if n'.transferTarget.isSome ∧ n'.transferDeadline < B then 1 else 0) ≤
        (if n.transferTarget.isSome ∧ n.transferDeadline < B then 1 else 0) := by
      by_cases hs : n'.transferTarget.isSome
      · have hsame : n'.transferTarget = n.transferTarget := by
          split_ifs at ht
          · rw [ht] at hs
            cases hs
          · exact ht
        rw [hd hs, hsame]
      · rw [if_neg fun h => hs h.1]
        exact Nat.zero_le _
    have ht₂ : n.transferTarget.isSome ∧ n.transferDeadline ≤ self.now →
        (if n'.transferTarget.isSome ∧ n'.transferDeadline < B then 1 else 0) <
          (if n.transferTarget.isSome ∧ n.transferDeadline < B then 1 else 0) := by
      intro h
      rw [if_pos h] at ht
      rw [ht, if_neg (by simp), if_pos ⟨h.1, h.2.trans_lt hB⟩]
      exact Nat.one_pos
    unfold dueTimers
    rw [if_pos (show n.timers.role = .leader from hr), if_pos (show n'.timers.role = .leader from hr')]
    show (if n'.nextHeartbeat < B then 1 else 0) + (if n'.nextQuorumCheck < B then 1 else 0) +
      (if n'.transferTarget.isSome ∧ n'.transferDeadline < B then 1 else 0) <
      (if n.nextHeartbeat < B then 1 else 0) + (if n.nextQuorumCheck < B then 1 else 0) +
      (if n.transferTarget.isSome ∧ n.transferDeadline < B then 1 else 0)
    rcases hsome with h | h | h
    · have := hh₂ h
      omega
    · have := hc₂ h
      omega
    · have := ht₂ h
      omega
  | lost hr' hd hc =>
    rw [dueTimers_deadline hr' (ha.deadline.trans_eq hd.symm)]
    unfold dueTimers
    rw [if_pos (show n.timers.role = .leader from hr)]
    rcases hsome with h | h | h
    · rw [if_pos (show n.timers.nextHeartbeat < B from h.trans_lt hB)]
      omega
    · rw [if_pos (show n.timers.nextQuorumCheck < B from h.trans_lt hB)]
      omega
    · rw [if_pos (show n.timers.transferTarget.isSome ∧ n.timers.transferDeadline < B from
        ⟨h.1, h.2.trans_lt hB⟩)]
      omega

end

/-! ### The work of the cluster -/

/-- The messages and the timers that are due before `B`. -/
def Scenario.work (S : Scenario ι σ δ) (B : ℚ) (c : SimCluster ι σ δ) : ℕ :=
  c.queue.countP (·.due < B) + ∑ i ∈ S.nodeIds.toFinset, dueTimers B (c.node i).timers

omit [LinearOrder ι] in
theorem transmit_clock (out : History ι σ δ) (c : SimCluster ι σ δ) :
    (out.foldl S.transmit c).clock = c.clock := by
  induction out generalizing c with
  | nil => rfl
  | cons o out ih =>
    rw [List.foldl_cons, ih]
    obtain ⟨j, o⟩ := o
    cases o <;> rfl

omit [LinearOrder ι] in
/-- What is sent is due later. -/
theorem transmit_due (out : History ι σ δ) (c : SimCluster ι σ δ) (hB : B ≤ c.clock + S.latency) :
    (out.foldl S.transmit c).queue.countP (·.due < B) = c.queue.countP (·.due < B) := by
  induction out generalizing c with
  | nil => rfl
  | cons o out ih =>
    obtain ⟨j, o⟩ := o
    cases o with
    | send dest m =>
      rw [List.foldl_cons, ih (S.transmit c (j, .send dest m)) hB]
      show (List.orderedInsert _ _ c.queue).countP _ = _
      rw [(List.perm_orderedInsert _ _ _).countP_eq, List.countP_cons_of_neg]
      simpa using hB
    | _ => exact ih _ hB

theorem call_clock (k : Call ι δ) : (S.call c i draw k).clock = c.clock := transmit_clock _ _

/-- A call at a node changes the work of this node. -/
theorem call_work {k : Call ι δ} (hB : B ≤ c.clock + S.latency) :
    S.work B (S.call c i draw k) = c.queue.countP (·.due < B) +
      ∑ j ∈ S.nodeIds.toFinset, dueTimers B (Function.update c.node i
        (S.setup.outcome c.toCluster ⟨i, c.clock, draw, .call k⟩ k).state j).timers := by
  unfold Scenario.work
  rw [call_cluster]
  congr 1
  exact transmit_due _ _ hB

/-- A call in reach of the window sets timers for later than `B`. -/
theorem ahead_call (hS : S.Timely) (hd : 0 ≤ draw) {now : ℚ} (hB : B ≤ now + S.window) {a : Action ι δ} :
    Ahead (S.setup.self ⟨i, now, draw, a⟩) B := by
  obtain ⟨-, hhb, hmin, hmax⟩ := hS
  have hw₁ : S.window ≤ S.heartbeatInterval := (min_le_right _ _).trans (min_le_left _ _)
  have hw₂ : S.window ≤ S.electionMin := (min_le_right _ _).trans (min_le_right _ _)
  have hrange : 0 ≤ (S.electionMax - S.electionMin) * draw := mul_nonneg (sub_nonneg.mpr hmax) hd
  refine ⟨?_, ?_, ?_⟩
  · show B ≤ now + (S.electionMin + (S.electionMax - S.electionMin) * draw)
    linarith
  · show B ≤ now + S.heartbeatInterval
    linarith
  · show B ≤ now + S.electionMax * 2
    linarith

theorem turn_timer (ht : S.turn c = .timer i) : S.dueNode c = some i := by
  unfold Scenario.turn at ht
  split at ht
  · cases ht
  · cases ht
    assumption
  · cases ht
  · split_ifs at ht
    cases ht
    assumption

/-- The call of a round that goes on returned normally. -/
theorem fault_none {now : ℚ} {k : Call ι δ} (hf : S.fault c draw = none)
    (he : S.event c (.step draw) = some ⟨i, now, draw, .call k⟩) :
    ∃ a, (S.setup.outcome c.toCluster ⟨i, now, draw, .call k⟩ k).result = .ok a := by
  unfold Scenario.fault at hf
  rw [he] at hf
  dsimp only at hf
  cases hr : (S.setup.outcome c.toCluster ⟨i, now, draw, .call k⟩ k).result with
  | ok a => exact ⟨a, rfl⟩
  | error e =>
    rw [hr] at hf
    cases hf

/-- The tick of a due timer is work done. -/
theorem tick_work (hS : S.Timely) (hd : 0 ≤ draw) (ht : S.turn c = .timer i)
    (hf : S.fault c draw = none) {now : ℚ} (hnow : now = max c.clock (nextEventDue (c.node i)))
    (hB : B ≤ now + S.window) (hlt : now < B) :
    dueTimers B (S.setup.outcome c.toCluster ⟨i, now, draw, .call .tick⟩ .tick).state.timers <
      dueTimers B (c.node i).timers := by
  have hev : S.event c (.step draw) = some ⟨i, now, draw, .call .tick⟩ := by
    unfold Scenario.event
    dsimp only
    rw [ht, hnow]
  have ha : Ahead (S.setup.self ⟨i, now, draw, .call .tick⟩) B := ahead_call hS hd hB
  have hdue : nextEventDue (c.node i) ≤ now := hnow ▸ le_max_right _ _
  obtain ⟨a, hok⟩ := fault_none hf hev
  by_cases hr : (c.node i).role = .leader
  · exact ticked_work ((tick_leader hr).of_ok hok) ha hr hdue hlt
  · have hdead : (c.node i).electionDeadline ≤ now := by
      rwa [nextEventDue, if_neg hr] at hdue
    rcases (tick_waiting hr).of_ok hok with ⟨-, hlater⟩ | h
    · exact absurd hdead (not_le.mpr hlater)
    · refine (renewed_idle h ha).trans_lt ?_
      have hmask : (c.node i).timers.electionDeadline = (c.node i).electionDeadline := if_neg hr
      unfold dueTimers
      rw [if_neg (show (c.node i).timers.role ≠ .leader from hr), hmask, if_pos (hdead.trans_lt hlt)]
      exact Nat.one_pos

/-- A timer that fires and a message that is taken are work done. -/
theorem step_work (hS : S.Timely) (hd : 0 ≤ draw) (hh : ¬ S.Halts c draw) (hB : B ≤ c.clock + S.window)
    (hlt : (S.step c draw).clock < B) : S.work B (S.step c draw) < S.work B c := by
  obtain ⟨-, hidle, hf⟩ := advance_next hh
  have hlat : S.window ≤ S.latency := min_le_left _ _
  unfold Scenario.step at hlt ⊢
  cases ht : S.turn c with
  | idle => exact absurd ht hidle
  | timer i =>
    rw [ht] at hlt
    dsimp only at hlt ⊢
    rw [call_clock] at hlt
    have hB' : B ≤ max c.clock (nextEventDue (c.node i)) + S.window :=
      hB.trans (add_le_add_left (le_max_left _ _) _)
    have hdrop := tick_work hS hd ht hf rfl hB' hlt
    rw [call_work (hB'.trans (add_le_add_right hlat _))]
    refine Nat.add_lt_add_left (Finset.sum_lt_sum (fun j _ => ?_) ⟨i, ?_, ?_⟩) _
    · by_cases hj : j = i
      · subst hj
        rw [Function.update_self]
        exact hdrop.le
      · rw [Function.update_of_ne hj]
    · exact List.mem_toFinset.mpr (List.mem_of_mem_filter (List.argmin_mem (turn_timer ht)))
    · rw [Function.update_self]
      exact hdrop
  | message p rest =>
    rw [ht] at hlt
    dsimp only at hlt ⊢
    have hqueue : c.queue = p :: rest := turn_message ht
    have hnow : max c.clock p.due < B := by
      split_ifs at hlt
      · exact hlt
      · exact hlt
      · rwa [call_clock] at hlt
    have htaken : c.queue.countP (·.due < B) = rest.countP (·.due < B) + 1 := by
      rw [hqueue, List.countP_cons_of_pos]
      exact decide_eq_true ((le_max_right _ _).trans_lt hnow)
    have hleft : rest.countP (·.due < B) + ∑ j ∈ S.nodeIds.toFinset, dueTimers B (c.node j).timers <
        S.work B c := by
      unfold Scenario.work
      omega
    split_ifs with hup hcut
    · exact hleft
    · exact hleft
    · have hev : S.event c (.step draw) =
          some ⟨p.dest, max c.clock p.due, draw, .call (.handle p.msg)⟩ := by
        unfold Scenario.event
        dsimp only
        rw [ht]
        exact if_pos ⟨by simpa using hup, by simpa using hcut⟩
      obtain ⟨a, hok⟩ := fault_none hf hev
      have hB' : B ≤ max c.clock p.due + S.window := hB.trans (add_le_add_left (le_max_left _ _) _)
      have hkept := timed_work ((handle_timed p.msg).of_ok hok) (ahead_call hS hd hB')
      rw [call_work (hB'.trans (add_le_add_right hlat _))]
      refine (Nat.add_le_add_left (Finset.sum_le_sum fun j _ => ?_) _).trans_lt hleft
      by_cases hj : j = p.dest
      · subst hj
        rw [Function.update_self]
        exact hkept
      · rw [Function.update_of_ne hj]

theorem step_forward : c.clock ≤ (S.step c draw).clock := by
  unfold Scenario.step
  cases S.turn c with
  | idle => exact le_rfl
  | timer i =>
    dsimp only
    rw [call_clock]
    exact le_max_left _ _
  | message p rest =>
    dsimp only
    split_ifs
    · exact le_max_left _ _
    · exact le_max_left _ _
    · rw [call_clock]
      exact le_max_left _ _

theorem step_paced (hS : S.Timely) :
    Paced S.step (fun _ draw => 0 ≤ draw) S.Halts SimCluster.clock S.window S.work :=
  ⟨fun _ _ _ => step_forward, fun _ _ _ hd hh hB hlt => step_work hS hd hh hB hlt⟩

theorem runFor_cons (stop : ℚ) (c : SimCluster ι σ δ) (draw : ℚ) (draws : List ℚ) :
    S.runFor stop c (draw :: draws) =
      if c.clock < stop then
        match S.advance c draw with
        | .error r => some r
        | .ok c' => S.runFor stop c' draws
      else some (.done, c) := by
  rw [Scenario.runFor]

theorem runUntil_cons (predicate : SimCluster ι σ δ → Bool) (start maxMs : ℚ) (c : SimCluster ι σ δ)
    (draw : ℚ) (draws : List ℚ) :
    S.runUntil predicate start maxMs c (draw :: draws) =
      if predicate c then some (.done, c)
      else match S.advance c draw with
        | .error r => some r
        | .ok c' =>
          if maxMs < c'.clock - start then some (.timeout, c')
          else S.runUntil predicate start maxMs c' draws := by
  rw [Scenario.runUntil]

/-- A round ends the loop or hands over the next state. -/
theorem advance_cases (S : Scenario ι σ δ) (c : SimCluster ι σ δ) (draw : ℚ) :
    (S.Halts c draw ∧ ∃ r, S.advance c draw = .error r) ∨ S.advance c draw = .ok (S.step c draw) := by
  by_cases h : S.Halts c draw
  · exact .inl ⟨h, h⟩
  · exact .inr (advance_next h).1

/-- The queue is in the order of sending, and the clock has passed no message in it. -/
structure Lined (S : Scenario ι σ δ) (c : SimCluster ι σ δ) : Prop where
  order : c.queue.Pairwise fun p q => p.seq < q.seq ∧ p.due ≤ q.due
  sent : ∀ p ∈ c.queue, p.seq ≤ c.seq ∧ c.clock ≤ p.due ∧ p.due ≤ c.clock + S.latency

/-- Everything in the queue, now and later, has a higher number. -/
def Beyond (k : ℕ) (c : SimCluster ι σ δ) : Prop := k ≤ c.seq ∧ ∀ p ∈ c.queue, k < p.seq

theorem orderedInsert_last {α : Type} {r : α → α → Prop} [DecidableRel r] {a : α} :
    ∀ {l : List α}, (∀ b ∈ l, ¬ r a b) → l.orderedInsert r a = l ++ [a]
  | [], _ => rfl
  | b :: l, h => by
    rw [List.orderedInsert, if_neg (h b List.mem_cons_self),
      orderedInsert_last fun b' hb' => h b' (List.mem_cons_of_mem b hb')]
    rfl

omit [LinearOrder ι] in
/-- What a call sends goes to the end of the queue. -/
theorem transmit_lined (hl : 0 ≤ S.latency) {k : ℕ} : ∀ (out : History ι σ δ) (c : SimCluster ι σ δ),
    Lined S c → (Lined S (out.foldl S.transmit c)) ∧ (Beyond k c → Beyond k (out.foldl S.transmit c))
  | [], _, h => ⟨h, id⟩
  | (j, o) :: out, c, h => by
    rw [List.foldl_cons]
    cases o with
    | send dest m =>
      have hlast : (S.transmit c (j, .send dest m)).queue =
          c.queue ++ [⟨c.clock + S.latency, c.seq + 1, dest, m, j⟩] :=
        orderedInsert_last fun p hp => not_lt.mpr (h.sent p hp).2.2
      have hstep : Lined S (S.transmit c (j, .send dest m)) := by
        refine ⟨?_, fun p hp => ?_⟩
        · rw [hlast, List.pairwise_append]
          refine ⟨h.order, List.pairwise_singleton _ _, fun p hp q hq => ?_⟩
          rw [List.mem_singleton.mp hq]
          exact ⟨Nat.lt_succ_of_le (h.sent p hp).1, (h.sent p hp).2.2⟩
        · rw [hlast] at hp
          rcases List.mem_append.mp hp with hp | hp
          · exact ⟨(h.sent p hp).1.trans (Nat.le_succ _), (h.sent p hp).2⟩
          · rw [List.mem_singleton.mp hp]
            exact ⟨le_rfl, le_add_of_nonneg_right hl, le_rfl⟩
      obtain ⟨hlined, hbeyond⟩ := transmit_lined hl (k := k) out _ hstep
      refine ⟨hlined, fun hk => hbeyond ⟨hk.1.trans (Nat.le_succ _), fun p hp => ?_⟩⟩
      rw [hlast] at hp
      rcases List.mem_append.mp hp with hp | hp
      · exact hk.2 p hp
      · rw [List.mem_singleton.mp hp]
        exact Nat.lt_succ_of_le hk.1
    | _ => exact transmit_lined hl out c h

omit [LinearOrder ι] in
/-- The clock moves to the event that is due first. -/
theorem Lined.advance {t : ℚ} {queue : List (Parcel ι δ)} (h : Lined S c) (hq : queue.Sublist c.queue)
    (ht : ∀ p ∈ queue, t ≤ p.due) : Lined S { c with clock := max c.clock t, queue := queue } := by
  refine ⟨h.order.sublist hq, fun p hp => ?_⟩
  obtain ⟨hseq, hclock, hdue⟩ := h.sent p (hq.subset hp)
  exact ⟨hseq, max_le hclock (ht p hp), hdue.trans (add_le_add_left (le_max_left _ _) _)⟩

theorem timer_first (h : Lined S c) (ht : S.turn c = .timer i) :
    ∀ p ∈ c.queue, nextEventDue (c.node i) ≤ p.due := by
  intro p hp
  unfold Scenario.turn at ht
  split at ht
  · cases ht
  · rename_i hq
    rw [hq] at hp
    cases hp
  · cases ht
  · rename_i j q rest hj hq
    split_ifs at ht with hdue
    cases ht
    rw [hq] at hp
    rcases List.mem_cons.mp hp with rfl | hp
    · exact hdue
    · have horder := h.order
      rw [hq] at horder
      exact hdue.trans (List.rel_of_pairwise_cons horder hp).2

theorem call_lined (hl : 0 ≤ S.latency) {k : ℕ} (h : Lined S c) (call : Call ι δ) :
    Lined S (S.call c i draw call) ∧ (Beyond k c → Beyond k (S.call c i draw call)) :=
  transmit_lined hl _ { c with toCluster := _ } ⟨h.order, h.sent⟩

/-- A message is taken when it is due, and what stays was sent after it. -/
theorem message_lined (draw : ℚ) (hl : 0 ≤ S.latency) {k : ℕ} {p : Parcel ι δ} {rest : List (Parcel ι δ)}
    (h : Lined S c) (ht : S.turn c = .message p rest) :
    Lined S (S.step c draw) ∧ (Beyond k c → Beyond k (S.step c draw)) ∧
      Beyond p.seq (S.step c draw) ∧ (S.step c draw).clock = p.due := by
  have hqueue := turn_message ht
  obtain ⟨hseq, hclock, -⟩ := h.sent p (hqueue ▸ List.mem_cons_self)
  have hsub : rest.Sublist c.queue := hqueue ▸ List.sublist_cons_self p rest
  have horder := h.order
  rw [hqueue] at horder
  set c₁ : SimCluster ι σ δ := { c with clock := max c.clock p.due, queue := rest } with hc₁
  have hlined : Lined S c₁ := h.advance hsub fun q hq => (List.rel_of_pairwise_cons horder hq).2
  have hafter : Beyond p.seq c₁ := ⟨hseq, fun q hq => (List.rel_of_pairwise_cons horder hq).1⟩
  have hkeep : Beyond k c → Beyond k c₁ := fun hk => ⟨hk.1, fun q hq => hk.2 q (hsub.subset hq)⟩
  have hdue : c₁.clock = p.due := max_eq_right hclock
  unfold Scenario.step
  rw [ht]
  dsimp only
  rw [← hc₁]
  split_ifs
  · exact ⟨hlined, hkeep, hafter, hdue⟩
  · exact ⟨hlined, hkeep, hafter, hdue⟩
  · refine ⟨(call_lined hl (k := 0) hlined _).1, fun hk => (call_lined hl hlined _).2 (hkeep hk),
      (call_lined hl hlined _).2 hafter, (call_clock _).trans hdue⟩

theorem next_lined (hl : 0 ≤ S.latency) {k : ℕ} (h : Lined S c) :
    Lined S (S.next c op) ∧ (Beyond k c → Beyond k (S.next c op)) := by
  cases op with
  | step draw =>
    show Lined S (S.step c draw) ∧ (Beyond k c → Beyond k (S.step c draw))
    cases ht : S.turn c with
    | message p rest =>
      obtain ⟨h₁, h₂, -⟩ := message_lined draw hl (k := k) h ht
      exact ⟨h₁, h₂⟩
    | idle =>
      unfold Scenario.step
      rw [ht]
      exact ⟨h, id⟩
    | timer i =>
      unfold Scenario.step
      rw [ht]
      exact call_lined hl (h.advance (List.Sublist.refl _) (timer_first h ht)) _
  | client i draw k' => exact call_lined hl h k'
  | restart i draw => exact ⟨⟨h.order, h.sent⟩, id⟩
  | crash i => exact ⟨⟨h.order, h.sent⟩, id⟩
  | partition a b => exact ⟨⟨h.order, h.sent⟩, id⟩
  | heal a b => exact ⟨⟨h.order, h.sent⟩, id⟩

theorem lined_reach {ok : SimCluster ι σ δ → Op ι δ → Prop} (hl : 0 ≤ S.latency)
    (hr : Reach S.next ok S.start c) : Lined S c :=
  hr.inv (Lined S) ⟨List.Pairwise.nil, fun p hp => by cases hp⟩ fun _ _ _ h _ =>
    (next_lined (k := 0) hl h).1

end Pylog.Sim
