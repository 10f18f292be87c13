import Mathlib.Logic.Function.Iterate
import Pylog.Raft.Windows

/-!
# Pylog.Raft.Repair — a leader brings the log of a follower up to its own

A round is a request, its answer, and what the leader makes of it.  While requests are refused
`next_index` falls; from the first one accepted on `next_index` is `match_index + 1`, every request
is accepted, and `match_index` rises (`repair_terminates`).
-/

namespace Pylog.Raft

open Effect Effect.Handler Transition

/-- The follower's log, and what the leader tracks of it. -/
structure Repair where
  follower : RaftLog
  nextIndex : ℕ
  matchIndex : ℕ
  deriving DecidableEq, Repr

namespace Repair

/-- `max(1, min(next_index - 1, hint))`; without a conflict the hint is `next_index - 1`. -/
def backOff (nextIndex conflict : ℕ) : ℕ :=
  max 1 (min (nextIndex - 1) (if conflict = 0 then nextIndex - 1 else conflict))

/-- `_send_append`, `merge` at the follower, `_on_append_resp`. -/
def round (leader : RaftLog) (maxBatch : ℕ) (r : Repair) : Repair :=
  let m := r.follower.mergeCut (leader.cutAt r.nextIndex maxBatch)
  if m.ok then ⟨m.log, max r.matchIndex m.matchIndex + 1, max r.matchIndex m.matchIndex⟩
  else ⟨m.log, backOff r.nextIndex m.conflict, r.matchIndex⟩

/-- What every round keeps. -/
structure Sound (leader : RaftLog) (r : Repair) : Prop where
  copies : RaftLog.Copies leader.entries r.matchIndex r.follower
  next_pos : 1 ≤ r.nextIndex
  next_le : r.nextIndex ≤ leader.entries.length + 1

section Rounds

variable {leader : RaftLog} {maxBatch : ℕ} {r : Repair}

theorem cutAt_window (hl : leader.Plain) (maxBatch : ℕ) {next : ℕ} (h1 : 1 ≤ next)
    (h2 : next ≤ leader.entries.length + 1) :
    RaftLog.Window leader.entries (leader.cutAt next maxBatch).prevIndex
      (leader.cutAt next maxBatch).prevTerm (leader.cutAt next maxBatch).entries := by
  obtain ⟨k, rfl⟩ := Nat.exists_eq_add_of_le' h1
  refine ⟨?_, hl.termAt k, hl.entriesFrom k maxBatch⟩
  show k + 1 - 1 ≤ _
  omega

/-- A batch that is not empty: there are entries from `next_index` on. -/
theorem cutAt_length_pos (hl : leader.Plain) (maxBatch : ℕ) {next : ℕ} (h1 : 1 ≤ next)
    (h2 : next ≤ leader.entries.length) : 0 < (leader.cutAt next maxBatch).entries.length := by
  show 0 < (leader.entriesFrom next maxBatch).length
  unfold RaftLog.entriesFrom
  rw [hl.first]
  dsimp only
  split_ifs with h
  · rw [List.length_drop]
    omega
  · rw [List.length_take, List.length_drop]
    omega

theorem round_accepted (hok : (r.follower.mergeCut (leader.cutAt r.nextIndex maxBatch)).ok = true) :
    (round leader maxBatch r).follower =
        (r.follower.mergeCut (leader.cutAt r.nextIndex maxBatch)).log ∧
      (round leader maxBatch r).matchIndex = max r.matchIndex
        (r.nextIndex - 1 + (leader.cutAt r.nextIndex maxBatch).entries.length) ∧
      (round leader maxBatch r).nextIndex = (round leader maxBatch r).matchIndex + 1 := by
  have hmatch := (RaftLog.merge_ok hok).2.2
  unfold round
  dsimp only
  rw [if_pos hok]
  refine ⟨rfl, ?_, rfl⟩
  show max r.matchIndex (r.follower.mergeCut (leader.cutAt r.nextIndex maxBatch)).matchIndex = _
  rw [show (r.follower.mergeCut (leader.cutAt r.nextIndex maxBatch)).matchIndex = _ from hmatch]
  rfl

theorem round_refused
    (hok : (r.follower.mergeCut (leader.cutAt r.nextIndex maxBatch)).ok = false) :
    ∃ hint, round leader maxBatch r = ⟨r.follower, backOff r.nextIndex hint, r.matchIndex⟩ := by
  refine ⟨(r.follower.mergeCut (leader.cutAt r.nextIndex maxBatch)).conflict, ?_⟩
  have hlog : (r.follower.mergeCut (leader.cutAt r.nextIndex maxBatch)).log = r.follower :=
    RaftLog.merge_fails hok
  unfold round
  dsimp only
  rw [hok, hlog]
  rfl

theorem Sound.round (hl : leader.Plain) (h : Sound leader r) (maxBatch : ℕ) :
    Sound leader (Repair.round leader maxBatch r) := by
  have hw := cutAt_window hl maxBatch h.next_pos h.next_le
  have hmerge := h.copies.merge hl.indexed hw
  cases hok : (r.follower.mergeCut (leader.cutAt r.nextIndex maxBatch)).ok with
  | true =>
    obtain ⟨hlog, hmatch, hnext⟩ := round_accepted hok
    have hacked : (r.follower.mergeCut (leader.cutAt r.nextIndex maxBatch)).acked =
        r.nextIndex - 1 + (leader.cutAt r.nextIndex maxBatch).entries.length := by
      unfold RaftLog.Merged.acked
      rw [if_pos hok]
      exact (RaftLog.merge_ok hok).2.2
    rw [hacked, ← hmatch, ← hlog] at hmerge
    have hle := hmerge.le
    exact ⟨hmerge, by omega, by omega⟩
  | false =>
    obtain ⟨hint, hround⟩ := round_refused hok
    have hlow := h.next_le
    rw [hround]
    refine ⟨h.copies, le_max_left _ _, ?_⟩
    show max 1 (min (r.nextIndex - 1) _) ≤ _
    omega

theorem Sound.rounds (hl : leader.Plain) (h : Sound leader r) (maxBatch k : ℕ) :
    Sound leader ((Repair.round leader maxBatch)^[k] r) := by
  induction k with
  | zero => exact h
  | succ k ih =>
    rw [Function.iterate_succ_apply']
    exact ih.round hl maxBatch

/-- The first index is always accepted, so a refused request was above it. -/
theorem Sound.backs (h : Sound leader r) (maxBatch : ℕ) :
    (Repair.round leader maxBatch r).nextIndex = (Repair.round leader maxBatch r).matchIndex + 1 ∨
      (Repair.round leader maxBatch r).nextIndex < r.nextIndex := by
  cases hok : (r.follower.mergeCut (leader.cutAt r.nextIndex maxBatch)).ok with
  | true => exact .inl (round_accepted hok).2.2
  | false =>
    right
    have hone : r.nextIndex ≠ 1 := by
      intro hone
      rw [hone] at hok
      have : (r.follower.mergeCut (leader.cutAt 1 maxBatch)).ok = true :=
        (RaftLog.merge_ok_iff ..).mpr ⟨Nat.zero_le _, rfl⟩
      rw [this] at hok
      cases hok
    have hpos := h.next_pos
    obtain ⟨hint, hround⟩ := round_refused hok
    rw [hround]
    show max 1 (min (r.nextIndex - 1) _) < r.nextIndex
    omega

/-- Behind what was acknowledged a request is accepted, and acknowledges more. -/
theorem Sound.streams (hl : leader.Plain) (h : Sound leader r) (maxBatch : ℕ)
    (hnext : r.nextIndex = r.matchIndex + 1) (hlt : r.matchIndex < leader.entries.length) :
    (Repair.round leader maxBatch r).nextIndex = (Repair.round leader maxBatch r).matchIndex + 1 ∧
      r.matchIndex < (Repair.round leader maxBatch r).matchIndex := by
  have hw := cutAt_window hl maxBatch h.next_pos h.next_le
  have hok := h.copies.accepts hw (show r.nextIndex - 1 ≤ _ by omega)
  obtain ⟨-, hmatch, hnext'⟩ := round_accepted hok
  have hpos := cutAt_length_pos hl maxBatch h.next_pos (by omega)
  exact ⟨hnext', by omega⟩

/-- After at most `next_index` rounds a request has been accepted. -/
theorem Sound.accepted (hl : leader.Plain) (maxBatch : ℕ) : ∀ (n : ℕ) {r : Repair}, Sound leader r →
    r.nextIndex ≤ n → ∃ k ≤ n, ((Repair.round leader maxBatch)^[k] r).nextIndex =
      ((Repair.round leader maxBatch)^[k] r).matchIndex + 1
  | 0, r, h, hn => absurd h.next_pos (by omega)
  | n + 1, r, h, hn => by
    rcases h.backs maxBatch with hdone | hback
    · exact ⟨1, by omega, hdone⟩
    · obtain ⟨k, hk, hnext⟩ := Sound.accepted hl maxBatch n (h.round hl maxBatch) (by omega)
      exact ⟨k + 1, by omega, hnext⟩

/-- From then on every round takes at least one entry. -/
theorem Sound.finishes (hl : leader.Plain) (maxBatch : ℕ) : ∀ (n : ℕ) {r : Repair}, Sound leader r →
    r.nextIndex = r.matchIndex + 1 → leader.entries.length - r.matchIndex ≤ n →
    ∃ k ≤ n, ((Repair.round leader maxBatch)^[k] r).matchIndex = leader.entries.length
  | n, r, h, hnext, hn => by
    have hle := h.copies.le
    rcases hle.eq_or_lt with hall | hlt
    · exact ⟨0, Nat.zero_le _, hall⟩
    · obtain ⟨hnext', hrise⟩ := h.streams hl maxBatch hnext hlt
      cases n with
      | zero => omega
      | succ n =>
        obtain ⟨k, hk, hdone⟩ := Sound.finishes hl maxBatch n (h.round hl maxBatch) hnext' (by omega)
        exact ⟨k + 1, by omega, hdone⟩

end Rounds

/-! ### A round of two nodes -/

section Nodes

variable {ι σ δ : Type} [LinearOrder ι] {sl sf : Self ι σ δ} {n f : Node ι σ δ}

theorem onNack_next {ni : ℕ} (self : Self ι σ δ) {peer : ι} (hni : n.nextIndex peer = some ni)
    (conflict : ℕ) :
    (self.onNack peer (some conflict) n).state.nextIndex peer = some (backOff ni conflict) ∧
      (self.onNack peer (some conflict) n).state.matchIndex = n.matchIndex := by
  unfold Self.onNack backOff
  rw [read_bind, hni]
  refine ⟨?_, rfl⟩
  cases conflict <;> exact Function.update_self ..

/-- The leader sends its append, the follower handles it, and the leader handles the answer: what it
tracks afterwards is what the round says, and so is the follower's log unless a snapshot is taken. -/
theorem exchange_round {mi ni : ℕ} (hr : n.role = .leader) (hmi : n.matchIndex sf.id = some mi)
    (hni : n.nextIndex sf.id = some ni) (hk : sl.KeepsPeer n.log sf.id)
    (hfirst : n.log.firstIndex ≤ ni) (ht : f.currentTerm ≤ n.currentTerm)
    (hf : ∀ e ∈ f.log.entries, sf.Accepts e.payload)
    (hn : ∀ e ∈ n.log.entries, sf.Accepts e.payload) :
    ∃ success matchIndex conflict,
      (sf.handle (sl.appendMsg n sf.id) f).out.getLast? = some (sf.id, .send sl.id
        (.appendResp n.currentTerm sf.id success matchIndex (some conflict))) ∧
      (sf.autoSnapshotEvery = 0 → (sf.handle (sl.appendMsg n sf.id) f).state.log =
        (round n.log sl.maxBatch ⟨f.log, ni, mi⟩).follower) ∧
      (sl.handle (.appendResp n.currentTerm sf.id success matchIndex (some conflict)) n).state.matchIndex
        sf.id = some (round n.log sl.maxBatch ⟨f.log, ni, mi⟩).matchIndex ∧
      (sl.handle (.appendResp n.currentTerm sf.id success matchIndex (some conflict)) n).state.nextIndex
        sf.id = some (round n.log sl.maxBatch ⟨f.log, ni, mi⟩).nextIndex := by
  generalize hm : f.log.mergeCut (n.log.cutAt ni sl.maxBatch) = m
  have hmsg : sl.appendMsg n sf.id = .append n.currentTerm sl.id (ni - 1) (n.log.termAt (ni - 1))
      (n.log.entriesFrom ni sl.maxBatch) n.commitIndex := by
    unfold Self.appendMsg
    rw [hni]
    exact if_neg (Nat.not_lt.mpr hfirst)
  have haccepts : ∀ e ∈ m.log.entries, sf.Accepts e.payload := by
    rw [← hm]
    exact RaftLog.forall_merge hf fun e he => hn e (RaftLog.mem_entriesFrom he)
  obtain ⟨f', o, hrun, hlog⟩ := onAppend_run sf sl.id ht hm haccepts n.commitIndex
  have hhandle : sf.handle (sl.appendMsg n sf.id) f = _ :=
    (congrArg (fun k => sf.handle k f) hmsg).trans hrun
  have hround : round n.log sl.maxBatch ⟨f.log, ni, mi⟩ =
      if m.ok then ⟨m.log, max mi m.matchIndex + 1, max mi m.matchIndex⟩
      else ⟨m.log, backOff ni m.conflict, mi⟩ := by
    rw [← hm]
    rfl
  refine ⟨m.ok, if m.ok then m.matchIndex else 0, m.conflict, by rw [hhandle]; simp, ?_, ?_⟩
  · intro hauto
    rw [hhandle, hround]
    cases m.ok <;> exact hlog hauto
  · rw [hround]
    cases hok : m.ok with
    | true =>
      have htracked := ack_tracked sl hr hmi hk m.matchIndex (some m.conflict)
      exact ⟨htracked.matched, htracked.next⟩
    | false =>
      rw [appendResp_state sl hr, if_neg (by decide)]
      obtain ⟨hnext, hmatch⟩ := onNack_next (n := sl.heard n sf.id) sl hni m.conflict
      rw [hnext, hmatch]
      exact ⟨hmi, rfl⟩

end Nodes

end Repair

/-- **Log repair**: for logs that match, from any `next_index` of the leader's log and from a
`match_index` up to which the logs are the same (a new leader starts at `0`), with any batch limit:
`match_index` reaches the end of the leader's log, and whenever it is there the follower has every
entry of it. -/
theorem repair_terminates {leader follower : RaftLog} (hl : leader.Plain) (hf : follower.Plain)
    (ha : RaftLog.Agrees follower.entries leader.entries) {nextIndex matchIndex : ℕ}
    (h1 : 1 ≤ nextIndex) (hn : nextIndex ≤ leader.lastIndex + 1) (hm : matchIndex ≤ leader.lastIndex)
    (hsame : ∀ i, 1 ≤ i → i ≤ matchIndex → follower.get i = leader.get i) (maxBatch : ℕ) :
    (∃ k ≤ nextIndex + leader.lastIndex,
      ((Repair.round leader maxBatch)^[k] ⟨follower, nextIndex, matchIndex⟩).matchIndex =
        leader.lastIndex) ∧
    ∀ k, ((Repair.round leader maxBatch)^[k] ⟨follower, nextIndex, matchIndex⟩).matchIndex =
        leader.lastIndex → ∀ i, 1 ≤ i → i ≤ leader.lastIndex →
      ((Repair.round leader maxBatch)^[k] ⟨follower, nextIndex, matchIndex⟩).follower.get i =
        leader.get i := by
  have hstart : Repair.Sound leader ⟨follower, nextIndex, matchIndex⟩ :=
    ⟨RaftLog.copies_of_get hl hf ha hm hsame, h1, by rwa [← hl.lastIndex]⟩
  constructor
  · obtain ⟨k, hk, hnext⟩ := hstart.accepted hl maxBatch nextIndex le_rfl
    obtain ⟨j, hj, hdone⟩ := (hstart.rounds hl maxBatch k).finishes hl maxBatch leader.entries.length
      hnext (Nat.sub_le _ _)
    rw [← Function.iterate_add_apply, ← hl.lastIndex] at hdone
    rw [← hl.lastIndex] at hj
    exact ⟨j + k, by omega, hdone⟩
  · intro k hk i hi hle
    exact (hstart.rounds hl maxBatch k).copies.get hl hi (by rw [hk]; exact hle)

/-- A refusal with the hint `2`, then the two entries behind the first. -/
theorem repair_terminates_strayed :
    (∃ k ≤ 4 + leading.lastIndex, ((Repair.round leading 2)^[k] ⟨strayed, 4, 0⟩).matchIndex =
      leading.lastIndex) ∧
    ∀ k, ((Repair.round leading 2)^[k] ⟨strayed, 4, 0⟩).matchIndex = leading.lastIndex →
      ∀ i, 1 ≤ i → i ≤ leading.lastIndex →
        ((Repair.round leading 2)^[k] ⟨strayed, 4, 0⟩).follower.get i = leading.get i :=
  repair_terminates leading_plain strayed_plain strayed_agrees (by decide) (by decide) (by decide)
    (fun i h1 h0 => absurd h0 (by omega)) 2

end Pylog.Raft
