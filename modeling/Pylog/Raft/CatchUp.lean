import Pylog.Raft.Apply
import Pylog.Raft.LogFacts

/-!
# Pylog.Raft.CatchUp — the first append after `install_snapshot`

A snapshot and its acknowledgement leave the leader with `next_index = last_included_index + 1`, so
its next append checks the boundary entry itself.  Neither side keeps that entry, and neither
`term_at` nor `last_index` looks at the snapshot fields of the log.  `append_after_install_iff`
follows the two messages and both answers and says exactly when the append is accepted.
-/

namespace Pylog.Raft

open Effect Effect.Handler Transition

variable {ι σ δ : Type} [LinearOrder ι]

/-! ### Both ends of a log cut at the boundary -/

namespace RaftLog

variable {l : RaftLog}

/-- `merge` accepts a window iff the entry before it is there, with the term named. -/
theorem merge_ok_iff (prevIndex : ℕ) (prevTerm : ℤ) (entries : List Entry) :
    (l.merge prevIndex prevTerm entries).ok = true ↔
      prevIndex ≤ l.lastIndex ∧ l.termAt prevIndex = prevTerm := by
  constructor
  · intro hok
    obtain ⟨hle, hterm, -⟩ := merge_ok hok
    exact ⟨hle, hterm⟩
  · rintro ⟨hle, hterm⟩
    unfold merge
    rw [if_neg (by omega), if_neg (by simp [hterm])]
    split <;> rfl

/-- An index below the first one has the term `-1`. -/
theorem termAt_below {i : ℕ} (hi : i ≠ 0) (hlt : i < l.firstIndex) : l.termAt i = -1 := by
  unfold termAt get
  rw [if_neg hi, if_neg (by omega)]

theorem lastIndex_filter_ge {m : ℕ} (hm : 0 < m) {t : ℤ} :
    m ≤ lastIndex ⟨l.entries.filter (fun e => m < e.index), m + 1, m, t⟩ ↔
      ∃ e ∈ l.entries, m < e.index := by
  unfold lastIndex
  cases hlast : (l.entries.filter (fun e => m < e.index)).getLast? with
  | none =>
    have hnil := List.getLast?_eq_none_iff.mp hlast
    simp only [List.filter_eq_nil_iff, decide_eq_true_eq] at hnil
    simp only [Nat.le_zero, hm.ne', false_iff, not_exists, not_and]
    exact hnil
  | some e =>
    have hmem := List.mem_filter.mp (List.mem_of_getLast? hlast)
    have hlt : m < e.index := of_decide_eq_true hmem.2
    exact ⟨fun _ => ⟨e, hmem.1, hlt⟩, fun _ => hlt.le⟩

end RaftLog

/-- The follower `f` takes the append that follows the snapshot from a leader with the log `l`.  A
follower that installs has the boundary below its log: it must keep an entry above it.  One that has
the snapshot already must answer the same term as the leader. -/
def CatchesUp (l : RaftLog) (f : Node ι σ δ) (s : Snapshot δ) : Prop :=
  if alreadyHave f s then
    s.lastIncludedIndex ≤ f.log.lastIndex ∧
      f.log.termAt s.lastIncludedIndex = l.termAt s.lastIncludedIndex
  else
    l.termAt s.lastIncludedIndex = -1 ∧ ∃ e ∈ f.log.entries, s.lastIncludedIndex < e.index

instance (l : RaftLog) (f : Node ι σ δ) (s : Snapshot δ) : Decidable (CatchesUp l f s) := by
  unfold CatchesUp
  infer_instance

omit [LinearOrder ι] in
/-- The condition is what `merge` checks at the node after the install. -/
theorem catchesUp_iff (self : Self ι σ δ) {l : RaftLog} {f : Node ι σ δ} {s : Snapshot δ}
    (hm : 0 < s.lastIncludedIndex) :
    CatchesUp l f s ↔ s.lastIncludedIndex ≤ (self.cover s f).state.log.lastIndex ∧
      (self.cover s f).state.log.termAt s.lastIncludedIndex = l.termAt s.lastIncludedIndex := by
  unfold CatchesUp
  rw [cover_state]
  by_cases hh : alreadyHave f s = true
  · rw [if_pos hh, if_pos hh]
  · rw [if_neg hh, if_neg hh, install_state]
    dsimp only
    have hbelow : RaftLog.termAt ⟨f.log.entries.filter (fun e => s.lastIncludedIndex < e.index),
        s.lastIncludedIndex + 1, s.lastIncludedIndex, s.lastIncludedTerm⟩ s.lastIncludedIndex = -1 :=
      RaftLog.termAt_below hm.ne' (Nat.lt_succ_self _)
    rw [RaftLog.lastIndex_filter_ge hm, hbelow, and_comm]
    exact and_congr_right fun _ => eq_comm

omit [LinearOrder ι] in
theorem mem_cover {self : Self ι σ δ} {f : Node ι σ δ} {s : Snapshot δ} {e : Entry}
    (he : e ∈ (self.cover s f).state.log.entries) : e ∈ f.log.entries := by
  rw [cover_state, install_state] at he
  by_cases hh : alreadyHave f s = true
  · rw [if_pos hh] at he
    exact he
  · rw [if_neg hh] at he
    exact List.mem_of_mem_filter he

/-! ### What the follower answers -/

section Follower

variable (self : Self ι σ δ) {n : Node ι σ δ} {term : ℕ} (leader : ι)

omit [LinearOrder ι] in
theorem stepDown_run (ht : n.currentTerm ≤ term) : ∃ n₁ o, self.stepDown term n = ⟨n₁, o, .ok ()⟩ ∧
    n₁.core = n.core ∧ n₁.currentTerm = term := by
  unfold Self.stepDown
  rw [read_bind]
  unfold when
  split_ifs with hlt
  · exact ⟨_, _, rfl, rfl, rfl⟩
  · have hterm : n.currentTerm = term := by omega
    exact ⟨_, _, rfl, rfl, hterm⟩

omit [LinearOrder ι] in
/-- The common start of the two handlers of a current leader. -/
theorem follow_run (ht : n.currentTerm ≤ term) : ∃ n₁ o,
    when (n.currentTerm < term ∨ n.role ≠ .follower) (self.stepDown term) n = ⟨n₁, o, .ok ()⟩ ∧
      n₁.core = n.core ∧ n₁.currentTerm = term := by
  unfold when
  split_ifs with hc
  · exact stepDown_run self ht
  · rw [not_or] at hc
    exact ⟨n, [], rfl, rfl, by omega⟩

omit [LinearOrder ι] in
/-- A snapshot of a current leader is acknowledged. -/
theorem onInstallSnapshot_run (ht : n.currentTerm ≤ term) (s : Snapshot δ) : ∃ n₁ o,
    n₁.core = n.core ∧ n₁.currentTerm = term ∧
      self.onInstallSnapshot term leader s n = ⟨(self.cover s n₁).state,
        o ++ [(self.id, .send leader (.appendResp term self.id true s.lastIncludedIndex none))],
        .ok ()⟩ := by
  obtain ⟨n', o, hrun, hcore, hterm⟩ := follow_run self ht
  let n₁ : Node ι σ δ := { n' with
    leaderId := some leader, lastLeaderContact := self.now, electionDeadline := self.deadline }
  obtain ⟨o', hcover⟩ : ∃ o', self.cover s n₁ = ⟨(self.cover s n₁).state, o', .ok ()⟩ := by
    unfold Self.cover Self.install Self.writeSnapshotFile
    rw [read_bind]
    unfold when
    split_ifs <;> exact ⟨_, rfl⟩
  refine ⟨n₁, o ++ o', hcore, hterm, ?_⟩
  unfold Self.onInstallSnapshot
  rw [read_bind, if_neg (by omega), List.append_assoc]
  refine bind_run hrun ?_
  show (when (alreadyHave n₁ s = false) (self.install s) >>= fun _ => (update _ >>= fun _ =>
    self.send leader (.appendResp n₁.currentTerm self.id true s.lastIncludedIndex none))) n₁ = _
  have ht₁ : n₁.currentTerm = term := hterm
  rw [ht₁, bind_assoc]
  exact bind_run hcover rfl

/-- Applying entries does not touch the term or the role. -/
theorem applyCommitted_seat (n : Node ι σ δ) :
    (self.applyCommitted n).state.currentTerm = n.currentTerm ∧
      (self.applyCommitted n).state.role = n.role := by
  refine applyCommitted_steps.keeps (fun n' => n'.currentTerm = n.currentTerm ∧ n'.role = n.role) ?_
    ⟨rfl, rfl⟩
  intro n₁ n₂ hs h
  cases hs <;> exact h

/-- Without automatic snapshots, applying entries does not touch the log. -/
theorem applyCommitted_log (hauto : self.autoSnapshotEvery = 0) (n : Node ι σ δ) :
    (self.applyCommitted n).state.log = n.log :=
  (applyCommitted_loops (h := []) hauto).inv (fun n' _ => n'.log = n.log)
    (fun _ _ hs hp => hs.2.trans hp) rfl

/-- An append of a current leader: the log is merged, and `merge` answers. -/
theorem onAppend_run (ht : n.currentTerm ≤ term) {prevIndex : ℕ} {prevTerm : ℤ}
    {entries : List Entry} {r : RaftLog.Merged} (hr : n.log.merge prevIndex prevTerm entries = r)
    (ha : ∀ e ∈ r.log.entries, self.Accepts e.payload) (commit : ℕ) :
    ∃ n' o, self.onAppend term leader prevIndex prevTerm entries commit n =
        ⟨n', o ++ [(self.id, .send leader (.appendResp term self.id r.ok
          (if r.ok then r.matchIndex else 0) (some r.conflict)))], .ok ()⟩ ∧
      (self.autoSnapshotEvery = 0 → n'.log = r.log) := by
  obtain ⟨n', o, hrun, hcore, hterm⟩ := follow_run self ht
  let n₁ : Node ι σ δ := { n' with
    role := .follower, leaderId := some leader, lastLeaderContact := self.now
    electionDeadline := self.deadline }
  have hlog : n₁.log = n.log := (congrArg Node.log hcore :)
  obtain ⟨o₂, hmerge⟩ := mergeWindow_run self (n := n₁) (by rw [hlog, hr])
  let x : Act ι σ δ Unit := when (r.ok = true ∧ n₁.commitIndex < commit) (do
    update fun n => { n with commitIndex := min commit n.log.lastIndex }
    self.applyCommitted)
  obtain ⟨n₃, o₃, hx⟩ := takeOver_returns (n := { n₁ with log := r.log }) ha
    (r.ok = true ∧ n₁.commitIndex < commit) commit
  have hx : x { n₁ with log := r.log } = _ := hx
  have hterm₃ : n₃.currentTerm = term := by
    have hstate : (x { n₁ with log := r.log }).state.currentTerm = n'.currentTerm := by
      unfold x when
      split_ifs
      · exact (applyCommitted_seat self _).1
      · rfl
    rw [hx] at hstate
    exact hstate.trans hterm
  have hlog₃ : self.autoSnapshotEvery = 0 → n₃.log = r.log := by
    intro hauto
    have hstate : (x { n₁ with log := r.log }).state.log = r.log := by
      unfold x when
      split_ifs
      · exact applyCommitted_log self hauto _
      · rfl
    rwa [hx] at hstate
  refine ⟨n₃, o ++ (o₂ ++ o₃), ?_, hlog₃⟩
  rw [List.append_assoc, List.append_assoc, ← hterm₃]
  unfold Self.onAppend
  rw [read_bind, if_neg (by omega)]
  rw [← hterm₃] at hrun
  refine bind_run hrun ?_
  show (self.mergeWindow prevIndex prevTerm entries >>= _) n₁ = _
  refine bind_run hmerge ?_
  rw [read_bind]
  exact bind_run hx rfl

/-- An append of a current leader is answered with what `merge` returned. -/
theorem onAppend_reply (ht : n.currentTerm ≤ term) {prevIndex : ℕ} {prevTerm : ℤ}
    {entries : List Entry} {r : RaftLog.Merged} (hr : n.log.merge prevIndex prevTerm entries = r)
    (ha : ∀ e ∈ r.log.entries, self.Accepts e.payload) (commit : ℕ) :
    (self.onAppend term leader prevIndex prevTerm entries commit n).out.getLast? =
      some (self.id, .send leader (.appendResp term self.id r.ok (if r.ok then r.matchIndex else 0)
        (some r.conflict))) := by
  obtain ⟨n', o, hrun, -⟩ := onAppend_run self leader ht hr ha commit
  rw [hrun]
  simp

end Follower

/-! ### What the leader keeps -/

section Leader

variable {self : Self ι σ δ} {n n' : Node ι σ δ} {peer : ι} {mi ni : ℕ}

/-- No config entry of the log drops the peer. -/
def Params.KeepsPeer (P : Params ι σ δ) (l : RaftLog) (peer : ι) : Prop :=
  ∀ e ∈ l.entries, ∀ servers, P.configOf e.payload = some servers → peer ∈ servers

/-- The peer is tracked with these indexes, and no entry of the log drops it. -/
structure Tracked (P : Params ι σ δ) (peer : ι) (mi ni : ℕ) (n : Node ι σ δ) : Prop where
  matched : n.matchIndex peer = some mi
  next : n.nextIndex peer = some ni
  member : P.KeepsPeer n.log peer

theorem Tracked.step (hs : ApplyStep self n n') (h : Tracked self.toParams peer mi ni n) :
    Tracked self.toParams peer mi ni n' := by
  cases hs with
  | adopted e servers hlt he hc =>
    have hmem : peer ∈ servers := h.member e (RaftLog.mem_of_get he) servers hc
    refine ⟨?_, ?_, h.member⟩
    · simp [Node.adoptConfig, h.next, h.matched, hmem]
    · simp [Node.adoptConfig, h.next, hmem]
  | compacted s l hs hc hf =>
    exact ⟨h.matched, h.next, fun e he => h.member e (RaftLog.mem_compact hc he)⟩
  | ignored | fed | raised | skipped | file | mark => exact ⟨h.matched, h.next, h.member⟩

theorem advanceCommit_tracked (h : Tracked self.toParams peer mi ni n) :
    Tracked self.toParams peer mi ni (self.advanceCommit n).state := by
  rw [advanceCommit_state]
  cases n.findCommit self.id with
  | none => exact h
  | some candidate =>
    exact applyCommitted_steps.keeps (Tracked self.toParams peer mi ni) (fun _ _ hs => Tracked.step hs)
      ⟨h.matched, h.next, h.member⟩

theorem advanceCommit_seat (self : Self ι σ δ) (n : Node ι σ δ) :
    (self.advanceCommit n).state.currentTerm = n.currentTerm ∧
      (self.advanceCommit n).state.role = n.role := by
  rw [advanceCommit_state]
  cases n.findCommit self.id with
  | none => exact ⟨rfl, rfl⟩
  | some candidate => exact applyCommitted_seat self _

/-- What a leader makes of an answer of its term. -/
theorem appendResp_state (self : Self ι σ δ) (hr : n.role = .leader) (peer : ι) (success : Bool)
    (matchIndex : ℕ) (conflict : Option ℕ) :
    (self.handle (.appendResp n.currentTerm peer success matchIndex conflict) n).state =
      ((if success = true then self.onAck peer matchIndex else self.onNack peer conflict)
        (self.heard n peer)).state := by
  show (self.onAppendResp n.currentTerm peer success matchIndex conflict n).state = _
  unfold Self.onAppendResp
  rw [read_bind, if_neg (by simp [hr]), update_bind]
  rfl

/-- A leader that handles an acknowledgement raises `match_index` of the peer to it. -/
theorem ack_tracked (self : Self ι σ δ) (hr : n.role = .leader) (h : n.matchIndex peer = some mi)
    (hk : self.KeepsPeer n.log peer) (matchIndex : ℕ) (conflict : Option ℕ) :
    Tracked self.toParams peer (max mi matchIndex) (max mi matchIndex + 1)
      (self.handle (.appendResp n.currentTerm peer true matchIndex conflict) n).state := by
  have hmatch : (self.heard n peer).matchIndex peer = some mi := h
  rw [appendResp_state self hr, if_pos rfl, onAck_state, hmatch]
  refine advanceCommit_tracked ⟨?_, ?_, hk⟩
  · exact Function.update_self ..
  · exact Function.update_self ..

theorem ack_handled (self : Self ι σ δ) (hr : n.role = .leader) (h : n.matchIndex peer = some mi)
    (hk : self.KeepsPeer n.log peer) {matchIndex : ℕ} (hle : mi ≤ matchIndex) (conflict : Option ℕ) :
    Tracked self.toParams peer matchIndex (matchIndex + 1)
        (self.handle (.appendResp n.currentTerm peer true matchIndex conflict) n).state ∧
      (self.handle (.appendResp n.currentTerm peer true matchIndex conflict) n).state.currentTerm =
        n.currentTerm ∧
      (self.handle (.appendResp n.currentTerm peer true matchIndex conflict) n).state.role =
        .leader := by
  have htracked := ack_tracked self hr h hk matchIndex conflict
  rw [Nat.max_eq_right hle] at htracked
  have hmatch : (self.heard n peer).matchIndex peer = some mi := h
  refine ⟨htracked, ?_, ?_⟩
  all_goals rw [appendResp_state self hr, if_pos rfl, onAck_state, hmatch]
  · exact (advanceCommit_seat self _).1
  · exact (advanceCommit_seat self _).2.trans hr

end Leader

/-! ### The handshake -/

/-- The node at another time. -/
def Self.later (self : Self ι σ δ) (now draw : ℚ) : Self ι σ δ := { self with now := now, draw := draw }

/-- The leader sends the snapshot to the peer: it knows of no entry of it above the snapshot, and no
entry of its log drops the peer. -/
structure Offers (sl : Self ι σ δ) (l : Node ι σ δ) (peer : ι) (s : Snapshot δ) : Prop where
  role : l.role = .leader
  message : sl.appendMsg l peer = .installSnapshot l.currentTerm sl.id s
  boundary : 0 < s.lastIncludedIndex
  behind : ∃ mi, l.matchIndex peer = some mi ∧ mi ≤ s.lastIncludedIndex
  member : sl.KeepsPeer l.log peer

/-- **The append after `install_snapshot`**: the snapshot is acknowledged, the leader that handled the
acknowledgement sends the entries above it, and the follower accepts them iff `CatchesUp`; then
`match_index` rises by their number. -/
theorem append_after_install_iff {sl sf : Self ι σ δ} {l l₁ f : Node ι σ δ} {s : Snapshot δ}
    (ho : Offers sl l sf.id s) (ht : f.currentTerm ≤ l.currentTerm)
    (hf : ∀ e ∈ f.log.entries, sf.Accepts e.payload) (hl : ∀ e ∈ l₁.log.entries, sf.Accepts e.payload)
    (t₁ d₁ t₂ d₂ t₃ d₃ : ℚ)
    (hl₁ : l₁ = ((sl.later t₁ d₁).handle
      (.appendResp l.currentTerm sf.id true s.lastIncludedIndex none) l).state)
    (hfirst : l₁.log.firstIndex ≤ s.lastIncludedIndex + 1) :
    (sf.handle (.installSnapshot l.currentTerm sl.id s) f).out.getLast? = some (sf.id,
      .send sl.id (.appendResp l.currentTerm sf.id true s.lastIncludedIndex none)) ∧
    ∃ entries, entries = l₁.log.entriesFrom (s.lastIncludedIndex + 1) sl.maxBatch ∧
      sl.appendMsg l₁ sf.id = .append l.currentTerm sl.id s.lastIncludedIndex
        (l₁.log.termAt s.lastIncludedIndex) entries l₁.commitIndex ∧
      ∃ ok conflict,
        ((sf.later t₂ d₂).handle (sl.appendMsg l₁ sf.id)
            (sf.handle (.installSnapshot l.currentTerm sl.id s) f).state).out.getLast? =
          some (sf.id, .send sl.id (.appendResp l.currentTerm sf.id ok
            (if ok then s.lastIncludedIndex + entries.length else 0) (some conflict))) ∧
        (ok = true ↔ CatchesUp l₁.log f s) ∧
        (ok = true → ((sl.later t₃ d₃).handle (.appendResp l.currentTerm sf.id true
          (s.lastIncludedIndex + entries.length) (some conflict)) l₁).state.matchIndex sf.id =
            some (s.lastIncludedIndex + entries.length)) := by
  obtain ⟨mi, hmi, hle⟩ := ho.behind
  obtain ⟨htracked, hterm, hrole⟩ := ack_handled (sl.later t₁ d₁) ho.role hmi ho.member hle none
  rw [← hl₁] at htracked hterm hrole
  obtain ⟨n₁, o, hcore, hterm₁, hrun⟩ := onInstallSnapshot_run sf sl.id ht s
  have hhandle : sf.handle (.installSnapshot l.currentTerm sl.id s) f = _ := hrun
  have hmsg : sl.appendMsg l₁ sf.id = .append l.currentTerm sl.id s.lastIncludedIndex
      (l₁.log.termAt s.lastIncludedIndex)
      (l₁.log.entriesFrom (s.lastIncludedIndex + 1) sl.maxBatch) l₁.commitIndex := by
    unfold Self.appendMsg
    rw [htracked.next, hterm]
    dsimp only [Option.getD_some]
    rw [if_neg (by omega), Nat.add_sub_cancel]
  have hterm₂ : (sf.cover s n₁).state.currentTerm ≤ l.currentTerm := by
    rw [cover_state, install_state]
    split_ifs <;> exact hterm₁.le
  have hlog : n₁.log = f.log := (congrArg Node.log hcore :)
  have hcatch : CatchesUp l₁.log n₁ s ↔ CatchesUp l₁.log f s := by
    unfold CatchesUp alreadyHave
    rw [hlog]
  let r := (sf.cover s n₁).state.log.merge s.lastIncludedIndex (l₁.log.termAt s.lastIncludedIndex)
    (l₁.log.entriesFrom (s.lastIncludedIndex + 1) sl.maxBatch)
  refine ⟨by rw [hhandle]; simp, _, rfl, hmsg, r.ok, r.conflict, ?_, ?_, fun hok => ?_⟩
  · rw [hhandle, hmsg]
    have haccepts : ∀ e ∈ r.log.entries, sf.Accepts e.payload :=
      RaftLog.forall_merge (fun e he => hf e (hlog ▸ mem_cover he))
        fun e he => hl e (RaftLog.mem_entriesFrom he)
    refine (onAppend_reply (sf.later t₂ d₂) sl.id hterm₂ (r := r) rfl haccepts l₁.commitIndex).trans ?_
    cases hok : r.ok with
    | false => rfl
    | true =>
      rw [if_pos rfl, if_pos rfl, (RaftLog.merge_ok hok).2.2]
      rfl
  · rw [← hcatch, catchesUp_iff sf ho.boundary]
    exact RaftLog.merge_ok_iff ..
  · have hacked := ack_handled (sl.later t₃ d₃) hrole htracked.matched htracked.member
      (Nat.le_add_right _ (l₁.log.entriesFrom (s.lastIncludedIndex + 1) sl.maxBatch).length)
      (some r.conflict)
    rw [← hterm]
    exact hacked.1.matched

/-- A leader with entry 2 above its snapshot of entry 1, which server 1 is to get. -/
def offering : Node ℕ Unit Unit :=
  { currentTerm := 1, log := ⟨[⟨2, 1, [97]⟩], 2, 1, 1⟩, peers := [1], config := {0, 1}
    machine := some (), lastSnapshot := some ⟨1, 1, ()⟩, role := .leader, commitIndex := 1
    appliedIndex := 1, nextIndex := fun p => if p = 1 then some 1 else none
    matchIndex := fun p => if p = 1 then some 0 else none }

/-- A follower with the same snapshot and an entry above it. -/
def compactedToo : Node ℕ Unit Unit :=
  { currentTerm := 1, log := ⟨[⟨2, 1, [97]⟩], 2, 1, 1⟩, peers := [0], config := {0, 1}
    machine := some (), commitIndex := 1, appliedIndex := 1 }

theorem append_after_install_accepted :
    let sl := (lab 2 false 256).self (callAt 1000 0 .tick)
    let sf := (lab 2 false 256).self (callAt 1000 1 .tick)
    let l₁ := (sl.handle (.appendResp 1 1 true 1 none) offering).state
    CatchesUp l₁.log compactedToo ⟨1, 1, ()⟩ ∧ ∃ conflict,
      (sf.handle (sl.appendMsg l₁ 1)
          (sf.handle (.installSnapshot 1 0 ⟨1, 1, ()⟩) compactedToo).state).out.getLast? =
        some (1, .send 0 (.appendResp 1 1 true 2 (some conflict))) := by
  intro sl sf l₁
  have hkeeps : sl.KeepsPeer offering.log sf.id := by
    intro e he servers hc
    rw [List.mem_singleton.mp he] at hc
    cases hc
  have hoffers : Offers sl offering sf.id ⟨1, 1, ()⟩ :=
    ⟨rfl, by decide +kernel, by decide, ⟨0, rfl, by decide⟩, hkeeps⟩
  have hcatch : CatchesUp l₁.log compactedToo ⟨1, 1, ()⟩ := by decide +kernel
  obtain ⟨-, entries, hentries, -, ok, conflict, hreply, hok, -⟩ := append_after_install_iff
    hoffers (show compactedToo.currentTerm ≤ 1 by decide) (fun _ _ _ sm h => by cases h; simp)
    (fun _ _ _ sm h => by cases h; simp) 1000 0 1000 0 1000 0 (show l₁ = _ from rfl) (by decide +kernel)
  rw [hok.mpr hcatch] at hreply
  have hone : entries.length = 1 := by
    rw [hentries]
    decide +kernel
  rw [hone] at hreply
  exact ⟨hcatch, conflict, hreply⟩

/-- Server 2 has seen nothing of the log; server 0 has taken a snapshot of entry 1, sent it to server
2 and handled the acknowledgement. -/
def offered : List (Event ℕ Unit) :=
  [callAt 1000 0 .tick, callAt 1001 1 (.handle (.vote 1 0 0 0)),
   callAt 1002 0 (.handle (.voteResp 1 1 true)),
   callAt 1003 1 (.handle (.append 1 0 0 0 [⟨1, 1, noop⟩] 0)),
   callAt 1004 0 (.handle (.appendResp 1 1 true 1 (some 0))), callAt 1005 0 (.propose [97]),
   callAt 1006 0 .takeSnapshot, callAt 1100 0 .tick,
   callAt 1101 2 (.handle (.installSnapshot 1 0 ⟨1, 1, ()⟩)),
   callAt 1102 0 (.handle (.appendResp 1 2 true 1 none)), callAt 1200 0 .tick]

/-- The append that follows is refused: the last index of the follower's empty log is `0`. -/
theorem append_after_install_refused :
    ∃ c, c = (lab 3 false 256).replay offered ∧
      Reach (lab 3 false 256).step (lab 3 false 256).Enabled (lab 3 false 256).init c ∧
      (c.node 0).role = .leader ∧ (c.node 0).log = ⟨[⟨2, 1, [97]⟩], 2, 1, 1⟩ ∧
      (c.node 0).matchIndex 2 = some 1 ∧
      InFlight c.history 2 (.append 1 0 1 (-1) [⟨2, 1, [97]⟩] 1) ∧
      InFlight ((lab 3 false 256).step c
          (callAt 1201 2 (.handle (.append 1 0 1 (-1) [⟨2, 1, [97]⟩] 1)))).history 0
        (.appendResp 1 2 false 0 (some 1)) :=
  ⟨_, rfl, reach_replay offered (by decide +kernel), by decide +kernel, by decide +kernel,
    by decide +kernel, by decide +kernel, by decide +kernel⟩

end Pylog.Raft
