import Pylog.Raft.Aligned

/-!
# Pylog.Raft.Indexes — commit and apply indexes with snapshots

`commit_index` is assigned in `_on_append` (cut to `last_index`), in `_on_install_snapshot`, in
`_advance_commit` and by the snapshot loader.  `Level` is what these have to leave behind: all that
is committed is applied, and lies within the log or its snapshot.
-/

namespace Pylog.Raft

open Effect Effect.Handler Transition

namespace RaftLog

variable {l l' : RaftLog} {prevIndex : ℕ} {prevTerm : ℤ} {entries : List Entry}

theorem lastIndex_nil (h : l.entries = []) : l.lastIndex = 0 := by
  unfold lastIndex
  rw [h]
  rfl

theorem Aligned.lastIndex (h : l.Aligned) (hne : l.entries ≠ []) :
    l.lastIndex + 1 = l.firstIndex + l.entries.length :=
  (contiguous_iff.mpr ⟨h, fun he => absurd he hne⟩).lastIndex

/-- The last entry of a log is above its snapshot. -/
theorem Aligned.snapshot_lt (h : l.Aligned) (hne : l.entries ≠ []) :
    l.snapshotLastIndex < l.lastIndex := by
  have h1 := h.lastIndex hne
  have h2 := List.length_pos_iff.mpr hne
  have h3 := h.1
  omega

/-- Every index from `first_index` to `last_index` is in the log. -/
theorem Aligned.get_isSome (h : l.Aligned) {i : ℕ} (hi : l.snapshotLastIndex < i)
    (hle : i ≤ l.lastIndex) : l.get i ≠ none := by
  have h1 := h.1
  have hne : l.entries ≠ [] := by
    intro he
    rw [lastIndex_nil he] at hle
    omega
  have h2 := h.lastIndex hne
  rw [Ne, get_eq_none (by omega)]
  omega

/-- A cut below the last entry keeps it. -/
theorem Aligned.lastIndex_cut (h : l.Aligned) {m : ℕ} (hm : l.firstIndex ≤ m + 1)
    (hlt : m < l.lastIndex) (t : ℤ) :
    RaftLog.lastIndex ⟨l.entries.filter (fun e => m < e.index), m + 1, m, t⟩ = l.lastIndex := by
  have hne : l.entries ≠ [] := by
    intro he
    rw [lastIndex_nil he] at hlt
    omega
  have h1 := h.lastIndex hne
  have hlen : (l.entries.filter fun e => decide (m < e.index)).length =
      l.entries.length - (m + 1 - l.firstIndex) := by
    rw [filter_index h.2 hm, List.length_drop]
  have hne' : l.entries.filter (fun e => decide (m < e.index)) ≠ [] := by
    rw [← List.length_pos_iff, hlen]
    omega
  have h2 := (h.cutThrough hm t).lastIndex hne'
  dsimp only at h2
  omega

/-- A log that holds every term of the window is left as it is. -/
theorem findInsert_same (l : RaftLog) (prevIndex : ℕ) : ∀ (entries : List Entry) (k : ℕ),
    (∀ y ∈ entries.zipIdx (prevIndex + 1 + k), l.termAt y.2 = (y.1.term : ℤ)) →
    l.findInsert prevIndex k entries = (l, none)
  | [], _, _ => rfl
  | y :: ys, k, h => by
    have hy : l.termAt (prevIndex + 1 + k) = (y.term : ℤ) := h (y, prevIndex + 1 + k) (by simp)
    unfold findInsert
    dsimp only
    rw [if_neg (by rw [hy]; omega), if_neg (not_not.mpr hy)]
    refine findInsert_same l prevIndex ys (k + 1) fun z hz => h z ?_
    rw [List.zipIdx_cons]
    exact List.mem_cons_of_mem _ hz

theorem merge_same (h : ∀ y ∈ entries.zipIdx (prevIndex + 1), l.termAt y.2 = (y.1.term : ℤ)) :
    (l.merge prevIndex prevTerm entries).log = l := by
  unfold merge
  rw [findInsert_same l prevIndex entries 0 h]
  split_ifs <;> rfl

/-- What a merge may not do to the entries up to `commit`: replace them by a shorter log. -/
def Reaches (l : RaftLog) (prevIndex : ℕ) (entries : List Entry) (commit : ℕ) : Prop :=
  prevIndex + entries.length < commit →
    ∀ y ∈ entries.zipIdx (prevIndex + 1), l.termAt y.2 = (y.1.term : ℤ)

instance (l : RaftLog) (prevIndex : ℕ) (entries : List Entry) (commit : ℕ) :
    Decidable (l.Reaches prevIndex entries commit) := inferInstanceAs (Decidable (_ → _))

/-- After an accepted merge the log still reaches the commit index; the snapshot is as before. -/
theorem Aligned.merge_bound (h : l.Aligned) (hu : ¬l.Undercut prevIndex prevTerm entries)
    {commit : ℕ} (hc : commit ≤ max l.lastIndex l.snapshotLastIndex)
    (hr : l.Reaches prevIndex entries commit) :
    (l.merge prevIndex prevTerm entries).log.snapshotLastIndex = l.snapshotLastIndex ∧
    commit ≤ max (l.merge prevIndex prevTerm entries).log.lastIndex l.snapshotLastIndex ∧
    ((l.merge prevIndex prevTerm entries).log.entries = [] →
      (l.merge prevIndex prevTerm entries).log = l) := by
  have hsnap : (l.merge prevIndex prevTerm entries).log.snapshotLastIndex = l.snapshotLastIndex := by
    have h1 := (h.merge hu).1
    rw [merge_first, h.1] at h1
    omega
  have hsame : (l.merge prevIndex prevTerm entries).log = l →
      commit ≤ max (l.merge prevIndex prevTerm entries).log.lastIndex l.snapshotLastIndex ∧
      ((l.merge prevIndex prevTerm entries).log.entries = [] →
        (l.merge prevIndex prevTerm entries).log = l) := by
    intro hs
    rw [hs]
    exact ⟨hc, fun _ => rfl⟩
  refine ⟨hsnap, ?_⟩
  cases hok : (l.merge prevIndex prevTerm entries).ok with
  | false => exact hsame (merge_fails hok)
  | true =>
    obtain ⟨hprev, hterm, -⟩ := merge_ok hok
    by_cases hne : entries = []
    · refine hsame (merge_same ?_)
      simp [hne]
    · have hfirst : l.firstIndex ≤ prevIndex + 1 := by
        by_contra hlt
        exact hu ⟨hne, Nat.not_le.mp hlt, hprev, hterm⟩
      have hopen : l.Open := fun he => by
        have := lastIndex_nil he
        have := h.1
        omega
      obtain ⟨-, hlog | hlast, -⟩ := merge_contiguous (contiguous_iff.mpr ⟨h, hopen⟩) hfirst hok
      · exact hsame hlog.1
      · by_cases hle : commit ≤ prevIndex + entries.length
        · refine ⟨by omega, fun he => ?_⟩
          have := lastIndex_nil he
          have := List.length_pos_iff.mpr hne
          omega
        · exact hsame (merge_same (hr (by omega)))

end RaftLog

variable {ι σ δ : Type} [LinearOrder ι]

/-! ### What the indexes have to satisfy -/

/-- The node may apply what it committed: the log reaches from `applied_index` to `commit_index`.
Snapshot files lie at or below `commit_index`, and a compacted log has one for its snapshot. -/
structure Ready (P : Params ι σ δ) (n : Node ι σ δ) : Prop where
  aligned : n.log.Aligned
  snap : n.log.snapshotLastIndex ≤ n.appliedIndex
  applied : n.appliedIndex ≤ n.commitIndex
  bound : n.commitIndex ≤ max n.log.lastIndex n.log.snapshotLastIndex
  machine : n.machine.isSome = true
  files : ∀ f ∈ n.snapshotFiles, f.lastIncludedIndex ≤ n.commitIndex
  filed : P.snapshotDir = true → n.log.snapshotLastIndex ≠ 0 →
    ∃ f ∈ n.snapshotFiles, f.lastIncludedIndex = n.log.snapshotLastIndex
  unfiled : P.snapshotDir = false → n.snapshotFiles = []

/-- All that is committed is applied. -/
structure Level (P : Params ι σ δ) (n : Node ι σ δ) : Prop extends Ready P n where
  equal : n.appliedIndex = n.commitIndex

section Steps

variable {self : Self ι σ δ} {n n₀ n' : Node ι σ δ} {k : Call ι δ}

omit [LinearOrder ι] in
theorem feed_machine (self : Self ι σ δ) (hm : n.machine.isSome = true) (payload : Bytes) :
    (self.feed n payload).1.isSome = true := by
  unfold Self.feed
  split
  · split_ifs
    · rfl
    · exact hm
  · exact hm

/-- One step of `_apply_committed` or `take_snapshot`. -/
theorem Ready.step (h : Ready self.toParams n) (hs : ApplyStep self n n') :
    Ready self.toParams n' ∧ n'.commitIndex = n.commitIndex ∧ n.appliedIndex ≤ n'.appliedIndex := by
  obtain ⟨h1, h2, h3, h4, h5, h6, h7, h8⟩ := h
  cases hs with
  | ignored e hlt _ _ _ =>
    exact ⟨⟨h1, h2.trans (Nat.le_succ _), hlt, h4, h5, h6, h7, h8⟩, rfl, Nat.le_succ _⟩
  | adopted e servers hlt _ _ =>
    exact ⟨⟨h1, h2.trans (Nat.le_succ _), hlt, h4, h5, h6, h7, h8⟩, rfl, Nat.le_succ _⟩
  | fed e machine hlt _ _ hm =>
    have hsome := feed_machine self h5 e.payload
    rw [hm] at hsome
    exact ⟨⟨h1, h2.trans (Nat.le_succ _), hlt, h4, hsome, h6, h7, h8⟩, rfl, Nat.le_succ _⟩
  | raised e machine _ _ _ hm =>
    have hsome := feed_machine self h5 e.payload
    rw [hm] at hsome
    exact ⟨⟨h1, h2, h3, h4, hsome, h6, h7, h8⟩, rfl, le_rfl⟩
  | skipped _ _ hm =>
    rw [hm] at h5
    cases h5
  | file s hs hd =>
    have hidx := snapshotOf_index hs
    refine ⟨⟨h1, h2, h3, h4, h5, fun f hf => ?_, fun _ hne => ?_, fun hd' => ?_⟩, rfl, le_rfl⟩
    · rcases List.mem_cons.mp hf with rfl | hf
      · rw [hidx]
        exact h3
      · exact h6 f (List.mem_filter.mp hf).1
    · obtain ⟨f, hf, hfi⟩ := h7 hd hne
      by_cases heq : f.lastIncludedIndex = s.lastIncludedIndex
      · exact ⟨s, by simp, heq.symm.trans hfi⟩
      · exact ⟨f, List.mem_cons_of_mem _ (List.mem_filter.mpr ⟨hf, decide_eq_true heq⟩), hfi⟩
    · rw [hd] at hd'
      cases hd'
  | mark s _ => exact ⟨⟨h1, h2, h3, h4, h5, h6, h7, h8⟩, rfl, le_rfl⟩
  | compacted s l hs hc hf =>
    have hidx := snapshotOf_index hs
    have hcut : n.log.lastIndex ≤ s.lastIncludedIndex → n.log.entries = [] := by
      intro hle
      by_contra hne
      unfold RaftLog.compact at hc
      split_ifs at hc with hc1 hc2
      exact hc2 ⟨hle, hne⟩
    obtain ⟨hm, rfl⟩ := RaftLog.compact_eq hc
    refine ⟨⟨h1.cutThrough hm _, ?_, h3, ?_, h5, h6, fun hd _ => ?_, h8⟩, rfl, le_rfl⟩
    · exact hidx.le
    · show n.commitIndex ≤ max _ s.lastIncludedIndex
      by_cases hlt : s.lastIncludedIndex < n.log.lastIndex
      · rw [h1.lastIndex_cut hm hlt]
        omega
      · have hnil := RaftLog.lastIndex_nil (hcut (Nat.not_lt.mp hlt))
        omega
    · exact hf hd

/-- `_apply_committed` applies everything. -/
theorem applyCommitted_level (hsm : self.NeverRaises) (h : Ready self.toParams n) :
    Level self.toParams (self.applyCommitted n).state ∧
      (self.applyCommitted n).state.commitIndex = n.commitIndex := by
  have hsteps : ApplySteps self self.applyCommitted n [] _ := applyCommitted_steps
  obtain ⟨hr, hc, ha⟩ := hsteps.keeps (fun n' => Ready self.toParams n' ∧
      n'.commitIndex = n.commitIndex ∧ n.appliedIndex ≤ n'.appliedIndex)
    (fun a b hab ⟨hr, hc, ha⟩ => by
      obtain ⟨hr', hc', ha'⟩ := hr.step hab
      exact ⟨hr', hc'.trans hc, ha.trans ha'⟩) ⟨h, rfl, le_rfl⟩
  obtain ⟨s', o, hrun⟩ := applyCommitted_returns fun e (_ : e ∈ n.log.entries) => hsm.accepts e.payload
  have hend := (hsteps.2 () (by rw [hrun])).2
  refine ⟨⟨hr, le_antisymm hr.applied ?_⟩, hc⟩
  rw [hc]
  rcases hend with hle | hnone
  · exact hle
  · -- the log holds every index between the snapshot and `commit_index`
    by_contra hlt
    have hsnap := h.snap
    have hbound := h.bound
    exact h.aligned.get_isSome (by omega) (by omega) hnone

/-- `take_snapshot` leaves the indexes alone. -/
theorem takeSnapshot_level (h : Level self.toParams n) :
    Level self.toParams (self.takeSnapshot n).state ∧
      (self.takeSnapshot n).state.commitIndex = n.commitIndex := by
  have hsteps : ApplySteps self self.takeSnapshot n [] _ := takeSnapshot_steps
  obtain ⟨hr, hc, ha⟩ := hsteps.keeps (fun n' => Ready self.toParams n' ∧
      n'.commitIndex = n.commitIndex ∧ n.appliedIndex ≤ n'.appliedIndex)
    (fun a b hab ⟨hr, hc, ha⟩ => by
      obtain ⟨hr', hc', ha'⟩ := hr.step hab
      exact ⟨hr', hc'.trans hc, ha.trans ha'⟩) ⟨h.toReady, rfl, le_rfl⟩
  refine ⟨⟨hr, le_antisymm hr.applied ?_⟩, hc⟩
  have := h.equal
  omega

theorem advanceCommit_level (hsm : self.NeverRaises) (h : Level self.toParams n) :
    Level self.toParams (self.advanceCommit n).state ∧
      n.commitIndex ≤ (self.advanceCommit n).state.commitIndex := by
  rw [advanceCommit_state]
  cases hf : n.findCommit self.id with
  | none => exact ⟨h, le_rfl⟩
  | some index =>
    obtain ⟨hlt, hle⟩ := findCommit_bounds hf
    have happ := h.equal
    have hready : Ready self.toParams { n with commitIndex := index } :=
      ⟨h.aligned, h.snap, by dsimp only; omega, hle.trans (le_max_left _ _), h.machine,
        fun f hm => (h.files f hm).trans hlt.le, h.filed, h.unfiled⟩
    obtain ⟨hl, hc⟩ := applyCommitted_level hsm hready
    refine ⟨hl, ?_⟩
    dsimp only
    rw [hc]
    exact hlt.le

theorem record_level (hsm : self.NeverRaises) (h : Level self.toParams n) (ho : n.log.Open)
    (payload : Bytes) : Level self.toParams (self.record payload n).state ∧
      n.commitIndex ≤ (self.record payload n).state.commitIndex := by
  rw [record_state]
  have hlast : (n.log.appendEntry n.currentTerm payload).lastIndex = n.log.lastIndex + 1 := by
    unfold RaftLog.lastIndex RaftLog.appendEntry
    simp [RaftLog.lastIndex]
  have hlevel : Level self.toParams
      { n with log := n.log.appendEntry n.currentTerm payload } := by
    refine ⟨⟨h.aligned.appendEntry ho _ _, h.snap, h.applied, ?_, h.machine, h.files, h.filed,
      h.unfiled⟩, h.equal⟩
    dsimp only
    rw [hlast]
    have := h.bound
    show _ ≤ max _ n.log.snapshotLastIndex
    omega
  exact advanceCommit_level hsm hlevel

/-! ### The condition on a call -/

end Steps

/-- The call leaves no committed index behind: an accepted window does not cut the log below
`commit_index` and does not raise it over an empty compacted log; a snapshot the node already has is
not above `commit_index`. -/
def Node.keepsIndexes (n : Node ι σ δ) : Call ι δ → Bool
  | .handle (.append term _ prevIndex prevTerm entries commit) => decide (
      n.currentTerm ≤ term → prevIndex ≤ n.log.lastIndex → n.log.termAt prevIndex = prevTerm →
        n.log.Reaches prevIndex entries n.commitIndex ∧ (n.commitIndex < commit → n.log.Open))
  | .handle (.installSnapshot term _ s) => decide (
      n.currentTerm ≤ term → alreadyHave n s = true → s.lastIncludedIndex ≤ n.commitIndex)
  | _ => true

/-- The condition on an event: on its call, and that a node without snapshot files does not restart
on a compacted log. -/
def Setup.KeepsIndexes (S : Setup ι σ δ) (c : Cluster ι σ δ) (e : Event ι δ) : Prop :=
  (∀ k ∈ e.action.made, (c.node e.node).keepsIndexes k = true) ∧
    (e.action.made = none → (S.params e.node).snapshotDir = false →
      (c.node e.node).log.snapshotLastIndex = 0)

instance (S : Setup ι σ δ) (c : Cluster ι σ δ) (e : Event ι δ) : Decidable (S.KeepsIndexes c e) :=
  inferInstanceAs (Decidable ((∀ k ∈ e.action.made, _ = true) ∧ (_ → _ → _)))

section Turns

variable {self : Self ι σ δ} {n n₀ n' : Node ι σ δ} {k : Call ι δ}

omit [LinearOrder ι] in
/-- Only these fields count. -/
theorem Level.same {P : Params ι σ δ} (h : Level P n) (e1 : n'.log = n.log)
    (e2 : n'.commitIndex = n.commitIndex) (e3 : n'.appliedIndex = n.appliedIndex)
    (e4 : n'.machine = n.machine) (e5 : n'.snapshotFiles = n.snapshotFiles) : Level P n' := by
  obtain ⟨⟨h1, h2, h3, h4, h5, h6, h7, h8⟩, h9⟩ := h
  refine ⟨⟨?_, ?_, ?_, ?_, ?_, ?_, ?_, ?_⟩, ?_⟩ <;> simp only [e1, e2, e3, e4, e5] <;> assumption

omit [LinearOrder ι] in
theorem Level.congr {P : Params ι σ δ} (h : Level P n) (hn : n'.core = n.core) : Level P n' :=
  h.same (congrArg Node.log hn :) (congrArg Node.commitIndex hn :) (congrArg Node.appliedIndex hn :)
    (congrArg Node.machine hn :) (congrArg Node.snapshotFiles hn :)

theorem onAck_level (hsm : self.NeverRaises) (h : Level self.toParams n) (sender : ι)
    (matchIndex : ℕ) : Level self.toParams (self.onAck sender matchIndex n).state ∧
      n.commitIndex ≤ (self.onAck sender matchIndex n).state.commitIndex := by
  rw [onAck_state]
  cases n.matchIndex sender with
  | none => exact ⟨h, le_rfl⟩
  | some mi =>
    exact advanceCommit_level hsm (h.same rfl rfl rfl rfl rfl)

/-- An append: the log still reaches `commit_index`, and what the leader committed is applied. -/
theorem receive_level (hsm : self.NeverRaises) (h : Level self.toParams n) {prevIndex : ℕ}
    {prevTerm : ℤ} {entries : List Entry} {commit : ℕ}
    (hu : ¬n.log.Undercut prevIndex prevTerm entries)
    (hk : prevIndex ≤ n.log.lastIndex → n.log.termAt prevIndex = prevTerm →
      n.log.Reaches prevIndex entries n.commitIndex ∧ (n.commitIndex < commit → n.log.Open)) :
    Level self.toParams (self.receive prevIndex prevTerm entries commit n).state ∧
      n.commitIndex ≤ (self.receive prevIndex prevTerm entries commit n).state.commitIndex := by
  generalize hr : n.log.merge prevIndex prevTerm entries = r
  rw [receive_state self n hr]
  cases hok : r.ok with
  | false =>
    have hlog : r.log = n.log := by
      rw [← hr] at hok ⊢
      exact RaftLog.merge_fails hok
    rw [if_neg (by simp), hlog]
    exact ⟨h, le_rfl⟩
  | true =>
    rw [← hr] at hok
    obtain ⟨hprev, hterm, -⟩ := RaftLog.merge_ok hok
    obtain ⟨hreach, hopen⟩ := hk hprev hterm
    obtain ⟨hsnap, hbound, hnil⟩ := h.aligned.merge_bound hu h.bound hreach
    have haligned := h.aligned.merge hu
    rw [hr] at hsnap hbound hnil haligned
    have hlevel : Level self.toParams { n with log := r.log } := by
      refine ⟨⟨haligned, ?_, h.applied, ?_, h.machine, h.files, ?_, h.unfiled⟩, h.equal⟩
      · show r.log.snapshotLastIndex ≤ _
        rw [hsnap]
        exact h.snap
      · show _ ≤ max r.log.lastIndex r.log.snapshotLastIndex
        rw [hsnap]
        exact hbound
      · show _ → r.log.snapshotLastIndex ≠ 0 → ∃ f ∈ _, _ = r.log.snapshotLastIndex
        rw [hsnap]
        exact h.filed
    by_cases hc : n.commitIndex < commit
    · rw [if_pos ⟨rfl, hc⟩]
      have hlast : n.commitIndex ≤ r.log.lastIndex := by
        by_cases he : r.log.entries = []
        · have hsame := hnil he
          have hfirst := h.aligned.1
          rw [hsame] at he hbound
          rw [hopen hc he] at hfirst
          have := RaftLog.lastIndex_nil he
          omega
        · have := haligned.snapshot_lt he
          omega
      have happ := h.equal
      have hready : Ready self.toParams { n with
          log := r.log, commitIndex := min commit r.log.lastIndex } := by
        obtain ⟨⟨l1, l2, -, -, l5, l6, l7, l8⟩, -⟩ := hlevel
        refine ⟨l1, l2, ?_, ?_, l5, fun f hf => (l6 f hf).trans ?_, l7, l8⟩ <;> dsimp only <;> omega
      obtain ⟨hl, hci⟩ := applyCommitted_level hsm hready
      refine ⟨hl, ?_⟩
      rw [hci]
      dsimp only
      omega
    · rw [if_neg fun hcond => hc hcond.2]
      exact ⟨hlevel, le_rfl⟩

omit [LinearOrder ι] in
/-- An install: the snapshot covers what was committed, or the log still reaches it. -/
theorem cover_level (h : Level self.toParams n) {s : Snapshot δ}
    (hk : alreadyHave n s = true → s.lastIncludedIndex ≤ n.commitIndex) :
    Level self.toParams (self.cover s n).state ∧
      n.commitIndex ≤ (self.cover s n).state.commitIndex := by
  rw [cover_state]
  split_ifs with hh
  · have hmax : max n.commitIndex s.lastIncludedIndex = n.commitIndex := max_eq_left (hk hh)
    rw [hmax]
    exact ⟨h, le_rfl⟩
  · have hm : n.log.snapshotLastIndex < s.lastIncludedIndex := by
      simp only [alreadyHave, decide_eq_true_eq, not_or, Nat.not_le] at hh
      exact hh.2
    have hfirst := h.aligned.1
    have hcut : n.log.firstIndex ≤ s.lastIncludedIndex + 1 := by omega
    have happ := h.equal
    rw [install_state]
    refine ⟨⟨⟨h.aligned.cutThrough hcut _, ?_, ?_, ?_, ?_, ?_, ?_, ?_⟩, ?_⟩, le_max_left _ _⟩
    · exact le_max_right _ _
    · dsimp only
      omega
    · show max n.commitIndex s.lastIncludedIndex ≤ max _ s.lastIncludedIndex
      by_cases hlt : s.lastIncludedIndex < n.log.lastIndex
      · rw [h.aligned.lastIndex_cut hcut hlt]
        have := h.bound
        omega
      · have := h.bound
        omega
    · dsimp only
      have := h.machine
      split
      · rfl
      · exact this
    · intro f hf
      dsimp only at hf ⊢
      split_ifs at hf
      · rcases List.mem_cons.mp hf with rfl | hf
        · exact le_max_right _ _
        · exact (h.files f (List.mem_filter.mp hf).1).trans (le_max_left _ _)
      · exact (h.files f hf).trans (le_max_left _ _)
    · intro hd _
      refine ⟨s, ?_, rfl⟩
      dsimp only
      rw [if_pos hd]
      simp
    · intro hd
      dsimp only
      rw [if_neg (by rw [hd]; decide)]
      exact h.unfiled hd
    · dsimp only
      omega

/-- **A turn keeps the indexes level**, under the conditions on its call. -/
theorem turn_level {x : Act ι σ δ Unit} (ht : Turn self n₀ k x n) (hsm : self.NeverRaises)
    (h₀ : Level self.toParams n₀) (ha : self.keepsAligned n₀ k = true)
    (hk : n₀.keepsIndexes k = true) (hm : ∀ new, ¬Change self.id n₀ k new) :
    Level self.toParams (x n).state ∧ n₀.commitIndex ≤ (x n).state.commitIndex := by
  have hcore : n.core = n₀.core → Level self.toParams n ∧ n.log = n₀.log ∧
      n.commitIndex = n₀.commitIndex := fun hn =>
    ⟨h₀.congr hn, (congrArg Node.log hn :), (congrArg Node.commitIndex hn :)⟩
  cases ht with
  | still _ _ hn =>
    obtain ⟨h, -, hc⟩ := hcore hn
    exact ⟨h, hc.ge⟩
  | propose payload hr ht =>
    exact record_level hsm h₀ (open_of_keepsAligned ha (decide_eq_true ⟨hr, ht⟩)) payload
  | elected _ _ hn hw =>
    obtain ⟨h, hlog, hc⟩ := hcore hn
    have hoffice : Level self.toParams (self.takeOffice n).state := h.same rfl rfl rfl rfl rfl
    rw [office_state, if_pos h.machine, ← hc]
    refine record_level hsm hoffice ?_ noop
    show n.log.Open
    rw [hlog]
    exact open_of_keepsAligned ha (appends_of_wins hw h₀.machine)
  | answered sender success matchIndex conflict hr =>
    have hheard : Level self.toParams (self.heard n sender) := h₀.same rfl rfl rfl rfl rfl
    rw [answered_state]
    split_ifs
    · exact onAck_level hsm hheard sender matchIndex
    · obtain ⟨next, hstate, -⟩ := onNack_state self (self.heard n sender) sender conflict
      rw [hstate]
      exact ⟨h₀.same rfl rfl rfl rfl rfl, le_rfl⟩
  | receive _ term leader prevIndex prevTerm entries commit hn hterm =>
    obtain ⟨h, hlog, hc⟩ := hcore hn
    rw [← hc]
    refine receive_level hsm h ?_ ?_
    · rw [hlog]
      exact of_decide_eq_true ha hterm
    · rw [hlog, hc]
      exact of_decide_eq_true hk hterm
  | cover _ term leader s hn hterm =>
    obtain ⟨h, hlog, hc⟩ := hcore hn
    rw [← hc]
    refine cover_level h fun hh => ?_
    rw [hc]
    refine of_decide_eq_true hk hterm ?_
    unfold alreadyHave at hh ⊢
    rwa [← hlog]
  | snapshot =>
    rw [snapshot_state]
    obtain ⟨hl, hc⟩ := takeSnapshot_level h₀
    exact ⟨hl, hc.ge⟩
  | change _ newServers _ hc => exact absurd hc (hm newServers)

end Turns

/-! ### Restarts -/

section Boot

variable {P : Params ι σ δ} {n : Node ι σ δ}

theorem mem_latestFile {fs : List (Snapshot δ)} {s : Snapshot δ} (h : latestFile fs = some s) :
    s ∈ fs ∧ ∀ f ∈ fs, f.lastIncludedIndex ≤ s.lastIncludedIndex := by
  induction fs generalizing s with
  | nil => cases h
  | cons f rest ih =>
    unfold latestFile at h
    cases hr : latestFile rest with
    | none =>
      rw [hr] at h
      cases h
      have hnil := latestFile_eq_none.mp hr
      simp [hnil]
    | some t =>
      obtain ⟨ht, hmax⟩ := ih hr
      rw [hr] at h
      dsimp only at h
      split_ifs at h with hlt
      · cases h
        refine ⟨List.mem_cons_of_mem _ ht, fun g hg => ?_⟩
        rcases List.mem_cons.mp hg with rfl | hg
        · exact hlt.le
        · exact hmax g hg
      · cases h
        refine ⟨by simp, fun g hg => ?_⟩
        rcases List.mem_cons.mp hg with rfl | hg
        · exact le_rfl
        · exact (hmax g hg).trans (Nat.not_lt.mp hlt)

omit [LinearOrder ι] in
/-- A node that loads no snapshot starts from an uncompacted log. -/
theorem level_fresh {n' : Node ι σ δ} (h : n.log.Aligned) (hz : n.log.snapshotLastIndex = 0)
    (hl : n'.log = n.log) (hc : n'.commitIndex = 0) (ha : n'.appliedIndex = 0)
    (hm : n'.machine.isSome = true) (hf : n'.snapshotFiles = []) : Level P n' := by
  refine ⟨⟨?_, ?_, ?_, ?_, hm, ?_, ?_, fun _ => hf⟩, ?_⟩
  · rwa [hl]
  · rw [hl, hz]
    exact Nat.zero_le _
  · rw [ha]
    exact Nat.zero_le _
  · rw [hc]
    exact Nat.zero_le _
  · rw [hf]
    simp
  · rw [hl, hz]
    exact fun _ hne => absurd rfl hne
  · rw [ha, hc]

/-- A restart is level: it loads the newest snapshot file, which covers what the log lost. -/
theorem boot_level (hsm : P.stateMachine ≠ none) (h : Level P n)
    (hz : P.snapshotDir = false → n.log.snapshotLastIndex = 0) (i : ι) (now draw : ℚ) :
    Level P (P.boot i now draw n.durable) := by
  obtain ⟨sm, hsm⟩ := Option.ne_none_iff_exists'.mp hsm
  have hfirst := h.aligned.1
  cases hd : P.snapshotDir with
  | false =>
    refine level_fresh h.aligned (hz hd) ?_ ?_ ?_ ?_ ?_ <;>
      simp [Params.boot, hd, hsm, Node.durable, h.unfiled hd]
  | true =>
    cases hf : latestFile n.snapshotFiles with
    | none =>
      have hnil := latestFile_eq_none.mp hf
      have hzero : n.log.snapshotLastIndex = 0 := by
        by_contra hne
        obtain ⟨f, hmem, -⟩ := h.filed hd hne
        rw [hnil] at hmem
        cases hmem
      refine level_fresh h.aligned hzero ?_ ?_ ?_ ?_ ?_ <;>
        simp [Params.boot, Params.loadSnapshotFile, hd, hsm, Node.durable, hnil, latestFile]
    | some s =>
      obtain ⟨hmem, hmax⟩ := mem_latestFile hf
      have hle : n.log.snapshotLastIndex ≤ s.lastIncludedIndex := by
        rcases Nat.eq_zero_or_pos n.log.snapshotLastIndex with h0 | h0
        · omega
        · obtain ⟨f, hfm, hfi⟩ := h.filed hd (by omega)
          rw [← hfi]
          exact hmax f hfm
      have hbound : s.lastIncludedIndex ≤ max n.log.lastIndex n.log.snapshotLastIndex :=
        (h.files s hmem).trans h.bound
      have hboot : ∃ m, P.boot i now draw n.durable = { P.boot i now draw n.durable with
          machine := some m
          log := (n.log.compact s.lastIncludedIndex s.lastIncludedTerm).getD n.log
          commitIndex := s.lastIncludedIndex
          appliedIndex := s.lastIncludedIndex
          snapshotFiles := n.snapshotFiles } := by
        refine ⟨sm.restore s.data, ?_⟩
        simp [Params.boot, Params.loadSnapshotFile, hd, hsm, Node.durable, hf]
      obtain ⟨m, hboot⟩ := hboot
      rw [hboot]
      cases hc : n.log.compact s.lastIncludedIndex s.lastIncludedTerm with
      | none =>
        exact ⟨⟨h.aligned, hle, le_rfl, hbound, rfl, hmax, h.filed, h.unfiled⟩, rfl⟩
      | some l =>
        have haligned := h.aligned.compact hc
        obtain ⟨-, rfl⟩ := RaftLog.compact_eq hc
        exact ⟨⟨haligned, le_rfl, le_rfl, le_max_right _ _, rfl, hmax, fun _ _ => ⟨s, hmem, rfl⟩,
          h.unfiled⟩, rfl⟩

end Boot

/-! ### Runs -/

/-- The steps of the runs: whole calls and restarts with fixed membership, under the conditions. -/
def Setup.KeepsLevel (S : Setup ι σ δ) (c : Cluster ι σ δ) (e : Event ι δ) : Prop :=
  S.Enabled c e ∧ e.action.whole = true ∧ e.KeepsMembership S ∧ S.KeepsAligned c e ∧ S.KeepsIndexes c e

instance [DecidableEq δ] (S : Setup ι σ δ) (c : Cluster ι σ δ) (e : Event ι δ) :
    Decidable (S.KeepsLevel c e) := inferInstanceAs (Decidable (_ ∧ _ ∧ _ ∧ _ ∧ _))

section Runs

variable {S : Setup ι σ δ} {c : Cluster ι σ δ} {i : ι}

theorem call_level {e : Event ι δ} {k : Call ι δ} (hsm : (S.params e.node).NeverRaises)
    (he : S.KeepsLevel c e) (ha : e.action = .call k)
    (h : Level (S.params e.node) (c.node e.node)) :
    Level (S.params e.node) ((S.self e).call k (c.node e.node)).state ∧
      (c.node e.node).commitIndex ≤ ((S.self e).call k (c.node e.node)).state.commitIndex := by
  obtain ⟨-, -, hm, hal, hk, -⟩ := he
  have hmade := made_of_call ha
  obtain ⟨x, n₁, ht, hends⟩ := call_turn (S.self e) (c.node e.node) k
  obtain ⟨hl, hc⟩ := turn_level ht hsm h (hal k hmade) (hk k hmade)
    fun new => not_change (hm k hmade) _ _ new
  refine ⟨hl.congr hends.view, hc.trans_eq ?_⟩
  exact (congrArg Node.commitIndex hends.view.symm :)

theorem level_reach (hsm : ∀ j ∈ S.servers, (S.params j).stateMachine ≠ none ∧
      (S.params j).NeverRaises) (hr : Reach S.step S.KeepsLevel S.init c) (hi : i ∈ S.servers) :
    Level (S.params i) (c.node i) := by
  refine nodes_inv (fun i n => i ∈ S.servers → Level (S.params i) n) (fun c e he => he.2.1) ?_ ?_ ?_
    hr i hi
  · intro i hi
    obtain ⟨sm, hs⟩ := Option.ne_none_iff_exists'.mp (hsm i hi).1
    have hempty : Level (S.params i) ({ peers := [], config := ∅, machine := some sm.init } :
        Node ι σ δ) := level_fresh RaftLog.aligned_empty rfl rfl rfl rfl rfl rfl
    exact boot_level (hsm i hi).1 hempty (fun _ => rfl) i 0 0
  · intro c e k he ha h _
    exact (call_level (hsm _ he.1.1).2 he ha (h e.node he.1.1)).1
  · intro c e he ha h hi
    exact boot_level (hsm _ hi).1 (h hi) (he.2.2.2.2.2 (by rw [ha]; rfl)) _ _ _

/-- **Commit and apply indexes with snapshots**: in every state between calls of such a run, all that
is committed is applied and lies within the log or its snapshot, and no call lowers the indexes. -/
theorem indexes_level (hsm : ∀ j ∈ S.servers, (S.params j).stateMachine ≠ none ∧
      (S.params j).NeverRaises) (hr : Reach S.step S.KeepsLevel S.init c) (hi : i ∈ S.servers) :
    (c.node i).appliedIndex = (c.node i).commitIndex ∧
    (c.node i).commitIndex ≤ max (c.node i).log.lastIndex (c.node i).log.snapshotLastIndex ∧
    ∀ e k, S.KeepsLevel c e → e.action = .call k →
      (c.node i).commitIndex ≤ ((S.step c e).node i).commitIndex ∧
      (c.node i).appliedIndex ≤ ((S.step c e).node i).appliedIndex := by
  have h := level_reach hsm hr hi
  refine ⟨h.equal, h.bound, fun e k he ha => ?_⟩
  by_cases hie : i = e.node
  · subst hie
    obtain ⟨hl, hc⟩ := call_level (hsm _ hi).2 he ha h
    rw [step_call_eq ha, Setup.after, Cluster.at_node_self]
    refine ⟨hc, ?_⟩
    rw [h.equal]
    exact hc.trans_eq hl.equal.symm
  · rw [step_node_of_ne hie]
    exact ⟨le_rfl, le_rfl⟩

end Runs

theorem indexes_level_compacted :
    (((lab 2 false 256).replay snapshotRun).node 1).log.snapshotLastIndex = 1 ∧
      (((lab 2 false 256).replay snapshotRun).node 1).appliedIndex =
        (((lab 2 false 256).replay snapshotRun).node 1).commitIndex :=
  ⟨by decide +kernel, (indexes_level (fun _ _ => ⟨by simp [lab], fun _ h => by cases h; simp⟩)
    (reach_replay snapshotRun (by decide +kernel)) (by decide)).1⟩

/-- Server 1 has the first entry, not yet committed there.  Server 0 commits it and takes a snapshot;
its next append is refused, and it sends the snapshot. -/
def installHeld : List (Event ℕ Unit) :=
  [callAt 1000 0 .tick, callAt 1001 1 (.handle (.vote 1 0 0 0)),
   callAt 1002 0 (.handle (.voteResp 1 1 true)),
   callAt 1003 1 (.handle (.append 1 0 0 0 [⟨1, 1, noop⟩] 0)),
   callAt 1004 0 (.handle (.appendResp 1 1 true 1 (some 0))), callAt 1005 0 (.propose [97]),
   callAt 1006 0 .takeSnapshot, callAt 1100 0 .tick,
   callAt 1101 1 (.handle (.append 1 0 1 (-1) [⟨2, 1, [97]⟩] 1)),
   callAt 1102 0 (.handle (.appendResp 1 1 false 0 (some 1))),
   callAt 1103 1 (.handle (.installSnapshot 1 0 ⟨1, 1, ()⟩))]

/-- Server 1 already has the entry: it commits it and does not apply it. -/
theorem install_commits_unapplied :
    ∃ c, Reach (lab 2 false 256).step (fun c e => (lab 2 false 256).Enabled c e ∧
        e.action.whole = true ∧ e.KeepsMembership (lab 2 false 256)) (lab 2 false 256).init c ∧
      (c.node 1).commitIndex = 1 ∧ (c.node 1).appliedIndex = 0 :=
  ⟨(lab 2 false 256).replay installHeld, reach_replay _ (by decide +kernel), by decide +kernel,
    by decide +kernel⟩

end Pylog.Raft
