import Pylog.Raft.Apply

/-!
# Pylog.Raft.Aligned — the log representation with snapshots

`get`, `term_at` and `merge` compute positions from `first_index`, while entries carry their own
index.  Compaction and installed snapshots keep the two in line.  A merge of a window that starts
below `first_index`, and an entry appended to an empty compacted log, do not.
-/

namespace Pylog.Raft

open Effect Effect.Handler Transition

namespace RaftLog

variable {l l' : RaftLog} {prevIndex : ℕ} {prevTerm : ℤ} {entries : List Entry}

/-- `entries[p].index == first_index + p`, and `first_index == snapshot_last_index + 1`. -/
def Aligned (l : RaftLog) : Prop :=
  l.firstIndex = l.snapshotLastIndex + 1 ∧
    ∀ p e, l.entries[p]? = some e → e.index = l.firstIndex + p

/-- The log was not compacted to nothing. -/
def Open (l : RaftLog) : Prop := l.entries = [] → l.firstIndex = 1

instance (l : RaftLog) : Decidable l.Open := inferInstanceAs (Decidable (_ → _))

/-- The log accepts a window that starts below it. -/
def Undercut (l : RaftLog) (prevIndex : ℕ) (prevTerm : ℤ) (entries : List Entry) : Prop :=
  entries ≠ [] ∧ prevIndex + 1 < l.firstIndex ∧ prevIndex ≤ l.lastIndex ∧
    l.termAt prevIndex = prevTerm

instance (l : RaftLog) (prevIndex : ℕ) (prevTerm : ℤ) (entries : List Entry) :
    Decidable (l.Undercut prevIndex prevTerm entries) :=
  inferInstanceAs (Decidable (_ ∧ _ ∧ _ ∧ _))

instance (l : RaftLog) : Decidable l.Aligned :=
  decidable_of_iff (l.firstIndex = l.snapshotLastIndex + 1 ∧
    l.entries.map Entry.index = List.range' l.firstIndex l.entries.length)
    (and_congr_right fun _ => indexes_iff)

theorem aligned_empty : Aligned {} := ⟨rfl, fun p e h => by simp at h⟩

theorem contiguous_iff : l.Contiguous ↔ l.Aligned ∧ l.Open := by
  unfold Contiguous Aligned Open
  rw [indexes_iff]
  tauto

theorem Aligned.appendEntry (h : l.Aligned) (ho : l.Open) (term : ℕ) (payload : Bytes) :
    (l.appendEntry term payload).Aligned :=
  (contiguous_iff.mp ((contiguous_iff.mpr ⟨h, ho⟩).appendEntry term payload).1).1

/-- Without the entries up to `m`. -/
theorem Aligned.cutThrough (h : l.Aligned) {m : ℕ} (hm : l.firstIndex ≤ m + 1) (t : ℤ) :
    Aligned ⟨l.entries.filter (fun e => m < e.index), m + 1, m, t⟩ := by
  refine ⟨rfl, fun p e he => ?_⟩
  rw [filter_index h.2 hm, List.getElem?_drop] at he
  rw [h.2 _ e he]
  dsimp only
  omega

theorem Aligned.compact (h : l.Aligned) {m : ℕ} {t : ℤ} (hc : l.compact m t = some l') :
    l'.Aligned := by
  obtain ⟨hm, rfl⟩ := compact_eq hc
  exact h.cutThrough hm t

/-- A merge keeps the log in line unless it undercuts it. -/
theorem Aligned.merge (h : l.Aligned) (hu : ¬l.Undercut prevIndex prevTerm entries) :
    (l.merge prevIndex prevTerm entries).log.Aligned := by
  cases hok : (l.merge prevIndex prevTerm entries).ok with
  | false =>
    rw [merge_fails hok]
    exact h
  | true =>
    obtain ⟨hprev, hterm, -⟩ := merge_ok hok
    by_cases hne : entries = []
    · subst hne
      unfold RaftLog.merge
      rw [if_neg (Nat.not_lt.mpr hprev), if_neg (not_not.mpr hterm)]
      exact h
    · have hfirst : l.firstIndex ≤ prevIndex + 1 := by
        by_contra hlt
        exact hu ⟨hne, Nat.not_le.mp hlt, hprev, hterm⟩
      -- a window at the log's start is accepted by an empty log only if that is not compacted
      have hopen : l.Open := by
        intro he
        have hlast : l.lastIndex = 0 := by
          unfold lastIndex
          rw [he]
          rfl
        have := h.1
        omega
      exact (contiguous_iff.mp (merge_contiguous (contiguous_iff.mpr ⟨h, hopen⟩) hfirst hok).1).1

end RaftLog

variable {ι σ δ : Type} [LinearOrder ι]

/-! ### The condition on a call -/

namespace Self

variable (self : Self ι σ δ) (n : Node ι σ δ)

/-- The call appends an entry as a leader: a client's, or the no-op of a new leader. -/
def appends : Call ι δ → Bool
  | .propose _ => decide (n.role = .leader ∧ n.transferTarget = none)
  | k => self.wins n k && n.machine.isSome

/-- The call does not merge a window from below the log, and appends to no empty compacted log. -/
def keepsAligned : Call ι δ → Bool
  | .handle (.append term _ prevIndex prevTerm entries _) =>
    decide (n.currentTerm ≤ term → ¬n.log.Undercut prevIndex prevTerm entries)
  | k => decide (self.appends n k = true → n.log.Open)

end Self

/-- The condition on an event, at the cluster before it. -/
def Setup.KeepsAligned (S : Setup ι σ δ) (c : Cluster ι σ δ) (e : Event ι δ) : Prop :=
  ∀ k ∈ e.action.made, (S.self e).keepsAligned (c.node e.node) k = true

instance (S : Setup ι σ δ) (c : Cluster ι σ δ) (e : Event ι δ) : Decidable (S.KeepsAligned c e) :=
  inferInstanceAs (Decidable (∀ k ∈ e.action.made, _ = true))

section Steps

variable {self : Self ι σ δ} {n n₀ n' : Node ι σ δ} {k : Call ι δ}

theorem applyStep_aligned (hs : ApplyStep self n n') (h : n.log.Aligned) : n'.log.Aligned := by
  cases hs with
  | compacted s l _ hc _ => exact h.compact hc
  | _ => exact h

theorem applyCommitted_aligned (h : n.log.Aligned) : (self.applyCommitted n).state.log.Aligned :=
  applyCommitted_steps.keeps (fun n => n.log.Aligned) (fun _ _ hs => applyStep_aligned hs) h

theorem advanceCommit_aligned (h : n.log.Aligned) : (self.advanceCommit n).state.log.Aligned := by
  rw [advanceCommit_state]
  cases n.findCommit self.id with
  | none => exact h
  | some candidate => exact applyCommitted_aligned h

theorem record_aligned (h : n.log.Aligned) (ho : n.log.Open) (payload : Bytes) :
    (self.record payload n).state.log.Aligned := by
  rw [record_state]
  exact advanceCommit_aligned (h.appendEntry ho _ _)

theorem onAck_aligned (h : n.log.Aligned) (sender : ι) (matchIndex : ℕ) :
    (self.onAck sender matchIndex n).state.log.Aligned := by
  rw [onAck_state]
  cases n.matchIndex sender with
  | none => exact h
  | some mi => exact advanceCommit_aligned h

/-- The guard of a call that appends, for the turns that do. -/
theorem open_of_keepsAligned (hk : self.keepsAligned n k = true) (ha : self.appends n k = true) :
    n.log.Open := by
  unfold Self.keepsAligned at hk
  split at hk
  · simp [Self.appends, Self.wins, Self.elects] at ha
  · exact of_decide_eq_true hk ha

theorem appends_of_wins (hw : self.wins n k = true) (hm : n.machine.isSome = true) :
    self.appends n k = true := by
  unfold Self.appends
  split
  · cases hw
  · rw [hw, hm]
    rfl

/-- **A turn keeps the log in line**, under the condition on its call. -/
theorem turn_aligned {x : Act ι σ δ Unit} (ht : Turn self n₀ k x n) (h : n₀.log.Aligned)
    (hk : self.keepsAligned n₀ k = true) (hm : ∀ new, ¬Change self.id n₀ k new) :
    (x n).state.log.Aligned := by
  cases ht with
  | still _ _ hn =>
    have hlog : n.log = n₀.log := (congrArg Node.log hn :)
    show n.log.Aligned
    rwa [hlog]
  | propose payload hr ht =>
    exact record_aligned h (open_of_keepsAligned hk (decide_eq_true ⟨hr, ht⟩)) payload
  | elected _ _ hn hw =>
    have hlog : n.log = n₀.log := (congrArg Node.log hn :)
    have hmach : n.machine = n₀.machine := (congrArg Node.machine hn :)
    rw [office_state]
    split_ifs with hsome
    · refine record_aligned ?_ ?_ noop
      · show n.log.Aligned
        rwa [hlog]
      · show n.log.Open
        rw [hlog]
        rw [hmach] at hsome
        exact open_of_keepsAligned hk (appends_of_wins hw hsome)
    · show n.log.Aligned
      rwa [hlog]
  | answered sender success matchIndex conflict hr =>
    have hheard : (self.heard n sender).log.Aligned := h
    rw [answered_state]
    split_ifs
    · exact onAck_aligned hheard sender matchIndex
    · obtain ⟨next, hstate, -⟩ := onNack_state self (self.heard n sender) sender conflict
      rw [hstate]
      exact h
  | receive _ term leader prevIndex prevTerm entries commit hn hterm =>
    have hlog : n.log = n₀.log := (congrArg Node.log hn :)
    have hmerge : (n.log.merge prevIndex prevTerm entries).log.Aligned := by
      rw [hlog]
      exact h.merge (of_decide_eq_true hk hterm)
    rw [receive_state self n rfl]
    split_ifs
    · exact applyCommitted_aligned hmerge
    · exact hmerge
  | cover _ term leader s hn _ =>
    have hlog : n.log = n₀.log := (congrArg Node.log hn :)
    rw [← hlog] at h
    rw [cover_state]
    split_ifs with hh
    · exact h
    · have hm : n.log.snapshotLastIndex < s.lastIncludedIndex := by
        simp only [alreadyHave, decide_eq_true_eq, not_or, Nat.not_le] at hh
        exact hh.2
      have hfirst := h.1
      show (self.install s n).state.log.Aligned
      rw [install_state]
      exact h.cutThrough (by omega) _
  | snapshot =>
    rw [snapshot_state]
    exact takeSnapshot_steps.keeps (fun n => n.log.Aligned) (fun _ _ hs => applyStep_aligned hs) h
  | change _ newServers _ hc => exact absurd hc (hm newServers)

end Steps

/-! ### Runs -/

variable {S : Setup ι σ δ} {c : Cluster ι σ δ} {e : Event ι δ}

theorem boot_aligned {P : Params ι σ δ} {d : Durable ι δ} (h : d.log.Aligned) (i : ι) (now draw : ℚ) :
    (P.boot i now draw d).log.Aligned := by
  unfold Params.boot Params.loadSnapshotFile
  dsimp only
  split_ifs
  · split
    · rename_i sm s _ _
      dsimp only
      cases hc : d.log.compact s.lastIncludedIndex s.lastIncludedTerm with
      | none => exact h
      | some l => exact h.compact hc
    · exact h
  · exact h

/-- A call that keeps the membership is no change of it. -/
theorem not_change {k : Call ι δ} (hm : k.keepsMembership S = true) (id : ι) (n : Node ι σ δ)
    (new : Finset ι) : ¬Change id n k new := by
  rintro ⟨-, ⟨x, rfl, -⟩ | ⟨x, rfl, -⟩⟩ <;> cases hm

/-- **The log representation with snapshots**: in every run of calls and restarts whose steps neither
merge a window from below a log nor append to an empty compacted one, every entry of every log
stands at its index. -/
theorem logs_aligned (hr : Reach S.step (fun c e => S.Enabled c e ∧ e.action.whole = true ∧
      e.KeepsMembership S ∧ S.KeepsAligned c e) S.init c) (i : ι) : (c.node i).log.Aligned := by
  refine nodes_inv (fun _ n => n.log.Aligned) (fun c e he => he.2.1) ?_ ?_ ?_ hr i
  · exact fun i => boot_aligned RaftLog.aligned_empty i 0 0
  · rintro c e k ⟨-, -, hm, hk⟩ ha h
    have hmade := made_of_call ha
    obtain ⟨x, n₁, ht, hends⟩ := call_turn (S.self e) (c.node e.node) k
    have hlog : ((S.self e).call k (c.node e.node)).state.log = (x n₁).state.log :=
      (congrArg Node.log hends.view :)
    rw [hlog]
    exact turn_aligned ht (h e.node) (hk k hmade) fun new => not_change (hm k hmade) _ _ new
  · exact fun c e _ _ h => boot_aligned h _ _ _

/-- Server 0 leads; server 1 has its two entries, the first committed and in a snapshot. -/
def snapshotRun : List (Event ℕ Unit) :=
  [callAt 1000 0 .tick, callAt 1001 1 (.handle (.vote 1 0 0 0)),
   callAt 1002 0 (.handle (.voteResp 1 1 true)),
   callAt 1003 1 (.handle (.append 1 0 0 0 [⟨1, 1, noop⟩] 0)),
   callAt 1004 0 (.handle (.appendResp 1 1 true 1 (some 0))), callAt 1005 0 (.propose [97]),
   callAt 1006 1 (.handle (.append 1 0 1 1 [⟨2, 1, [97]⟩] 1)), callAt 1007 1 .takeSnapshot]

theorem logs_aligned_compacted :
    (((lab 2 false 256).replay snapshotRun).node 1).log.firstIndex = 2 ∧
      (((lab 2 false 256).replay snapshotRun).node 1).log.Aligned :=
  ⟨by decide +kernel, logs_aligned (reach_replay snapshotRun (by decide +kernel)) 1⟩

/-- The first append once more, after the snapshot: its entry is put behind the log. -/
theorem duplicate_append_misplaced :
    ∃ c, Reach (lab 2 false 256).step (fun c e => (lab 2 false 256).Enabled c e ∧
        e.action.whole = true ∧ e.KeepsMembership (lab 2 false 256)) (lab 2 false 256).init c ∧
      (c.node 1).log.firstIndex = 2 ∧ (c.node 1).log.entries = [⟨2, 1, [97]⟩, ⟨1, 1, noop⟩] ∧
      ¬(c.node 1).log.Aligned :=
  ⟨(lab 2 false 256).replay (snapshotRun ++ [callAt 1008 1 (.handle (.append 1 0 0 0 [⟨1, 1, noop⟩] 0))]),
    reach_replay _ (by decide +kernel), by decide +kernel, by decide +kernel, by decide +kernel⟩

end Pylog.Raft
