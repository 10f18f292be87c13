import Pylog.Raft.Apply
import Pylog.Raft.DurableFacts

/-!
# Pylog.Raft.Restart — a node over a `DurableRaftLog`, its snapshots and its restarts

The cache of the log is the node's `log`; its disk stands beside the node.  `take_snapshot` compacts
the cache only, so record `i - 1` stays entry `i`.  A restart opens the directory, loads the newest
snapshot file and calls `truncate_disk_through`, which cuts the disk *above* the snapshot.
-/

namespace Pylog.Raft

open Effect Effect.Handler Pylog.Log

variable {ι σ δ : Type} [LinearOrder ι]

/-- A `RaftNode` with the disk of its log. -/
structure DurableNode (ι σ δ : Type) where
  node : Node ι σ δ
  disk : CommitLog

namespace DurableNode

/-- A method of the log of the node. -/
def onLog {α : Type} (x : DurableM α) (n : DurableNode ι σ δ) : DurableNode ι σ δ :=
  let r := x ⟨n.node.log, n.disk⟩
  ⟨{ n.node with log := r.state.toRaftLog }, r.state.disk⟩

/-- A method of the node that leaves the disk of the log alone. -/
def onNode {α : Type} (x : Act ι σ δ α) (n : DurableNode ι σ δ) : DurableNode ι σ δ :=
  ⟨(x n.node).state, n.disk⟩

/-- The index of the snapshot a restart loads, `0` without one. -/
def snapshotIndex (n : DurableNode ι σ δ) : ℕ :=
  match latestFile n.node.snapshotFiles with
  | some s => s.lastIncludedIndex
  | none => 0

end DurableNode

/-- The end of `_load_snapshot_file`: `truncate_disk_through` of the loaded index. -/
def Params.resync (P : Params ι σ δ) (n : DurableNode ι σ δ) : DurableNode ι σ δ :=
  match P.stateMachine, latestFile n.node.snapshotFiles with
  | some _, some s => n.onLog (DurableRaftLog.truncateDiskThrough s.lastIncludedIndex)
  | _, _ => n

/-- A new `RaftNode` on a log and the files the old one left. -/
def Params.bootOn (P : Params ι σ δ) (id : ι) (now draw : ℚ) (d : Durable ι δ) (dl : DurableRaftLog) :
    DurableNode ι σ δ :=
  let n : DurableNode ι σ δ := ⟨P.boot id now draw { d with log := dl.toRaftLog }, dl.disk⟩
  if P.snapshotDir then P.resync n else n

/-- A step of the history of a node. -/
inductive NodeOp
  | appendEntry (term : ℕ) (payload : Bytes) (now : ℤ)
  | merge (prevIndex : ℕ) (prevTerm : ℤ) (incoming : List Entry) (now : ℤ)
  /-- `commit_index` is set, and `_apply_committed` runs. -/
  | commit (index : ℕ) (now draw : ℚ)
  | takeSnapshot (now draw : ℚ)
  /-- A new `DurableRaftLog` on the same directory, handed to a new `RaftNode`. -/
  | restart (maxSegmentBytes : ℕ) (now draw : ℚ)

namespace NodeOp

variable (P : Params ι σ δ) (id : ι)

/-- `_apply_committed` after an assignment of `commit_index`. -/
def commitTo (self : Self ι σ δ) (index : ℕ) : Act ι σ δ Unit := do
  update fun n => { n with commitIndex := index }
  self.applyCommitted

/-- The node after the call; an exception leaves it as it was when it was raised. -/
def next (n : DurableNode ι σ δ) : NodeOp → DurableNode ι σ δ
  | appendEntry term payload now => n.onLog (DurableRaftLog.appendEntry term payload now)
  | merge prevIndex prevTerm incoming now =>
    n.onLog (DurableRaftLog.merge prevIndex prevTerm incoming now)
  | commit index now draw => n.onNode (commitTo { P with id, now, draw } index)
  | takeSnapshot now draw => n.onNode (Self.takeSnapshot { P with id, now, draw })
  | restart maxSegmentBytes now draw =>
    P.bootOn id now draw n.node.durable (DurableRaftLog.openAt maxSegmentBytes n.disk.folder).state

/-- Entries that fit in a record, a clock of 64 bits and offsets below `2^64`. -/
def Admissible (n : DurableNode ι σ δ) : NodeOp → Prop
  | appendEntry term payload now =>
    term < 2 ^ 64 ∧ payload.length + 8 ≤ maxRecordBytes ∧ FitsI64 now ∧ n.disk.nextOffset < 2 ^ 64
  | merge _ _ incoming now =>
    (∀ e ∈ incoming, e.Storable) ∧ FitsI64 now ∧ n.disk.nextOffset + incoming.length ≤ 2 ^ 64
  | _ => True

end NodeOp

namespace DurableNode

/-- The log holds the entry, in the cache or on disk. -/
def Held (n : DurableNode ι σ δ) (e : Entry) : Prop := e ∈ n.node.log.entries ∨ OnRecord n.disk e

/-- What a restart has to keep: every entry above the snapshot, in the cache and on disk, and
record `i - 1` for entry `i`. -/
structure Survives (n n' : DurableNode ι σ δ) : Prop where
  cache : ∀ e, n.Held e → n.snapshotIndex < e.index → n'.node.log.get e.index = some e
  disk : ∀ e, n.Held e → n.snapshotIndex < e.index → OnRecord n'.disk e
  records : ∀ i e, n'.node.log.get i = some e → e.index = i ∧ OnRecord n'.disk e

/-- There is no snapshot file, or no record above the newest snapshot. -/
def NothingAbove (n : DurableNode ι σ δ) : Prop :=
  n.node.snapshotFiles = [] ∨ n.disk.nextOffset ≤ n.snapshotIndex

instance (n : DurableNode ι σ δ) : Decidable n.NothingAbove :=
  decidable_of_iff (n.node.snapshotFiles.isEmpty = true ∨ n.disk.nextOffset ≤ n.snapshotIndex)
    (by rw [List.isEmpty_iff]; rfl)

/-- What the history keeps: the disk has entries under their indexes, the cache none above them,
and the two are equal as long as there is no snapshot. -/
structure Coherent (n : DurableNode ι σ δ) (es : List Entry) : Prop where
  stored : Stored n.disk es
  below : ∀ e ∈ n.node.log.entries, e.index ≤ es.length
  equal : n.node.snapshotFiles = [] → n.node.log.Plain ∧ n.node.log.entries = es

/-! ### Snapshots -/

/-- The log and the files are as before, or there is a snapshot file and the log lost entries. -/
def Trims (n n' : Node ι σ δ) : Prop :=
  (n'.log = n.log ∧ n'.snapshotFiles = n.snapshotFiles) ∨
    (n'.snapshotFiles ≠ [] ∧ n'.log.entries ⊆ n.log.entries)

omit [LinearOrder ι] in
theorem Trims.trans {a b c : Node ι σ δ} (h1 : Trims a b) (h2 : Trims b c) : Trims a c := by
  rcases h2 with ⟨hl, hf⟩ | ⟨hf, hl⟩
  · rcases h1 with ⟨hl', hf'⟩ | ⟨hf', hl'⟩
    · exact .inl ⟨hl.trans hl', hf.trans hf'⟩
    · exact .inr ⟨by rwa [hf], by rwa [hl]⟩
  · refine .inr ⟨hf, fun e he => ?_⟩
    rcases h1 with ⟨hl', -⟩ | ⟨-, hl'⟩
    · rw [← hl']
      exact hl he
    · exact hl' (hl he)

/-- With a `snapshot_dir`, every step of `_apply_committed` and `take_snapshot` is one. -/
theorem applyStep_trims {self : Self ι σ δ} (hd : self.snapshotDir = true) {n n' : Node ι σ δ}
    (hs : ApplyStep self n n') : Trims n n' := by
  cases hs with
  | file s _ _ => exact .inr ⟨by simp, fun _ he => he⟩
  | compacted s l _ hc hf =>
    obtain ⟨f, hmem, -⟩ := hf hd
    exact .inr ⟨List.ne_nil_of_mem hmem, fun e he => RaftLog.mem_compact hc he⟩
  | _ => exact .inl ⟨rfl, rfl⟩

section

variable {self : Self ι σ δ} {n : Node ι σ δ}

theorem takeSnapshot_trims (hd : self.snapshotDir = true) : Trims n (self.takeSnapshot n).state :=
  takeSnapshot_steps.keeps (Trims n) (fun _ _ hs ht => ht.trans (applyStep_trims hd hs))
    (.inl ⟨rfl, rfl⟩)

theorem commitTo_trims (hd : self.snapshotDir = true) (index : ℕ) :
    Trims n (NodeOp.commitTo self index n).state :=
  applyCommitted_steps.keeps (Trims n) (fun _ _ hs ht => ht.trans (applyStep_trims hd hs))
    (.inl ⟨rfl, rfl⟩)

end

/-! ### What the history keeps -/

end DurableNode

theorem RaftLog.lastIndex_le {l : RaftLog} {m : ℕ} (h : ∀ e ∈ l.entries, e.index ≤ m) :
    l.lastIndex ≤ m := by
  unfold RaftLog.lastIndex
  cases hl : l.entries.getLast? with
  | none => exact Nat.zero_le m
  | some e => exact h e (List.mem_of_getLast? hl)

theorem RaftLog.reindex_toAdd (last : ℕ) : ∀ (n : ℕ) (incoming : List Entry),
    RaftLog.reindex last n (DurableRaftLog.toAdd last n incoming) =
      DurableRaftLog.toAdd last n incoming
  | _, [] => rfl
  | n, inc :: rest => by
    unfold DurableRaftLog.toAdd
    split_ifs
    · rw [RaftLog.reindex, RaftLog.reindex_toAdd last (n + 1) rest]
    · exact RaftLog.reindex_toAdd last n rest

theorem DurableRaftLog.length_toAdd (last : ℕ) : ∀ (n : ℕ) (incoming : List Entry),
    (DurableRaftLog.toAdd last n incoming).length ≤ incoming.length
  | _, [] => le_rfl
  | n, inc :: rest => by
    unfold DurableRaftLog.toAdd
    split_ifs
    · simpa using DurableRaftLog.length_toAdd last (n + 1) rest
    · exact (DurableRaftLog.length_toAdd last n rest).trans (by simp)

namespace DurableNode

variable {n : DurableNode ι σ δ} {es : List Entry}

/-- The cache after a cut and an addition has nothing above the disk. -/
theorem below_append {l : RaftLog} {es added : List Entry} (h : ∀ e ∈ l.entries, e.index ≤ es.length)
    (hadd : RaftLog.reindex l.lastIndex 0 added = added) :
    ∀ e ∈ l.entries ++ added, e.index ≤ (es ++ RaftLog.reindex es.length 0 added).length := by
  have hlast := RaftLog.lastIndex_le h
  intro e he
  rw [List.length_append, RaftLog.length_reindex]
  rcases List.mem_append.mp he with he | he
  · exact (h e he).trans (Nat.le_add_right _ _)
  · obtain ⟨k, hk⟩ := List.mem_iff_getElem?.mp he
    have hlt := (List.getElem?_eq_some_iff.mp hk).1
    rw [← hadd] at hk
    have := RaftLog.getElem_reindex _ _ _ _ hk
    omega

omit [LinearOrder ι] in
theorem Coherent.appendEntry (h : n.Coherent es) {term : ℕ} {payload : Bytes} {now : ℤ}
    (hop : (NodeOp.appendEntry term payload now).Admissible n) :
    (n.onLog (DurableRaftLog.appendEntry term payload now)).Coherent
      (es ++ [⟨es.length + 1, term, payload⟩]) := by
  obtain ⟨h1, h2, h3, h4⟩ := hop
  rw [h.stored.length] at h4
  have hs : Stored (DurableRaftLog.mk n.node.log n.disk).disk es := h.stored
  obtain ⟨disk', out, hrun, hs'⟩ := DurableRaftLog.appendEntry_run hs ⟨h1, h2⟩ h3 h4
  unfold onLog
  rw [hrun]
  refine ⟨hs', below_append h.below rfl, fun hf => ?_⟩
  obtain ⟨hp, rfl⟩ := h.equal hf
  refine ⟨hp.appendEntry term payload, ?_⟩
  show _ ++ [Entry.mk (n.node.log.lastIndex + 1) term payload] = _
  rw [hp.lastIndex]

omit [LinearOrder ι] in
/-- The entries of the cache below a cut are no more than those on disk. -/
theorem Coherent.below_cached (h : n.Coherent es) (cut : Option ℕ) :
    ∀ e ∈ (DurableRaftLog.cached n.node.log cut).entries,
      e.index ≤ (DurableRaftLog.kept es cut).length := by
  intro e he
  cases cut with
  | none => exact h.below e he
  | some c =>
    obtain ⟨hmem, hlt⟩ := List.mem_filter.mp he
    have hle := h.below e hmem
    have hc := of_decide_eq_true hlt
    show _ ≤ (es.take (c - 1)).length
    rw [List.length_take]
    omega

omit [LinearOrder ι] in
theorem Coherent.merge (h : n.Coherent es) {prevIndex : ℕ} {prevTerm : ℤ} {incoming : List Entry}
    {now : ℤ} (hop : (NodeOp.merge prevIndex prevTerm incoming now).Admissible n) :
    ∃ es', (n.onLog (DurableRaftLog.merge prevIndex prevTerm incoming now)).Coherent es' := by
  obtain ⟨hf, hnow, hroom⟩ := hop
  rw [h.stored.length] at hroom
  have hs : Stored (DurableRaftLog.mk n.node.log n.disk).disk es := h.stored
  by_cases hprev : n.node.log.lastIndex < prevIndex
  · refine ⟨es, ?_⟩
    unfold onLog DurableRaftLog.merge
    rw [read_bind, if_pos hprev]
    exact h
  · by_cases hterm : n.node.log.termAt prevIndex = prevTerm
    · generalize hcut : DurableRaftLog.findCut n.node.log prevIndex 0 incoming = cut
      generalize hadd : DurableRaftLog.toAdd (DurableRaftLog.cached n.node.log cut).lastIndex 0
        incoming = added
      have hlen : added.length ≤ incoming.length := by
        rw [← hadd]
        exact DurableRaftLog.length_toAdd _ _ _
      have hkept : (DurableRaftLog.kept es cut).length ≤ es.length := by
        cases cut with
        | none => exact le_rfl
        | some c => exact List.length_take_le' _ _
      obtain ⟨disk', out, hrun, hs'⟩ := DurableRaftLog.merge_run hs (Nat.not_lt.mp hprev) hterm hf
        hnow hcut hadd fun _ => by omega
      have hfix : RaftLog.reindex (DurableRaftLog.cached n.node.log cut).lastIndex 0 added = added := by
        rw [← hadd]
        exact RaftLog.reindex_toAdd _ _ _
      refine ⟨DurableRaftLog.kept es cut ++
        RaftLog.reindex (DurableRaftLog.kept es cut).length 0 added, ?_⟩
      unfold onLog
      rw [hrun]
      refine ⟨hs', below_append (h.below_cached cut) hfix, fun hfiles => ?_⟩
      obtain ⟨hp, rfl⟩ := h.equal hfiles
      obtain ⟨hsame, hplain⟩ := hp.cached_kept cut
      have heq : (DurableRaftLog.cached n.node.log cut).entries ++ added =
          DurableRaftLog.kept n.node.log.entries cut ++
            RaftLog.reindex (DurableRaftLog.kept n.node.log.entries cut).length 0 added := by
        rw [← hsame, ← hplain.lastIndex, hfix]
      refine ⟨⟨hplain.first, hplain.snap, ?_⟩, heq⟩
      rw [← heq] at hs'
      exact hs'.2.1
    · refine ⟨es, ?_⟩
      unfold onLog DurableRaftLog.merge
      rw [read_bind, if_neg hprev, if_pos hterm]
      exact h

omit [LinearOrder ι] in
theorem Coherent.trims (h : n.Coherent es) {node : Node ι σ δ} (ht : Trims n.node node) :
    Coherent ⟨node, n.disk⟩ es := by
  rcases ht with ⟨hl, hf⟩ | ⟨hf, hl⟩
  · refine ⟨h.stored, ?_, ?_⟩
    · show ∀ e ∈ node.log.entries, _
      rw [hl]
      exact h.below
    · show node.snapshotFiles = [] → _
      rw [hl, hf]
      exact h.equal
  · exact ⟨h.stored, fun e he => h.below e (hl he), fun hnil => absurd hnil hf⟩

/-! ### Restarts -/

section

variable {P : Params ι σ δ} {sm : StateMachine σ δ}

/-- Without a snapshot file a new node takes the log as it is. -/
theorem bootOn_fresh (hs : P.stateMachine = some sm) (hd : P.snapshotDir = true) {d : Durable ι δ}
    (hf : d.snapshotFiles = []) (id : ι) (dl : DurableRaftLog) (now draw : ℚ) :
    (P.bootOn id now draw d dl).node.log = dl.toRaftLog ∧
    (P.bootOn id now draw d dl).node.snapshotFiles = [] ∧
    (P.bootOn id now draw d dl).disk = dl.disk := by
  simp [Params.bootOn, Params.resync, Params.boot, Params.loadSnapshotFile, hd, hs, hf, latestFile]

/-- With a snapshot file it compacts the cache, and cuts the disk at the same index. -/
theorem bootOn_loads (hs : P.stateMachine = some sm) (hd : P.snapshotDir = true) {d : Durable ι δ}
    {s : Snapshot δ} (hf : latestFile d.snapshotFiles = some s) (id : ι) (dl : DurableRaftLog)
    (now draw : ℚ) {disk' : CommitLog} {out : List FileOp} {changed : Bool}
    (hcut : CommitLog.truncateFrom s.lastIncludedIndex dl.disk = ⟨disk', out, .ok changed⟩) :
    (P.bootOn id now draw d dl).node.log =
      (dl.toRaftLog.compact s.lastIncludedIndex s.lastIncludedTerm).getD dl.toRaftLog ∧
    (P.bootOn id now draw d dl).node.snapshotFiles = d.snapshotFiles ∧
    (P.bootOn id now draw d dl).disk = disk' := by
  have hrun : ∀ l, DurableRaftLog.truncateDiskThrough s.lastIncludedIndex ⟨l, dl.disk⟩ =
      ⟨⟨l, disk'⟩, out ++ [], .ok ()⟩ := fun l =>
    bind_run (DurableRaftLog.onDisk_run hcut) (pure_eq _ _)
  simp [Params.bootOn, Params.resync, Params.boot, Params.loadSnapshotFile, onLog, hd, hs, hf, hrun]

end

omit [LinearOrder ι] in
/-- Nothing that the log holds is above the disk. -/
theorem Coherent.index_le (h : n.Coherent es) {e : Entry} (he : n.Held e) (hpos : 0 < e.index) :
    e.index ≤ es.length := by
  rcases he with he | he
  · exact h.below e he
  · obtain ⟨k, hk⟩ := List.mem_iff_getElem?.mp (h.stored.mem_of_onRecord hpos he)
    rw [h.stored.2.1 k e hk]
    exact (List.getElem?_eq_some_iff.mp hk).1

/-- A log that is the disk, entry for entry. -/
theorem get_of_mem {l : RaftLog} (hp : l.Plain) {e : Entry} (he : e ∈ l.entries) :
    l.get e.index = some e := by
  obtain ⟨k, hk⟩ := List.mem_iff_getElem?.mp he
  rw [hp.indexed k e hk, hp.get]
  exact hk

/-- A compaction at or above the end of the log empties it or is refused. -/
theorem compact_end {es : List Entry} (hi : RaftLog.Indexed es) {m : ℕ} (hm : es.length ≤ m) (t : ℤ) :
    (es = [] ∧ ((RaftLog.mk es 1 0 0).compact m t).getD ⟨es, 1, 0, 0⟩ = ⟨[], m + 1, m, t⟩) ∨
      ((RaftLog.mk es 1 0 0).compact m t).getD ⟨es, 1, 0, 0⟩ = ⟨es, 1, 0, 0⟩ := by
  have hp : (RaftLog.mk es 1 0 0).Plain := ⟨rfl, rfl, hi⟩
  have hlast := hp.lastIndex
  unfold RaftLog.compact
  rw [if_neg (by simp)]
  by_cases hes : es = []
  · subst hes
    exact .inl ⟨rfl, rfl⟩
  · rw [if_pos ⟨hlast.trans_le hm, hes⟩]
    exact .inr rfl

section

variable {P : Params ι σ δ} {id : ι} {sm : StateMachine σ δ} {disk' : CommitLog} {now draw : ℚ}
  {n' : DurableNode ι σ δ}

/-- The outcome of a restart: the property, exactly when nothing is above the snapshot, and then a
coherent node. -/
def Restarts (n n' : DurableNode ι σ δ) (es : List Entry) : Prop :=
  (n.Survives n' ↔ n.NothingAbove) ∧ (n.NothingAbove → n'.Coherent es)

theorem index_le_length {es : List Entry} (hi : RaftLog.Indexed es) {e : Entry} (he : e ∈ es) :
    e.index ≤ es.length := by
  obtain ⟨k, hk⟩ := List.mem_iff_getElem?.mp he
  rw [hi k e hk]
  exact (List.getElem?_eq_some_iff.mp hk).1

/-- Without a snapshot file the node comes back with all entries. -/
theorem Coherent.restart_fresh (h : n.Coherent es) (hs : P.stateMachine = some sm)
    (hd : P.snapshotDir = true) (hf : n.node.snapshotFiles = []) (h' : Stored disk' es)
    (hn : n' = P.bootOn id now draw n.node.durable { entries := es, disk := disk' }) :
    Restarts n n' es := by
  have hf' : n.node.durable.snapshotFiles = [] := hf
  obtain ⟨hl, hfiles, hdisk⟩ := bootOn_fresh hs hd hf' id { entries := es, disk := disk' } now draw
  rw [← hn] at hl hfiles hdisk
  have hp : n'.node.log.Plain := by
    rw [hl]
    exact ⟨rfl, rfl, h'.2.1⟩
  have hes : n'.node.log.entries = es := by rw [hl]
  have hst : Stored n'.disk n'.node.log.entries := by
    rw [hdisk, hes]
    exact h'
  have hmem : ∀ e, n.Held e → n.snapshotIndex < e.index → e ∈ n'.node.log.entries := by
    intro e he hlt
    rw [hes]
    rcases he with he | he
    · rwa [← (h.equal hf).2]
    · exact h.stored.mem_of_onRecord (by omega) he
  refine ⟨⟨fun _ => .inl hf, fun _ => ⟨?_, ?_, plain_records hp hst⟩⟩, fun _ => ?_⟩
  · exact fun e he hlt => get_of_mem hp (hmem e he hlt)
  · exact fun e he hlt => hst.onRecord (hmem e he hlt)
  · rw [hes] at hst
    refine ⟨hst, fun e he => ?_, fun _ => ⟨hp, hes⟩⟩
    rw [hes] at he
    exact index_le_length h'.2.1 he

/-- With a snapshot file the records above it are cut off. -/
theorem Coherent.restart_loads (h : n.Coherent es) (hs : P.stateMachine = some sm)
    (hd : P.snapshotDir = true) {s : Snapshot δ} (hf : latestFile n.node.snapshotFiles = some s)
    (h' : Stored disk' es)
    (hn : n' = P.bootOn id now draw n.node.durable { entries := es, disk := disk' }) :
    Restarts n n' es := by
  have hne : n.node.snapshotFiles ≠ [] := by
    intro hnil
    rw [hnil] at hf
    cases hf
  have hidx : n.snapshotIndex = s.lastIncludedIndex := by
    unfold snapshotIndex
    rw [hf]
  have hf' : latestFile n.node.durable.snapshotFiles = some s := hf
  obtain ⟨disk'', changed, out', hcut, h''⟩ := h'.truncateFrom s.lastIncludedIndex
  obtain ⟨hl, hfiles, hdisk⟩ := bootOn_loads hs hd hf' id { entries := es, disk := disk' } now draw hcut
  rw [← hn] at hl hfiles hdisk
  rw [← hdisk] at h''
  have hiff : n.NothingAbove ↔ es.length ≤ s.lastIncludedIndex := by
    unfold NothingAbove
    rw [h.stored.length, hidx]
    simp [hne]
  unfold Restarts
  rw [hiff]
  refine ⟨⟨fun hsur => ?_, fun hle => ?_⟩, fun hle => ?_⟩
  · -- the first record above the snapshot is gone
    by_contra hgt
    have hget := List.getElem?_eq_getElem (Nat.not_le.mp hgt)
    have hei := h.stored.2.1 _ _ hget
    have hon := hsur.disk _ (.inr (h.stored.onRecord (List.mem_of_getElem? hget)))
      (by rw [hidx]; omega)
    have hlen := index_le_length h''.2.1 (h''.mem_of_onRecord (by omega) hon)
    rw [List.length_take] at hlen
    omega
  · have habove : ∀ e, n.Held e → ¬n.snapshotIndex < e.index := by
      intro e he hlt
      have := h.index_le he (by omega)
      omega
    refine ⟨fun e he hlt => absurd hlt (habove e he), fun e he hlt => absurd hlt (habove e he), ?_⟩
    rw [List.take_of_length_le hle] at h''
    rcases compact_end h'.2.1 hle s.lastIncludedTerm with ⟨-, hc⟩ | hc
    · rw [hl, hc]
      intro i e he
      simp [RaftLog.get] at he
    · have hlog : n'.node.log = ⟨es, 1, 0, 0⟩ := hl.trans hc
      rw [hlog]
      exact plain_records ⟨rfl, rfl, h'.2.1⟩ h''
  · rw [List.take_of_length_le hle] at h''
    refine ⟨h'', fun e he => index_le_length h'.2.1 ?_, fun hnil => absurd (hfiles.symm.trans hnil) hne⟩
    rcases compact_end h'.2.1 hle s.lastIncludedTerm with ⟨-, hc⟩ | hc
    · rw [hl, hc] at he
      cases he
    · rw [hl, hc] at he
      exact he

/-- A restart keeps the log above the snapshot exactly when there is nothing above it. -/
theorem Coherent.restart (h : n.Coherent es) (hs : P.stateMachine = some sm)
    (hd : P.snapshotDir = true) (maxSegmentBytes : ℕ) :
    (DurableRaftLog.openAt maxSegmentBytes n.disk.folder).result = .ok () ∧
      Restarts n ((NodeOp.restart maxSegmentBytes now draw).next P id n) es := by
  obtain ⟨disk', out, hopen, h'⟩ := h.stored.openAt maxSegmentBytes
  have hboot : (NodeOp.restart maxSegmentBytes now draw).next P id n =
      P.bootOn id now draw n.node.durable { entries := es, disk := disk' } := by
    show P.bootOn id now draw n.node.durable
      (DurableRaftLog.openAt maxSegmentBytes n.disk.folder).state = _
    rw [hopen]
  refine ⟨by rw [hopen], ?_⟩
  cases hf : latestFile n.node.snapshotFiles with
  | none => exact h.restart_fresh hs hd (latestFile_eq_none.mp hf) h' hboot
  | some s => exact h.restart_loads hs hd hf h' hboot

end

end DurableNode

/-! ### Histories -/

/-- A node with a `snapshot_dir` and a state machine. -/
def Params.snapshotting (P : Params ι σ δ) (sm : StateMachine σ δ) : Params ι σ δ :=
  { P with stateMachine := some sm, snapshotDir := true }

/-- The first start, on an empty directory. -/
def Params.firstStart (P : Params ι σ δ) (id : ι) (maxSegmentBytes : ℕ) (now draw : ℚ) :
    DurableNode ι σ δ :=
  P.bootOn id now draw {} (DurableRaftLog.openAt maxSegmentBytes {}).state

namespace NodeOp

def isRestart : NodeOp → Bool
  | restart _ _ _ => true
  | _ => false

/-- Along the history, as long as every restart before it met the condition: a restart opens the
log, and keeps what it has to keep if and only if it meets the condition. -/
def KeptAlong (P : Params ι σ δ) (id : ι) : List NodeOp → DurableNode ι σ δ → Prop
  | [], _ => True
  | op :: ops, n => op.Admissible n →
      (∀ maxSegmentBytes now draw, op = restart maxSegmentBytes now draw →
        (DurableRaftLog.openAt maxSegmentBytes n.disk.folder).result = .ok () ∧
          (n.Survives (op.next P id n) ↔ n.NothingAbove)) ∧
      ((op.isRestart = true → n.NothingAbove) → KeptAlong P id ops (op.next P id n))

variable {P : Params ι σ δ} {sm : StateMachine σ δ} {id : ι} {n : DurableNode ι σ δ}
  {es : List Entry}

/-- Every step of the history keeps the node coherent, restarts under their condition. -/
theorem coherent_next (h : n.Coherent es) {op : NodeOp} (hop : op.Admissible n)
    (hr : op.isRestart = true → n.NothingAbove) :
    ∃ es', (op.next (P.snapshotting sm) id n).Coherent es' := by
  cases op with
  | appendEntry term payload now => exact ⟨_, h.appendEntry hop⟩
  | merge prevIndex prevTerm incoming now => exact h.merge hop
  | commit index now draw => exact ⟨es, h.trims (DurableNode.commitTo_trims rfl index)⟩
  | takeSnapshot now draw => exact ⟨es, h.trims (DurableNode.takeSnapshot_trims rfl)⟩
  | restart maxSegmentBytes now draw =>
    exact ⟨es, (h.restart rfl rfl maxSegmentBytes).2.2 (hr rfl)⟩

theorem keptAlong_of_coherent : ∀ (ops : List NodeOp) {n : DurableNode ι σ δ} {es : List Entry},
    n.Coherent es → KeptAlong (P.snapshotting sm) id ops n
  | [], _, _, _ => trivial
  | op :: ops, n, es, h => by
    intro hop
    refine ⟨?_, fun hr => ?_⟩
    · rintro maxSegmentBytes now draw rfl
      obtain ⟨hopen, hiff, -⟩ := h.restart (P := P.snapshotting sm) rfl rfl maxSegmentBytes
      exact ⟨hopen, hiff⟩
    · obtain ⟨es', h'⟩ := coherent_next h hop hr
      exact keptAlong_of_coherent ops h'

theorem coherent_firstStart (P : Params ι σ δ) (sm : StateMachine σ δ) (id : ι)
    (maxSegmentBytes : ℕ) (now draw : ℚ) :
    ((P.snapshotting sm).firstStart id maxSegmentBytes now draw).Coherent [] := by
  obtain ⟨s, out, hrun, hs⟩ := openAt_empty maxSegmentBytes
  have hf : (Durable.mk 0 none {} [] : Durable ι δ).snapshotFiles = [] := rfl
  obtain ⟨hl, -, hdisk⟩ := DurableNode.bootOn_fresh (P := P.snapshotting sm) rfl rfl hf id
    { disk := s } now draw
  unfold Params.firstStart
  rw [hrun]
  refine ⟨?_, ?_, fun _ => ?_⟩
  · rw [hdisk]
    exact hs
  · rw [hl]
    intro e he
    cases he
  · rw [hl]
    exact ⟨RaftLog.plain_empty, rfl⟩

end NodeOp

/-- **Restarts after snapshots**: in every history from an empty directory, a restart keeps the
entries above the snapshot exactly when there is no snapshot file or no record above it. -/
theorem restart_keeps_iff (P : Params ι σ δ) (sm : StateMachine σ δ) (id : ι) (maxSegmentBytes : ℕ)
    (now draw : ℚ) (ops : List NodeOp) :
    NodeOp.KeptAlong (P.snapshotting sm) id ops
      ((P.snapshotting sm).firstStart id maxSegmentBytes now draw) :=
  NodeOp.keptAlong_of_coherent ops (NodeOp.coherent_firstStart P sm id maxSegmentBytes now draw)

/-- Two entries, the first committed and in a snapshot. -/
def snapshotBelowEnd : List NodeOp :=
  [.appendEntry 1 [97] 0, .appendEntry 1 [98] 0, .commit 1 0 0, .takeSnapshot 0 0]

/-- A single server that keeps snapshots. -/
def snapshotLab : Params ℕ Unit Unit :=
  ((lab 1 true 0).params 0).snapshotting ⟨(), fun s _ => (s, true), fun s => s, fun s => s⟩

/-- Entry 2 is above the snapshot; a restart deletes its record, and the next one its entry. -/
theorem restart_deletes_suffix :
    let n := snapshotBelowEnd.foldl (fun n op => op.next snapshotLab 0 n)
      (snapshotLab.firstStart 0 1024 0 0)
    let again := (NodeOp.restart 1024 0 0).next snapshotLab 0
    ¬n.Survives (again n) ∧ n.node.log.get 2 = some ⟨2, 1, [98]⟩ ∧
      (again (again n)).node.log.get 2 = none := by
  intro n again
  have hheld : Entry.mk 2 1 [98] ∈ n.node.log.entries := by decide +kernel
  have hidx : n.snapshotIndex = 1 := by decide +kernel
  have hnone : (again n).disk.read 1 = none := by decide +kernel
  refine ⟨fun hsur => ?_, by decide +kernel, by decide +kernel⟩
  obtain ⟨r, hr, -⟩ := hsur.disk _ (.inl hheld) (by rw [hidx]; decide)
  cases hnone.symm.trans hr

end Pylog.Raft
