import Pylog.Raft.DurableFacts

/-!
# Pylog.Raft.Mirror — `DurableRaftLog` refines `RaftLog`

The same calls run on a `DurableRaftLog` and on the in-memory log.  Without compaction the cache is
the in-memory log and the disk holds the same entries, after every call and after every reopen.
-/

namespace Pylog.Raft

open Effect Effect.Handler Pylog.Log

/-- A call of a `DurableRaftLog`, with the clock it sees. -/
inductive DurableOp
  | appendEntry (term : ℕ) (payload : Bytes) (now : ℤ)
  | merge (prevIndex : ℕ) (prevTerm : ℤ) (incoming : List Entry) (now : ℤ)
  /-- `close`, and a new object on the same directory. -/
  | reopen (maxSegmentBytes : ℕ)

/-- What a call returns. -/
inductive DurableValue
  | entry (e : Entry)
  | merged (ok : Bool) (matchIndex conflict : ℕ)
  | opened
  deriving DecidableEq, Repr

namespace DurableOp

def exec (op : DurableOp) (dl : DurableRaftLog) :
    Outcome DurableRaftLog FileOp LogError DurableValue :=
  match op with
  | appendEntry term payload now =>
    (do let e ← DurableRaftLog.appendEntry term payload now; pure (.entry e) :
      DurableM DurableValue) dl
  | merge prevIndex prevTerm incoming now =>
    (do let r ← DurableRaftLog.merge prevIndex prevTerm incoming now
        pure (.merged r.1 r.2.1 r.2.2) : DurableM DurableValue) dl
  | reopen maxSegmentBytes =>
    let r := DurableRaftLog.openAt maxSegmentBytes dl.disk.folder
    ⟨r.state, r.out, r.result.map fun _ => .opened⟩

/-- The same call on the in-memory log, which is kept over a reopen. -/
def run (l : RaftLog) : DurableOp → RaftLog × DurableValue
  | appendEntry term payload _ =>
    (l.appendEntry term payload, .entry ⟨l.lastIndex + 1, term, payload⟩)
  | merge prevIndex prevTerm incoming _ =>
    let r := l.merge prevIndex prevTerm incoming
    (r.log, .merged r.ok r.matchIndex r.conflict)
  | reopen _ => (l, .opened)

/-- The domain of the calls: entries that fit in a record, windows with the indexes behind
`prev_index`, a clock of 64 bits and offsets below `2^64`. -/
def Admissible (l : RaftLog) : DurableOp → Prop
  | appendEntry term payload now =>
    term < 2 ^ 64 ∧ payload.length + 8 ≤ maxRecordBytes ∧ FitsI64 now ∧ l.lastIndex < 2 ^ 64
  | merge prevIndex _ incoming now =>
    RaftLog.Numbered prevIndex incoming ∧ (∀ e ∈ incoming, e.Storable) ∧ FitsI64 now ∧
      prevIndex + incoming.length ≤ 2 ^ 64
  | reopen _ => True

end DurableOp

/-- The cache is the in-memory log, `next_offset` its last index, and record `i - 1` its entry `i`. -/
def Coincides (dl : DurableRaftLog) (l : RaftLog) : Prop :=
  dl.toRaftLog = l ∧ dl.disk.nextOffset = l.lastIndex ∧
    ∀ i e, l.get i = some e → e.index = i ∧ OnRecord dl.disk e

/-- The durable log behaves as the in-memory one along every sequence of calls. -/
def CoincidesAlong : List DurableOp → DurableRaftLog → RaftLog → Prop
  | [], dl, l => Coincides dl l
  | op :: ops, dl, l => Coincides dl l ∧ (op.Admissible l →
      ∃ dl' out, op.exec dl = ⟨dl', out, .ok (op.run l).2⟩ ∧ CoincidesAlong ops dl' (op.run l).1)

/-- What the calls preserve: cache, disk and in-memory log hold the same entries. -/
structure InStep (dl : DurableRaftLog) (l : RaftLog) : Prop where
  cache : dl.toRaftLog = l
  plain : l.Plain
  snapTerm : l.snapshotLastTerm = 0
  stored : Stored dl.disk l.entries

namespace InStep

variable {dl : DurableRaftLog} {l : RaftLog}

theorem coincides (h : InStep dl l) : Coincides dl l := by
  refine ⟨h.cache, ?_, plain_records h.plain h.stored⟩
  rw [h.stored.length, h.plain.lastIndex]

theorem appendEntry (h : InStep dl l) {term : ℕ} {payload : Bytes} {now : ℤ}
    (hop : (DurableOp.appendEntry term payload now).Admissible l) :
    ∃ dl' out, DurableRaftLog.appendEntry term payload now dl =
        ⟨dl', out, .ok ⟨l.lastIndex + 1, term, payload⟩⟩ ∧ InStep dl' (l.appendEntry term payload) := by
  obtain ⟨h1, h2, h3, h4⟩ := hop
  obtain ⟨rfl, hp, ht, hs⟩ := h
  have hlast := hp.lastIndex
  obtain ⟨disk', out, hrun, hs'⟩ := DurableRaftLog.appendEntry_run hs ⟨h1, h2⟩ h3 (by omega)
  refine ⟨_, out, hrun, rfl, hp.appendEntry term payload, ht, ?_⟩
  rw [← hlast] at hs'
  exact hs'

theorem merge (h : InStep dl l) {prevIndex : ℕ} {prevTerm : ℤ} {incoming : List Entry} {now : ℤ}
    (hop : (DurableOp.merge prevIndex prevTerm incoming now).Admissible l) :
    ∃ dl' out, DurableRaftLog.merge prevIndex prevTerm incoming now dl =
        ⟨dl', out, .ok ((l.merge prevIndex prevTerm incoming).ok,
          (l.merge prevIndex prevTerm incoming).matchIndex,
          (l.merge prevIndex prevTerm incoming).conflict)⟩ ∧
      InStep dl' (l.merge prevIndex prevTerm incoming).log := by
  obtain ⟨hnum, hf, hnow, hroom⟩ := hop
  obtain ⟨rfl, hp, ht, hs⟩ := h
  by_cases hprev : dl.lastIndex < prevIndex
  · refine ⟨dl, [], ?_, ?_⟩
    · rw [DurableRaftLog.merge, read_bind, if_pos hprev, RaftLog.merge, if_pos hprev]
      rfl
    · rw [RaftLog.merge, if_pos hprev]
      exact ⟨rfl, hp, ht, hs⟩
  · by_cases hterm : dl.termAt prevIndex = prevTerm
    · obtain ⟨heq, hsame, hlen⟩ := RaftLog.merge_eq hp hnum (by omega)
      obtain ⟨disk', out, hrun, hs'⟩ := DurableRaftLog.merge_run hs (by omega) hterm hf hnow rfl rfl
        fun hne => (hlen hne).le.trans hroom
      subst hterm
      rw [hsame] at hs'
      rw [heq]
      refine ⟨_, out, hrun, rfl, ⟨?_, ?_, hs'.2.1⟩, ?_, hs'⟩
      · rw [DurableRaftLog.cached_eq]
        exact hp.first
      · rw [DurableRaftLog.cached_eq]
        exact hp.snap
      · rw [DurableRaftLog.cached_eq]
        exact ht
    · refine ⟨dl, [], ?_, ?_⟩
      · rw [DurableRaftLog.merge, read_bind, if_neg hprev, if_pos hterm, RaftLog.merge, if_neg hprev,
          if_pos hterm]
        rfl
      · rw [RaftLog.merge, if_neg hprev, if_pos hterm]
        exact ⟨rfl, hp, ht, hs⟩

/-- Every admissible call keeps the two logs in step, and returns the same value. -/
theorem step (h : InStep dl l) {op : DurableOp} (hop : op.Admissible l) :
    ∃ dl' out, op.exec dl = ⟨dl', out, .ok (op.run l).2⟩ ∧ InStep dl' (op.run l).1 := by
  cases op with
  | appendEntry term payload now =>
    obtain ⟨dl', out, hrun, h'⟩ := h.appendEntry hop
    exact ⟨dl', out ++ [], bind_run hrun (pure_eq _ _), h'⟩
  | merge prevIndex prevTerm incoming now =>
    obtain ⟨dl', out, hrun, h'⟩ := h.merge hop
    exact ⟨dl', out ++ [], bind_run hrun (pure_eq _ _), h'⟩
  | reopen maxSegmentBytes =>
    obtain ⟨rfl, hp, ht, hs⟩ := h
    obtain ⟨disk', out, hrun, hs'⟩ := hs.openAt maxSegmentBytes
    refine ⟨{ entries := dl.entries, disk := disk' }, out, ?_, ?_, hp, ht, hs'⟩
    · unfold DurableOp.exec
      dsimp only
      rw [hrun]
      rfl
    · show RaftLog.mk dl.entries 1 0 0 = _
      rw [← hp.first, ← hp.snap, ← ht]
      rfl

theorem coincidesAlong : ∀ (ops : List DurableOp) {dl : DurableRaftLog} {l : RaftLog}, InStep dl l →
    CoincidesAlong ops dl l
  | [], _, _, h => h.coincides
  | op :: ops, dl, l, h => by
    refine ⟨h.coincides, ?_⟩
    intro hop
    obtain ⟨dl', out, hrun, h'⟩ := h.step hop
    exact ⟨dl', out, hrun, h'.coincidesAlong ops⟩

end InStep

/-- **`DurableRaftLog` refines `RaftLog`**: from an empty directory on, every sequence of calls. -/
theorem durableRaftLog_refines (maxSegmentBytes : ℕ) (ops : List DurableOp) :
    ∃ dl out, DurableRaftLog.openAt maxSegmentBytes {} = ⟨dl, out, .ok ()⟩ ∧
      CoincidesAlong ops dl {} := by
  obtain ⟨s, out, hrun, hs⟩ := openAt_empty maxSegmentBytes
  exact ⟨_, out, hrun, InStep.coincidesAlong ops ⟨rfl, RaftLog.plain_empty, rfl, hs⟩⟩

end Pylog.Raft
