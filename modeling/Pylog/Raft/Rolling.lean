import Pylog.Log.Rolling
import Pylog.Raft.DurableFacts

/-!
# The segments of a `DurableRaftLog`

`append_entry` writes its one record with `append_many`, and a batch of one record never rolls a
segment: a `DurableRaftLog` that is driven by `append_entry` keeps all of its records in the segment
it started with.
-/

namespace Pylog.Raft

open Effect Effect.Handler Pylog.Log Pylog.Log.CommitLog Transition

/-- A call of `append_entry`. -/
structure EntryCall where
  term : ℕ
  payload : Bytes
  now : ℤ

namespace EntryCall

def after (dl : DurableRaftLog) (c : EntryCall) : DurableRaftLog :=
  (DurableRaftLog.appendEntry c.term c.payload c.now dl).state

/-- The write of the call to the disk. -/
def write (c : EntryCall) : LogOp := .appendMany [packEntry c.term c.payload] none c.now

/-- A call that writes finds the active segment below the limit. -/
def HasRoom (dl : DurableRaftLog) (c : EntryCall) : Prop :=
  c.term < 2 ^ 64 → c.write.HasRoom dl.disk

/-- The disk after a call: the write happened if the term fits. -/
theorem after_disk (dl : DurableRaftLog) (c : EntryCall) :
    (EntryCall.after dl c).disk = if c.term < 2 ^ 64 then c.write.after dl.disk else dl.disk := by
  unfold EntryCall.after DurableRaftLog.appendEntry
  rw [read_bind, update_bind, bind_pure_state]
  unfold DurableRaftLog.writeEntries
  by_cases ht : c.term < 2 ^ 64
  · have henc : DurableRaftLog.encodeEntries [⟨dl.lastIndex + 1, c.term, c.payload⟩] =
        .ok [packEntry c.term c.payload] := encodeEntries_eq (by simpa using ht)
    rw [henc, if_pos ht]
    dsimp only
    rw [bind_pure_state]
    exact (LogOp.after_appendMany _ _ _ _).symm
  · have henc : DurableRaftLog.encodeEntries [⟨dl.lastIndex + 1, c.term, c.payload⟩] =
        .error .structError := by
      unfold DurableRaftLog.encodeEntries encodeEntryPayload
      dsimp only
      rw [if_neg ht]
    rw [henc, if_neg ht]
    rfl

/-- A batch of one record is all in the first blob. -/
theorem write_intact (s : CommitLog) {c : EntryCall} (hp : c.payload.length + 8 ≤ maxRecordBytes) :
    c.write.Intact s := by
  refine ⟨?_, ?_⟩
  · intro p hmem
    rw [List.mem_singleton.mp hmem]
    have hlen := length_recordPayload ⟨0, c.term, c.payload⟩
    unfold recordPayload at hlen
    dsimp only at hlen
    omega
  · refine .inr (.inl ?_)
    have hle := length_encoded_le (s.items [packEntry c.term c.payload] none c.now)
    rwa [length_items] at hle

/-- A call keeps the segments within the limit exactly when it has room. -/
theorem rolled_after_iff {dl : DurableRaftLog} (h : dl.disk.Sized) {c : EntryCall}
    (hp : c.payload.length + 8 ≤ maxRecordBytes) :
    (EntryCall.after dl c).disk.Rolled ↔ c.HasRoom dl := by
  rw [after_disk]
  unfold HasRoom
  by_cases ht : c.term < 2 ^ 64
  · rw [if_pos ht, h.rolled_after_iff (write_intact dl.disk hp)]
    exact ⟨fun hr _ => hr, fun hr => hr ht⟩
  · rw [if_neg ht]
    exact iff_of_true h.rolled fun ht' => absurd ht' ht

theorem sized_after {dl : DurableRaftLog} (h : dl.disk.Sized) {c : EntryCall}
    (hp : c.payload.length + 8 ≤ maxRecordBytes) (hroom : c.HasRoom dl) :
    (EntryCall.after dl c).disk.Sized := by
  rw [after_disk]
  split_ifs with ht
  · exact h.after (write_intact dl.disk hp) (hroom ht)
  · exact h

end EntryCall

theorem DurableRaftLog.openAt_disk (maxSegmentBytes : ℕ) (d : Folder) :
    (DurableRaftLog.openAt maxSegmentBytes d).state.disk =
      (CommitLog.openAt maxSegmentBytes 4096 d).state := by
  unfold DurableRaftLog.openAt
  dsimp only
  split
  · rfl
  · split <;> rfl

/-- In every run from an empty directory: a `CommitLog` driven by intact calls, and a
`DurableRaftLog` driven by `append_entry`, keep their segments within the limit after every call as
long as every `append_many` that writes finds the active segment below it. -/
theorem segments_rolled_iff (maxSegmentBytes : ℕ) :
    (∀ (interval : ℕ) (ops : List LogOp),
      Along LogOp.after LogOp.Intact (CommitLog.openAt maxSegmentBytes interval {}).state ops →
      (Along LogOp.after (fun s op => (op.after s).Rolled)
          (CommitLog.openAt maxSegmentBytes interval {}).state ops ↔
        Along LogOp.after LogOp.HasRoom (CommitLog.openAt maxSegmentBytes interval {}).state ops)) ∧
    ∀ calls : List EntryCall, (∀ c ∈ calls, c.payload.length + 8 ≤ maxRecordBytes) →
      (Along EntryCall.after (fun dl c => (EntryCall.after dl c).disk.Rolled)
          (DurableRaftLog.openAt maxSegmentBytes {}).state calls ↔
        Along EntryCall.after (fun dl c => c.HasRoom dl)
          (DurableRaftLog.openAt maxSegmentBytes {}).state calls) := by
  refine ⟨fun interval ops => rolled_iff_room maxSegmentBytes interval ops, ?_⟩
  intro calls hp
  have hstart : (DurableRaftLog.openAt maxSegmentBytes {}).state.disk.Sized := by
    rw [DurableRaftLog.openAt_disk]
    exact CommitLog.sized_openAt_nil maxSegmentBytes 4096
  have hok : Along EntryCall.after (fun _ c => c.payload.length + 8 ≤ maxRecordBytes)
      (DurableRaftLog.openAt maxSegmentBytes {}).state calls :=
    along_of_forall calls _ fun c hc _ => hp c hc
  refine along_iff (fun dl => dl.disk.Sized) ?_ ?_ calls _ hstart hok
  · exact fun dl c h hc => EntryCall.rolled_after_iff h hc
  · exact fun dl c h hc hroom => EntryCall.sized_after h hc hroom

/-- Two appends and a batch of two records below the limit; one entry. -/
theorem segments_rolled_iff_small :
    (Along LogOp.after (fun s op => (op.after s).Rolled) (CommitLog.openAt 64 1 {}).state
        [.append [7] (some 5) 0, .append [8] (some 5) 0, .appendMany [[1], [2]] none 3] ↔
      Along LogOp.after LogOp.HasRoom (CommitLog.openAt 64 1 {}).state
        [.append [7] (some 5) 0, .append [8] (some 5) 0, .appendMany [[1], [2]] none 3]) ∧
    (Along EntryCall.after (fun dl c => (EntryCall.after dl c).disk.Rolled)
        (DurableRaftLog.openAt 64 {}).state [⟨1, [7], 5⟩] ↔
      Along EntryCall.after (fun dl c => c.HasRoom dl) (DurableRaftLog.openAt 64 {}).state
        [⟨1, [7], 5⟩]) := by
  refine ⟨(segments_rolled_iff 64).1 1 _ ?_, (segments_rolled_iff 64).2 _ ?_⟩
  · have hone : ∀ b : UInt8, [b].length ≤ maxRecordBytes := fun b => by
      show 1 ≤ maxRecordBytes
      decide
    have hbatch : ∀ p ∈ ([[1], [2]] : List Bytes), p.length ≤ maxRecordBytes := by
      simp only [List.mem_cons, List.not_mem_nil, or_false]
      rintro p (rfl | rfl)
      · exact hone 1
      · exact hone 2
    exact ⟨⟨hone 7, trivial⟩, ⟨hone 8, trivial⟩, ⟨hbatch, .inl (by decide +kernel)⟩, trivial⟩
  · intro c hc
    rw [List.mem_singleton.mp hc]
    decide

/-- Limit 1: the second one-record batch, and the second entry, are written at position 29 and 37 of
the segment that is already above the limit. -/
theorem batch_above_limit :
    ¬ (LogOp.after (LogOp.after (CommitLog.openAt 1 1 {}).state (.appendMany [[1]] none 0))
        (.appendMany [[2]] none 0)).Rolled ∧
    ¬ (EntryCall.after (EntryCall.after (DurableRaftLog.openAt 1 {}).state ⟨1, [1], 0⟩)
        ⟨1, [2], 0⟩).disk.Rolled := by
  constructor
  · intro hr
    have hpos : ∃ seg ∈ (LogOp.after (LogOp.after (CommitLog.openAt 1 1 {}).state
        (.appendMany [[1]] none 0)) (.appendMany [[2]] none 0)).segments,
        seg.positionOf (LogOp.after (LogOp.after (CommitLog.openAt 1 1 {}).state
          (.appendMany [[1]] none 0)) (.appendMany [[2]] none 0)).folder 1 = some 29 := by
      decide +kernel
    obtain ⟨seg, hseg, hp⟩ := hpos
    exact absurd (hr.starts seg hseg 1 29 hp) (by decide +kernel)
  · intro hr
    have hpos : ∃ seg ∈ (EntryCall.after (EntryCall.after (DurableRaftLog.openAt 1 {}).state
        ⟨1, [1], 0⟩) ⟨1, [2], 0⟩).disk.segments,
        seg.positionOf (EntryCall.after (EntryCall.after (DurableRaftLog.openAt 1 {}).state
          ⟨1, [1], 0⟩) ⟨1, [2], 0⟩).disk.folder 1 = some 37 := by
      decide +kernel
    obtain ⟨seg, hseg, hp⟩ := hpos
    exact absurd (hr.starts seg hseg 1 37 hp) (by decide +kernel)

end Pylog.Raft
