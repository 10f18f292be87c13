import Mathlib.Algebra.Order.Group.Int
import Pylog.Log.Segment

/-!
# Pylog.Log.CommitLog — the segmented log (log.py:333–510)

The state is the object together with the files of its directory.  `time.time()` is an argument of
`append` and `append_many`, used when no timestamps are given; `fsync` has no effect on contents.
-/

namespace Pylog.Log

open Effect Effect.Handler Files Bisect

/-- The fields of a `CommitLog`, and the contents of `dir_path`. -/
structure CommitLog where
  maxSegmentBytes : ℕ
  indexIntervalBytes : ℕ
  segments : List Segment := []
  nextOffset : ℕ := 0
  folder : Folder := {}
  deriving DecidableEq, Repr

abbrev LogM (α : Type) := Handler CommitLog FileOp LogError α

def orRaise {α : Type} : Except LogError α → LogM α
  | .ok a => pure a
  | .error e => raise e

/-- One element of a batch: `offsets[k]`, `payloads[k]` and `timestamps[k]`, if there is one. -/
structure BatchItem where
  offset : ℕ
  payload : Bytes
  timestamp : Option ℤ
  deriving DecidableEq, Repr

namespace CommitLog

/-- A method of `self.segments[i]`. -/
def onSegment {α : Type} (i : ℕ) (x : SegmentM α) : LogM α := fun s =>
  match s.segments[i]? with
  | none => ⟨s, [], .error .indexError⟩
  | some seg =>
    let r := x (s.folder, seg)
    ⟨{ s with folder := r.state.1, segments := s.segments.set i r.state.2 }, r.out, r.result⟩

/-- `_new_segment`: the segment joins the list only when its `recover` returns. -/
def newSegment (baseOffset : ℕ) : LogM Unit := fun s =>
  let r := Segment.recover (s.folder, Segment.new baseOffset s.indexIntervalBytes)
  match r.result with
  | .ok _ => ⟨{ s with folder := r.state.1, segments := s.segments ++ [r.state.2] }, r.out, .ok ()⟩
  | .error e => ⟨{ s with folder := r.state.1 }, r.out, .error e⟩

/-- `_active`. -/
def active : LogM Segment := do
  let s ← Handler.read
  match s.segments.getLast? with
  | some seg => pure seg
  | none => raise .indexError

/-- A method of the active segment. -/
def onActive {α : Type} (x : SegmentM α) : LogM α := do
  let s ← Handler.read
  onSegment (s.segments.length - 1) x

/-- `seg.recover()` of `self.segments[i]`; the result is not used. -/
def recoverSegment (i : ℕ) : LogM Unit := do
  let _ ← onSegment i Segment.recover
  pure ()

def recover : LogM ℕ := do
  let s ← Handler.read
  -- `os.listdir` lists the files in any order
  let stems := s.folder.logs.names.mergeSort (fun a b => decide (a ≤ b))
  update fun s => { s with segments := stems.map fun b => Segment.new b s.indexIntervalBytes }
  if stems = [] then do
    newSegment 0
    pure 0
  else do
    each recoverSegment (List.range stems.length)
    let last ← active
    pure last.nextOffset

/-- `CommitLog(dir_path, max_segment_bytes, index_interval_bytes)` on a directory. -/
def openAt (maxSegmentBytes indexIntervalBytes : ℕ) (d : Folder) :
    Outcome CommitLog FileOp LogError Unit :=
  (do
    let n ← recover
    update fun s => { s with nextOffset := n } : LogM Unit)
  { maxSegmentBytes := max 1 maxSegmentBytes, indexIntervalBytes, folder := d }

def append (payload : Bytes) (timestamp : Option ℤ) (now : ℤ) : LogM ℕ := do
  let s ← Handler.read
  let offset := s.nextOffset
  let ts := timestamp.getD now
  let act ← active
  when (s.maxSegmentBytes ≤ act.size) (newSegment offset)
  let record ← orRaise (encodeRecord offset payload ts)
  onActive (Segment.append offset record ts)
  update fun s => { s with nextOffset := offset + 1 }
  pure offset

/-- The inner loop of `append_many`: the records of the batch that go to a segment at `pos`, with
their positions, and the items left; `started` is `j > i`. -/
def gather (maxSegmentBytes : ℕ) : Bool → ℕ → List BatchItem →
    Except LogError (List (ℕ × Record) × List BatchItem)
  | _, _, [] => .ok ([], [])
  | started, pos, it :: rest =>
    match it.timestamp with
    | none => .error .indexError
    | some ts =>
      match encodeRecord it.offset it.payload ts with
      | .error e => .error e
      | .ok bytes =>
        if started ∧ maxSegmentBytes < pos + bytes.length then .ok ([], it :: rest)
        else
          match gather maxSegmentBytes true (pos + bytes.length) rest with
          | .error e => .error e
          | .ok (taken, left) => .ok ((pos, ⟨it.offset, ts, it.payload⟩) :: taken, left)

/-- The write of one blob, and the bookkeeping of its records. -/
def writeBlob (taken : List (ℕ × Record)) : SegmentM Unit := do
  let (_, seg) ← Handler.read
  let blob := taken.flatMap fun p => p.2.bytes
  fileOp .log (.append seg.baseOffset blob)
  each (fun p : ℕ × Record => do
    Segment.maybeIndex p.2.offset p.1
    assign fun seg => { seg with nextOffset := p.2.offset + 1
                                 maxTimestamp := max seg.maxTimestamp p.2.timestamp }) taken
  assign fun s => { s with size := seg.size + blob.length }

/-- `if j < n: self._new_segment(offsets[j])`. -/
def rollFor : List BatchItem → LogM Unit
  | [] => pure ()
  | it :: _ => newSegment it.offset

/-- The outer loop of `append_many`; every round takes an item, so their number is enough fuel. -/
def appendLoop : ℕ → List BatchItem → LogM Unit
  | _, [] => pure ()
  | 0, _ => pure ()
  | fuel + 1, items => do
    let s ← Handler.read
    let act ← active
    let (taken, left) ← orRaise (gather s.maxSegmentBytes false act.size items)
    onActive (writeBlob taken)
    rollFor left
    appendLoop fuel left

/-- `offsets`, `payloads` and `timestamps` of a batch, element by element. -/
def batch (nextOffset : ℕ) (payloads : List Bytes) (timestamps : List ℤ) : List BatchItem :=
  payloads.mapIdx fun k p => ⟨nextOffset + k, p, timestamps[k]?⟩

def appendMany (payloads : List Bytes) (timestamps : Option (List ℤ)) (now : ℤ) :
    LogM (List ℕ) := do
  let s ← Handler.read
  if payloads = [] then pure []
  else do
    let n := payloads.length
    appendLoop n (batch s.nextOffset payloads (timestamps.getD (List.replicate n now)))
    update fun s' => { s' with nextOffset := s.nextOffset + n }
    pure (List.range' s.nextOffset n)

def read (s : CommitLog) (offset : ℤ) : Option Record :=
  match bisectRight (s.segments.map fun seg => (seg.baseOffset : ℤ)) offset with
  | 0 => none
  | idx + 1 =>
    match s.segments[idx]?.bind fun seg => seg.read s.folder offset with
    | some rec => some rec
    | none => if 0 < idx then s.segments[idx - 1]?.bind fun seg => seg.read s.folder offset else none

def readRange (s : CommitLog) (start : ℤ) : ℕ → List Record
  | 0 => []
  | limit + 1 =>
    match s.read start with
    | none => []
    | some rec => rec :: readRange s (start + 1) limit

/-- `truncate_from` with the segment of the offset at `idx`; that segment stays, so the last branch
of the source is never taken. -/
def truncateAt (idx : ℕ) (offset : ℤ) : LogM Bool := do
  let s ← Handler.read
  each (fun i => onSegment i Segment.delete)
    (List.range' (idx + 1) (s.segments.length - (idx + 1)))
  update fun s => { s with segments := s.segments.take (idx + 1) }
  let changed ← onSegment idx (Segment.truncateFrom offset)
  let last ← active
  update fun s => { s with nextOffset := last.nextOffset }
  pure (decide (idx + 1 < s.segments.length) || changed)

def truncateFrom (offset : ℤ) : LogM Bool := do
  let s ← Handler.read
  match bisectRight (s.segments.map fun seg => (seg.baseOffset : ℤ)) offset with
  | 0 => pure false
  | idx + 1 => truncateAt idx offset

/-- The segments `truncate_segments_before` deletes. -/
def expired (s : CommitLog) (minBaseOffset : ℤ) (p : Segment × ℕ) : Bool :=
  decide ((p.1.isEmpty ∨ p.1.baseOffset < minBaseOffset) ∧ p.2 < s.segments.length - 1)

def truncateSegmentsBefore (minBaseOffset : ℤ) : LogM ℕ := do
  let s ← Handler.read
  let removed := s.segments.zipIdx.filter (s.expired minBaseOffset)
  each (fun i => onSegment i Segment.delete) (removed.map Prod.snd)
  update fun s' =>
    { s' with segments := (s.segments.zipIdx.filter fun p => !s.expired minBaseOffset p).map Prod.fst }
  pure removed.length

end CommitLog

end Pylog.Log
