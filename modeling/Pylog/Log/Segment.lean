import Pylog.Base.Bisect
import Pylog.Base.Files
import Pylog.Base.Handler
import Pylog.Log.Record

/-!
# Pylog.Log.Segment — one `.log` file and its sparse index (log.py:70–331)

A method of a segment runs over the files of the directory and the fields of the segment; its
effects are its file operations in the order of the source.  Handles, flushes, fsyncs and the mmap
cache have no effect on contents and are left out; the two read loops (over the mmap, over the file)
are the same loop.  The `.index` file is written and never read.

A position is a file offset, so it fits its `Q` field; a relative offset need not.
-/

namespace Pylog.Log

open Effect Effect.Handler Files Framing Bisect

/-- The files `<stem>.log` and `<stem>.index` of a directory, by stem. -/
structure Folder where
  logs : Dir ℕ UInt8 := []
  indexes : Dir ℕ UInt8 := []
  deriving DecidableEq, Repr

inductive Ext
  | log
  | index
  deriving DecidableEq, Repr

structure FileOp where
  ext : Ext
  op : Op ℕ UInt8
  deriving DecidableEq, Repr

def Folder.perform (d : Folder) (o : FileOp) : Folder :=
  match o.ext with
  | .log => { d with logs := d.logs.perform o.op }
  | .index => { d with indexes := d.indexes.perform o.op }

/-- The first `n` bytes of a write; any other operation happens as a whole. -/
def FileOp.part (n : ℕ) : FileOp → Option FileOp
  | ⟨ext, .append b bs⟩ => some ⟨ext, .append b (bs.take n)⟩
  | _ => none

/-- The fields of a `Segment`. -/
structure Segment where
  baseOffset : ℕ
  indexIntervalBytes : ℕ
  index : List (ℤ × ℕ) := []
  size : ℕ := 0
  lastIndexedPosition : ℤ := -1
  maxTimestamp : ℤ := 0
  nextOffset : ℕ
  deriving DecidableEq, Repr

abbrev SegmentM (α : Type) := Handler (Folder × Segment) FileOp LogError α

/-- One operation on the segment's own directory. -/
def fileOp (ext : Ext) (op : Op ℕ UInt8) : SegmentM Unit := fun s =>
  ⟨(s.1.perform ⟨ext, op⟩, s.2), [⟨ext, op⟩], .ok ()⟩

def assign (f : Segment → Segment) : SegmentM Unit := update fun s => (s.1, f s.2)

/-- `_INDEX_ENTRY.pack(rel, position)`. -/
def packIndexEntry (rel : ℤ) (position : ℕ) : SegmentM Bytes :=
  if 0 ≤ rel ∧ rel < 2 ^ 64 then pure (word 8 rel.toNat ++ word 8 position) else raise .structError

namespace Segment

/-- `Segment(dir_path, base_offset, index_interval_bytes)`. -/
def new (baseOffset indexIntervalBytes : ℕ) : Segment :=
  { baseOffset, indexIntervalBytes := max 1 indexIntervalBytes, nextOffset := baseOffset }

/-- The condition under which a position is indexed. -/
def indexes (seg : Segment) (position : ℕ) : Prop :=
  seg.index = [] ∨ (seg.indexIntervalBytes : ℤ) ≤ position - seg.lastIndexedPosition

instance (seg : Segment) (position : ℕ) : Decidable (seg.indexes position) :=
  inferInstanceAs (Decidable (_ ∨ _))

def maybeIndex (absOffset position : ℕ) : SegmentM Unit := do
  let (_, seg) ← read
  let rel : ℤ := absOffset - seg.baseOffset
  when (seg.indexes position) do
    assign fun seg => { seg with index := seg.index ++ [(rel, position)] }
    let entry ← packIndexEntry rel position
    fileOp .index (.append seg.baseOffset entry)
    assign fun seg => { seg with lastIndexedPosition := position }

def rewriteIndex : SegmentM Unit := do
  let (_, seg) ← read
  fileOp .index (.create seg.baseOffset)
  each (fun e : ℤ × ℕ => do
    let entry ← packIndexEntry e.1 e.2
    fileOp .index (.append seg.baseOffset entry)) seg.index

/-- The loop of `recover` over the bytes `f` from `position` on; its result is `good_size` and
`next_offset`.  Every round reads a header, so the length of the file is enough fuel. -/
def replay : ℕ → Bytes → ℕ → ℕ → SegmentM (ℕ × ℕ)
  | 0, _, position, nextOffset => pure (position, nextOffset)
  | fuel + 1, f, position, nextOffset =>
    match readRecord f with
    | .error _ => pure (position, nextOffset)
    | .ok none => pure (position, nextOffset)
    | .ok (some (rec, rest)) => do
      maybeIndex rec.offset position
      assign fun seg => { seg with maxTimestamp := max seg.maxTimestamp rec.timestamp }
      replay fuel rest (position + headerSize + rec.payload.length) (rec.offset + 1)

def recover : SegmentM ℕ := do
  assign fun seg =>
    { seg with index := [], size := 0, lastIndexedPosition := -1, maxTimestamp := 0
               nextOffset := seg.baseOffset }
  let (d, seg) ← read
  match d.logs.get seg.baseOffset with
  | none => do
    fileOp .log (.create seg.baseOffset)
    fileOp .index (.create seg.baseOffset)
    pure seg.baseOffset
  | some file => do
    let (goodSize, nextOffset) ← replay (file.length + 1) file 0 seg.baseOffset
    when (goodSize < file.length) (fileOp .log (.truncate seg.baseOffset goodSize))
    assign fun seg => { seg with size := goodSize, nextOffset := nextOffset }
    rewriteIndex
    pure nextOffset

def append (offset : ℕ) (recordBytes : Bytes) (timestamp : ℤ) : SegmentM Unit := do
  let (_, seg) ← read
  fileOp .log (.append seg.baseOffset recordBytes)
  assign fun seg =>
    { seg with size := seg.size + recordBytes.length
               maxTimestamp := max seg.maxTimestamp timestamp
               nextOffset := offset + 1 }
  -- the rule of `_maybe_index`, written out once more in the source
  maybeIndex offset seg.size

/-- The position the search in the sparse index starts reading from. -/
def startPos (seg : Segment) (relTarget : ℤ) : ℕ :=
  let lo := bisect (fun mid => match seg.index[mid]? with
    | some e => decide (e.1 ≤ relTarget)
    | none => false) seg.index.length 0 seg.index.length
  if 0 < lo then (match seg.index[lo - 1]? with | some e => e.2 | none => 0) else 0

/-- The read loop: the record of offset `target` and its position, in the bytes `f` from `position`
on. -/
def scan (target : ℕ) : ℕ → Bytes → ℕ → Option (ℕ × Record)
  | 0, _, _ => none
  | fuel + 1, f, position =>
    match readRecord f with
    | .error _ => none
    | .ok none => none
    | .ok (some (rec, rest)) =>
      if rec.offset = target then some (position, rec)
      else if target < rec.offset then none
      else scan target fuel rest (position + headerSize + rec.payload.length)

/-- Search for a record in `[base_offset, next_offset)`. -/
def find (seg : Segment) (file : Bytes) (absOffset : ℤ) : Option (ℕ × Record) :=
  if absOffset < seg.baseOffset ∨ seg.nextOffset ≤ absOffset then none
  else
    let start := seg.startPos (absOffset - seg.baseOffset)
    scan absOffset.toNat (file.length + 1) (file.drop start) start

/-- `read`; the file of a segment exists since its `recover`. -/
def read (seg : Segment) (d : Folder) (absOffset : ℤ) : Option Record :=
  (seg.find ((d.logs.get seg.baseOffset).getD []) absOffset).map Prod.snd

def positionOf (seg : Segment) (d : Folder) (absOffset : ℤ) : Option ℕ :=
  (seg.find ((d.logs.get seg.baseOffset).getD []) absOffset).map Prod.fst

/-- `self.index[-1][1] if self.index else -1`. -/
def lastPosition (index : List (ℤ × ℕ)) : ℤ :=
  match index.getLast? with
  | some e => e.2
  | none => -1

def truncateFrom (absOffset : ℤ) : SegmentM Bool := do
  let (d, seg) ← Handler.read
  if absOffset ≤ seg.baseOffset then do
    fileOp .log (.create seg.baseOffset)
    assign fun seg =>
      { seg with index := [], size := 0, lastIndexedPosition := -1, maxTimestamp := 0
                 nextOffset := seg.baseOffset }
    rewriteIndex
    pure (decide (0 < seg.size ∨ seg.nextOffset ≠ seg.baseOffset))
  else
    match seg.positionOf d absOffset with
    | none => pure false
    | some position => do
      fileOp .log (.truncate seg.baseOffset position)
      let index := seg.index.filter fun e => decide (e.1 < absOffset - seg.baseOffset)
      assign fun seg =>
        { seg with size := position, nextOffset := absOffset.toNat, index := index
                   lastIndexedPosition := lastPosition index }
      rewriteIndex
      pure true

def isEmpty (seg : Segment) : Bool := seg.size = 0

def delete : SegmentM Unit := do
  let (_, seg) ← Handler.read
  fileOp .log (.remove seg.baseOffset)
  fileOp .index (.remove seg.baseOffset)

end Segment

end Pylog.Log
