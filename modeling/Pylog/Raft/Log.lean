import Mathlib.Data.List.Basic
import Mathlib.Data.Int.Order.Basic
import Mathlib.Tactic.Common

/-!
# Pylog.Raft.Log — `RaftLog`, the in-memory replicated log (raft.py:26–112)

Indexes are 1-based; index `0` is the virtual sentinel of term `0`.  `term_at` answers `-1` for an
index the log does not hold, so terms that come out of a log are integers.
-/

namespace Pylog.Raft

/-- A Python `bytes` value. -/
abbrev Bytes := List UInt8

/-- `{"index": i, "term": t, "payload": bytes}`. -/
structure Entry where
  index : ℕ
  term : ℕ
  payload : Bytes
  deriving DecidableEq, Repr

/-- `RaftLog`. -/
structure RaftLog where
  entries : List Entry := []
  firstIndex : ℕ := 1
  snapshotLastIndex : ℕ := 0
  snapshotLastTerm : ℤ := 0
  deriving DecidableEq, Repr

namespace RaftLog

/-- `last_index`: the index of the last entry, `0` for an empty list (compacted or not). -/
def lastIndex (l : RaftLog) : ℕ :=
  match l.entries.getLast? with
  | some e => e.index
  | none => 0

def lastTerm (l : RaftLog) : ℕ :=
  match l.entries.getLast? with
  | some e => e.term
  | none => 0

/-- `get`: the entry at a position counted from `first_index`. -/
def get (l : RaftLog) (index : ℕ) : Option Entry :=
  if l.firstIndex ≤ index then l.entries[index - l.firstIndex]? else none

def termAt (l : RaftLog) (index : ℕ) : ℤ :=
  if index = 0 then 0
  else match l.get index with
    | some e => (e.term : ℤ)
    | none => -1

/-- `entries_from`: a limit of `0` (or `None`) is no limit. -/
def entriesFrom (l : RaftLog) (index limit : ℕ) : List Entry :=
  let out := l.entries.drop (index - l.firstIndex)
  if limit = 0 then out else out.take limit

/-- `append_entry`: the log with the entry at `last_index + 1`. -/
def appendEntry (l : RaftLog) (term : ℕ) (payload : Bytes) : RaftLog :=
  { l with entries := l.entries ++ [⟨l.lastIndex + 1, term, payload⟩] }

/-- `compact`: drop the entries at or below the snapshot point; `none` when it refuses. -/
def compact (l : RaftLog) (lastIncludedIndex : ℕ) (lastIncludedTerm : ℤ) : Option RaftLog :=
  if lastIncludedIndex < l.firstIndex - 1 then none
  else if l.lastIndex ≤ lastIncludedIndex ∧ l.entries ≠ [] then none
  else some
    { entries := l.entries.filter (fun e => lastIncludedIndex < e.index)
      firstIndex := lastIncludedIndex + 1
      snapshotLastIndex := lastIncludedIndex
      snapshotLastTerm := lastIncludedTerm }

/-- First loop of `conflict_term_first_index`: down to an index of term `term`. -/
def seekTerm (l : RaftLog) (term : ℤ) : ℕ → ℕ
  | 0 => 0
  | i + 1 => if l.firstIndex - 1 < i + 1 ∧ l.termAt (i + 1) ≠ term then seekTerm l term i else i + 1

/-- Second loop of `conflict_term_first_index`: down to the first index of that term. -/
def seekFirst (l : RaftLog) (term : ℤ) : ℕ → ℕ
  | 0 => 0
  | i + 1 => if 1 < i + 1 ∧ l.termAt i = term then seekFirst l term i else i + 1

def conflictTermFirstIndex (l : RaftLog) (term : ℤ) (fromIndex : ℕ) : ℕ :=
  max 1 (l.seekFirst term (l.seekTerm term fromIndex))

/-- What `merge` returns, with the log it leaves. -/
structure Merged where
  log : RaftLog
  ok : Bool
  matchIndex : ℕ
  conflict : ℕ

/-- The scan of `merge` over `incoming[k:]`: the log after the conflict cut, and `insert_at`. -/
def findInsert (l : RaftLog) (prevIndex : ℕ) : ℕ → List Entry → RaftLog × Option ℕ
  | _, [] => (l, none)
  | k, inc :: rest =>
    let idx := prevIndex + 1 + k
    if l.termAt idx = -1 then (l, some k)
    else if l.termAt idx ≠ (inc.term : ℤ) then
      ({ l with entries := l.entries.take (idx - l.firstIndex) }, some k)
    else findInsert l prevIndex (k + 1) rest

/-- The entries `incoming[k:]` as they are appended, with `index` rewritten. -/
def reindex (prevIndex : ℕ) : ℕ → List Entry → List Entry
  | _, [] => []
  | k, inc :: rest => { inc with index := prevIndex + 1 + k } :: reindex prevIndex (k + 1) rest

/-- `merge`: the AppendEntries core. -/
def merge (l : RaftLog) (prevIndex : ℕ) (prevTerm : ℤ) (incoming : List Entry) : Merged :=
  if l.lastIndex < prevIndex then ⟨l, false, 0, l.lastIndex + 1⟩
  else if l.termAt prevIndex ≠ prevTerm then
    ⟨l, false, 0, l.conflictTermFirstIndex (l.termAt prevIndex) prevIndex⟩
  else
    match l.findInsert prevIndex 0 incoming with
    | (l', none) => ⟨l', true, prevIndex + incoming.length, 0⟩
    | (l', some k) =>
      ⟨{ l' with entries := l'.entries ++ reindex prevIndex k (incoming.drop k) }, true,
        prevIndex + incoming.length, 0⟩

end RaftLog

end Pylog.Raft
