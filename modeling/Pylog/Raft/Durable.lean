import Pylog.Log.Refine
import Pylog.Raft.LogFacts

/-!
# Pylog.Raft.Durable — `DurableRaftLog` over a `CommitLog` (durable_log.py)

The record of offset `i - 1` holds the term of entry `i` as eight big-endian bytes and its payload.
The object is the in-memory log it inherits from and its disk; a method changes the two in the
order of the source.  `time.time()`, which `append_many` reads, is the argument `now`.
-/

namespace Pylog.Raft

open Effect Effect.Handler Framing Pylog.Log

/-- `_TERM.pack(term) + bytes(payload)`, if the term fits. -/
def packEntry (term : ℕ) (payload : Bytes) : Bytes := (word 8 term).reverse ++ payload

def encodeEntryPayload (term : ℕ) (payload : Bytes) : Except LogError Bytes :=
  if term < 2 ^ 64 then .ok (packEntry term payload) else .error .structError

def decodeEntryPayload (blob : Bytes) : Except LogError (ℕ × Bytes) :=
  if blob.length < 8 then .error .structError
  else .ok (number (blob.take 8).reverse, blob.drop 8)

/-- The fields of a `DurableRaftLog`. -/
structure DurableRaftLog extends RaftLog where
  disk : CommitLog

abbrev DurableM (α : Type) := Handler DurableRaftLog FileOp LogError α

namespace DurableRaftLog

/-- A method of `self.disk`. -/
def onDisk {α : Type} (x : LogM α) : DurableM α := fun dl =>
  let r := x dl.disk
  ⟨{ dl with disk := r.state }, r.out, r.result⟩

/-- The loop of `__init__` over the records on disk. -/
def decodeRecords : List Record → Except LogError (List Entry)
  | [] => .ok []
  | rec :: rest =>
    match decodeEntryPayload rec.payload with
    | .error e => .error e
    | .ok (term, payload) =>
      match decodeRecords rest with
      | .error e => .error e
      | .ok es => .ok (⟨rec.offset + 1, term, payload⟩ :: es)

/-- `DurableRaftLog(dir_path, max_segment_bytes)` on a directory; `CommitLog` gets its default
`index_interval_bytes`. -/
def openAt (maxSegmentBytes : ℕ) (d : Folder) : Outcome DurableRaftLog FileOp LogError Unit :=
  let r := CommitLog.openAt maxSegmentBytes 4096 d
  match r.result with
  | .error e => ⟨{ disk := r.state }, r.out, .error e⟩
  | .ok _ =>
    match decodeRecords (r.state.readRange 0 r.state.nextOffset) with
    | .error e => ⟨{ disk := r.state }, r.out, .error e⟩
    | .ok es => ⟨{ entries := es, disk := r.state }, r.out, .ok ()⟩

/-- The payloads of a group commit. -/
def encodeEntries : List Entry → Except LogError (List Bytes)
  | [] => .ok []
  | e :: es =>
    match encodeEntryPayload e.term e.payload with
    | .error x => .error x
    | .ok b =>
      match encodeEntries es with
      | .error x => .error x
      | .ok bs => .ok (b :: bs)

/-- `self.disk.append_many([...])` of encoded entries. -/
def writeEntries (es : List Entry) (now : ℤ) : DurableM Unit :=
  match encodeEntries es with
  | .error e => raise e
  | .ok payloads => do
    let _ ← onDisk (CommitLog.appendMany payloads none now)
    pure ()

def appendEntry (term : ℕ) (payload : Bytes) (now : ℤ) : DurableM Entry := do
  let dl ← read
  let entry : Entry := ⟨dl.lastIndex + 1, term, payload⟩
  update fun dl => { dl with entries := dl.entries ++ [entry] }
  writeEntries [entry] now
  pure entry

/-- `truncate_disk_through`. -/
def truncateDiskThrough (raftIndex : ℕ) : DurableM Unit := do
  let _ ← onDisk (CommitLog.truncateFrom raftIndex)
  pure ()

/-- The scan of `merge` over `incoming[k:]`: the first index whose term differs or is missing. -/
def findCut (l : RaftLog) (prevIndex : ℕ) : ℕ → List Entry → Option ℕ
  | _, [] => none
  | k, inc :: rest =>
    let idx := prevIndex + 1 + k
    if l.termAt idx = -1 ∨ l.termAt idx ≠ (inc.term : ℤ) then some idx
    else findCut l prevIndex (k + 1) rest

/-- `to_add`, after `n` entries of it. -/
def toAdd (existingLast : ℕ) : ℕ → List Entry → List Entry
  | _, [] => []
  | n, inc :: rest =>
    if existingLast < inc.index then
      ⟨existingLast + 1 + n, inc.term, inc.payload⟩ :: toAdd existingLast (n + 1) rest
    else toAdd existingLast n rest

/-- The cut of `merge`, in the cache and on disk. -/
def cutFrom : Option ℕ → DurableM Unit
  | none => pure ()
  | some cut => do
    update fun dl => { dl with entries := dl.entries.filter fun e => decide (e.index < cut) }
    let _ ← onDisk (CommitLog.truncateFrom ((cut : ℤ) - 1))
    pure ()

def merge (prevIndex : ℕ) (prevTerm : ℤ) (incoming : List Entry) (now : ℤ) :
    DurableM (Bool × ℕ × ℕ) := do
  let dl ← read
  if dl.lastIndex < prevIndex then pure (false, 0, dl.lastIndex + 1)
  else if dl.termAt prevIndex ≠ prevTerm then
    pure (false, 0, dl.conflictTermFirstIndex (dl.termAt prevIndex) prevIndex)
  else do
    cutFrom (findCut dl.toRaftLog prevIndex 0 incoming)
    let dl ← read
    let added := toAdd dl.lastIndex 0 incoming
    update fun dl => { dl with entries := dl.entries ++ added }
    when (added ≠ []) (writeEntries added now)
    pure (true, prevIndex + incoming.length, 0)

end DurableRaftLog

/-! ### The payload codec -/

theorem decodeEntryPayload_pack {term : ℕ} (h : term < 2 ^ 64) (payload : Bytes) :
    decodeEntryPayload (packEntry term payload) = .ok (term, payload) := by
  have hlen : (word 8 term).reverse.length = 8 := by simp
  unfold decodeEntryPayload packEntry
  rw [if_neg (by rw [List.length_append, hlen]; omega), List.take_left' hlen, List.drop_left' hlen,
    List.reverse_reverse, number_word h]

/-- The term of a record is one of eight bytes. -/
theorem term_lt_of_decode {blob payload : Bytes} {term : ℕ}
    (h : decodeEntryPayload blob = .ok (term, payload)) : term < 2 ^ 64 := by
  unfold decodeEntryPayload at h
  split_ifs at h with hlen
  have hlt := number_lt (blob.take 8).reverse
  rw [List.length_reverse, List.length_take_of_le (by omega)] at hlt
  rw [← (Prod.mk.inj (Except.ok.inj h)).1]
  exact hlt

theorem encodeEntryPayload_eq {term : ℕ} (h : term < 2 ^ 64) (payload : Bytes) :
    encodeEntryPayload term payload = .ok (packEntry term payload) := by
  rw [encodeEntryPayload, if_pos h]

/-- The record of an entry. -/
def recordPayload (e : Entry) : Bytes := packEntry e.term e.payload

theorem encodeEntries_eq : ∀ {es : List Entry}, (∀ e ∈ es, e.term < 2 ^ 64) →
    DurableRaftLog.encodeEntries es = .ok (es.map recordPayload)
  | [], _ => rfl
  | e :: es, h => by
    have he := encodeEntryPayload_eq (h e (by simp)) e.payload
    rw [DurableRaftLog.encodeEntries, he, encodeEntries_eq fun e' he' => h e' (by simp [he'])]
    rfl

namespace RaftLog

variable {prevIndex : ℕ}

/-! ### The two merges -/

/-- The window carries the indexes behind `prev_index`. -/
def Numbered (prevIndex : ℕ) (incoming : List Entry) : Prop :=
  ∀ k e, incoming[k]? = some e → e.index = prevIndex + 1 + k

theorem reindex_shift (p k : ℕ) : ∀ (n : ℕ) (es : List Entry),
    reindex (p + k) n es = reindex p (k + n) es
  | _, [] => rfl
  | n, e :: es => by
    rw [reindex, reindex, reindex_shift p k (n + 1) es]
    congr 2
    omega

theorem toAdd_above (last : ℕ) : ∀ (es : List Entry) (n : ℕ), (∀ e ∈ es, last < e.index) →
    DurableRaftLog.toAdd last n es = reindex last n es
  | [], _, _ => rfl
  | e :: es, n, h => by
    rw [DurableRaftLog.toAdd, if_pos (h e (by simp)), toAdd_above last es (n + 1)
      fun e' he' => h e' (by simp [he'])]
    rfl

theorem toAdd_skip (last : ℕ) : ∀ (es fs : List Entry) (n : ℕ), (∀ e ∈ es, e.index ≤ last) →
    DurableRaftLog.toAdd last n (es ++ fs) = DurableRaftLog.toAdd last n fs
  | [], _, _, _ => rfl
  | e :: es, fs, n, h => by
    have he := h e (by simp)
    rw [List.cons_append, DurableRaftLog.toAdd, if_neg (by omega), toAdd_skip last es fs n
      fun e' he' => h e' (by simp [he'])]

/-- Entries at or below the log's end are skipped, the others are appended with their indexes. -/
theorem toAdd_numbered {incoming : List Entry} (hn : Numbered prevIndex incoming) {k : ℕ}
    (hk : k ≤ incoming.length) :
    DurableRaftLog.toAdd (prevIndex + k) 0 incoming = reindex prevIndex k (incoming.drop k) := by
  have hlow : ∀ e ∈ incoming.take k, e.index ≤ prevIndex + k := by
    intro e he
    obtain ⟨j, hj, rfl⟩ := List.getElem_of_mem he
    have hj' : j < k := by
      rw [List.length_take] at hj
      omega
    have hidx := hn j _ (List.getElem?_eq_getElem (by omega : j < incoming.length))
    rw [List.getElem_take]
    omega
  have hhigh : ∀ e ∈ incoming.drop k, prevIndex + k < e.index := by
    intro e he
    obtain ⟨j, hj, rfl⟩ := List.getElem_of_mem he
    have hj' : k + j < incoming.length := by
      rw [List.length_drop] at hj
      omega
    have hidx := hn (k + j) _ (List.getElem?_eq_getElem hj')
    rw [List.getElem_drop]
    omega
  conv_lhs => rw [← List.take_append_drop k incoming]
  rw [toAdd_skip _ _ _ _ hlow, toAdd_above _ _ _ hhigh, reindex_shift, Nat.add_zero]

end RaftLog

end Pylog.Raft
