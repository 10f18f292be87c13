import Pylog.Net.Wire
import Pylog.Raft.DurableFacts

/-!
# Pylog.Raft.Orphans — entries of a `DurableRaftLog` that cannot be encoded (durable_log.py:22–93)

A payload is any value a caller hands over and a term any integer; `toBytes` is Python's
`bytes(payload)`.  Both methods change the cache before they encode, so a call that raises there
leaves entries behind that no record stands for.
-/

namespace Pylog.Raft

open Effect Effect.Handler Framing Pylog.Log

/-- What `_TERM.pack(term) + bytes(payload)` raises. -/
inductive EncodeError
  | typeError
  | valueError
  | overflowError
  | structError
  deriving DecidableEq, Repr

inductive CallError
  | encode (e : EncodeError)
  | disk (e : LogError)
  deriving DecidableEq, Repr

/-- An item of the iterable `bytes` is given. -/
def byteOf : Net.Value → Except EncodeError UInt8
  | .int n => if 0 ≤ n ∧ n < 256 then .ok (UInt8.ofNat n.toNat) else .error .valueError
  | .bool b => .ok (if b then 1 else 0)
  | _ => .error .typeError

def bytesOfList : List Net.Value → Except EncodeError Bytes
  | [] => .ok []
  | x :: xs =>
    match byteOf x with
    | .error e => .error e
    | .ok b =>
      match bytesOfList xs with
      | .error e => .error e
      | .ok bs => .ok (b :: bs)

/-- `bytes(payload)` of what a message carries: a count of zeros, the items of a list, or the keys
of a dict, which are no integers. -/
def bytesOf : Net.Value → Except EncodeError Bytes
  | .bytes b => .ok b
  | .int n =>
    if n < -2 ^ 63 ∨ 2 ^ 63 ≤ n then .error .overflowError
    else if n < 0 then .error .valueError
    else .ok (List.replicate n.toNat 0)
  | .bool b => .ok (if b then [0] else [])
  | .list xs => bytesOfList xs
  | .dict items => if items.isEmpty then .ok [] else .error .typeError
  | .null => .error .typeError
  | .str _ => .error .typeError

structure RawEntry (π : Type) where
  index : ℤ
  term : ℤ
  payload : π

/-- The fields of a `DurableRaftLog` the methods below read. -/
structure RawLog (π : Type) where
  entries : List (RawEntry π) := []
  firstIndex : ℕ := 1
  disk : CommitLog

abbrev RawM (π α : Type) := Handler (RawLog π) FileOp CallError α

namespace RawLog

section Methods

variable {π : Type} (toBytes : π → Except EncodeError Bytes)

def lastIndex (dl : RawLog π) : ℤ :=
  match dl.entries.getLast? with
  | some e => e.index
  | none => 0

def termAt (dl : RawLog π) (index : ℤ) : ℤ :=
  if index = 0 then 0
  else if 0 ≤ index - dl.firstIndex then
    match dl.entries[(index - dl.firstIndex).toNat]? with
    | some e => e.term
    | none => -1
  else -1

/-- First loop of `conflict_term_first_index`. -/
def seekTerm (dl : RawLog π) (term : ℤ) : ℕ → ℕ
  | 0 => 0
  | i + 1 =>
    if dl.firstIndex - 1 < i + 1 ∧ dl.termAt (i + 1 : ℕ) ≠ term then seekTerm dl term i else i + 1

/-- Second loop of `conflict_term_first_index`. -/
def seekFirst (dl : RawLog π) (term : ℤ) : ℕ → ℕ
  | 0 => 0
  | i + 1 => if 1 < i + 1 ∧ dl.termAt i = term then seekFirst dl term i else i + 1

/-- From an index below zero neither loop runs. -/
def conflictTermFirstIndex (dl : RawLog π) (term fromIndex : ℤ) : ℕ :=
  max 1 (dl.seekFirst term (dl.seekTerm term fromIndex.toNat))

/-- `_TERM.pack(term) + bytes(payload)`: the term is packed first. -/
def encodeEntryPayload (term : ℤ) (payload : π) : Except EncodeError Bytes :=
  if 0 ≤ term ∧ term < 2 ^ 64 then
    match toBytes payload with
    | .error e => .error e
    | .ok b => .ok (packEntry term.toNat b)
  else .error .structError

def encodeEntries : List (RawEntry π) → Except EncodeError (List Bytes)
  | [] => .ok []
  | e :: es =>
    match encodeEntryPayload toBytes e.term e.payload with
    | .error x => .error x
    | .ok b =>
      match encodeEntries es with
      | .error x => .error x
      | .ok bs => .ok (b :: bs)

/-- A method of `self.disk`. -/
def onDisk {α : Type} (x : LogM α) : RawM π α := fun dl =>
  let r := x dl.disk
  ⟨{ dl with disk := r.state }, r.out, r.result.mapError .disk⟩

/-- `self.disk.append_many([...])` of encoded entries. -/
def writeEntries (es : List (RawEntry π)) (now : ℤ) : RawM π Unit :=
  match encodeEntries toBytes es with
  | .error e => raise (.encode e)
  | .ok payloads => do
    let _ ← onDisk (CommitLog.appendMany payloads none now)
    pure ()

def appendEntry (term : ℤ) (payload : π) (now : ℤ) : RawM π (RawEntry π) := do
  let dl ← read
  let entry : RawEntry π := ⟨dl.lastIndex + 1, term, payload⟩
  update fun dl => { dl with entries := dl.entries ++ [entry] }
  writeEntries toBytes [entry] now
  pure entry

/-- The scan of `merge` over `incoming[k:]`: the first index whose term differs or is missing. -/
def findCut (dl : RawLog π) (prevIndex : ℤ) : ℕ → List (RawEntry π) → Option ℤ
  | _, [] => none
  | k, inc :: rest =>
    let idx := prevIndex + 1 + k
    if dl.termAt idx = -1 ∨ dl.termAt idx ≠ inc.term then some idx
    else findCut dl prevIndex (k + 1) rest

/-- `to_add`, after `n` entries of it. -/
def toAdd (existingLast : ℤ) : ℕ → List (RawEntry π) → List (RawEntry π)
  | _, [] => []
  | n, inc :: rest =>
    if existingLast < inc.index then
      ⟨existingLast + 1 + n, inc.term, inc.payload⟩ :: toAdd existingLast (n + 1) rest
    else toAdd existingLast n rest

/-- The cut of `merge`, in the cache and on disk. -/
def cutFrom : Option ℤ → RawM π Unit
  | none => pure ()
  | some cut => do
    update fun dl => { dl with entries := dl.entries.filter fun e => decide (e.index < cut) }
    let _ ← onDisk (CommitLog.truncateFrom (cut - 1))
    pure ()

def merge (prevIndex prevTerm : ℤ) (incoming : List (RawEntry π)) (now : ℤ) :
    RawM π (Bool × ℤ × ℤ) := do
  let dl ← read
  if dl.lastIndex < prevIndex then pure (false, 0, dl.lastIndex + 1)
  else if dl.termAt prevIndex ≠ prevTerm then
    pure (false, 0, (dl.conflictTermFirstIndex (dl.termAt prevIndex) prevIndex : ℤ))
  else do
    cutFrom (findCut dl prevIndex 0 incoming)
    let dl ← read
    let added := toAdd dl.lastIndex 0 incoming
    update fun dl => { dl with entries := dl.entries ++ added }
    when (added ≠ []) (writeEntries toBytes added now)
    pure (true, prevIndex + incoming.length, 0)

/-- A call that writes. -/
inductive LogCall (π : Type)
  | appendEntry (term : ℤ) (payload : π)
  | merge (prevIndex prevTerm : ℤ) (incoming : List (RawEntry π))

def call (now : ℤ) : LogCall π → RawM π Unit
  | .appendEntry term payload => do
    let _ ← appendEntry toBytes term payload now
    pure ()
  | .merge prevIndex prevTerm incoming => do
    let _ ← merge toBytes prevIndex prevTerm incoming now
    pure ()

end Methods

/-! ### Cache and disk -/

section Coherence

variable {π : Type} {toBytes : π → Except EncodeError Bytes} {dl : RawLog π}

/-- Record `index - 1` decodes to the term and the bytes of the entry. -/
def OnDisk (toBytes : π → Except EncodeError Bytes) (disk : CommitLog) (e : RawEntry π) : Prop :=
  ∃ r term b, disk.read (e.index - 1) = some r ∧ decodeEntryPayload r.payload = .ok (term, b) ∧
    e.term = (term : ℤ) ∧ toBytes e.payload = .ok b

/-- Entries and records are one to one. -/
structure Corresponds (toBytes : π → Except EncodeError Bytes) (dl : RawLog π) : Prop where
  next : (dl.disk.nextOffset : ℤ) = dl.lastIndex
  records : ∀ e ∈ dl.entries, OnDisk toBytes dl.disk e

/-- The entries are numbered from `1` on. -/
def Indexed (es : List (RawEntry π)) : Prop :=
  ∀ (k : ℕ) (e : RawEntry π), es[k]? = some e → e.index = (k : ℤ) + 1

/-- A log that was never compacted, with records from offset `0` on that are not ahead of the
entries. -/
structure Uncompacted (dl : RawLog π) : Prop where
  first : dl.firstIndex = 1
  indexed : Indexed dl.entries
  disk : ∃ items, Tracks dl.disk ⟨0, items⟩ ∧ items.length ≤ dl.entries.length

theorem lastIndex_eq (h : Indexed dl.entries) : dl.lastIndex = dl.entries.length := by
  unfold lastIndex
  rw [List.getLast?_eq_getElem?]
  cases he : dl.entries[dl.entries.length - 1]? with
  | none =>
    have := List.getElem?_eq_none_iff.mp he
    dsimp only
    omega
  | some e =>
    have hlt := (List.getElem?_eq_some_iff.mp he).1
    have := h _ e he
    dsimp only
    omega

theorem indexed_append {es fs : List (RawEntry π)} (h : Indexed es)
    (hf : ∀ (k : ℕ) (e : RawEntry π), fs[k]? = some e → e.index = (es.length : ℤ) + 1 + k) :
    Indexed (es ++ fs) := by
  intro k e he
  by_cases hk : k < es.length
  · rw [List.getElem?_append_left hk] at he
    exact h k e he
  · rw [List.getElem?_append_right (by omega)] at he
    have := hf _ e he
    omega

theorem getElem_toAdd {last : ℤ} : ∀ (incoming : List (RawEntry π)) (n k : ℕ) {e : RawEntry π},
    (toAdd last n incoming)[k]? = some e → e.index = last + 1 + n + k
  | [], _, _, _, h => by simp [toAdd] at h
  | inc :: rest, n, k, e, h => by
    unfold toAdd at h
    split_ifs at h
    · cases k with
      | zero =>
        cases h
        simp
      | succ k =>
        have := getElem_toAdd rest (n + 1) k h
        push_cast at this ⊢
        omega
    · exact getElem_toAdd rest n k h

/-- The disk of a log ends where its records do. -/
theorem nextOffset_eq {disk : CommitLog} {items : List Datum} (h : Tracks disk ⟨0, items⟩) :
    disk.nextOffset = items.length := by
  rw [h.observes.1]
  exact Nat.zero_add _

/-- An entry that cannot be encoded has no record. -/
theorem not_onDisk {e : RawEntry π} {x : EncodeError} {disk : CommitLog}
    (h : encodeEntryPayload toBytes e.term e.payload = .error x) : ¬ OnDisk toBytes disk e := by
  rintro ⟨r, term, b, hr, hdec, ht, hb⟩
  have hlt := term_lt_of_decode hdec
  unfold encodeEntryPayload at h
  rw [if_pos (by omega), hb] at h
  cases h

/-! ### Calls that raise -/

theorem encodeEntries_error {x : EncodeError} : ∀ {es : List (RawEntry π)},
    encodeEntries toBytes es = .error x →
    ∃ e ∈ es, encodeEntryPayload toBytes e.term e.payload = .error x
  | [], h => by cases h
  | e :: es, h => by
    unfold encodeEntries at h
    cases he : encodeEntryPayload toBytes e.term e.payload with
    | error y =>
      rw [he] at h
      exact ⟨e, List.mem_cons_self, by rw [he, Except.error.inj h]⟩
    | ok b =>
      rw [he] at h
      cases hes : encodeEntries toBytes es with
      | error y =>
        rw [hes] at h
        have hy : encodeEntries toBytes es = .error x := by rw [hes, Except.error.inj h]
        obtain ⟨e', he', hx⟩ := encodeEntries_error hy
        exact ⟨e', List.mem_cons_of_mem _ he', hx⟩
      | ok bs =>
        rw [hes] at h
        cases h

/-- The disk raises nothing of the encoding. -/
theorem onDisk_result {α : Type} {x : LogM α} {e : EncodeError} :
    (onDisk x dl).result ≠ .error (.encode e) := by
  show (x dl.disk).result.mapError _ ≠ _
  cases (x dl.disk).result with
  | error y => exact fun h => by cases h
  | ok a => exact fun h => by cases h

/-- A write that raises for the encoding has changed nothing. -/
theorem writeEntries_raised {es : List (RawEntry π)} {now : ℤ} {x : EncodeError}
    (h : (writeEntries toBytes es now dl).result = .error (.encode x)) :
    (writeEntries toBytes es now dl).state = dl ∧
      ∃ e ∈ es, encodeEntryPayload toBytes e.term e.payload = .error x := by
  unfold writeEntries at h ⊢
  cases he : encodeEntries toBytes es with
  | error y =>
    rw [he] at h
    have hy : y = x := by
      cases h
      rfl
    exact ⟨rfl, encodeEntries_error (by rw [he, hy])⟩
  | ok payloads =>
    rw [he] at h
    exact absurd (bind_pure_error h) onDisk_result

theorem cutFrom_raised {cut : Option ℤ} {x : EncodeError} :
    (cutFrom cut dl).result ≠ .error (.encode x) := by
  cases cut with
  | none => exact fun h => by cases h
  | some c => exact fun h => onDisk_result (bind_pure_error h)

theorem appendEntry_raised {term : ℤ} {payload : π} {now : ℤ} {x : EncodeError}
    (h : (appendEntry toBytes term payload now dl).result = .error (.encode x)) :
    (appendEntry toBytes term payload now dl).state =
        { dl with entries := dl.entries ++ [⟨dl.lastIndex + 1, term, payload⟩] } ∧
      encodeEntryPayload toBytes term payload = .error x := by
  unfold appendEntry at h ⊢
  rw [read_bind] at h ⊢
  rw [update_bind] at h ⊢
  obtain ⟨hstate, e, he, hx⟩ := writeEntries_raised (bind_pure_error h)
  rw [bind_pure_state, hstate]
  rw [List.mem_singleton.mp he] at hx
  exact ⟨rfl, hx⟩

/-- A `merge` that raises for the encoding has made its cut and extended the cache. -/
theorem merge_raised {prevIndex prevTerm : ℤ} {incoming : List (RawEntry π)} {now : ℤ}
    {x : EncodeError}
    (h : (merge toBytes prevIndex prevTerm incoming now dl).result = .error (.encode x)) :
    ∃ dl' o, cutFrom (findCut dl prevIndex 0 incoming) dl = ⟨dl', o, .ok ()⟩ ∧
      (merge toBytes prevIndex prevTerm incoming now dl).state =
        { dl' with entries := dl'.entries ++ toAdd dl'.lastIndex 0 incoming } ∧
      ∃ e ∈ toAdd dl'.lastIndex 0 incoming,
        encodeEntryPayload toBytes e.term e.payload = .error x := by
  unfold merge at h ⊢
  rw [read_bind] at h ⊢
  by_cases h1 : dl.lastIndex < prevIndex
  · rw [if_pos h1] at h
    cases h
  · rw [if_neg h1] at h ⊢
    by_cases h2 : dl.termAt prevIndex ≠ prevTerm
    · rw [if_pos h2] at h
      cases h
    · rw [if_neg h2] at h ⊢
      rcases bind_raised h with hcut | ⟨dl', o, _, hcut, hrest, hstate⟩
      · exact absurd hcut cutFrom_raised
      · refine ⟨dl', o, hcut, ?_⟩
        rw [hstate]
        rw [read_bind] at hrest ⊢
        rw [update_bind] at hrest ⊢
        have hwrite := bind_pure_error hrest
        by_cases hne : toAdd dl'.lastIndex 0 incoming = []
        · rw [when_eq_of_neg (not_not.mpr hne)] at hwrite
          cases hwrite
        · rw [when_eq_of_pos hne] at hwrite
          obtain ⟨hsame, hmem⟩ := writeEntries_raised hwrite
          rw [bind_pure_state, when_eq_of_pos hne, hsame]
          exact ⟨rfl, hmem⟩

/-! ### A log without compaction -/

/-- The cut of an uncompacted log keeps the entries and the records below it. -/
theorem Uncompacted.cutFrom (h : Uncompacted dl) {cut : Option ℤ} (hpos : ∀ c ∈ cut, 0 < c) :
    ∃ dl' o, RawLog.cutFrom cut dl = ⟨dl', o, .ok ()⟩ ∧ Uncompacted dl' := by
  cases cut with
  | none => exact ⟨dl, [], rfl, h⟩
  | some c =>
    obtain ⟨n, hn⟩ := Int.eq_ofNat_of_zero_le (show 0 ≤ c - 1 by have := hpos c rfl; omega)
    obtain ⟨items, ht, hle⟩ := h.disk
    obtain ⟨disk', changed, out, hrun, ht'⟩ := ht.truncateFrom (Nat.zero_le n)
    have hkept : dl.entries.filter (fun e => decide (e.index < c)) = dl.entries.take n := by
      refine filter_eq_take fun k e he => ?_
      have := h.indexed k e he
      exact decide_eq_decide.mpr (by omega)
    have hdisk : onDisk (CommitLog.truncateFrom (c - 1))
        { dl with entries := dl.entries.filter fun e => decide (e.index < c) } =
          ⟨⟨dl.entries.take n, dl.firstIndex, disk'⟩, out, .ok changed⟩ := by
      unfold onDisk
      dsimp only
      rw [hn, hrun, hkept]
      rfl
    refine ⟨_, out ++ [], update_run (bind_run hdisk (pure_eq _ _)), h.first, ?_, items.take n, ht', ?_⟩
    · intro k e he
      have hk := (List.getElem?_eq_some_iff.mp he).1
      rw [List.length_take] at hk
      rw [List.getElem?_take_of_lt (by omega)] at he
      exact h.indexed k e he
    · rw [List.length_take, List.length_take]
      omega

theorem findCut_pos {prevIndex c : ℤ} : ∀ {incoming : List (RawEntry π)} {k : ℕ},
    findCut dl prevIndex k incoming = some c → prevIndex < c
  | [], _, h => by cases h
  | inc :: rest, k, h => by
    unfold findCut at h
    dsimp only at h
    split_ifs at h
    · cases h
      omega
    · exact findCut_pos h

/-- The index before the window is one of a log, or the one before its first. -/
def LogCall.Proper : LogCall π → Prop
  | .appendEntry _ _ => True
  | .merge prevIndex _ _ => 0 ≤ prevIndex

/-- What a call leaves that raises for the encoding: a log, and entries behind it of which one has
no encoding. -/
theorem call_raised {c : LogCall π} {now : ℤ} {x : EncodeError}
    (h : (call toBytes now c dl).result = .error (.encode x)) :
    ∃ (dl' : RawLog π) (added : List (RawEntry π)),
      (call toBytes now c dl).state = { dl' with entries := dl'.entries ++ added } ∧
      (∃ e ∈ added, encodeEntryPayload toBytes e.term e.payload = .error x) ∧
      (Uncompacted dl → c.Proper → Uncompacted dl' ∧ ∀ (k : ℕ) (e : RawEntry π),
        added[k]? = some e → e.index = (dl'.entries.length : ℤ) + 1 + k) := by
  cases c with
  | appendEntry term payload =>
    obtain ⟨hstate, hx⟩ := appendEntry_raised (bind_pure_error h)
    refine ⟨dl, [⟨dl.lastIndex + 1, term, payload⟩], (bind_pure_state _ _ _).trans hstate,
      ⟨_, List.mem_singleton_self _, hx⟩, fun hdl _ => ⟨hdl, ?_⟩⟩
    intro k e he
    rw [List.getElem?_singleton] at he
    split_ifs at he with hk
    cases he
    show dl.lastIndex + 1 = _
    rw [hk, lastIndex_eq hdl.indexed]
    omega
  | merge prevIndex prevTerm incoming =>
    obtain ⟨dl', o, hcut, hstate, hx⟩ := merge_raised (bind_pure_error h)
    refine ⟨dl', _, (bind_pure_state _ _ _).trans hstate, hx, fun hdl hp => ?_⟩
    have hprev : 0 ≤ prevIndex := hp
    have hpos : ∀ c ∈ findCut dl prevIndex 0 incoming, 0 < c := by
      intro c hc
      have := findCut_pos hc
      omega
    obtain ⟨dl₁, o₁, hrun, h₁⟩ := hdl.cutFrom hpos
    cases hcut.symm.trans hrun
    refine ⟨h₁, fun k e he => ?_⟩
    have hk := getElem_toAdd incoming 0 k he
    rw [lastIndex_eq h₁.indexed] at hk
    omega

/-- **Orphans**: a call that raises because an entry cannot be encoded leaves a cache that the disk
does not match.  Without compaction the disk then ends below the cache. -/
theorem failed_call_orphans {c : LogCall π} {now : ℤ} {x : EncodeError}
    (h : (call toBytes now c dl).result = .error (.encode x)) :
    ¬ Corresponds toBytes (call toBytes now c dl).state ∧
      (Uncompacted dl → c.Proper → Uncompacted (call toBytes now c dl).state ∧
        ((call toBytes now c dl).state.disk.nextOffset : ℤ) <
          (call toBytes now c dl).state.lastIndex) := by
  obtain ⟨dl', added, hstate, ⟨e, he, hx⟩, hgap⟩ := call_raised h
  rw [hstate]
  refine ⟨fun hc => not_onDisk hx (hc.records e (List.mem_append_right _ he)), fun hdl hp => ?_⟩
  obtain ⟨h', hidx⟩ := hgap hdl hp
  obtain ⟨items, ht, hle⟩ := h'.disk
  have hindexed := indexed_append h'.indexed hidx
  have hadded := List.length_pos_of_mem he
  refine ⟨⟨h'.first, hindexed, items, ht, ?_⟩, ?_⟩
  · rw [List.length_append]
    omega
  · rw [lastIndex_eq hindexed, nextOffset_eq ht, List.length_append]
    omega

end Coherence

/-- A log on an empty directory. -/
theorem uncompacted_empty {π : Type} (maxSegmentBytes : ℕ) :
    Uncompacted (⟨[], 1, (CommitLog.openAt maxSegmentBytes 4096 {}).state⟩ : RawLog π) := by
  obtain ⟨s, out, hrun, hl, hn, -, -⟩ := CommitLog.openAt_nil maxSegmentBytes 4096
  rw [hrun]
  exact ⟨rfl, by simp [Indexed], [], ⟨CommitLog.emptyShape, hl, hn, rfl⟩, le_rfl⟩

/-- A propose request of a leader, with the payload `null`. -/
theorem failed_call_orphans_null :
    ¬ Corresponds bytesOf (call bytesOf 0 (.appendEntry 1 .null)
        ⟨[], 1, (CommitLog.openAt 100 4096 {}).state⟩).state ∧
      ((call bytesOf 0 (.appendEntry 1 .null)
        ⟨[], 1, (CommitLog.openAt 100 4096 {}).state⟩).state.disk.nextOffset : ℤ) <
      (call bytesOf 0 (.appendEntry 1 .null)
        ⟨[], 1, (CommitLog.openAt 100 4096 {}).state⟩).state.lastIndex := by
  have hraise : (call bytesOf 0 (.appendEntry 1 .null)
      ⟨[], 1, (CommitLog.openAt 100 4096 {}).state⟩).result = .error (.encode .typeError) := rfl
  obtain ⟨happart, hgap⟩ := failed_call_orphans hraise
  exact ⟨happart, (hgap (uncompacted_empty 100) trivial).2⟩

/-- After a propose request of `null` and one of the byte `65`, the second entry of the cache is in
the first record, and a reopened log has it at index `1`. -/
theorem null_payload_shifts :
    let failed := call bytesOf 0 (.appendEntry 1 .null)
      ⟨[], 1, (CommitLog.openAt 100 4096 {}).state⟩
    let next := call bytesOf 0 (.appendEntry 1 (.bytes [65])) failed.state
    failed.result = .error (.encode .typeError) ∧ ¬ Corresponds bytesOf failed.state ∧
      next.result = .ok () ∧ ¬ Corresponds bytesOf next.state ∧
      next.state.entries.map RawEntry.index = [1, 2] ∧
      (DurableRaftLog.openAt 100 next.state.disk.folder).state.entries = [⟨1, 1, [65]⟩] := by
  refine ⟨rfl, fun h => absurd h.next (by decide +kernel), by decide +kernel,
    fun h => absurd h.next (by decide +kernel), by decide +kernel, by decide +kernel⟩

/-! ### The log of bytes -/

section OfDurable

variable {π : Type} {toBytes : π → Except EncodeError Bytes} (val : Bytes → π)

/-- An entry whose payload is the value of some bytes. -/
def ofEntry (e : Entry) : RawEntry π := ⟨e.index, e.term, val e.payload⟩

def ofDurable (dl : DurableRaftLog) : RawLog π := ⟨dl.entries.map (ofEntry val), dl.firstIndex, dl.disk⟩

/-- Two outcomes with the same state and effects, that both raise or return related values. -/
structure Agrees {α β : Type} (R : α → β → Prop) (x : Outcome (RawLog π) FileOp CallError α)
    (y : Outcome DurableRaftLog FileOp LogError β) : Prop where
  state : x.state = ofDurable val y.state
  out : x.out = y.out
  result : (∃ e e', x.result = .error e ∧ y.result = .error e') ∨
    ∃ a b, x.result = .ok a ∧ y.result = .ok b ∧ R a b

variable {val} {α β γ δ : Type} {R : α → β → Prop} {S : γ → δ → Prop} {dl : DurableRaftLog}

theorem agrees_pure {a : α} {b : β} (h : R a b) :
    Agrees val R ((pure a : RawM π α) (ofDurable val dl)) ((pure b : DurableM β) dl) :=
  ⟨rfl, rfl, .inr ⟨a, b, rfl, rfl, h⟩⟩

theorem agrees_bind {x : RawM π α} {y : DurableM β} {f : α → RawM π γ} {g : β → DurableM δ}
    (h : Agrees val R (x (ofDurable val dl)) (y dl))
    (hfg : ∀ a b dl', R a b → Agrees val S (f a (ofDurable val dl')) (g b dl')) :
    Agrees val S ((x >>= f) (ofDurable val dl)) ((y >>= g) dl) := by
  obtain ⟨hstate, hout, hresult⟩ := h
  cases hx : x (ofDurable val dl) with
  | mk s o r =>
    cases hy : y dl with
    | mk dl' o' r' =>
      rw [hx, hy] at hstate hout hresult
      dsimp only at hstate hout hresult
      subst hstate hout
      rcases hresult with ⟨e, e', rfl, rfl⟩ | ⟨a, b, rfl, rfl, hR⟩
      · rw [bind_error hx, bind_error hy]
        exact ⟨rfl, rfl, .inl ⟨e, e', rfl, rfl⟩⟩
      · obtain ⟨h1, h2, h3⟩ := hfg a b dl' hR
        rw [bind_eq hx, bind_eq hy]
        exact ⟨h1, congrArg (o ++ ·) h2, h3⟩

theorem agrees_onDisk (x : LogM α) :
    Agrees val Eq (onDisk x (ofDurable val dl)) (DurableRaftLog.onDisk x dl) := by
  refine ⟨rfl, rfl, ?_⟩
  show (∃ e e', (x dl.disk).result.mapError _ = .error e ∧ (x dl.disk).result = .error e') ∨ _
  cases hx : (x dl.disk).result with
  | error e => exact .inl ⟨_, e, rfl, rfl⟩
  | ok a =>
    refine .inr ⟨a, a, ?_, hx, rfl⟩
    show (x dl.disk).result.mapError _ = _
    rw [hx]
    rfl

theorem encodeEntries_ofEntry (hval : ∀ b, toBytes (val b) = .ok b) : ∀ es : List Entry,
    encodeEntries toBytes (es.map (ofEntry val)) =
      (DurableRaftLog.encodeEntries es).mapError fun _ => .structError
  | [] => rfl
  | e :: es => by
    have ih := encodeEntries_ofEntry hval es
    have he : encodeEntryPayload toBytes (ofEntry val e).term (ofEntry val e).payload =
        (Pylog.Raft.encodeEntryPayload e.term e.payload).mapError fun _ => .structError := by
      unfold encodeEntryPayload Pylog.Raft.encodeEntryPayload ofEntry
      dsimp only
      rw [hval]
      by_cases ht : e.term < 2 ^ 64
      · rw [if_pos (by omega), if_pos ht]
        rfl
      · rw [if_neg (by omega), if_neg ht]
        rfl
    rw [List.map_cons, encodeEntries, DurableRaftLog.encodeEntries, ih, he]
    cases Pylog.Raft.encodeEntryPayload e.term e.payload with
    | error x => rfl
    | ok b => cases DurableRaftLog.encodeEntries es <;> rfl

theorem agrees_writeEntries (hval : ∀ b, toBytes (val b) = .ok b) (es : List Entry) (now : ℤ) :
    Agrees val Eq (writeEntries toBytes (es.map (ofEntry val)) now (ofDurable val dl))
      (DurableRaftLog.writeEntries es now dl) := by
  unfold writeEntries DurableRaftLog.writeEntries
  rw [encodeEntries_ofEntry hval]
  cases DurableRaftLog.encodeEntries es with
  | error x => exact ⟨rfl, rfl, .inl ⟨_, _, rfl, rfl⟩⟩
  | ok payloads => exact agrees_bind (agrees_onDisk _) fun _ _ _ _ => agrees_pure rfl

theorem lastIndex_ofDurable : (ofDurable val dl).lastIndex = dl.lastIndex := by
  unfold lastIndex RaftLog.lastIndex ofDurable
  rw [List.getLast?_map]
  cases dl.entries.getLast? <;> rfl

/-- **Bytes**: with bytes for its payload, `append_entry` is that of the log of bytes. -/
theorem appendEntry_ofDurable (hval : ∀ b, toBytes (val b) = .ok b) (term : ℕ) (payload : Bytes)
    (now : ℤ) : Agrees val (fun e e' => e = ofEntry val e')
      (appendEntry toBytes term (val payload) now (ofDurable val dl))
      (DurableRaftLog.appendEntry term payload now dl) := by
  unfold appendEntry DurableRaftLog.appendEntry
  rw [read_bind, read_bind, lastIndex_ofDurable, update_bind, update_bind]
  have hcache : (⟨(ofDurable val dl).entries ++ [⟨(dl.lastIndex : ℤ) + 1, term, val payload⟩],
      (ofDurable val dl).firstIndex, (ofDurable val dl).disk⟩ : RawLog π) =
      ofDurable val { dl with entries := dl.entries ++ [⟨dl.lastIndex + 1, term, payload⟩] } := by
    unfold ofDurable ofEntry
    simp
  rw [hcache]
  exact agrees_bind (agrees_writeEntries hval [⟨dl.lastIndex + 1, term, payload⟩] now)
    fun _ _ _ _ => agrees_pure (by simp [ofEntry])

theorem termAt_ofDurable (i : ℕ) : (ofDurable val dl).termAt i = dl.termAt i := by
  unfold termAt RaftLog.termAt RaftLog.get ofDurable
  dsimp only
  by_cases h0 : i = 0
  · rw [if_pos (by exact_mod_cast h0), if_pos h0]
  · rw [if_neg (by exact_mod_cast h0), if_neg h0]
    by_cases hi : dl.firstIndex ≤ i
    · rw [if_pos (by omega), if_pos hi, List.getElem?_map,
        show ((i : ℤ) - dl.firstIndex).toNat = i - dl.firstIndex by omega]
      cases dl.entries[i - dl.firstIndex]? <;> rfl
    · rw [if_neg (by omega), if_neg hi]

theorem seekTerm_ofDurable (term : ℤ) : ∀ i, (ofDurable val dl).seekTerm term i = dl.seekTerm term i
  | 0 => rfl
  | i + 1 => by
    unfold seekTerm RaftLog.seekTerm
    rw [termAt_ofDurable, seekTerm_ofDurable term i]
    rfl

theorem seekFirst_ofDurable (term : ℤ) : ∀ i,
    (ofDurable val dl).seekFirst term i = dl.seekFirst term i
  | 0 => rfl
  | i + 1 => by
    unfold seekFirst RaftLog.seekFirst
    rw [termAt_ofDurable, seekFirst_ofDurable term i]

theorem findCut_ofDurable (prevIndex : ℕ) : ∀ (incoming : List Entry) (k : ℕ),
    findCut (ofDurable val dl) prevIndex k (incoming.map (ofEntry val)) =
      (DurableRaftLog.findCut dl.toRaftLog prevIndex k incoming).map (↑)
  | [], _ => rfl
  | inc :: rest, k => by
    have hterm : (ofDurable val dl).termAt ((prevIndex : ℤ) + 1 + k) =
        dl.termAt (prevIndex + 1 + k) := termAt_ofDurable _
    rw [List.map_cons, findCut, DurableRaftLog.findCut, hterm, findCut_ofDurable prevIndex rest (k + 1)]
    by_cases hc : dl.termAt (prevIndex + 1 + k) = -1 ∨ dl.termAt (prevIndex + 1 + k) ≠ (inc.term : ℤ)
    · rw [if_pos hc]
      exact if_pos hc
    · rw [if_neg hc]
      exact if_neg hc

theorem toAdd_ofEntry (last : ℕ) : ∀ (incoming : List Entry) (n : ℕ),
    toAdd last n (incoming.map (ofEntry val)) =
      (DurableRaftLog.toAdd last n incoming).map (ofEntry val)
  | [], _ => rfl
  | inc :: rest, n => by
    rw [List.map_cons, toAdd, DurableRaftLog.toAdd, toAdd_ofEntry last rest (n + 1),
      toAdd_ofEntry last rest n]
    by_cases hi : last < inc.index
    · rw [if_pos hi]
      exact if_pos (Int.ofNat_lt.mpr hi)
    · rw [if_neg hi]
      exact if_neg fun h => hi (Int.ofNat_lt.mp h)

theorem cutFrom_ofDurable (cut : Option ℕ) :
    Agrees val Eq (cutFrom (cut.map (↑)) (ofDurable val dl)) (DurableRaftLog.cutFrom cut dl) := by
  cases cut with
  | none => exact agrees_pure rfl
  | some c =>
    have hcache : (⟨(ofDurable val dl).entries.filter fun e => decide (e.index < (c : ℤ)),
        (ofDurable val dl).firstIndex, (ofDurable val dl).disk⟩ : RawLog π) =
        ofDurable val { dl with entries := dl.entries.filter fun e => decide (e.index < c) } := by
      unfold ofDurable
      dsimp only
      rw [List.filter_map]
      congr 3
      funext e
      exact decide_eq_decide.mpr Int.ofNat_lt
    rw [Option.map_some, cutFrom, DurableRaftLog.cutFrom, update_bind, update_bind, hcache]
    exact agrees_bind (agrees_onDisk _) fun _ _ _ _ => agrees_pure rfl

/-- With bytes for its payloads, `merge` is that of the log of bytes. -/
theorem merge_ofDurable (hval : ∀ b, toBytes (val b) = .ok b) (prevIndex : ℕ) (prevTerm : ℤ)
    (incoming : List Entry) (now : ℤ) :
    Agrees val (fun r r' => r = (r'.1, (r'.2.1 : ℤ), (r'.2.2 : ℤ)))
      (merge toBytes prevIndex prevTerm (incoming.map (ofEntry val)) now (ofDurable val dl))
      (DurableRaftLog.merge prevIndex prevTerm incoming now dl) := by
  unfold merge DurableRaftLog.merge
  rw [read_bind, read_bind, lastIndex_ofDurable, termAt_ofDurable, findCut_ofDurable, List.length_map]
  by_cases h1 : dl.lastIndex < prevIndex
  · rw [if_pos (by exact_mod_cast h1), if_pos h1]
    exact agrees_pure rfl
  · rw [if_neg (by exact_mod_cast h1), if_neg h1]
    by_cases h2 : dl.termAt prevIndex ≠ prevTerm
    · rw [if_pos h2, if_pos h2]
      refine agrees_pure ?_
      unfold conflictTermFirstIndex RaftLog.conflictTermFirstIndex
      rw [Int.toNat_natCast, seekTerm_ofDurable, seekFirst_ofDurable]
      rfl
    · rw [if_neg h2, if_neg h2]
      refine agrees_bind (cutFrom_ofDurable _) fun _ _ dl' _ => ?_
      rw [read_bind, read_bind, lastIndex_ofDurable, toAdd_ofEntry, update_bind, update_bind]
      have hcache : (⟨(ofDurable val dl').entries ++
          (DurableRaftLog.toAdd dl'.lastIndex 0 incoming).map (ofEntry val),
          (ofDurable val dl').firstIndex, (ofDurable val dl').disk⟩ : RawLog π) =
          ofDurable val { dl' with
            entries := dl'.entries ++ DurableRaftLog.toAdd dl'.lastIndex 0 incoming } := by
        unfold ofDurable
        rw [List.map_append]
      rw [hcache]
      refine agrees_bind (R := Eq) ?_ fun _ _ _ _ => agrees_pure rfl
      by_cases hne : DurableRaftLog.toAdd dl'.lastIndex 0 incoming = []
      · rw [hne, when_eq_of_neg (by simp), when_eq_of_neg (by simp)]
        exact agrees_pure rfl
      · rw [when_eq_of_pos (by simpa using hne), when_eq_of_pos hne]
        exact agrees_writeEntries hval _ now

/-- A log of bytes that is on disk corresponds to it, and was not compacted. -/
theorem corresponds_ofDurable (hval : ∀ b, toBytes (val b) = .ok b) (hp : dl.toRaftLog.Plain)
    (h : Stored dl.disk dl.entries) :
    Corresponds toBytes (ofDurable val dl) ∧ Uncompacted (ofDurable val dl) := by
  have hidx : Indexed (ofDurable val dl).entries := by
    intro k e he
    rw [ofDurable, List.getElem?_map] at he
    obtain ⟨e', he', rfl⟩ := Option.map_eq_some_iff.mp he
    have := hp.indexed k e' he'
    show (e'.index : ℤ) = _
    omega
  refine ⟨⟨?_, fun e he => ?_⟩, hp.first, hidx, ?_⟩
  · rw [lastIndex_eq hidx]
    show ((dl.disk.nextOffset : ℕ) : ℤ) = ((dl.entries.map (ofEntry val)).length : ℤ)
    rw [h.length, List.length_map]
  · obtain ⟨e', he', rfl⟩ := List.mem_map.mp he
    obtain ⟨r, hr, hdec⟩ := h.onRecord he'
    exact ⟨r, e'.term, e'.payload, hr, hdec, rfl, hval _⟩
  · obtain ⟨⟨items, ht, hitems⟩, -, -⟩ := h
    have hlen := congrArg List.length hitems
    rw [List.length_map, List.length_map] at hlen
    refine ⟨items, ht, ?_⟩
    rw [ofDurable, List.length_map]
    omega

end OfDurable

end RawLog

end Pylog.Raft
