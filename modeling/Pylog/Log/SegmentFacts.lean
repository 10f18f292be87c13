import Mathlib.Data.List.Induction
import Pylog.Log.CommitLog

/-!
# What the methods of a segment do

A segment that holds the records `rs` is `(Segment.new b interval).fill rs`, up to `max_timestamp`
(which a truncation does not recompute).  For records that fit, every method is one equation: the
fields and files it leaves, its file operations and its result.

`fill_index`: the index of a longer segment extends that of a shorter one, so that a truncation can
filter it; `find_fill`: the sparse index and the scan find exactly the records the segment holds.
-/

namespace Pylog.Log

open Effect Effect.Handler Files Framing Bisect

/-! ### Operations on the directory -/

def Folder.performAll (d : Folder) (ops : List FileOp) : Folder := ops.foldl Folder.perform d

@[simp] theorem Folder.performAll_nil (d : Folder) : d.performAll [] = d := rfl

@[simp] theorem Folder.performAll_cons (d : Folder) (o : FileOp) (ops : List FileOp) :
    d.performAll (o :: ops) = (d.perform o).performAll ops := rfl

theorem Folder.performAll_append (d : Folder) (xs ys : List FileOp) :
    d.performAll (xs ++ ys) = (d.performAll xs).performAll ys := List.foldl_append

@[simp] theorem Folder.perform_index_logs (d : Folder) (op : Op ℕ UInt8) :
    (d.perform ⟨.index, op⟩).logs = d.logs := rfl

@[simp] theorem Folder.perform_log_logs (d : Folder) (op : Op ℕ UInt8) :
    (d.perform ⟨.log, op⟩).logs = d.logs.perform op := rfl

/-- No operation touches a `.log` file. -/
def IndexOnly (ops : List FileOp) : Prop := ∀ o ∈ ops, o.ext = .index

theorem IndexOnly.logs : ∀ {ops : List FileOp}, IndexOnly ops → ∀ d : Folder,
    (d.performAll ops).logs = d.logs
  | [], _, _ => rfl
  | ⟨ext, op⟩ :: ops, h, d => by
    obtain rfl : ext = .index := h ⟨ext, op⟩ (by simp)
    have hops : IndexOnly ops := fun o ho => h o (by simp [ho])
    rw [Folder.performAll_cons, hops.logs, Folder.perform_index_logs]

theorem IndexOnly.append {xs ys : List FileOp} (hx : IndexOnly xs) (hy : IndexOnly ys) :
    IndexOnly (xs ++ ys) := by
  intro o ho
  rcases List.mem_append.mp ho with h | h
  · exact hx o h
  · exact hy o h

theorem indexOnly_nil : IndexOnly [] := by simp [IndexOnly]

/-- A crash among them leaves the `.log` files alone. -/
theorem IndexOnly.everyCut {ops : List FileOp} (h : IndexOnly ops) {P : Folder → Prop} {d : Folder}
    {logs : Dir ℕ UInt8} (hd : d.logs = logs) (hP : ∀ d' : Folder, d'.logs = logs → P d') :
    EveryCut FileOp.part Folder.perform P d ops := by
  have hkeep : EveryCut FileOp.part Folder.perform (fun d' : Folder => d'.logs = logs) d ops := by
    refine everyCut_of_keeps hd fun o ho d' hd' => ?_
    obtain ⟨ext, op⟩ := o
    obtain rfl : ext = .index := h _ ho
    refine ⟨hd', fun n o' ho' => ?_⟩
    cases op with
    | append b bs =>
      obtain rfl := Option.some.inj ho'
      exact hd'
    | create b => cases ho'
    | truncate b size => cases ho'
    | remove b => cases ho'
  exact hkeep.mono hP

/-- Operations that touch a `.log` file first or not at all leave it as it was or as they end with
it. -/
theorem IndexOnly.logs_take {ops : List FileOp} (h : IndexOnly ops.tail) (d : Folder) (n : ℕ) :
    (d.performAll (ops.take n)).logs = d.logs ∨
      (d.performAll (ops.take n)).logs = (d.performAll ops).logs := by
  cases ops with
  | nil => simp
  | cons o ops =>
    cases n with
    | zero => simp
    | succ n =>
      have hops : IndexOnly ops := h
      have htake : IndexOnly (ops.take n) := fun o' ho' => h o' (List.mem_of_mem_take ho')
      right
      rw [List.take_succ_cons, Folder.performAll_cons, Folder.performAll_cons, htake.logs,
        hops.logs]

/-! ### Records in a row -/

/-- A timestamp and a payload. -/
abbrev Datum := ℤ × Bytes

/-- The records of `es` at the offsets from `b` on. -/
def records (b : ℕ) (es : List Datum) : List Record :=
  (es.zipIdx b).map fun p => ⟨p.2, p.1.1, p.1.2⟩

def encodeAll (rs : List Record) : Bytes := rs.flatMap Record.bytes

@[simp] theorem records_nil (b : ℕ) : records b [] = [] := rfl

@[simp] theorem records_cons (b : ℕ) (e : Datum) (es : List Datum) :
    records b (e :: es) = ⟨b, e.1, e.2⟩ :: records (b + 1) es := rfl

@[simp] theorem length_records (b : ℕ) (es : List Datum) : (records b es).length = es.length := by
  simp [records]

theorem records_append (b : ℕ) (es fs : List Datum) :
    records b (es ++ fs) = records b es ++ records (b + es.length) fs := by
  simp [records, List.zipIdx_append]

theorem getElem?_records (b : ℕ) (es : List Datum) (k : ℕ) :
    (records b es)[k]? = es[k]?.map fun e => ⟨b + k, e.1, e.2⟩ := by
  simp [records, List.getElem?_zipIdx]
  cases es[k]? <;> simp

theorem records_take (b : ℕ) (es : List Datum) (k : ℕ) :
    (records b es).take k = records b (es.take k) := by
  conv_lhs => rw [← List.take_append_drop k es, records_append]
  rcases Nat.lt_or_ge k es.length with h | h
  · rw [List.take_append_of_le_length (by simp; omega), List.take_of_length_le (by simp)]
  · rw [List.drop_of_length_le h]
    simp [List.take_of_length_le, h]

theorem records_drop (b : ℕ) (es : List Datum) {k : ℕ} (hk : k ≤ es.length) :
    (records b es).drop k = records (b + k) (es.drop k) := by
  conv_lhs => rw [← List.take_append_drop k es, records_append]
  rw [List.drop_append, List.drop_of_length_le (by simp)]
  simp [hk]

@[simp] theorem encodeAll_nil : encodeAll [] = [] := rfl

@[simp] theorem encodeAll_cons (r : Record) (rs : List Record) :
    encodeAll (r :: rs) = r.bytes ++ encodeAll rs := rfl

theorem encodeAll_append (rs ts : List Record) :
    encodeAll (rs ++ ts) = encodeAll rs ++ encodeAll ts := List.flatMap_append

/-- Every record carries at least a header. -/
theorem length_le_encodeAll : ∀ rs : List Record, rs.length ≤ (encodeAll rs).length
  | [] => le_rfl
  | r :: rs => by
    have h1 := length_le_encodeAll rs
    have h2 := r.length_bytes_pos
    rw [encodeAll_cons, List.length_append, List.length_cons]
    omega

/-! ### The fields of a segment that holds records -/

namespace Segment

/-- What `_maybe_index` makes of the fields. -/
def note (seg : Segment) (absOffset position : ℕ) : Segment :=
  if seg.indexes position then
    { seg with index := seg.index ++ [((absOffset : ℤ) - seg.baseOffset, position)]
               lastIndexedPosition := position }
  else seg

/-- The fields after a record was written behind the others. -/
def add (seg : Segment) (r : Record) : Segment :=
  { seg.note r.offset seg.size with
    size := seg.size + r.bytes.length
    nextOffset := r.offset + 1
    maxTimestamp := max seg.maxTimestamp r.timestamp }

def fill (seg : Segment) (rs : List Record) : Segment := rs.foldl add seg

/-- The fields up to `max_timestamp`, which a truncation leaves as it is. -/
def core (seg : Segment) : Segment := { seg with maxTimestamp := 0 }

theorem note_pos {seg : Segment} {absOffset position : ℕ} (h : seg.indexes position) :
    seg.note absOffset position =
      { seg with index := seg.index ++ [((absOffset : ℤ) - seg.baseOffset, position)]
                 lastIndexedPosition := position } := by
  rw [note, if_pos h]

theorem note_neg {seg : Segment} {absOffset position : ℕ} (h : ¬ seg.indexes position) :
    seg.note absOffset position = seg := by
  rw [note, if_neg h]

@[simp] theorem fill_nil (seg : Segment) : seg.fill [] = seg := rfl

@[simp] theorem fill_cons (seg : Segment) (r : Record) (rs : List Record) :
    seg.fill (r :: rs) = (seg.add r).fill rs := rfl

theorem fill_append (seg : Segment) (rs ts : List Record) :
    seg.fill (rs ++ ts) = (seg.fill rs).fill ts := List.foldl_append

section Fields

variable (seg : Segment) (r : Record) (rs : List Record) (absOffset position : ℕ)

@[simp] theorem note_baseOffset : (seg.note absOffset position).baseOffset = seg.baseOffset := by
  unfold note
  split <;> rfl

@[simp] theorem note_interval :
    (seg.note absOffset position).indexIntervalBytes = seg.indexIntervalBytes := by
  unfold note
  split <;> rfl

@[simp] theorem add_baseOffset : (seg.add r).baseOffset = seg.baseOffset := by simp [add]

@[simp] theorem add_interval : (seg.add r).indexIntervalBytes = seg.indexIntervalBytes := by
  simp [add]

@[simp] theorem add_size : (seg.add r).size = seg.size + r.bytes.length := rfl

@[simp] theorem add_nextOffset : (seg.add r).nextOffset = r.offset + 1 := rfl

theorem fill_baseOffset : ∀ (rs : List Record) (seg : Segment),
    (seg.fill rs).baseOffset = seg.baseOffset
  | [], _ => rfl
  | r :: rs, seg => by rw [fill_cons, fill_baseOffset rs, add_baseOffset]

theorem fill_interval : ∀ (rs : List Record) (seg : Segment),
    (seg.fill rs).indexIntervalBytes = seg.indexIntervalBytes
  | [], _ => rfl
  | r :: rs, seg => by rw [fill_cons, fill_interval rs, add_interval]

theorem fill_size : ∀ (rs : List Record) (seg : Segment),
    (seg.fill rs).size = seg.size + (encodeAll rs).length
  | [], _ => by simp
  | r :: rs, seg => by
    rw [fill_cons, fill_size rs, add_size, encodeAll_cons, List.length_append]
    omega

theorem fill_nextOffset : ∀ (es : List Datum) (b : ℕ) (seg : Segment), seg.nextOffset = b →
    (seg.fill (records b es)).nextOffset = b + es.length
  | [], _, _, h => by simpa using h
  | e :: es, b, seg, _ => by
    rw [records_cons, fill_cons, fill_nextOffset es (b + 1) _ (add_nextOffset _ _),
      List.length_cons]
    omega

theorem add_core : (seg.core.add r).core = (seg.add r).core := by
  by_cases h : seg.indexes seg.size
  · have h' : seg.core.indexes seg.core.size := h
    unfold add
    rw [note_pos h, note_pos h']
    rfl
  · have h' : ¬ seg.core.indexes seg.core.size := h
    unfold add
    rw [note_neg h, note_neg h']
    rfl

theorem fill_core : ∀ (rs : List Record) (seg : Segment), (seg.core.fill rs).core = (seg.fill rs).core
  | [], _ => rfl
  | r :: rs, seg => by
    rw [fill_cons, fill_cons, ← fill_core rs (seg.core.add r), add_core, fill_core rs (seg.add r)]

end Fields

/-! ### One equation for each method -/

/-- The write of `_maybe_index`. -/
def noteOps (seg : Segment) (absOffset position : ℕ) : List FileOp :=
  if seg.indexes position then
    [⟨.index, .append seg.baseOffset (word 8 (absOffset - seg.baseOffset) ++ word 8 position)⟩]
  else []

theorem noteOps_indexOnly (seg : Segment) (absOffset position : ℕ) :
    IndexOnly (seg.noteOps absOffset position) := by
  unfold noteOps IndexOnly
  split <;> simp

theorem packIndexEntry_eq {rel : ℤ} (h1 : 0 ≤ rel) (h2 : rel < 2 ^ 64) (position : ℕ)
    (s : Folder × Segment) :
    packIndexEntry rel position s = ⟨s, [], .ok (word 8 rel.toNat ++ word 8 position)⟩ := by
  rw [packIndexEntry, if_pos ⟨h1, h2⟩, pure_eq]

variable {d : Folder} {seg : Segment}

theorem maybeIndex_eq (d : Folder) (seg : Segment) {absOffset : ℕ}
    (h1 : seg.baseOffset ≤ absOffset) (h2 : absOffset < 2 ^ 64) (position : ℕ) :
    maybeIndex absOffset position (d, seg) =
      ⟨(d.performAll (seg.noteOps absOffset position), seg.note absOffset position),
        seg.noteOps absOffset position, .ok ()⟩ := by
  unfold maybeIndex
  rw [read_bind]
  dsimp only
  by_cases h : seg.indexes position
  · have hr : ((absOffset : ℤ) - seg.baseOffset).toNat = absOffset - seg.baseOffset := by omega
    rw [when_eq_of_pos h, note_pos h, noteOps, if_pos h]
    unfold assign
    rw [update_bind, bind_eq (packIndexEntry_eq (by omega) (by omega) _ _), hr]
    rfl
  · rw [when_eq_of_neg h, note_neg h, noteOps, if_neg h]
    rfl

/-- The writes of `_rewrite_index`. -/
def rewriteOps (seg : Segment) : List FileOp :=
  ⟨.index, .create seg.baseOffset⟩ :: seg.index.map fun e =>
    ⟨.index, .append seg.baseOffset (word 8 e.1.toNat ++ word 8 e.2)⟩

theorem rewriteOps_indexOnly (seg : Segment) : IndexOnly seg.rewriteOps := by
  intro o ho
  unfold rewriteOps at ho
  rcases List.mem_cons.mp ho with rfl | ho
  · rfl
  · obtain ⟨e, -, rfl⟩ := List.mem_map.mp ho
    rfl

/-- Relative offsets that fit their field. -/
def Packs (index : List (ℤ × ℕ)) : Prop := ∀ e ∈ index, 0 ≤ e.1 ∧ e.1 < 2 ^ 64

theorem writeEntries_eq (b : ℕ) : ∀ {index : List (ℤ × ℕ)}, Packs index → ∀ s : Folder × Segment,
    each (fun e : ℤ × ℕ => do
      let entry ← packIndexEntry e.1 e.2
      fileOp .index (.append b entry)) index s =
    ⟨(s.1.performAll (index.map fun e => ⟨.index, .append b (word 8 e.1.toNat ++ word 8 e.2)⟩), s.2),
      index.map fun e => ⟨.index, .append b (word 8 e.1.toNat ++ word 8 e.2)⟩, .ok ()⟩
  | [], _, _ => rfl
  | e :: index, h, s => by
    have he := h e (by simp)
    have hw : (do
        let entry ← packIndexEntry e.1 e.2
        fileOp .index (.append b entry) : SegmentM Unit) s =
        ⟨(s.1.perform ⟨.index, .append b (word 8 e.1.toNat ++ word 8 e.2)⟩, s.2),
          [⟨.index, .append b (word 8 e.1.toNat ++ word 8 e.2)⟩], .ok ()⟩ := by
      rw [bind_eq (packIndexEntry_eq he.1 he.2 _ _)]
      rfl
    rw [each, bind_eq hw, writeEntries_eq b fun e' he' => h e' (by simp [he'])]
    rfl

theorem rewriteIndex_eq (d : Folder) (seg : Segment) (h : Packs seg.index) :
    rewriteIndex (d, seg) = ⟨(d.performAll seg.rewriteOps, seg), seg.rewriteOps, .ok ()⟩ := by
  unfold rewriteIndex
  rw [read_bind]
  dsimp only
  have hc : fileOp .index (.create seg.baseOffset) (d, seg) =
    ⟨(d.perform ⟨.index, .create seg.baseOffset⟩, seg), [⟨.index, .create seg.baseOffset⟩], .ok ()⟩ :=
    rfl
  rw [bind_eq hc, writeEntries_eq _ h]
  rfl

/-- Records a segment can hold: they fit, and their offsets are not below its base. -/
def Takes (b : ℕ) (rs : List Record) : Prop := ∀ r ∈ rs, r.Fits ∧ b ≤ r.offset

theorem Takes.tail {b : ℕ} {r : Record} {rs : List Record} (h : Takes b (r :: rs)) : Takes b rs :=
  fun r' hr' => h r' (by simp [hr'])

theorem note_packs {r : Record} (hp : Packs seg.index) (h1 : seg.baseOffset ≤ r.offset)
    (h2 : r.offset < 2 ^ 64) (position : ℕ) : Packs (seg.note r.offset position).index := by
  by_cases h : seg.indexes position
  · rw [note_pos h]
    intro e he
    rcases List.mem_append.mp he with he | he
    · exact hp e he
    · rw [List.mem_singleton.mp he]
      dsimp only
      omega
  · rwa [note_neg h]

theorem fill_packs : ∀ (rs : List Record) (seg : Segment), Takes seg.baseOffset rs →
    Packs seg.index → Packs (seg.fill rs).index
  | [], _, _, hp => hp
  | r :: rs, seg, h, hp => by
    have hr := h r (by simp)
    refine fill_packs rs (seg.add r) ?_ ?_
    · rw [add_baseOffset]
      exact h.tail
    · exact note_packs hp hr.2 hr.1.offset _

/-- The rule of the index reads neither the size nor the next offset. -/
theorem note_with (seg : Segment) (absOffset position size next : ℕ) (ts : ℤ) :
    note { seg with size := size, nextOffset := next, maxTimestamp := ts } absOffset position =
      { seg.note absOffset position with size := size, nextOffset := next, maxTimestamp := ts } := by
  by_cases h : seg.indexes position
  · have h' : indexes { seg with size := size, nextOffset := next, maxTimestamp := ts } position := h
    rw [note_pos h, note_pos h']
  · have h' : ¬ indexes { seg with size := size, nextOffset := next, maxTimestamp := ts } position := h
    rw [note_neg h, note_neg h']

theorem maybeIndex_with {absOffset : ℕ} (h1 : seg.baseOffset ≤ absOffset) (h2 : absOffset < 2 ^ 64)
    (position size next : ℕ) (ts : ℤ) :
    maybeIndex absOffset position
        (d, { seg with size := size, nextOffset := next, maxTimestamp := ts }) =
      ⟨(d.performAll (seg.noteOps absOffset position),
        { seg.note absOffset position with size := size, nextOffset := next, maxTimestamp := ts }),
        seg.noteOps absOffset position, .ok ()⟩ := by
  rw [← note_with]
  exact maybeIndex_eq d { seg with size := size, nextOffset := next, maxTimestamp := ts }
    h1 h2 position

/-- `read_record` finds no record here. -/
def Ends (t : Bytes) : Prop := readRecord t = .ok none ∨ ∃ e, readRecord t = .error e

theorem ends_of_torn {rs : List Record} {t : Bytes} (hf : ∀ r ∈ rs, r.Fits)
    (h : Torn Record.bytes rs t) : Ends t := by
  rcases h with rfl | ⟨r, rs', rfl, ht, hlt⟩
  · exact .inl readRecord_nil
  · by_cases hne : t = []
    · rw [hne]
      exact .inl readRecord_nil
    · exact .inr (readRecord_torn (hf r (by simp)) ht hlt hne)

/-- The loop of `recover` reads the records up to the torn rest. -/
theorem replay_eq {t : Bytes} (ht : Ends t) (size next : ℕ) : ∀ (rs : List Record) (fuel : ℕ)
    (acc : Segment) (d : Folder), Takes acc.baseOffset rs → rs.length < fuel →
    ∃ ops, IndexOnly ops ∧
      replay fuel (encodeAll rs ++ t) acc.size acc.nextOffset
          (d, { acc with size := size, nextOffset := next }) =
        ⟨(d.performAll ops, { acc.fill rs with size := size, nextOffset := next }), ops,
          .ok ((acc.fill rs).size, (acc.fill rs).nextOffset)⟩
  | [], fuel + 1, acc, d, _, _ => by
    refine ⟨[], indexOnly_nil, ?_⟩
    rw [encodeAll_nil, List.nil_append]
    rcases ht with h | ⟨e, h⟩
    · simp only [replay, h]
      rfl
    · simp only [replay, h]
      rfl
  | r :: rs, fuel + 1, acc, d, h, hf => by
    have hr := h r (by simp)
    have htail : Takes (acc.add r).baseOffset rs := by
      rw [add_baseOffset]
      exact h.tail
    obtain ⟨ops, hops, hrun⟩ := replay_eq ht size next rs fuel (acc.add r)
      (d.performAll (acc.noteOps r.offset acc.size)) htail (by simpa using hf)
    refine ⟨acc.noteOps r.offset acc.size ++ ops, (noteOps_indexOnly _ _ _).append hops, ?_⟩
    have hm := maybeIndex_with (d := d) hr.2 hr.1.offset acc.size size next acc.maxTimestamp
    have hsize : acc.size + headerSize + r.payload.length = (acc.add r).size := by
      rw [add_size, r.length_bytes]
      omega
    simp only [replay, encodeAll_cons, List.append_assoc, readRecord_bytes hr.1]
    rw [hsize, Folder.performAll_append]
    exact bind_run hm hrun

/-- `recover` of a file that does not exist. -/
theorem recover_new {b : ℕ} (interval : ℕ) (h : d.logs.get b = none) :
    recover (d, new b interval) =
      ⟨(d.performAll [⟨.log, .create b⟩, ⟨.index, .create b⟩], new b interval),
        [⟨.log, .create b⟩, ⟨.index, .create b⟩], .ok b⟩ := by
  unfold recover assign
  rw [update_bind, read_bind]
  dsimp only [new]
  rw [h]
  rfl

/-- `recover` of records and a torn rest: the fields of a segment that holds the records, and the
file cut behind them; a crash leaves the file as it was or cut. -/
theorem recover_cuts {b : ℕ} (interval : ℕ) {rs : List Record} {t : Bytes}
    (h : d.logs.get b = some (encodeAll rs ++ t)) (hrs : Takes b rs) (ht : Ends t) :
    ∃ ops, (d.performAll ops).logs = d.logs.put b (encodeAll rs) ∧
      EveryCut FileOp.part Folder.perform
        (fun d' => d'.logs = d.logs ∨ d'.logs = d.logs.put b (encodeAll rs)) d ops ∧
      recover (d, new b interval) =
        ⟨(d.performAll ops, (new b interval).fill rs), ops,
          .ok ((new b interval).fill rs).nextOffset⟩ := by
  have hlen : rs.length < (encodeAll rs ++ t).length + 1 := by
    have := length_le_encodeAll rs
    rw [List.length_append]
    omega
  obtain ⟨ops₁, hops₁, hrun⟩ := replay_eq ht 0 b rs _ (new b interval) d hrs hlen
  have hpacks : Packs ((new b interval).fill rs).index :=
    fill_packs rs (new b interval) hrs (by simp [Packs, new])
  have hsize : ((new b interval).fill rs).size = (encodeAll rs).length := by
    rw [fill_size]
    simp [new]
  -- the cut of the file, if there is something to cut
  obtain ⟨ops₂, hlogs, hcuts, hcut⟩ : ∃ ops₂ : List FileOp,
      ((d.performAll ops₁).performAll ops₂).logs = d.logs.put b (encodeAll rs) ∧
      EveryCut FileOp.part Folder.perform
        (fun d' => d'.logs = d.logs ∨ d'.logs = d.logs.put b (encodeAll rs)) (d.performAll ops₁) ops₂ ∧
      ∀ seg, when ((encodeAll rs).length < (encodeAll rs ++ t).length)
        (fileOp .log (.truncate b (encodeAll rs).length)) (d.performAll ops₁, seg) =
        ⟨((d.performAll ops₁).performAll ops₂, seg), ops₂, .ok ()⟩ := by
    by_cases hc : (encodeAll rs).length < (encodeAll rs ++ t).length
    · have htrunc : ((d.performAll ops₁).performAll
          [⟨.log, .truncate b (encodeAll rs).length⟩]).logs = d.logs.put b (encodeAll rs) := by
        rw [Folder.performAll_cons, Folder.performAll_nil, Folder.perform_log_logs, hops₁.logs]
        simp [Dir.perform, h]
      refine ⟨_, htrunc, ?_, fun seg => ?_⟩
      · exact everyCut_cons (.inl (hops₁.logs d)) (fun n o' ho' => by cases ho')
          (everyCut_nil (.inr htrunc))
      · rw [when_eq_of_pos hc]
        rfl
    · refine ⟨[], ?_, everyCut_nil (.inl (hops₁.logs d)), fun seg => ?_⟩
      · have htn : t = [] := by
          rw [List.length_append] at hc
          exact List.eq_nil_of_length_eq_zero (by omega)
        rw [Folder.performAll_nil, hops₁.logs]
        rw [htn, List.append_nil] at h
        exact (Dir.put_self h).symm
      · rw [when_eq_of_neg hc]
        rfl
  have hindex := rewriteOps_indexOnly ((new b interval).fill rs)
  refine ⟨ops₁ ++ (ops₂ ++ (((new b interval).fill rs).rewriteOps ++ [])), ?_, ?_, ?_⟩
  · rw [Folder.performAll_append, Folder.performAll_append, List.append_nil, hindex.logs, hlogs]
  · rw [List.append_nil]
    refine (hops₁.everyCut rfl fun d' hd' => .inl hd').append (hcuts.append ?_)
    exact hindex.everyCut hlogs fun d' hd' => .inr hd'
  · generalize (new b interval).fill rs = seg' at hrun hpacks hsize ⊢
    have hseg : { seg' with size := (encodeAll rs).length, nextOffset := seg'.nextOffset } = seg' := by
      rw [← hsize]
    have hrw := rewriteIndex_eq ((d.performAll ops₁).performAll ops₂) seg' hpacks
    rw [hsize] at hrun
    unfold recover assign
    rw [update_bind, read_bind]
    dsimp only [new]
    rw [h]
    rw [Folder.performAll_append, Folder.performAll_append, List.append_nil]
    refine bind_run hrun (bind_run (hcut _) ?_)
    rw [update_bind, ← List.append_nil seg'.rewriteOps]
    refine bind_run (a := ()) ?_ rfl
    dsimp only
    rw [hseg, List.append_nil]
    exact hrw

theorem recover_eq {b : ℕ} (interval : ℕ) {rs : List Record} {t : Bytes}
    (h : d.logs.get b = some (encodeAll rs ++ t)) (hrs : Takes b rs) (ht : Ends t) :
    ∃ ops, (d.performAll ops).logs = d.logs.put b (encodeAll rs) ∧
      recover (d, new b interval) =
        ⟨(d.performAll ops, (new b interval).fill rs), ops,
          .ok ((new b interval).fill rs).nextOffset⟩ := by
  obtain ⟨ops, hlogs, -, hrun⟩ := recover_cuts interval h hrs ht
  exact ⟨ops, hlogs, hrun⟩

/-- The file operations of an append. -/
def appendOps (seg : Segment) (r : Record) : List FileOp :=
  ⟨.log, .append seg.baseOffset r.bytes⟩ :: seg.noteOps r.offset seg.size

theorem append_eq {r : Record} (h1 : seg.baseOffset ≤ r.offset) (h2 : r.offset < 2 ^ 64) :
    append r.offset r.bytes r.timestamp (d, seg) =
      ⟨(d.performAll (seg.appendOps r), seg.add r), seg.appendOps r, .ok ()⟩ := by
  unfold append assign
  rw [read_bind]
  dsimp only
  have hw : fileOp .log (.append seg.baseOffset r.bytes) (d, seg) =
    ⟨(d.perform ⟨.log, .append seg.baseOffset r.bytes⟩, seg),
      [⟨.log, .append seg.baseOffset r.bytes⟩], .ok ()⟩ := rfl
  exact bind_run hw (maybeIndex_with h1 h2 seg.size (seg.size + r.bytes.length) (r.offset + 1)
    (max seg.maxTimestamp r.timestamp))

/-- Records with the positions they are written at. -/
def positioned : ℕ → List Record → List (ℕ × Record)
  | _, [] => []
  | pos, r :: rs => (pos, r) :: positioned (pos + r.bytes.length) rs

theorem positioned_blob : ∀ (rs : List Record) (pos : ℕ),
    ((positioned pos rs).flatMap fun p => p.2.bytes) = encodeAll rs
  | [], _ => rfl
  | r :: rs, pos => by
    rw [positioned, List.flatMap_cons, positioned_blob rs]
    rfl

/-- Records whose relative offsets fit the field of an index entry. -/
def Ranged (b : ℕ) (rs : List Record) : Prop := ∀ r ∈ rs, b ≤ r.offset ∧ r.offset < 2 ^ 64

theorem Takes.ranged {b : ℕ} {rs : List Record} (h : Takes b rs) : Ranged b rs :=
  fun r hr => ⟨(h r hr).2, (h r hr).1.offset⟩

theorem Ranged.tail {b : ℕ} {r : Record} {rs : List Record} (h : Ranged b (r :: rs)) :
    Ranged b rs := fun r' hr' => h r' (by simp [hr'])

/-- The loop over the records of a blob. -/
theorem blobLoop_eq (size : ℕ) : ∀ (rs : List Record) (acc : Segment) (d : Folder),
    Ranged acc.baseOffset rs → ∃ ops, IndexOnly ops ∧
      each (fun p : ℕ × Record => do
        maybeIndex p.2.offset p.1
        assign fun seg => { seg with nextOffset := p.2.offset + 1
                                     maxTimestamp := max seg.maxTimestamp p.2.timestamp })
        (positioned acc.size rs) (d, { acc with size := size }) =
      ⟨(d.performAll ops, { acc.fill rs with size := size }), ops, .ok ()⟩
  | [], _, _, _ => ⟨[], indexOnly_nil, rfl⟩
  | r :: rs, acc, d, h => by
    have hr := h r (by simp)
    have htail : Ranged (acc.add r).baseOffset rs := by
      rw [add_baseOffset]
      exact h.tail
    obtain ⟨ops, hops, hrun⟩ := blobLoop_eq size rs (acc.add r)
      (d.performAll (acc.noteOps r.offset acc.size)) htail
    have hm := maybeIndex_with (d := d) hr.1 hr.2 acc.size size acc.nextOffset
      acc.maxTimestamp
    refine ⟨acc.noteOps r.offset acc.size ++ ops, (noteOps_indexOnly _ _ _).append hops, ?_⟩
    rw [positioned, each, Folder.performAll_append, ← List.append_nil (acc.noteOps _ _)]
    exact bind_run (bind_run hm rfl) (by rwa [List.append_nil])

/-- One blob of `append_many`. -/
theorem writeBlob_eq {rs : List Record} (h : Ranged seg.baseOffset rs) :
    ∃ ops, IndexOnly ops ∧
      CommitLog.writeBlob (positioned seg.size rs) (d, seg) =
        ⟨(d.performAll (⟨.log, .append seg.baseOffset (encodeAll rs)⟩ :: ops), seg.fill rs),
          ⟨.log, .append seg.baseOffset (encodeAll rs)⟩ :: ops, .ok ()⟩ := by
  obtain ⟨ops, hops, hrun⟩ := blobLoop_eq seg.size rs seg
    (d.perform ⟨.log, .append seg.baseOffset (encodeAll rs)⟩) h
  refine ⟨ops, hops, ?_⟩
  unfold CommitLog.writeBlob
  rw [read_bind]
  dsimp only
  rw [positioned_blob]
  have hw : fileOp .log (.append seg.baseOffset (encodeAll rs)) (d, seg) =
    ⟨(d.perform ⟨.log, .append seg.baseOffset (encodeAll rs)⟩, seg),
      [⟨.log, .append seg.baseOffset (encodeAll rs)⟩], .ok ()⟩ := rfl
  refine (bind_run hw (bind_run hrun rfl)).trans ?_
  rw [List.append_nil, ← fill_size]
  rfl

theorem delete_eq (d : Folder) (seg : Segment) : delete (d, seg) =
    ⟨(d.performAll [⟨.log, .remove seg.baseOffset⟩, ⟨.index, .remove seg.baseOffset⟩], seg),
      [⟨.log, .remove seg.baseOffset⟩, ⟨.index, .remove seg.baseOffset⟩], .ok ()⟩ := rfl

/-! ### The sparse index -/

/-- Every entry is a record's relative offset and position, in ascending order. -/
structure Indexed (b : ℕ) (es : List Datum) (index : List (ℤ × ℕ)) : Prop where
  entry : ∀ e ∈ index, ∃ k < es.length, e.1 = (k : ℤ) ∧
    e.2 = (encodeAll (records b (es.take k))).length
  sorted : (index.map Prod.fst).Pairwise (· < ·)

theorem fill_concat (seg : Segment) (b : ℕ) (es : List Datum) (e : Datum) :
    seg.fill (records b (es ++ [e])) =
      (seg.fill (records b es)).add ⟨b + es.length, e.1, e.2⟩ := by
  rw [records_append, fill_append]
  rfl

theorem indexed_fill (b interval : ℕ) (es : List Datum) :
    Indexed b es ((new b interval).fill (records b es)).index := by
  induction es using List.reverseRecOn with
  | nil => exact ⟨by simp [new], by simp [new]⟩
  | append_singleton es e ih =>
    have hold : ∀ x ∈ ((new b interval).fill (records b es)).index,
        ∃ k < (es ++ [e]).length, x.1 = (k : ℤ) ∧
          x.2 = (encodeAll (records b ((es ++ [e]).take k))).length := by
      intro x hx
      obtain ⟨k, hk, h1, h2⟩ := ih.entry x hx
      refine ⟨k, by simp; omega, h1, ?_⟩
      rw [List.take_append_of_le_length hk.le]
      exact h2
    rw [fill_concat]
    generalize hacc : (new b interval).fill (records b es) = acc at ih hold ⊢
    have hbase : acc.baseOffset = b := by rw [← hacc, fill_baseOffset, new]
    have hsize : acc.size = (encodeAll (records b es)).length := by
      rw [← hacc, fill_size]
      simp [new]
    by_cases h : acc.indexes acc.size
    · unfold add
      rw [note_pos h]
      have hrel : ((b + es.length : ℕ) : ℤ) - acc.baseOffset = es.length := by
        rw [hbase]
        push_cast
        omega
      refine ⟨?_, ?_⟩
      · intro x hx
        rcases List.mem_append.mp hx with hx | hx
        · exact hold x hx
        · rw [List.mem_singleton.mp hx]
          refine ⟨es.length, by simp, hrel, ?_⟩
          simpa using hsize
      · dsimp only
        rw [List.map_append, List.pairwise_append]
        refine ⟨ih.sorted, by simp, ?_⟩
        intro x hx y hy
        obtain ⟨z, hz, rfl⟩ := List.mem_map.mp hx
        obtain ⟨k, hk, h1, -⟩ := ih.entry z hz
        simp only [List.map_cons, List.map_nil, List.mem_singleton] at hy
        rw [hy, hrel, h1]
        exact_mod_cast hk
    · unfold add
      rw [note_neg h]
      exact ⟨hold, ih.sorted⟩

theorem fill_index : ∀ (rs : List Record) (seg : Segment),
    ∃ more, (seg.fill rs).index = seg.index ++ more ∧
      ∀ e ∈ more, ∃ r ∈ rs, e.1 = (r.offset : ℤ) - seg.baseOffset
  | [], seg => ⟨[], by simp, by simp⟩
  | r :: rs, seg => by
    obtain ⟨more, hmore, hm⟩ := fill_index rs (seg.add r)
    rw [add_baseOffset] at hm
    have hold : ∀ e ∈ more, ∃ r' ∈ r :: rs, e.1 = (r'.offset : ℤ) - seg.baseOffset := by
      intro e he
      obtain ⟨r', hr', h'⟩ := hm e he
      exact ⟨r', by simp [hr'], h'⟩
    rw [fill_cons, hmore]
    by_cases h : seg.indexes seg.size
    · refine ⟨((r.offset : ℤ) - seg.baseOffset, seg.size) :: more, ?_, ?_⟩
      · unfold add
        rw [note_pos h]
        simp
      · intro e he
        rcases List.mem_cons.mp he with rfl | he
        · exact ⟨r, by simp, rfl⟩
        · exact hold e he
    · refine ⟨more, ?_, hold⟩
      unfold add
      rw [note_neg h]

theorem mem_records {b : ℕ} {es : List Datum} {r : Record} (h : r ∈ records b es) :
    b ≤ r.offset ∧ r.offset < b + es.length := by
  obtain ⟨p, hp, rfl⟩ := List.mem_map.mp h
  have := List.mem_zipIdx hp
  exact ⟨this.1, this.2.1⟩

theorem datum_of_mem_records {b : ℕ} {es : List Datum} {r : Record} (h : r ∈ records b es) :
    (r.timestamp, r.payload) ∈ es := by
  obtain ⟨p, hp, rfl⟩ := List.mem_map.mp h
  have := List.mem_zipIdx hp
  rw [this.2.2]
  exact List.getElem_mem _

/-- A truncation keeps the index entries of the records it keeps. -/
theorem fill_index_take (b interval : ℕ) (es : List Datum) (k : ℕ) :
    ((new b interval).fill (records b es)).index.filter (fun e => decide (e.1 < (k : ℤ))) =
      ((new b interval).fill (records b (es.take k))).index := by
  obtain ⟨more, hmore, hm⟩ := fill_index (records (b + (es.take k).length) (es.drop k))
    ((new b interval).fill (records b (es.take k)))
  rw [fill_baseOffset] at hm
  have hes : (new b interval).fill (records b es) =
      ((new b interval).fill (records b (es.take k))).fill
        (records (b + (es.take k).length) (es.drop k)) := by
    rw [← fill_append, ← records_append, List.take_append_drop]
  rw [hes, hmore, List.filter_append]
  have hl : ((new b interval).fill (records b (es.take k))).index.filter
      (fun e => decide (e.1 < (k : ℤ))) = ((new b interval).fill (records b (es.take k))).index := by
    rw [List.filter_eq_self]
    intro e he
    obtain ⟨j, hj, h1, -⟩ := (indexed_fill b interval (es.take k)).entry e he
    have hjk : j < k := lt_of_lt_of_le hj (List.length_take_le k es)
    rw [h1]
    simpa using hjk
  have hr : more.filter (fun e => decide (e.1 < (k : ℤ))) = [] := by
    rw [List.filter_eq_nil_iff]
    intro e he
    obtain ⟨r, hr, h1⟩ := hm e he
    have h2 := mem_records hr
    have hb : (new b interval).baseOffset = b := rfl
    rw [List.length_take, List.length_drop] at h2
    rw [h1, hb]
    simp only [decide_eq_true_eq]
    omega
  rw [hl, hr, List.append_nil]

theorem fill_lastIndexed : ∀ (rs : List Record) (seg : Segment),
    seg.lastIndexedPosition = lastPosition seg.index →
    (seg.fill rs).lastIndexedPosition = lastPosition (seg.fill rs).index
  | [], _, h => h
  | r :: rs, seg, h => by
    rw [fill_cons]
    refine fill_lastIndexed rs _ ?_
    unfold add
    by_cases hi : seg.indexes seg.size
    · rw [note_pos hi]
      simp [lastPosition]
    · rw [note_neg hi]
      exact h

/-! ### Reading -/

theorem startPos_eq (seg : Segment) (rel : ℤ) :
    seg.startPos rel =
      let lo := bisectRight (seg.index.map Prod.fst) rel
      if 0 < lo then (match seg.index[lo - 1]? with | some e => e.2 | none => 0) else 0 := by
  have hb : bisect (fun mid => match seg.index[mid]? with
      | some e => decide (e.1 ≤ rel)
      | none => false) seg.index.length 0 seg.index.length =
      bisectRight (seg.index.map Prod.fst) rel := by
    unfold bisectRight
    rw [List.length_map]
    congr 1
    funext i
    rw [List.getElem?_map]
    cases seg.index[i]? <;> simp
  exact congrArg (fun lo => if 0 < lo then
    (match seg.index[lo - 1]? with | some e => e.2 | none => 0) else 0) hb

/-- The search starts at a record that is not behind the one looked for. -/
theorem startPos_spec {b : ℕ} {es : List Datum} (hi : Indexed b es seg.index) (k : ℕ) :
    ∃ j ≤ k, seg.startPos k = (encodeAll (records b (es.take j))).length := by
  obtain ⟨xs, ys, hxy, h1, h2⟩ := exists_split (k : ℤ) hi.sorted
  have hlo : bisectRight (seg.index.map Prod.fst) (k : ℤ) = xs.length := by
    rw [hxy, bisectRight_append h1 h2]
  rw [startPos_eq]
  dsimp only
  rw [hlo]
  by_cases hx : 0 < xs.length
  · have hlen : xs.length ≤ seg.index.length := by
      have := congrArg List.length hxy
      simp at this
      omega
    have hlt : xs.length - 1 < seg.index.length := by omega
    obtain ⟨j, hj, he1, he2⟩ := hi.entry _ (List.getElem_mem hlt)
    refine ⟨j, ?_, ?_⟩
    · have hmem : (seg.index[xs.length - 1]).1 ∈ xs := by
        have hg : (seg.index.map Prod.fst)[xs.length - 1]? = some (seg.index[xs.length - 1]).1 := by
          rw [List.getElem?_map, List.getElem?_eq_getElem hlt]
          rfl
        rw [hxy, List.getElem?_append_left (by omega)] at hg
        exact List.mem_of_getElem? hg
      have := h1 _ hmem
      omega
    · rw [if_pos hx, List.getElem?_eq_getElem hlt]
      exact he2
  · exact ⟨0, by omega, by rw [if_neg hx]; simp⟩

/-- The read loop finds the record `k` of those it is started at. -/
theorem scan_spec (t : Bytes) : ∀ (es : List Datum) (b k pos fuel : ℕ) {e : Datum},
    (∀ r ∈ records b es, r.Fits) → es[k]? = some e → k < fuel →
    scan (b + k) fuel (encodeAll (records b es) ++ t) pos =
      some (pos + (encodeAll (records b (es.take k))).length, ⟨b + k, e.1, e.2⟩)
  | [], _, _, _, _, _, _, h, _ => by simp at h
  | x :: es, b, 0, pos, fuel + 1, e, hf, h, _ => by
    obtain rfl : x = e := by simpa using h
    have hr := hf ⟨b, x.1, x.2⟩ (by simp)
    simp only [scan, records_cons, encodeAll_cons, List.append_assoc, readRecord_bytes hr]
    simp
  | x :: es, b, k + 1, pos, fuel + 1, e, hf, h, hk => by
    have hr := hf ⟨b, x.1, x.2⟩ (by simp)
    have ih := scan_spec t es (b + 1) k (pos + headerSize + x.2.length) fuel (fun r hr => hf r (by simp [hr])) (by simpa using h)
      (by omega)
    simp only [scan, records_cons, encodeAll_cons, List.append_assoc, readRecord_bytes hr]
    rw [if_neg (by omega), if_neg (by omega), show b + (k + 1) = b + 1 + k by omega, ih]
    simp only [List.take_succ_cons, records_cons, encodeAll_cons, List.length_append,
      Record.length_bytes, Option.some.injEq, Prod.mk.injEq, and_true]
    omega

/-- The segment holds the records of `es` from its base on, up to `max_timestamp`. -/
structure Holds (seg : Segment) (interval b : ℕ) (es : List Datum) : Prop where
  fields : seg.core = ((new b interval).fill (records b es)).core

section Holds

variable {interval b : ℕ} {es : List Datum}

theorem holds_new : (new b interval).Holds interval b [] := ⟨rfl⟩

theorem Holds.baseOffset (h : seg.Holds interval b es) : seg.baseOffset = b := by
  have hb : seg.baseOffset = ((new b interval).fill (records b es)).baseOffset :=
    (congrArg Segment.baseOffset h.fields :)
  rw [hb, fill_baseOffset, new]

theorem Holds.indexInterval (h : seg.Holds interval b es) : seg.indexIntervalBytes = max 1 interval := by
  have hi : seg.indexIntervalBytes = ((new b interval).fill (records b es)).indexIntervalBytes :=
    (congrArg Segment.indexIntervalBytes h.fields :)
  rw [hi, fill_interval, new]

theorem Holds.size (h : seg.Holds interval b es) :
    seg.size = (encodeAll (records b es)).length := by
  have hs : seg.size = ((new b interval).fill (records b es)).size :=
    (congrArg Segment.size h.fields :)
  rw [hs, fill_size]
  simp [new]

theorem Holds.nextOffset (h : seg.Holds interval b es) : seg.nextOffset = b + es.length := by
  have hn : seg.nextOffset = ((new b interval).fill (records b es)).nextOffset :=
    (congrArg Segment.nextOffset h.fields :)
  rw [hn, fill_nextOffset es b (new b interval) rfl]

theorem Holds.index (h : seg.Holds interval b es) :
    seg.index = ((new b interval).fill (records b es)).index :=
  (congrArg Segment.index h.fields :)

theorem Holds.indexed (h : seg.Holds interval b es) : Indexed b es seg.index := by
  rw [h.index]
  exact indexed_fill b interval es

theorem Holds.fill {fs : List Datum} (h : seg.Holds interval b es) :
    (seg.fill (records (b + es.length) fs)).Holds interval b (es ++ fs) := by
  refine ⟨?_⟩
  rw [← fill_core, h.fields, fill_core, ← fill_append, ← records_append]

theorem Holds.find (h : seg.Holds interval b es) (hf : ∀ r ∈ records b es, r.Fits) {k : ℕ}
    {e : Datum} (hk : es[k]? = some e) (t : Bytes) :
    seg.find (encodeAll (records b es) ++ t) ((b + k : ℕ) : ℤ) =
      some ((encodeAll (records b (es.take k))).length, ⟨b + k, e.1, e.2⟩) := by
  have hlt : k < es.length := (List.getElem?_eq_some_iff.mp hk).1
  have hrel : (((b + k : ℕ) : ℤ) - b) = (k : ℤ) := by push_cast; omega
  obtain ⟨j, hj, hstart⟩ := startPos_spec h.indexed k
  have hdrop : (encodeAll (records b es) ++ t).drop (encodeAll (records b (es.take j))).length =
      encodeAll (records (b + j) (es.drop j)) ++ t := by
    have hjl : (es.take j).length = j := by rw [List.length_take]; omega
    conv_lhs => rw [← List.take_append_drop j es, records_append, encodeAll_append,
      List.append_assoc, List.take_append_drop]
    rw [List.drop_left, hjl]
  have hfuel : k - j < (encodeAll (records b es) ++ t).length + 1 := by
    have := length_le_encodeAll (records b es)
    rw [length_records] at this
    rw [List.length_append]
    omega
  have hscan := scan_spec t (es.drop j) (b + j) (k - j) (encodeAll (records b (es.take j))).length
    ((encodeAll (records b es) ++ t).length + 1)
    (fun r hr => hf r (by
      rw [← List.take_append_drop j es, records_append]
      rw [List.mem_append]
      right
      rwa [show (es.take j).length = j by rw [List.length_take]; omega]))
    (by rw [List.getElem?_drop, show j + (k - j) = k by omega]; exact hk) hfuel
  rw [show b + j + (k - j) = b + k by omega] at hscan
  unfold Segment.find
  rw [h.baseOffset, h.nextOffset, if_neg (by push_cast; omega), hrel]
  dsimp only
  rw [hstart, hdrop, Int.toNat_natCast, hscan]
  -- the records up to `k` are those up to `j` and the ones the scan skipped
  have hsplit : es.take k = es.take j ++ (es.drop j).take (k - j) := by
    rw [← List.take_add, show j + (k - j) = k by omega]
  rw [hsplit, records_append, encodeAll_append, List.length_append,
    show (es.take j).length = j by rw [List.length_take]; omega]

theorem Holds.find_none (h : seg.Holds interval b es) {o : ℤ}
    (ho : o < b ∨ ((b + es.length : ℕ) : ℤ) ≤ o) (file : Bytes) : seg.find file o = none := by
  unfold Segment.find
  rw [h.baseOffset, h.nextOffset, if_pos ho]

theorem Holds.positionOf (h : seg.Holds interval b es) (hf : ∀ r ∈ records b es, r.Fits)
    (hd : d.logs.get b = some (encodeAll (records b es))) (k : ℕ) :
    seg.positionOf d ((b + k : ℕ) : ℤ) =
      if k < es.length then some (encodeAll (records b (es.take k))).length else none := by
  unfold Segment.positionOf
  rw [h.baseOffset, hd, Option.getD_some]
  by_cases hlt : k < es.length
  · have hfind := h.find hf (List.getElem?_eq_getElem hlt) []
    rw [List.append_nil] at hfind
    rw [hfind, if_pos hlt]
    rfl
  · rw [if_neg hlt, h.find_none (.inr (by push_cast; omega))]
    rfl

/-- A cut at the base empties the file. -/
theorem Holds.truncateFrom_base (h : seg.Holds interval b es) :
    ∃ ops changed, Segment.truncateFrom (b : ℤ) (d, seg) =
        ⟨(d.performAll ops, new b interval), ops, .ok changed⟩ ∧
      (d.performAll ops).logs = d.logs.put b [] ∧ IndexOnly ops.tail := by
  have hnew : { seg with index := [], size := 0, lastIndexedPosition := -1, maxTimestamp := 0
                         nextOffset := seg.baseOffset } = new b interval := by
    unfold new
    rw [h.baseOffset, h.indexInterval]
  have hrw := rewriteIndex_eq (d.perform ⟨.log, .create b⟩) (new b interval)
    (by simp [Packs, new])
  refine ⟨⟨.log, .create b⟩ :: (new b interval).rewriteOps,
    decide (0 < seg.size ∨ seg.nextOffset ≠ seg.baseOffset), ?_, ?_, rewriteOps_indexOnly _⟩
  · unfold Segment.truncateFrom assign
    rw [read_bind]
    dsimp only
    rw [if_pos (by rw [h.baseOffset])]
    have hc : fileOp .log (.create seg.baseOffset) (d, seg) =
      ⟨(d.perform ⟨.log, .create b⟩, seg), [⟨.log, .create b⟩], .ok ()⟩ := by
      rw [h.baseOffset]
      rfl
    rw [← hnew] at hrw ⊢
    refine (bind_run hc (update_run (bind_run hrw rfl))).trans ?_
    rw [List.append_nil]
    rfl
  · rw [Folder.performAll_cons, (rewriteOps_indexOnly _).logs]
    rfl

/-- The fields after a cut behind `k` records. -/
def cutAt (seg : Segment) (interval b : ℕ) (es : List Datum) (k : ℕ) : Segment :=
  { (new b interval).fill (records b (es.take k)) with maxTimestamp := seg.maxTimestamp }

theorem Holds.cutAt_eq (h : seg.Holds interval b es) {k : ℕ} (hk : k < es.length) :
    { seg with
      size := (encodeAll (records b (es.take k))).length
      nextOffset := b + k
      index := seg.index.filter fun e => decide (e.1 < ((b + k : ℕ) : ℤ) - seg.baseOffset)
      lastIndexedPosition := lastPosition (seg.index.filter fun e =>
        decide (e.1 < ((b + k : ℕ) : ℤ) - seg.baseOffset)) } = seg.cutAt interval b es k := by
  have hrel : ((b + k : ℕ) : ℤ) - seg.baseOffset = (k : ℤ) := by
    rw [h.baseOffset]
    push_cast
    omega
  have hlast := fill_lastIndexed (records b (es.take k)) (new b interval) rfl
  have hsize : ((new b interval).fill (records b (es.take k))).size =
      (encodeAll (records b (es.take k))).length := by
    rw [fill_size]
    simp [new]
  have hnext : ((new b interval).fill (records b (es.take k))).nextOffset = b + k := by
    rw [fill_nextOffset _ b (new b interval) rfl, List.length_take, Nat.min_eq_left hk.le]
  have hbase : seg.baseOffset = ((new b interval).fill (records b (es.take k))).baseOffset := by
    rw [h.baseOffset, fill_baseOffset, new]
  have hint : seg.indexIntervalBytes =
      ((new b interval).fill (records b (es.take k))).indexIntervalBytes := by
    rw [h.indexInterval, fill_interval, new]
  unfold cutAt
  rw [hrel, h.index, fill_index_take, ← hlast, ← hsize, ← hnext, hbase, hint]

/-- A cut inside the records keeps those below it. -/
theorem Holds.truncateFrom_mid (h : seg.Holds interval b es) (hf : ∀ r ∈ records b es, r.Fits)
    (hd : d.logs.get b = some (encodeAll (records b es))) {k : ℕ} (hpos : 0 < k)
    (hk : k < es.length) :
    ∃ ops, Segment.truncateFrom ((b + k : ℕ) : ℤ) (d, seg) =
        ⟨(d.performAll ops, seg.cutAt interval b es k), ops, .ok true⟩ ∧
      (d.performAll ops).logs = d.logs.put b (encodeAll (records b (es.take k))) ∧
      IndexOnly ops.tail := by
  have hpacks : Packs (seg.cutAt interval b es k).index := by
    refine fill_packs _ (new b interval) ?_ (by simp [Packs, new])
    intro r hr
    refine ⟨?_, (mem_records hr).1⟩
    rw [← records_take] at hr
    exact hf r (List.mem_of_mem_take hr)
  refine ⟨⟨.log, .truncate b (encodeAll (records b (es.take k))).length⟩ ::
    (seg.cutAt interval b es k).rewriteOps, ?_, ?_, rewriteOps_indexOnly _⟩
  · unfold Segment.truncateFrom assign
    rw [read_bind]
    dsimp only
    rw [if_neg (by rw [h.baseOffset]; push_cast; omega), h.positionOf hf hd, if_pos hk]
    dsimp only
    have hc : fileOp .log (.truncate seg.baseOffset (encodeAll (records b (es.take k))).length)
        (d, seg) =
      ⟨(d.perform ⟨.log, .truncate b (encodeAll (records b (es.take k))).length⟩, seg),
        [⟨.log, .truncate b (encodeAll (records b (es.take k))).length⟩], .ok ()⟩ := by
      rw [h.baseOffset]
      rfl
    have hrw := rewriteIndex_eq
      (d.perform ⟨.log, .truncate b (encodeAll (records b (es.take k))).length⟩)
      (seg.cutAt interval b es k) hpacks
    rw [← h.cutAt_eq hk] at hrw ⊢
    refine (bind_run hc (update_run (bind_run hrw rfl))).trans ?_
    rw [List.append_nil]
    rfl
  · have hcut : (encodeAll (records b es)).take (encodeAll (records b (es.take k))).length =
        encodeAll (records b (es.take k)) := by
      conv_lhs => rw [← List.take_append_drop k es, records_append, encodeAll_append]
      rw [List.take_append_drop, List.take_left]
    rw [Folder.performAll_cons, (rewriteOps_indexOnly _).logs, Folder.perform_log_logs]
    simp only [Dir.perform, hd, Option.getD_some, hcut]

/-- A cut at or above the base keeps exactly the records below it, in the fields and in the file. -/
theorem Holds.truncateFrom (h : seg.Holds interval b es) (hf : ∀ r ∈ records b es, r.Fits)
    (hd : d.logs.get b = some (encodeAll (records b es))) (k : ℕ) :
    ∃ ops seg' changed, Segment.truncateFrom ((b + k : ℕ) : ℤ) (d, seg) =
        ⟨(d.performAll ops, seg'), ops, .ok changed⟩ ∧ seg'.Holds interval b (es.take k) ∧
      (d.performAll ops).logs = d.logs.put b (encodeAll (records b (es.take k))) ∧
      IndexOnly ops.tail := by
  rcases Nat.eq_zero_or_pos k with rfl | hpos
  · obtain ⟨ops, changed, hrun, hlogs, hops⟩ := h.truncateFrom_base (d := d)
    exact ⟨ops, new b interval, changed, hrun, holds_new, hlogs, hops⟩
  · rcases Nat.lt_or_ge k es.length with hk | hk
    · obtain ⟨ops, hrun, hlogs, hops⟩ := h.truncateFrom_mid hf hd hpos hk
      exact ⟨ops, _, true, hrun, ⟨rfl⟩, hlogs, hops⟩
    · rw [List.take_of_length_le hk]
      refine ⟨[], seg, false, ?_, h, (Dir.put_self hd).symm, indexOnly_nil⟩
      unfold Segment.truncateFrom
      rw [read_bind]
      dsimp only
      rw [if_neg (by rw [h.baseOffset]; push_cast; omega), h.positionOf hf hd, if_neg (by omega)]
      rfl

end Holds

end Segment

end Pylog.Log
