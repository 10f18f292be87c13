import Pylog.Log.Batch

/-!
# What an append accepts can be read back

`Account` runs a log beside the records it owes: those that its appends accepted and no truncation
has dropped.  `Kept`: the log reads each of them, and so does a log opened on its directory.

`encode_record` takes payloads of up to `2^32 - 1` bytes and `read_record` refuses more than
`MAX_RECORD_BYTES`, so the log keeps what it owes exactly as long as it accepts short payloads only
(`kept_iff_short`).
-/

namespace Pylog.Log

open Effect Effect.Handler Files Framing Transition CommitLog

/-! ### A log only reads records that fit -/

theorem Segment.scan_fits {target : ℕ} : ∀ {fuel : ℕ} {f : Bytes} {position p : ℕ} {r : Record},
    scan target fuel f position = some (p, r) → r.Fits
  | fuel + 1, f, position, p, r, h => by
    unfold scan at h
    cases hread : readRecord f with
    | error e =>
      rw [hread] at h
      cases h
    | ok found =>
      rw [hread] at h
      cases found with
      | none => cases h
      | some rest =>
        dsimp only at h
        split_ifs at h with h1
        · simp only [Option.some.injEq, Prod.mk.injEq] at h
          rw [← h.2]
          exact (readRecord_inv hread).1
        · exact scan_fits h

theorem Segment.read_fits {seg : Segment} {d : Folder} {o : ℤ} {r : Record}
    (h : seg.read d o = some r) : r.Fits := by
  unfold Segment.read at h
  obtain ⟨⟨p, r'⟩, hfind, rfl⟩ := Option.map_eq_some_iff.mp h
  unfold Segment.find at hfind
  split_ifs at hfind
  exact scan_fits hfind

theorem CommitLog.read_fits {s : CommitLog} {o : ℤ} {r : Record} (h : s.read o = some r) :
    r.Fits := by
  have hbind : ∀ i : ℕ, (s.segments[i]?.bind fun seg => seg.read s.folder o) = some r →
      r.Fits := by
    intro i hi
    obtain ⟨seg, -, hseg⟩ := Option.bind_eq_some_iff.mp hi
    exact Segment.read_fits hseg
  unfold CommitLog.read at h
  split at h
  · cases h
  · split at h
    · rename_i hrec
      rw [Option.some.inj h] at hrec
      exact hbind _ hrec
    · split_ifs at h
      exact hbind _ h

/-! ### The records a log owes -/

/-- The offset of the first record. -/
def CommitLog.firstOffset (s : CommitLog) : ℕ :=
  (s.segments.head?.map Segment.baseOffset).getD 0

/-- A log and the records it owes. -/
structure Account where
  log : CommitLog
  owed : List Record

/-- The call returns. -/
def LogOp.Accepted (s : CommitLog) (op : LogOp) : Prop := ∃ v, (op.exec s).result = .ok v

namespace Account

/-- The records owed after a call, by what it returned. -/
def owedAfter (c : Account) (op : LogOp) : List Record :=
  match op, (op.exec c.log).result with
  | .append payload timestamp now, .ok (.offset n) => c.owed ++ [⟨n, timestamp.getD now, payload⟩]
  | .appendMany payloads timestamps now, .ok (.offsets l) =>
    c.owed ++ (l.zip (LogOp.batchData payloads timestamps now)).map fun p => ⟨p.1, p.2.1, p.2.2⟩
  | .truncateFrom offset, .ok _ =>
    -- an offset below the first record drops nothing
    if (c.log.firstOffset : ℤ) ≤ offset then c.owed.filter fun r => decide ((r.offset : ℤ) < offset)
    else c.owed
  | .truncateSegmentsBefore _, .ok _ =>
    c.owed.filter fun r => decide ((op.after c.log).firstOffset ≤ r.offset)
  | _, _ => c.owed

def after (c : Account) (op : LogOp) : Account := ⟨op.after c.log, c.owedAfter op⟩

/-- The account of an empty directory. -/
def start (maxSegmentBytes interval : ℕ) : Account :=
  ⟨(CommitLog.openAt maxSegmentBytes interval {}).state, []⟩

/-- The log reads every record it owes, and a log opened on its directory does too. -/
def Kept (c : Account) : Prop :=
  ∀ r ∈ c.owed, c.log.read r.offset = some r ∧
    ∀ maxSegmentBytes interval : ℕ, ∃ s' out,
      CommitLog.openAt maxSegmentBytes interval c.log.folder = ⟨s', out, .ok ()⟩ ∧
      s'.read r.offset = some r

/-- The log holds exactly the records it owes. -/
def Settled (c : Account) : Prop :=
  ∃ a, Tracks c.log a ∧ c.owed = records a.first a.items

end Account

theorem read_records {s : CommitLog} {a : AbstractLog} (h : Observes s a) :
    ∀ r ∈ records a.first a.items, s.read r.offset = some r := by
  intro r hr
  obtain ⟨k, hk, rfl⟩ := List.mem_iff_getElem.mp hr
  have hget := List.getElem?_eq_getElem hk
  rw [getElem?_records] at hget
  obtain ⟨e, he, hre⟩ := Option.map_eq_some_iff.mp hget
  rw [← hre, h.2, a.get_add, he]
  rfl

theorem Account.Settled.kept {c : Account} (h : c.Settled) : c.Kept := by
  obtain ⟨a, ht, howed⟩ := h
  intro r hr
  rw [howed] at hr
  refine ⟨read_records ht.observes r hr, ?_⟩
  intro maxSegmentBytes interval
  obtain ⟨s', out, hrun, h'⟩ := ht.openAt maxSegmentBytes interval
  exact ⟨s', out, hrun, read_records h'.observes r hr⟩

theorem filter_records_lt (b : ℕ) (es : List Datum) {o : ℕ} (ho : b ≤ o) :
    (records b es).filter (fun r => decide ((r.offset : ℤ) < o)) = records b (es.take (o - b)) := by
  conv_lhs => rw [← List.take_append_drop (o - b) es, records_append, List.filter_append]
  have h1 : (records b (es.take (o - b))).filter (fun r => decide ((r.offset : ℤ) < o)) =
      records b (es.take (o - b)) := by
    rw [List.filter_eq_self]
    intro r hr
    have := (Segment.mem_records hr).2
    rw [List.length_take] at this
    simp
    omega
  have h2 : (records (b + (es.take (o - b)).length) (es.drop (o - b))).filter
      (fun r => decide ((r.offset : ℤ) < o)) = [] := by
    rw [List.filter_eq_nil_iff]
    intro r hr
    have := Segment.mem_records hr
    rw [List.length_take, List.length_drop] at this
    simp
    omega
  rw [h1, h2, List.append_nil]

theorem filter_records_ge (b : ℕ) (es : List Datum) {o : ℕ} (ho : b ≤ o)
    (hle : o ≤ b + es.length) :
    (records b es).filter (fun r => decide (o ≤ r.offset)) = records o (es.drop (o - b)) := by
  have hlen : b + (es.take (o - b)).length = o := by
    rw [List.length_take]
    omega
  conv_lhs => rw [← List.take_append_drop (o - b) es, records_append, List.filter_append, hlen]
  have h1 : (records b (es.take (o - b))).filter (fun r => decide (o ≤ r.offset)) = [] := by
    rw [List.filter_eq_nil_iff]
    intro r hr
    have := (Segment.mem_records hr).2
    simp
    omega
  have h2 : (records o (es.drop (o - b))).filter (fun r => decide (o ≤ r.offset)) =
      records o (es.drop (o - b)) := by
    rw [List.filter_eq_self]
    intro r hr
    simpa using (Segment.mem_records hr).1
  rw [h1, h2, List.nil_append]

/-- Offsets that were returned, with what was written at them. -/
theorem zip_range' : ∀ {es : List Datum} {b n : ℕ}, es.length ≤ n →
    (((List.range' b n).zip es).map fun p => (⟨p.1, p.2.1, p.2.2⟩ : Record)) = records b es
  | [], b, n, _ => by simp
  | e :: es, b, n + 1, h => by
    rw [List.range'_succ, List.zip_cons_cons, List.map_cons, zip_range' (by simpa using h),
      records_cons]

theorem Tracks.firstOffset {s : CommitLog} {a : AbstractLog} (h : Tracks s a) :
    s.firstOffset = a.first := by
  unfold CommitLog.firstOffset
  rw [h.head]
  rfl

/-! ### One call -/

namespace Account

variable {c : Account}

theorem owedAfter_error {op : LogOp} {e : LogError} (h : (op.exec c.log).result = .error e) :
    c.owedAfter op = c.owed := by
  unfold owedAfter
  rw [h]
  cases op <;> rfl

/-- A call that raises keeps what is owed, if it has not written a blob. -/
theorem Settled.raised (h : c.Settled) {op : LogOp} (hop : op.Whole c.log) {e : LogError}
    (he : (op.exec c.log).result = .error e) : (c.after op).Settled := by
  obtain ⟨a, ht, howed⟩ := h
  refine ⟨a, ?_, (owedAfter_error he).trans howed⟩
  show Tracks (op.after c.log) a
  -- the other calls return
  have hreturns : op.Admissible c.log → False := by
    intro hadm
    obtain ⟨s', a', v, out, hrun, -, -⟩ := ht.step hadm
    rw [hrun] at he
    cases he
  cases op with
  | append payload timestamp now =>
    rw [LogOp.after_append]
    exact ht.append_raised (bind_pure_error he)
  | appendMany payloads timestamps now =>
    rw [LogOp.after_appendMany, ht.appendMany_raised (bind_pure_error he) hop]
    exact ht
  | truncateFrom offset =>
    by_cases ho : (a.first : ℤ) ≤ offset
    · exact (hreturns (ht.admissible_of_le ho)).elim
    · rw [ht.exec_below (by omega)] at he
      cases he
  | truncateSegmentsBefore m => exact (hreturns trivial).elim
  | reopen => exact (hreturns trivial).elim

theorem settled_of_exec {op : LogOp} {s' : CommitLog} {out : List FileOp} {v : LogValue}
    {a' : AbstractLog} (hexec : op.exec c.log = ⟨s', out, .ok v⟩) (h' : Tracks s' a')
    (howed : c.owedAfter op = records a'.first a'.items) : (c.after op).Settled := by
  refine ⟨a', ?_, howed⟩
  show Tracks (op.exec c.log).state a'
  rw [hexec]
  exact h'

/-- A call that returns, with short payloads: the log holds what it owes afterwards. -/
theorem Settled.returned (h : c.Settled) {op : LogOp} (hop : op.Short) {v : LogValue}
    (hv : (op.exec c.log).result = .ok v) : (c.after op).Settled := by
  obtain ⟨a, ht, howed⟩ := h
  cases op with
  | append payload timestamp now =>
    rcases ht.append_cases hop timestamp now with ⟨s', out, hrun, h'⟩ | ⟨s', out, hrun, -⟩
    · have hexec : (LogOp.append payload timestamp now).exec c.log = _ := bind_run hrun (pure_eq _ _)
      refine settled_of_exec hexec h' ?_
      simp only [owedAfter, hexec, howed, AbstractLog.append, AbstractLog.next, records_append,
        records_cons, records_nil]
    · have hexec : (LogOp.append payload timestamp now).exec c.log = _ := bind_error hrun
      rw [hexec] at hv
      cases hv
  | appendMany payloads timestamps now =>
    rcases ht.appendMany_cases hop timestamps now with ⟨s', out, hrun, h'⟩ | hlt
    · have hexec : (LogOp.appendMany payloads timestamps now).exec c.log = _ :=
        bind_run hrun (pure_eq _ _)
      refine settled_of_exec hexec h' ?_
      have hlen : (LogOp.batchData payloads timestamps now).length ≤ payloads.length := by
        unfold LogOp.batchData
        rw [List.length_zip]
        omega
      simp only [owedAfter, hexec, howed, records_append, zip_range' hlen, AbstractLog.next]
    · obtain ⟨segs, seg, hs, hb, hn⟩ := ht.active
      obtain ⟨s', out, e, hrun, -⟩ := appendMany_refused hs hb hn hlt
      have hexec : (LogOp.appendMany payloads timestamps now).exec c.log = _ := bind_error hrun
      rw [hexec] at hv
      cases hv
  | truncateFrom offset =>
    by_cases ho : (a.first : ℤ) ≤ offset
    · obtain ⟨o, rfl⟩ := Int.eq_ofNat_of_zero_le (le_trans (Int.natCast_nonneg _) ho)
      have hle : a.first ≤ o := by exact_mod_cast ho
      obtain ⟨s', changed, out, hrun, h'⟩ := ht.truncateFrom hle
      have hexec : (LogOp.truncateFrom (o : ℤ)).exec c.log = _ := bind_run hrun (pure_eq _ _)
      refine settled_of_exec hexec h' ?_
      simp only [owedAfter, hexec, howed, ht.firstOffset, if_pos ho, filter_records_lt _ _ hle,
        AbstractLog.truncateFrom]
    · have hexec := ht.exec_below (by omega : offset < a.first)
      refine settled_of_exec hexec ht ?_
      simp only [owedAfter, hexec, howed, ht.firstOffset, if_neg ho]
  | truncateSegmentsBefore m =>
    obtain ⟨j, s', a', out, hrun, h', -, -, -, h1, h2, h3⟩ := ht.truncateSegmentsBefore m
    have hexec : (LogOp.truncateSegmentsBefore m).exec c.log = _ := bind_run hrun (pure_eq _ _)
    refine settled_of_exec hexec h' ?_
    simp only [owedAfter, hexec, howed, LogOp.after_truncateSegmentsBefore, hrun, h'.firstOffset,
      filter_records_ge _ _ h1 h2]
    rw [h3]
    rfl
  | reopen =>
    obtain ⟨s', out, hrun, h'⟩ := ht.openAt c.log.maxSegmentBytes c.log.indexIntervalBytes
    have hexec : LogOp.reopen.exec c.log = ⟨s', out, .ok .opened⟩ := by
      unfold LogOp.exec
      dsimp only
      rw [hrun]
      rfl
    exact settled_of_exec hexec h' howed

/-- A payload above `MAX_RECORD_BYTES` that was accepted cannot be read. -/
theorem Settled.overlong (h : c.Settled) {op : LogOp} (hlong : ¬ op.Short)
    (hacc : op.Accepted c.log) : ¬ (c.after op).Kept := by
  obtain ⟨a, ht, -⟩ := h
  obtain ⟨v, hv⟩ := hacc
  intro hk
  cases op with
  | append payload timestamp now =>
    have hres : (CommitLog.append payload timestamp now c.log).result.map LogValue.offset = .ok v :=
      (bind_pure_result _ _ _).symm.trans hv
    cases hrun : (CommitLog.append payload timestamp now c.log).result with
    | error e =>
      rw [hrun] at hres
      cases hres
    | ok n =>
      rw [hrun] at hres
      obtain rfl := Except.ok.inj hres
      have howed : (c.after (.append payload timestamp now)).owed =
          c.owed ++ [⟨n, timestamp.getD now, payload⟩] := by
        simp only [after, owedAfter, hv]
      obtain ⟨hread, -⟩ := hk ⟨n, timestamp.getD now, payload⟩ (by rw [howed]; simp)
      exact hlong (CommitLog.read_fits hread).payload
  | appendMany payloads timestamps now =>
    obtain ⟨segs, seg, hs, hb, hn⟩ := ht.active
    by_cases he : (encoded (c.log.items payloads timestamps now)).length = payloads.length
    · obtain ⟨s', out, hrun⟩ := appendMany_encodable hs hb hn he
      have hexec : (LogOp.appendMany payloads timestamps now).exec c.log = _ :=
        bind_run hrun (pure_eq _ _)
      have hlen := encoded_length_le he
      have howed : (c.after (.appendMany payloads timestamps now)).owed =
          c.owed ++ records c.log.nextOffset (LogOp.batchData payloads timestamps now) := by
        simp only [after, owedAfter, hexec]
        rw [zip_range' (LogOp.length_batchData hlen).le]
      refine hlong fun p hp => ?_
      obtain ⟨k, hk', rfl⟩ := List.mem_iff_getElem.mp hp
      have hget : (records c.log.nextOffset (LogOp.batchData payloads timestamps now))[k]? =
          some ⟨c.log.nextOffset + k,
            (timestamps.getD (List.replicate payloads.length now))[k], payloads[k]⟩ := by
        rw [getElem?_records, LogOp.batchData, List.getElem?_eq_getElem (by
          rw [List.length_zip]
          omega), List.getElem_zip]
        rfl
      obtain ⟨hread, -⟩ := hk _ (by
        rw [howed]
        exact List.mem_append_right _ (List.mem_of_getElem? hget))
      exact (CommitLog.read_fits hread).payload
    · obtain ⟨s', out, e, hrun, -⟩ := appendMany_refused hs hb hn (encoded_lt he)
      have hexec : (LogOp.appendMany payloads timestamps now).exec c.log = _ := bind_error hrun
      rw [hexec] at hv
      cases hv
  | truncateFrom offset => exact hlong trivial
  | truncateSegmentsBefore m => exact hlong trivial
  | reopen => exact hlong trivial

theorem settled_start (maxSegmentBytes interval : ℕ) : (start maxSegmentBytes interval).Settled :=
  ⟨_, tracks_openAt_nil maxSegmentBytes interval, rfl⟩

/-- In every run from an empty directory in which no `append_many` raises after it wrote a blob: the
log keeps what it accepts, after every call, as long as all the calls it accepts have short
payloads, and no longer. -/
theorem kept_iff_short (maxSegmentBytes interval : ℕ) (ops : List LogOp)
    (hw : Along after (fun c op => op.Whole c.log) (start maxSegmentBytes interval) ops) :
    Along after (fun c op => (c.after op).Kept) (start maxSegmentBytes interval) ops ↔
      Along after (fun c op => op.Accepted c.log → op.Short) (start maxSegmentBytes interval) ops := by
  have hstep : ∀ (c : Account) (op : LogOp), c.Settled → op.Whole c.log →
      (op.Accepted c.log → op.Short) → (c.after op).Settled := by
    intro c op hc hop hshort
    cases hres : (op.exec c.log).result with
    | error e => exact hc.raised hop hres
    | ok v => exact hc.returned (hshort ⟨v, hres⟩) hres
  refine along_iff Settled ?_ hstep ops _ (settled_start maxSegmentBytes interval) hw
  intro c op hc hop
  constructor
  · intro hk hacc
    by_contra hlong
    exact hc.overlong hlong hacc hk
  · intro hshort
    exact (hstep c op hc hop hshort).kept

/-- An append, a batch and a reopen. -/
theorem kept_iff_short_batch :
    Along after (fun c op => (c.after op).Kept) (start 40 1)
        [.append [7] (some 5) 0, .appendMany [[1], [2]] none 3, .reopen] ↔
      Along after (fun c op => op.Accepted c.log → op.Short) (start 40 1)
        [.append [7] (some 5) 0, .appendMany [[1], [2]] none 3, .reopen] :=
  kept_iff_short 40 1 _ ⟨trivial, .inl (by decide +kernel), trivial, trivial⟩

/-- One byte above `MAX_RECORD_BYTES`: the record is accepted at offset `0` and cannot be read. -/
theorem overlong_unread :
    (CommitLog.append (List.replicate (maxRecordBytes + 1) 0) (some 5) 0
      (CommitLog.openAt 64 1 {}).state).result = .ok 0 ∧
    (CommitLog.append (List.replicate (maxRecordBytes + 1) 0) (some 5) 0
      (CommitLog.openAt 64 1 {}).state).state.read 0 ≠
        some ⟨0, 5, List.replicate (maxRecordBytes + 1) 0⟩ := by
  have hlen : (List.replicate (maxRecordBytes + 1) (0 : UInt8)).length = maxRecordBytes + 1 :=
    List.length_replicate
  generalize List.replicate (maxRecordBytes + 1) (0 : UInt8) = payload at hlen
  have hmax : maxRecordBytes + 1 < 2 ^ 32 := by decide
  have hnext : (CommitLog.openAt 64 1 {}).state.nextOffset = 0 := by decide +kernel
  have henc : Record.Encodable
      ⟨(CommitLog.openAt 64 1 {}).state.nextOffset, (some 5).getD 0, payload⟩ := by
    refine ⟨by rw [hlen]; exact hmax, by rw [hnext]; exact Nat.two_pow_pos 64, ?_⟩
    show FitsI64 5
    decide
  obtain ⟨s', out, hrun⟩ := (tracks_openAt_nil 64 1).append_encodable henc
  refine ⟨by rw [hrun, hnext], ?_⟩
  intro hread
  have hfits := (CommitLog.read_fits hread).payload
  rw [hlen] at hfits
  omega

end Account

end Pylog.Log
