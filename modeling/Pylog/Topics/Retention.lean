import Pylog.Base.Transition
import Pylog.Log.Crash
import Pylog.Topics.Broker

/-!
# Reading behind retention

A sweep only takes records from the start of a partition's log, so the log still holds a list of
records from some first offset on.  `read_after` starts at the cursor and stops at the first offset
it cannot read: with a cursor more than one below the first offset it returns nothing
(`fetch_after_retention_iff`).
-/

namespace Pylog.Topics

open Effect Effect.Handler Log Transition

/-- A call that changes a partition. -/
inductive PartitionOp
  | append (payload : Bytes) (timestamp : ℤ)
  | sweep (nowMs : ℤ) (maxAgeMs maxTotalBytes : Option ℤ)

/-- The partition after a call, also after one that raises. -/
def PartitionOp.after (p : Partition) : PartitionOp → Partition
  | append payload timestamp => (Partition.append payload timestamp p).state
  | sweep nowMs maxAgeMs maxTotalBytes =>
    (Partition.retentionSweep nowMs maxAgeMs maxTotalBytes p).state

/-- Payloads that `read_record` takes back. -/
def PartitionOp.Short (_ : Partition) : PartitionOp → Prop
  | append payload _ => payload.length ≤ maxRecordBytes
  | sweep _ _ _ => True

/-- The records of a partition that can be read, in the order of their offsets. -/
def Partition.retained (p : Partition) : List Record :=
  (List.range p.nextOffset).filterMap fun o : ℕ => CommitLog.read p o

section Sweep

variable {p : Partition} {a : AbstractLog}

/-- The first segment starts below the second. -/
theorem bases_le (h : Tracks p a) {x y : Segment} {zs : List Segment}
    (hs : p.segments = x :: y :: zs) : x.baseOffset ≤ y.baseOffset := by
  obtain ⟨sh, hl, -, -⟩ := h
  have hb := hl.bases
  rw [hs, List.map_cons, List.map_cons] at hb
  match hc : sh.chunks with
  | [] => simp [hc, placed] at hb
  | [c] => simp [hc, placed] at hb
  | c :: c' :: cs =>
    rw [hc, placed, placed, List.map_cons, List.map_cons] at hb
    simp only [List.cons.injEq, Nat.cast_inj] at hb
    omega

theorem sweepAge_keeps (h : Tracks p a) (nowMs : ℤ) (maxAgeMs : Option ℤ) :
    ∃ n p' a' out, Partition.sweepAge nowMs maxAgeMs p = ⟨p', out, .ok n⟩ ∧ Tracks p' a' := by
  unfold Partition.sweepAge
  rw [read_bind]
  cases Partition.expiredThrough p nowMs maxAgeMs with
  | none => exact ⟨0, p, a, [], rfl, h⟩
  | some seg =>
    obtain ⟨j, p', a', out, hrun, h', -⟩ := h.truncateSegmentsBefore (seg.baseOffset + 1)
    exact ⟨j, p', a', out, hrun, h'⟩

/-- The loop ends by its own test: one segment is left, or few enough bytes. -/
theorem sweepBytes_keeps (maxTotalBytes : ℤ) : ∀ (fuel : ℕ) {p : Partition} {a : AbstractLog},
    Tracks p a → p.segments.length ≤ fuel →
    ∃ n p' a' out, Partition.sweepBytes maxTotalBytes fuel p = ⟨p', out, .ok n⟩ ∧ Tracks p' a' ∧
      (p'.segments.length ≤ 1 ∨ (((p'.segments.map Segment.size).sum : ℕ) : ℤ) ≤ maxTotalBytes)
  | 0, p, a, h, hfuel => ⟨0, p, a, [], rfl, h, .inl (by omega)⟩
  | fuel + 1, p, a, h, hfuel => by
    unfold Partition.sweepBytes
    rw [read_bind]
    match hs : p.segments with
    | [] => exact ⟨0, p, a, [], rfl, h, .inl (by simp [hs])⟩
    | [x] => exact ⟨0, p, a, [], rfl, h, .inl (by simp [hs])⟩
    | x :: y :: zs =>
      dsimp only
      by_cases hsize : ((((x :: y :: zs).map Segment.size).sum : ℕ) : ℤ) ≤ maxTotalBytes
      · rw [if_pos hsize]
        exact ⟨0, p, a, [], rfl, h, .inr (by rwa [hs])⟩
      · rw [if_neg hsize]
        obtain ⟨j, p₁, a₁, out₁, hrun₁, h₁, -, hsegs, hexp, -⟩ :=
          h.truncateSegmentsBefore (y.baseOffset + 1)
        -- the first segment is among those that go
        have hj : 0 < j := by
          have hle := bases_le h hs
          have h0 := hexp 0 x (by rw [hs]; rfl)
          have htrue : CommitLog.expired p (y.baseOffset + 1) (x, 0) = true := by
            unfold CommitLog.expired
            rw [hs]
            simp
            omega
          rw [htrue] at h0
          exact of_decide_eq_true h0.symm
        obtain ⟨n, p', a', out, hrun, h', hend⟩ := sweepBytes_keeps maxTotalBytes fuel h₁ (by
          rw [hsegs, List.length_drop]
          omega)
        exact ⟨n + 1, p', a', _, bind_run hrun₁ (bind_run hrun (pure_eq _ _)), h', hend⟩

/-- A sweep returns, and leaves a log of records. -/
theorem retentionSweep_keeps (h : Tracks p a) (nowMs : ℤ) (maxAgeMs maxTotalBytes : Option ℤ) :
    ∃ n p' a' out, Partition.retentionSweep nowMs maxAgeMs maxTotalBytes p = ⟨p', out, .ok n⟩ ∧
      Tracks p' a' := by
  obtain ⟨n₁, p₁, a₁, out₁, hrun₁, h₁⟩ := sweepAge_keeps h nowMs maxAgeMs
  have htotal : ∃ n p' a' out, Partition.sweepTotal maxTotalBytes p₁ = ⟨p', out, .ok n⟩ ∧
      Tracks p' a' := by
    unfold Partition.sweepTotal
    rw [read_bind]
    cases maxTotalBytes with
    | none => exact ⟨0, p₁, a₁, [], rfl, h₁⟩
    | some m =>
      obtain ⟨n, p', a', out, hrun, h', -⟩ := sweepBytes_keeps m p₁.segments.length h₁ le_rfl
      exact ⟨n, p', a', out, hrun, h'⟩
  obtain ⟨n₂, p₂, a₂, out₂, hrun₂, h₂⟩ := htotal
  exact ⟨n₁ + n₂, p₂, a₂, _, bind_run hrun₁ (bind_run hrun₂ (pure_eq _ _)), h₂⟩

/-- Every run of appends and sweeps leaves a log of records. -/
theorem tracks_of_partition_run {maxSegmentBytes interval : ℕ}
    (hp : Reach PartitionOp.after PartitionOp.Short
      (CommitLog.openAt maxSegmentBytes interval {}).state p) : ∃ a, Tracks p a := by
  refine hp.inv (fun p => ∃ a, Tracks p a) ⟨_, tracks_openAt_nil maxSegmentBytes interval⟩ ?_
  rintro p op - ⟨a, h⟩ hop
  cases op with
  | append payload timestamp =>
    show ∃ a, Tracks (Partition.append payload timestamp p).state a
    unfold Partition.append
    rcases h.append_cases hop (some timestamp) timestamp with
      ⟨p', out, hrun, h'⟩ | ⟨p', out, hrun, h'⟩
    · rw [hrun]
      exact ⟨_, h'⟩
    · rw [hrun]
      exact ⟨_, h'⟩
  | sweep nowMs maxAgeMs maxTotalBytes =>
    obtain ⟨n, p', a', out, hrun, h'⟩ := retentionSweep_keeps h nowMs maxAgeMs maxTotalBytes
    show ∃ a, Tracks (Partition.retentionSweep nowMs maxAgeMs maxTotalBytes p).state a
    rw [hrun]
    exact ⟨a', h'⟩

end Sweep

/-! ### Reading -/

section Read

variable {p : Partition} {a : AbstractLog}

theorem retained_eq (h : Tracks p a) : Partition.retained p = records a.first a.items := by
  have hobs := h.observes
  have hread := hobs.readRange_first a.items.length
  have hrun := hobs.readRange a.items.length 0
  have hlen : p.nextOffset - a.first = a.items.length := by
    rw [hobs.1, AbstractLog.next]
    omega
  rw [Nat.add_zero, List.drop_zero, List.take_of_length_le (by simp)] at hrun
  rw [hrun, hlen, List.take_of_length_le (by simp)] at hread
  -- below the first offset nothing is read
  have hlow : (List.range a.first).filterMap (fun o : ℕ => CommitLog.read p o) = [] := by
    rw [List.filterMap_eq_nil_iff]
    intro o ho
    rw [hobs.2, AbstractLog.get, if_neg]
    have := List.mem_range.mp ho
    omega
  rw [List.range'_eq_map_range] at hread
  have hvalues := congrArg (List.filterMap id) hread
  rw [List.filterMap_map, List.filterMap_map] at hvalues
  unfold Partition.retained
  rw [hobs.1, AbstractLog.next, List.range_add, List.filterMap_append, hlow, List.nil_append]
  simpa [Function.comp_def] using hvalues.symm

/-- The records above an offset are the last ones. -/
theorem filter_records (b : ℕ) (es : List Datum) (x : ℤ) {k : ℕ} (hk : k = (x + 1 - b).toNat) :
    (records b es).filter (fun r => decide (x < r.offset)) = records (b + k) (es.drop k) := by
  conv_lhs => rw [← List.take_append_drop k es, records_append, List.filter_append]
  have hlow : (records b (es.take k)).filter (fun r => decide (x < r.offset)) = [] := by
    rw [List.filter_eq_nil_iff]
    intro r hr
    obtain ⟨h1, h2⟩ := Segment.mem_records hr
    rw [List.length_take] at h2
    simp only [decide_eq_true_eq]
    omega
  rw [hlow, List.nil_append]
  rcases Nat.lt_or_ge es.length k with hlt | hge
  · rw [List.drop_of_length_le hlt.le]
    rfl
  · rw [List.length_take, Nat.min_eq_left hge, List.filter_eq_self]
    intro r hr
    have := (Segment.mem_records hr).1
    simp only [decide_eq_true_eq]
    omega

/-- The first offset `read_after` asks for. -/
def Partition.cursor (offset : ℤ) : ℤ := max 0 (offset + 1)

theorem readAfter_eq (p : Partition) (offset limit : ℤ) :
    Partition.readAfter p offset limit =
      CommitLog.readRange p (Partition.cursor offset) limit.toNat := by
  unfold Partition.readAfter Partition.cursor
  congr 1
  split_ifs <;> omega

/-- From a cursor that is not below the first record, the first records above it are read. -/
theorem readAfter_of_le (h : Tracks p a) {offset : ℤ}
    (hle : (a.first : ℤ) ≤ Partition.cursor offset) (limit : ℤ) :
    Partition.readAfter p offset limit =
      ((Partition.retained p).filter fun r => decide (offset < r.offset)).take limit.toNat := by
  obtain ⟨k, hk⟩ : ∃ k : ℕ, Partition.cursor offset = ((a.first + k : ℕ) : ℤ) :=
    ⟨(Partition.cursor offset - a.first).toNat, by omega⟩
  rw [readAfter_eq, hk, h.observes.readRange, retained_eq h, filter_records _ _ _ (k := k)]
  unfold Partition.cursor at hk
  omega

/-- From a cursor below the first record nothing is read. -/
theorem readAfter_of_lt (h : Tracks p a) {offset : ℤ}
    (hlt : Partition.cursor offset < a.first) (limit : ℤ) :
    Partition.readAfter p offset limit = [] := by
  rw [readAfter_eq]
  cases limit.toNat with
  | zero => rfl
  | succ n =>
    rw [CommitLog.readRange, h.observes.2, AbstractLog.get, if_neg (by omega)]

end Read

/-- The first `limit` records still there above an offset, as messages. -/
def Partition.firstRetained (p : Partition) (afterOffset limit : ℤ) : List Message :=
  (((Partition.retained p).filter fun r => decide (afterOffset < r.offset)).take limit.toNat).map
    Message.ofRecord

/-- The first segment does not start above the cursor. -/
def Partition.Covers (p : Partition) (afterOffset : ℤ) : Prop :=
  ∀ seg ∈ p.segments.head?, (seg.baseOffset : ℤ) ≤ Partition.cursor afterOffset

theorem covers_iff {p : Partition} {a : AbstractLog} (h : Tracks p a) (afterOffset : ℤ) :
    Partition.Covers p afterOffset ↔ (a.first : ℤ) ≤ Partition.cursor afterOffset := by
  have hhead := h.head
  unfold Partition.Covers
  cases hs : p.segments.head? with
  | none =>
    rw [hs] at hhead
    cases hhead
  | some seg =>
    rw [hs] at hhead
    rw [← Option.some.inj hhead]
    simp

theorem fetch_eq {b : Broker} {topic : String} {i : ℕ} {p : Partition}
    (hb : b.partitionAt topic i = some p) (afterOffset limit : ℤ) :
    b.fetch topic i afterOffset limit =
      .ok ((Partition.readAfter p afterOffset limit).map Message.ofRecord) := by
  unfold Broker.fetch
  rw [if_pos (Int.natCast_nonneg i), Int.toNat_natCast, hb]

/-- For a partition that appends and sweeps
can reach: `fetch` returns the first records still there above the offset exactly if none are asked
for, none are there at all, or the cursor is not below the first segment. -/
theorem fetch_after_retention_iff {maxSegmentBytes interval : ℕ} {p : Partition}
    (hp : Reach PartitionOp.after PartitionOp.Short
      (CommitLog.openAt maxSegmentBytes interval {}).state p) {b : Broker} {topic : String} {i : ℕ}
    (hb : b.partitionAt topic i = some p) (afterOffset limit : ℤ) :
    b.fetch topic i afterOffset limit = .ok (Partition.firstRetained p afterOffset limit) ↔
      limit ≤ 0 ∨ Partition.retained p = [] ∨ Partition.Covers p afterOffset := by
  obtain ⟨a, h⟩ := tracks_of_partition_run hp
  rw [fetch_eq hb, covers_iff h]
  unfold Partition.firstRetained
  by_cases hle : (a.first : ℤ) ≤ Partition.cursor afterOffset
  · rw [readAfter_of_le h hle]
    simp [hle]
  · have hall : (Partition.retained p).filter (fun r => decide (afterOffset < r.offset)) =
        Partition.retained p := by
      rw [List.filter_eq_self]
      intro r hr
      rw [retained_eq h] at hr
      have := (Segment.mem_records hr).1
      unfold Partition.cursor at hle
      simp only [decide_eq_true_eq]
      omega
    rw [readAfter_of_lt h (by omega), hall]
    have hlimit : limit.toNat = 0 ↔ limit ≤ 0 := by omega
    rw [List.map_nil, Except.ok.injEq, eq_comm, List.map_eq_nil_iff, List.take_eq_nil_iff, hlimit]
    simp only [hle, or_false]

/-- Three segments of one record, swept down to the last one. -/
def sweptPartition : Partition :=
  [.append [65] 0, .append [66] 0, .append [67] 0, .sweep 0 none (some 0)].foldl PartitionOp.after
    (CommitLog.openAt 1 1 {}).state

theorem sweptPartition_reach : Reach PartitionOp.after PartitionOp.Short
    (CommitLog.openAt 1 1 {}).state sweptPartition := by
  have hstep : ∀ (p : Partition) (b : UInt8), PartitionOp.Short p (.append [b] 0) :=
    fun p b => show 1 ≤ maxRecordBytes by decide
  have hsweep : ∀ p : Partition, PartitionOp.Short p (.sweep 0 none (some 0)) := fun _ => trivial
  exact .step (.step (.step (.step .refl (hstep _ 65)) (hstep _ 66)) (hstep _ 67)) (hsweep _)

/-- A broker with the partition as its only one. -/
def sweptBroker : Broker :=
  { config := {}, topics := (∅ : Dict (List Partition)).insert "t" [sweptPartition] }

theorem fetch_after_retention_swept :
    sweptBroker.fetch "t" 0 1 100 = .ok (Partition.firstRetained sweptPartition 1 100) ↔
      (100 : ℤ) ≤ 0 ∨ Partition.retained sweptPartition = [] ∨ Partition.Covers sweptPartition 1 :=
  fetch_after_retention_iff sweptPartition_reach (b := sweptBroker) (i := 0) rfl 1 100

/-- A consumer that has read nothing yet never gets the record at offset 2. -/
theorem fetch_after_retention_stuck :
    Reach PartitionOp.after PartitionOp.Short (CommitLog.openAt 1 1 {}).state sweptPartition ∧
      sweptBroker.partitionAt "t" 0 = some sweptPartition ∧
      Partition.firstRetained sweptPartition (-1) 100 = [⟨2, 0, "C"⟩] ∧
      sweptBroker.fetch "t" 0 (-1) 100 = .ok [] :=
  ⟨sweptPartition_reach, rfl, by decide +kernel, by decide +kernel⟩

end Pylog.Topics
