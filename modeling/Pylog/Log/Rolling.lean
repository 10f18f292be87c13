import Pylog.Log.Batch

/-!
# Segments are rolled by size

`Rolled s`: no record of `s` starts at or above `max_segment_bytes` in its segment, so every segment
is smaller than the limit plus its last record.  `append` rolls a full segment before it writes;
`append_many` rolls between the records of a batch only, so it writes the first record of a batch
into the active segment whatever its size (`not_sized_appendMany`).
-/

namespace Pylog.Log

open Effect Effect.Handler Files Framing Transition CommitLog

/-! ### Shapes -/

/-- All records of a segment start below `max`. -/
def Below (max : ℕ) (p : ℕ × List Datum) : Prop :=
  ∀ k < p.2.length, (encodeAll (records p.1 (p.2.take k))).length < max

/-- All records start below `max` in their segments. -/
def Shape.Below (max : ℕ) (sh : Shape) : Prop := ∀ p ∈ placed sh.first sh.chunks, Log.Below max p

variable {max : ℕ}

theorem below_nil (b : ℕ) : Below max (b, []) := fun _ hk => absurd hk (Nat.not_lt_zero _)

theorem Below.take {b : ℕ} {c : List Datum} (h : Below max (b, c)) (n : ℕ) :
    Below max (b, c.take n) := by
  intro k hk
  dsimp only at hk ⊢
  rw [List.length_take] at hk
  rw [List.take_take, Nat.min_eq_left (by omega)]
  exact h k (by show k < c.length; omega)

/-- Records behind those of a segment: they start behind them. -/
theorem below_append {b : ℕ} {c fs : List Datum} :
    Below max (b, c ++ fs) ↔ Below max (b, c) ∧ ∀ i < fs.length,
      (encodeAll (records b c)).length + (encodeAll (records (b + c.length) (fs.take i))).length <
        max := by
  have hpos : ∀ i, (encodeAll (records b ((c ++ fs).take (c.length + i)))).length =
      (encodeAll (records b c)).length +
        (encodeAll (records (b + c.length) (fs.take i))).length := by
    intro i
    rw [List.take_length_add_append, records_append, encodeAll_append, List.length_append]
  constructor
  · intro h
    refine ⟨fun k hk => ?_, fun i hi => ?_⟩
    · have hk' := h k (by simp only [List.length_append] at hk ⊢; omega)
      rwa [List.take_append_of_le_length hk.le] at hk'
    · rw [← hpos]
      exact h (c.length + i) (by simp only [List.length_append]; omega)
  · rintro ⟨h1, h2⟩ k hk
    rcases Nat.lt_or_ge k c.length with hlt | hge
    · show (encodeAll (records b ((c ++ fs).take k))).length < max
      rw [List.take_append_of_le_length hlt.le]
      exact h1 k hlt
    · obtain ⟨i, rfl⟩ := Nat.exists_eq_add_of_le hge
      rw [hpos]
      simp only [List.length_append] at hk
      exact h2 i (by omega)

namespace Shape

variable {sh : Shape}

theorem below_iff : sh.Below max ↔
    (∀ p ∈ placed sh.first sh.full, Log.Below max p) ∧ Log.Below max (sh.base, sh.active) := by
  unfold Shape.Below
  rw [sh.placed_eq]
  simp only [List.mem_append, List.mem_singleton]
  constructor
  · intro h
    exact ⟨fun p hp => h p (.inl hp), h _ (.inr rfl)⟩
  · rintro ⟨h1, h2⟩ p (hp | rfl)
    · exact h1 p hp
    · exact h2

theorem below_extend {fs : List Datum} (hf : ∀ r ∈ records sh.stop fs, r.Fits) :
    (sh.extend fs hf).Below max ↔ sh.Below max ∧ ∀ i < fs.length,
      sh.activeBytes + (encodeAll (records sh.stop (fs.take i))).length < max := by
  rw [below_iff, below_iff, and_assoc]
  refine and_congr_right fun _ => ?_
  rw [sh.stop_eq]
  exact below_append

theorem Below.roll (h : sh.Below max) (ha : sh.active ≠ []) : (sh.roll ha).Below max := by
  rw [below_iff]
  exact ⟨h, below_nil _⟩

theorem Below.cut (h : sh.Below max) {pre post : List (List Datum)} {c : List Datum}
    (hc : sh.chunks = pre ++ c :: post) (k : ℕ) : (sh.cut hc k).Below max := by
  unfold Shape.Below at h
  rw [hc, placed_append, placed] at h
  rw [below_iff]
  refine ⟨fun p hp => h p (List.mem_append_left _ hp), ?_⟩
  exact (h (sh.first + pre.flatten.length, c) (by simp)).take k

theorem Below.dropHead (h : sh.Below max) (j : ℕ) : (sh.dropHead j).Below max := by
  intro p hp
  refine h p ?_
  have hsplit : sh.chunks = sh.full.take j ++ (sh.dropHead j).chunks := by
    show sh.full ++ [sh.active] = _ ++ (sh.full.drop j ++ [sh.active])
    rw [← List.append_assoc, List.take_append_drop]
  rw [hsplit, placed_append]
  exact List.mem_append_right _ hp

end Shape

/-- A batch that starts below the limit stays below it. -/
theorem CommitLog.Batched.stays_below {sh sh' : Shape} (h : Batched max sh sh') (hpos : 0 < max) :
    sh.activeBytes < max → sh.Below max → sh'.Below max := by
  have hblob : ∀ {sh : Shape} {fs : List Datum} (hf : ∀ r ∈ records sh.stop fs, r.Fits),
      (∀ i < fs.length, 0 < i →
        sh.activeBytes + (encodeAll (records sh.stop (fs.take i))).length < max) →
      sh.activeBytes < max → sh.Below max → (sh.extend fs hf).Below max := by
    intro sh fs hf hroom hlt hb
    refine (Shape.below_extend hf).mpr ⟨hb, fun i hi => ?_⟩
    rcases Nat.eq_zero_or_pos i with rfl | hi0
    · simpa using hlt
    · exact hroom i hi hi0
  induction h with
  | last sh fs hf _ hroom => exact hblob hf hroom
  | next sh fs hf _ hroom ha _ ih =>
    intro hlt hb
    exact ih hpos ((hblob hf hroom hlt hb).roll ha)

/-- A batch writes its first record into the active segment. -/
theorem CommitLog.Batched.first {sh sh' : Shape} (h : Batched max sh sh') :
    sh'.first = sh.first ∧ ∃ fs post, fs ≠ [] ∧ sh'.chunks = sh.full ++ (sh.active ++ fs) :: post := by
  induction h with
  | last sh fs hf hne _ => exact ⟨rfl, fs, [], hne, rfl⟩
  | next sh fs hf hne _ ha _ ih =>
    obtain ⟨hfirst, fs', post, -, hchunks⟩ := ih
    refine ⟨hfirst, fs, ([] ++ fs') :: post, hne, ?_⟩
    rw [hchunks]
    show (sh.full ++ [sh.active ++ fs]) ++ ([] ++ fs') :: post = _
    rw [List.append_assoc]
    rfl

theorem CommitLog.Batched.not_below {sh sh' : Shape} (h : Batched max sh sh')
    (hfull : max ≤ sh.activeBytes) : ¬ sh'.Below max := by
  intro hb
  obtain ⟨hfirst, fs, post, hne, hchunks⟩ := h.first
  have hmem : (sh.base, sh.active ++ fs) ∈ placed sh'.first sh'.chunks := by
    rw [hchunks, hfirst, placed_append, placed]
    exact List.mem_append_right _ (List.mem_cons_self ..)
  have hlt := (below_append.mp (hb _ hmem)).2 0 (List.length_pos_iff.mpr hne)
  rw [List.take_zero, records_nil, encodeAll_nil, List.length_nil] at hlt
  unfold Shape.activeBytes at hfull
  omega

/-! ### The records of a segment -/

/-- A position of a segment is that of one of its records. -/
theorem Segment.Holds.positionOf_some {seg : Segment} {interval b : ℕ} {c : List Datum} {d : Folder}
    (h : seg.Holds interval b c) (hf : ∀ r ∈ records b c, r.Fits)
    (hd : d.logs.get b = some (encodeAll (records b c))) {o : ℤ} {pos : ℕ}
    (hpos : seg.positionOf d o = some pos) :
    ∃ k < c.length, o = (b + k : ℕ) ∧ pos = (encodeAll (records b (c.take k))).length := by
  have hin : (b : ℤ) ≤ o ∧ o < ((b + c.length : ℕ) : ℤ) := by
    by_contra hout
    have hnone := h.find_none (o := o) (by omega) ((d.logs.get seg.baseOffset).getD [])
    unfold Segment.positionOf at hpos
    rw [hnone] at hpos
    cases hpos
  obtain ⟨n, rfl⟩ := Int.eq_ofNat_of_zero_le (le_trans (Int.natCast_nonneg b) hin.1)
  obtain ⟨k, rfl⟩ := Nat.exists_eq_add_of_le (by exact_mod_cast hin.1 : b ≤ n)
  have hk : k < c.length := by
    have := hin.2
    push_cast at this
    omega
  rw [h.positionOf hf hd, if_pos hk] at hpos
  exact ⟨k, hk, rfl, (Option.some.inj hpos).symm⟩

/-- The last record of a segment. -/
theorem Segment.Holds.read_last {seg : Segment} {interval b : ℕ} {ds : List Datum} {d : Folder}
    (h : seg.Holds interval b ds) (hf : ∀ r ∈ records b ds, r.Fits)
    (hd : d.logs.get b = some (encodeAll (records b ds))) (hne : ds ≠ []) :
    ∃ r, seg.read d (seg.nextOffset - 1) = some r ∧
      seg.size = (encodeAll (records b (ds.take (ds.length - 1)))).length + r.bytes.length := by
  have hlen := List.length_pos_iff.mpr hne
  have hlast : ds[ds.length - 1]? = some ds[ds.length - 1] := List.getElem?_eq_getElem (by omega)
  have hfind := h.find hf hlast []
  rw [List.append_nil] at hfind
  have ho : ((seg.nextOffset : ℤ) - 1) = ((b + (ds.length - 1) : ℕ) : ℤ) := by
    rw [h.nextOffset]
    omega
  refine ⟨_, by rw [ho, Segment.read, h.baseOffset, hd, Option.getD_some, hfind]; rfl, ?_⟩
  have hsplit : ds = ds.take (ds.length - 1) ++ [ds[ds.length - 1]] := by
    conv_lhs => rw [← List.take_append_drop (ds.length - 1) ds, List.drop_eq_getElem_cons (by omega)]
    rw [List.drop_of_length_le (by omega)]
  rw [h.size]
  conv_lhs => rw [hsplit, records_append, encodeAll_append, List.length_append]
  rw [records_cons, records_nil, encodeAll_cons, encodeAll_nil, List.append_nil, List.length_take,
    Nat.min_eq_left (by omega)]

/-! ### Logs -/

namespace CommitLog

variable {s : CommitLog} {sh : Shape}

/-- Every record starts below the limit in its segment, and every segment that is not empty is
smaller than the limit and its last record together. -/
structure Rolled (s : CommitLog) : Prop where
  starts : ∀ seg ∈ s.segments, ∀ (o : ℤ) (p : ℕ), seg.positionOf s.folder o = some p →
    p < s.maxSegmentBytes
  sizes : ∀ seg ∈ s.segments, seg.size = 0 ∨ ∃ r, seg.read s.folder (seg.nextOffset - 1) = some r ∧
    seg.size < s.maxSegmentBytes + r.bytes.length

/-- The file at a place of the shape. -/
theorem Lays.get_file (h : s.Lays sh) {p : ℕ × List Datum} (hp : p ∈ placed sh.first sh.chunks) :
    s.folder.logs.get p.1 = some (encodeAll (records p.1 p.2)) := by
  obtain ⟨xs, ys, hxy⟩ := List.append_of_mem hp
  have hsorted := sh.sorted
  rw [hxy, List.pairwise_append] at hsorted
  rw [h.files, hxy, List.map_append, List.map_cons]
  refine Dir.get_mid fun hmem => ?_
  obtain ⟨f, hf, hb⟩ := List.mem_map.mp hmem
  obtain ⟨q, hq, rfl⟩ := List.mem_map.mp hf
  exact (hsorted.2.2 q hq p (List.mem_cons_self ..)).ne hb

/-- The place of a segment in the shape. -/
theorem Lays.place (h : s.Lays sh) {seg : Segment} (hseg : seg ∈ s.segments) :
    ∃ p ∈ placed sh.first sh.chunks, seg.Holds s.indexIntervalBytes p.1 p.2 := by
  have hmem := List.mem_map_of_mem (f := Segment.core) hseg
  rw [h.segments] at hmem
  obtain ⟨p, hp, hcore⟩ := List.mem_map.mp hmem
  exact ⟨p, hp, ⟨hcore.symm⟩⟩

/-- Every place of the shape is that of a segment. -/
theorem Lays.exists_segment (h : s.Lays sh) {p : ℕ × List Datum}
    (hp : p ∈ placed sh.first sh.chunks) :
    ∃ seg ∈ s.segments, seg.Holds s.indexIntervalBytes p.1 p.2 := by
  have hmem := List.mem_map_of_mem (f := coreOf s.indexIntervalBytes) hp
  rw [← h.segments] at hmem
  obtain ⟨seg, hseg, hcore⟩ := List.mem_map.mp hmem
  exact ⟨seg, hseg, ⟨hcore⟩⟩

theorem Lays.fits_place (_ : s.Lays sh) {p : ℕ × List Datum} (hp : p ∈ placed sh.first sh.chunks) :
    ∀ r ∈ records p.1 p.2, r.Fits :=
  fun r hr => sh.fits_data r (records_placed hp r hr)

theorem Lays.rolled_iff (h : s.Lays sh) : s.Rolled ↔ sh.Below s.maxSegmentBytes := by
  constructor
  · intro hr p hp k hk
    obtain ⟨seg, hseg, hholds⟩ := h.exists_segment hp
    refine hr.starts seg hseg ((p.1 + k : ℕ) : ℤ) _ ?_
    rw [hholds.positionOf (h.fits_place hp) (h.get_file hp), if_pos hk]
  · intro hb
    refine ⟨?_, ?_⟩
    · intro seg hseg o pos hpos
      obtain ⟨p, hp, hholds⟩ := h.place hseg
      obtain ⟨k, hk, -, rfl⟩ := hholds.positionOf_some (h.fits_place hp) (h.get_file hp) hpos
      exact hb p hp k hk
    · intro seg hseg
      obtain ⟨p, hp, hholds⟩ := h.place hseg
      by_cases hne : p.2 = []
      · left
        rw [hholds.size, hne]
        rfl
      · right
        have hpos := List.length_pos_iff.mpr hne
        obtain ⟨r, hread, hsize⟩ := hholds.read_last (h.fits_place hp) (h.get_file hp) hne
        have hlast := hb p hp (p.2.length - 1) (by omega)
        exact ⟨r, hread, by omega⟩

/-- A log whose records all start below the limit. -/
def Sized (s : CommitLog) : Prop :=
  ∃ sh : Shape, s.Lays sh ∧ s.nextOffset = sh.stop ∧ sh.Below s.maxSegmentBytes

theorem Sized.rolled (h : s.Sized) : s.Rolled := by
  obtain ⟨sh, hl, -, hb⟩ := h
  exact hl.rolled_iff.mpr hb

theorem Sized.tracks (h : s.Sized) : ∃ a, Tracks s a := by
  obtain ⟨sh, hl, hn, -⟩ := h
  exact ⟨_, sh, hl, hn, rfl⟩

theorem Lays.activeSize_eq (h : s.Lays sh) : s.activeSize = sh.activeBytes := by
  obtain ⟨segs, seg, hs, -, hseg⟩ := h.active
  rw [CommitLog.activeSize_eq hs, hseg.size]
  rfl

/-- `append` writes below the limit: a full segment is rolled first. -/
theorem Sized.append (h : s.Sized) {payload : Bytes} (hp : payload.length ≤ maxRecordBytes)
    (timestamp : Option ℤ) (now : ℤ) : (CommitLog.append payload timestamp now s).state.Sized := by
  obtain ⟨sh, hl, hn, hb⟩ := h
  have hrolled : ∀ {sh₁}, (sh₁ = sh ∨ ∃ ha, sh₁ = sh.roll ha) → sh₁.Below s.maxSegmentBytes := by
    rintro sh₁ (rfl | ⟨ha, rfl⟩)
    · exact hb
    · exact hb.roll ha
  by_cases henc : Record.Encodable ⟨sh.stop, timestamp.getD now, payload⟩
  · have hf : ∀ r ∈ records sh.stop [(timestamp.getD now, payload)], r.Fits := by
      intro r hr
      rw [records_cons, records_nil, List.mem_singleton] at hr
      subst hr
      exact ⟨henc.2.1, henc.2.2, hp⟩
    obtain ⟨s', sh₁, hf₁, ops, hrun, happ, hlt, hsh₁⟩ := hl.append_rolled hn payload timestamp now hf
    rw [hrun]
    refine ⟨_, ⟨happ.lays.max_pos, happ.lays.segments, happ.lays.files⟩, happ.stop.symm, ?_⟩
    show Shape.Below s'.maxSegmentBytes _
    rw [happ.ran.max, Shape.below_extend]
    refine ⟨hrolled hsh₁, fun i hi => ?_⟩
    obtain rfl : i = 0 := by simpa using hi
    simpa using hlt
  · obtain ⟨s', sh', ops, hrun, happ, hsh'⟩ := hl.append_refused hn (if_neg henc)
    rw [hrun]
    refine ⟨sh', happ.lays, ?_, ?_⟩
    · rw [happ.ran.next, hn]
      exact happ.stop.symm
    · rw [happ.ran.max]
      exact hrolled hsh'

/-- A batch that can be encoded: its first record starts at the size of the active segment. -/
theorem Sized.appendMany (h : s.Sized) {payloads : List Bytes}
    (hp : ∀ p ∈ payloads, p.length ≤ maxRecordBytes) (hne : payloads ≠ [])
    {timestamps : Option (List ℤ)} {now : ℤ}
    (he : (encoded (s.items payloads timestamps now)).length = payloads.length) :
    (s.activeSize < s.maxSegmentBytes → (CommitLog.appendMany payloads timestamps now s).state.Sized) ∧
    (s.maxSegmentBytes ≤ s.activeSize →
      ¬ (CommitLog.appendMany payloads timestamps now s).state.Rolled) := by
  obtain ⟨sh, hl, hn, hb⟩ := h
  obtain ⟨h1, h2, h3⟩ := LogOp.admissible_of_encoded hp hne he
  have hlen := LogOp.length_batchData h1
  rw [hn] at h3
  obtain ⟨s', sh', ops, hrun, happ, hbatch⟩ := hl.appendMany_batched hn payloads timestamps now h1
    (fits_of_mem (by rw [← LogOp.batchData, hlen]; exact h3) h2)
  have hl' : Lays { s' with nextOffset := sh.stop + payloads.length } sh' :=
    ⟨happ.lays.max_pos, happ.lays.segments, happ.lays.files⟩
  rw [hrun, hl.activeSize_eq]
  constructor
  · intro hlt
    refine ⟨sh', hl', ?_, ?_⟩
    · have hstop := happ.stop
      rw [← LogOp.batchData, hlen] at hstop
      exact hstop.symm
    · show Shape.Below s'.maxSegmentBytes _
      rw [happ.ran.max]
      exact (hbatch hne).stays_below hl.max_pos hlt hb
  · intro hfull hr
    have hb' := hl'.rolled_iff.mp hr
    have hmax : s'.maxSegmentBytes = s.maxSegmentBytes := happ.ran.max
    rw [show ({ s' with nextOffset := sh.stop + payloads.length } : CommitLog).maxSegmentBytes =
      s.maxSegmentBytes from hmax] at hb'
    exact (hbatch hne).not_below hfull hb'

end CommitLog

/-! ### Runs -/

/-- An `append_many` that writes finds the active segment below the limit. -/
def LogOp.HasRoom (s : CommitLog) : LogOp → Prop
  | .appendMany payloads timestamps now => payloads ≠ [] →
    (encoded (s.items payloads timestamps now)).length = payloads.length →
    s.activeSize < s.maxSegmentBytes
  | _ => True

/-- An intact call that has room keeps all records below the limit. -/
theorem CommitLog.Sized.after {s : CommitLog} (h : s.Sized) {op : LogOp} (hop : op.Intact s)
    (hroom : op.HasRoom s) : (op.after s).Sized := by
  obtain ⟨hshort, hwhole⟩ := hop
  cases op with
  | append payload timestamp now =>
    rw [LogOp.after_append]
    exact h.append hshort timestamp now
  | appendMany payloads timestamps now =>
    rw [LogOp.after_appendMany]
    by_cases he : (encoded (s.items payloads timestamps now)).length = payloads.length
    · by_cases hne : payloads = []
      · rw [hne, appendMany_nil]
        exact h
      · exact (h.appendMany hshort hne he).1 (hroom hne he)
    · obtain ⟨a, ht⟩ := h.tracks
      obtain ⟨out, e, hrun⟩ := ht.refused (encoded_lt he) (hwhole.resolve_left he)
      rw [hrun]
      exact h
  | truncateFrom offset =>
    rw [LogOp.after_truncateFrom]
    obtain ⟨sh, hl, hn, hb⟩ := h
    by_cases ho : (sh.first : ℤ) ≤ offset
    · obtain ⟨o, rfl⟩ := Int.eq_ofNat_of_zero_le (le_trans (Int.natCast_nonneg _) ho)
      obtain ⟨pre, post, c, hc, k, s', changed, ops, hrun, hl', -, hn', hmax, -⟩ :=
        hl.truncateFrom_cut (by exact_mod_cast ho)
      rw [hrun]
      exact ⟨_, hl', hn', by rw [hmax]; exact hb.cut hc k⟩
    · rw [hl.truncateFrom_below (by omega)]
      exact ⟨sh, hl, hn, hb⟩
  | truncateSegmentsBefore m =>
    rw [LogOp.after_truncateSegmentsBefore]
    obtain ⟨sh, hl, hn, hb⟩ := h
    obtain ⟨j, -, -, s', ops, hrun, hl', -, hn', hmax, -⟩ := hl.truncateSegmentsBefore m
    rw [hrun]
    refine ⟨_, hl', ?_, by rw [hmax]; exact hb.dropHead j⟩
    rw [hn', hn, sh.dropHead_stop]
  | reopen =>
    obtain ⟨sh, hl, hn, hb⟩ := h
    obtain ⟨s', out, hrun, hl', -, hn', hmax, -, -⟩ := CommitLog.openAt_eq s.maxSegmentBytes
      s.indexIntervalBytes hl.holds (.inl readRecord_nil)
    rw [LogOp.after_reopen, hrun]
    refine ⟨sh, hl', hn', ?_⟩
    rw [hmax, max_eq_right hl.max_pos]
    exact hb

theorem CommitLog.sized_openAt_nil (maxSegmentBytes interval : ℕ) :
    (CommitLog.openAt maxSegmentBytes interval {}).state.Sized := by
  obtain ⟨s₀, out, hrun, hl, hn, -, -⟩ := CommitLog.openAt_nil maxSegmentBytes interval
  rw [hrun]
  refine ⟨CommitLog.emptyShape, hl, hn, ?_⟩
  rw [Shape.below_iff]
  exact ⟨fun p hp => (List.not_mem_nil hp).elim, below_nil _⟩

/-- A call keeps the segments within the limit exactly when it has room. -/
theorem CommitLog.Sized.rolled_after_iff {s : CommitLog} (h : s.Sized) {op : LogOp}
    (hop : op.Intact s) : (op.after s).Rolled ↔ op.HasRoom s := by
  constructor
  · intro hr
    cases op with
    | appendMany payloads timestamps now =>
      intro hne he
      by_contra hfull
      rw [LogOp.after_appendMany] at hr
      exact (h.appendMany hop.1 hne he).2 (by omega) hr
    | append payload timestamp now => trivial
    | truncateFrom offset => trivial
    | truncateSegmentsBefore m => trivial
    | reopen => trivial
  · intro hroom
    exact (h.after hop hroom).rolled

/-- In every run of intact calls from an empty directory, the segments are within the limit after
every call as long as every `append_many` that writes finds the active segment below it. -/
theorem rolled_iff_room (maxSegmentBytes interval : ℕ) (ops : List LogOp)
    (hw : Along LogOp.after LogOp.Intact (CommitLog.openAt maxSegmentBytes interval {}).state ops) :
    Along LogOp.after (fun s op => (op.after s).Rolled)
        (CommitLog.openAt maxSegmentBytes interval {}).state ops ↔
      Along LogOp.after LogOp.HasRoom (CommitLog.openAt maxSegmentBytes interval {}).state ops :=
  along_iff CommitLog.Sized (fun _ _ h hop => h.rolled_after_iff hop)
    (fun _ _ h hop hroom => h.after hop hroom) ops _
    (CommitLog.sized_openAt_nil maxSegmentBytes interval) hw

end Pylog.Log
