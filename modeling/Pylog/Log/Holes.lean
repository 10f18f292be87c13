import Pylog.Log.Crash

/-!
# Offsets that a reopened log lacks

Recovery takes each segment by itself and `next_offset` from the last one.  A crash between two of
the deletions of `truncate_from`, and damage in a segment that is not the last one, leave offsets
below `next_offset` that cannot be read.  `reopen_after_truncate_crash_iff` and
`recovery_leaves_no_hole_iff` say exactly when.
-/

namespace Pylog.Log

open Effect Effect.Handler Files Framing Bisect Transition

/-! ### Logs with holes -/

theorem Segment.read_outside {seg : Segment} {d : Folder} {o : ℤ}
    (h : o < seg.baseOffset ∨ seg.nextOffset ≤ o) : seg.read d o = none := by
  unfold Segment.read Segment.find
  rw [if_pos h]
  rfl

namespace CommitLog

/-- An offset outside every segment cannot be read. -/
theorem read_outside {s : CommitLog} {o : ℤ}
    (h : ∀ seg ∈ s.segments, o < seg.baseOffset ∨ seg.nextOffset ≤ o) : s.read o = none := by
  have hseg : ∀ i : ℕ, (s.segments[i]?.bind fun seg => seg.read s.folder o) = none := by
    intro i
    cases hi : s.segments[i]? with
    | none => rfl
    | some seg => exact Segment.read_outside (h seg (List.mem_of_getElem? hi))
  unfold CommitLog.read
  cases bisectRight (s.segments.map fun seg => (seg.baseOffset : ℤ)) o with
  | zero => rfl
  | succ idx =>
    dsimp only
    rw [hseg idx, hseg (idx - 1)]
    simp

variable {d : Folder}

variable {sh : Shape}

/-- A directory with the last file of a shape and some of the others opens with the end of the
shape, and without the records of the files it lacks. -/
theorem openAt_lacks (maxSegmentBytes interval : ℕ) {ps : List (ℕ × List Datum)}
    (hsub : (ps ++ [(sh.base, sh.active)]).Sublist (placed sh.first sh.chunks))
    (hd : d.logs = (ps ++ [(sh.base, sh.active)]).map fileOf) :
    ∃ s ops, openAt maxSegmentBytes interval d = ⟨s, ops, .ok ()⟩ ∧ s.nextOffset = sh.stop ∧
      ∀ o : ℤ, (∀ p ∈ ps ++ [(sh.base, sh.active)], o < p.1 ∨ ((p.1 + p.2.length : ℕ) : ℤ) ≤ o) →
        s.read o = none := by
  have hsorted := sh.sorted.sublist hsub
  obtain ⟨s, ops, hrun, -, -, hsegs, -, ⟨p, hp, hnext⟩, -⟩ :=
    openAt_damaged (d := d) maxSegmentBytes interval
      ((ps ++ [(sh.base, sh.active)]).map fun p => (p.1, p.2, [])) (by simp)
      (by rw [hd, Damaged.file_intact])
      (by
        intro p hp
        obtain ⟨q, hq, rfl⟩ := List.mem_map.mp hp
        exact ⟨fun r hr => sh.fits_data r (records_placed (hsub.subset hq) r hr),
          .inl readRecord_nil⟩)
      (by
        rw [List.pairwise_map]
        exact hsorted)
  obtain rfl : (sh.base, sh.active, []) = p := by simpa using hp
  refine ⟨s, ops, hrun, by rw [hnext, sh.stop_eq], ?_⟩
  intro o ho
  refine read_outside ?_
  intro seg hseg
  rw [hsegs, List.map_map] at hseg
  obtain ⟨q, hq, rfl⟩ := List.mem_map.mp hseg
  show o < (((Segment.new q.1 interval).fill (records q.1 q.2)).baseOffset : ℤ) ∨
    (((Segment.new q.1 interval).fill (records q.1 q.2)).nextOffset : ℤ) ≤ o
  rw [Segment.fill_baseOffset, Segment.fill_nextOffset _ q.1 _ rfl]
  exact ho q hq

end CommitLog

/-! ### Abstract logs cut at an offset -/

theorem AbstractLog.get_truncateFrom (a : AbstractLog) (k : ℕ) (o : ℤ) :
    (a.truncateFrom k).get o = if o < k then a.get o else none := by
  obtain ⟨first, items⟩ := a
  unfold get truncateFrom
  dsimp only
  by_cases hf : (first : ℤ) ≤ o
  · rw [if_pos hf, if_pos hf]
    by_cases ho : o < k
    · rw [if_pos ho, List.getElem?_take_of_lt (by omega)]
    · rw [if_neg ho, List.getElem?_eq_none (by rw [List.length_take]; omega)]
      rfl
  · rw [if_neg hf, if_neg hf]
    simp

theorem AbstractLog.next_truncateFrom {a : AbstractLog} {k : ℕ} (h1 : a.first ≤ k)
    (h2 : k ≤ a.next) : (a.truncateFrom k).next = k := by
  unfold next at h2
  unfold next truncateFrom
  dsimp only
  rw [List.length_take]
  omega

/-- A directory with the files of a shape opens as its records. -/
theorem CommitLog.openAt_shape (maxSegmentBytes interval : ℕ) {d : Folder} {sh : Shape} {t : Bytes}
    (hd : d.Holds sh t) (ht : Segment.Ends t) :
    ∃ s out, CommitLog.openAt maxSegmentBytes interval d = ⟨s, out, .ok ()⟩ ∧
      Tracks s ⟨sh.first, sh.data⟩ := by
  obtain ⟨s, out, hrun, hl, -, hn, -⟩ := CommitLog.openAt_eq maxSegmentBytes interval hd ht
  exact ⟨s, out, hrun, sh, hl, hn, rfl⟩

theorem Folder.holds_of_logs {d : Folder} {sh : Shape}
    (h : d.logs = (placed sh.first sh.chunks).map fileOf) : d.Holds sh [] := by
  unfold Folder.Holds
  rw [h, sh.placed_eq, List.map_append, List.append_nil]
  rfl

/-! ### A crash during `truncate_from` -/

/-- Exactly the records of `s` below some offset between `o` and the end are readable, and
`next_offset` is that offset. -/
def KeepsPrefix (s s' : CommitLog) (o : ℕ) : Prop :=
  ∃ k, min o s.nextOffset ≤ k ∧ k ≤ s.nextOffset ∧ s'.nextOffset = k ∧
    ∀ x : ℤ, s'.read x = if x < k then s.read x else none

theorem keepsPrefix_of_observes {s s' : CommitLog} {a : AbstractLog} {o k : ℕ} (h : Observes s a)
    (h' : Observes s' (a.truncateFrom k)) (h1 : a.first ≤ k) (h2 : k ≤ a.next)
    (ho : min o a.next ≤ k) : KeepsPrefix s s' o := by
  refine ⟨k, by rw [h.1]; exact ho, by rw [h.1]; exact h2, ?_, ?_⟩
  · rw [h'.1, AbstractLog.next_truncateFrom h1 h2]
  · intro x
    rw [h'.2, h.2, AbstractLog.get_truncateFrom]

/-- The process stops after `n` file operations of `truncate_from(o)`, and the directory is
reopened. -/
def afterCrashIn (maxSegmentBytes interval : ℕ) (s : CommitLog) (o n : ℕ) :
    Outcome CommitLog FileOp LogError Unit :=
  CommitLog.openAt maxSegmentBytes interval
    (s.folder.performAll ((CommitLog.truncateFrom (o : ℤ) s).out.take n))

namespace CommitLog

variable {s : CommitLog} {sh : Shape}

/-- The segments behind the one an offset belongs to are those that start above it. -/
theorem Lays.countP_above (h : s.Lays sh) {pre post : List (List Datum)} {c : List Datum}
    (hc : sh.chunks = pre ++ c :: post) {k : ℕ} (hk : post = [] ∨ k < c.length) :
    (s.segments.countP fun seg => decide (sh.first + pre.flatten.length + k < seg.baseOffset)) =
      post.length := by
  obtain ⟨segs, seg, segs', hs, -, hpre, hseg, hpost⟩ := h.segment hc
  have hlen : segs'.length = post.length := by
    have := congrArg List.length hpost
    simpa using this
  have hlow : ∀ x ∈ segs ++ [seg], ¬ sh.first + pre.flatten.length + k < x.baseOffset := by
    intro x hx
    rcases List.mem_append.mp hx with hx | hx
    · obtain ⟨f, hf, hb⟩ := List.mem_map.mp
        ((names_placed _ _ _ hpre).symm ▸ List.mem_map_of_mem hx : x.baseOffset ∈
          Dir.names ((placed sh.first pre).map fileOf))
      obtain ⟨p, hp, rfl⟩ := List.mem_map.mp hf
      have := (mem_placed hp).2.2
      simp only [fileOf] at hb
      omega
    · rw [List.mem_singleton.mp hx, hseg.baseOffset]
      omega
  have hhigh : ∀ x ∈ segs', sh.first + pre.flatten.length + k < x.baseOffset := by
    intro x hx
    obtain ⟨f, hf, hb⟩ := List.mem_map.mp
      ((names_placed _ _ _ hpost).symm ▸ List.mem_map_of_mem hx : x.baseOffset ∈
        Dir.names ((placed (sh.first + pre.flatten.length + c.length) post).map fileOf))
    obtain ⟨p, hp, rfl⟩ := List.mem_map.mp hf
    have hbase := (mem_placed hp).2.1
    simp only [fileOf] at hb
    rcases hk with rfl | hk
    · simp [placed] at hp
    · omega
  rw [hs, List.append_cons, List.countP_append, List.countP_eq_zero.mpr (by simpa using hlow),
    List.countP_eq_length.mpr (by simpa using hhigh), hlen, Nat.zero_add]

/-- The files when those of the later segments are gone: the segment of the offset is whole or cut. -/
theorem logs_of_crash {d : Folder} {dead : List Segment} {pre post : List (List Datum)}
    {c : List Datum} {k b b' n : ℕ} {ops : List FileOp} (hlen : dead.length = post.length)
    (hdel : ∀ m, (d.performAll ((deleteOps dead).take m)).logs =
      (placed b (pre ++ [c])).map fileOf ++ ((placed b' post).map fileOf).drop ((m + 1) / 2))
    (hcut : (d.performAll (deleteOps dead ++ ops)).logs = (placed b (pre ++ [c.take k])).map fileOf)
    (hops : IndexOnly ops.tail) (hn : 2 * post.length ≤ n + 1) :
    ∃ j ≤ c.length, min k c.length ≤ j ∧
      (d.performAll ((deleteOps dead ++ ops).take n)).logs =
        (placed b (pre ++ [c.take j])).map fileOf := by
  have hwhole : ∀ m, post.length ≤ (m + 1) / 2 →
      (d.performAll ((deleteOps dead).take m)).logs =
        (placed b (pre ++ [c.take c.length])).map fileOf := by
    intro m hm
    rw [hdel, List.drop_of_length_le (by simpa using hm), List.append_nil, List.take_length]
  rcases Nat.lt_or_ge n (deleteOps dead).length with hlt | hge
  · refine ⟨c.length, le_rfl, Nat.min_le_right _ _, ?_⟩
    rw [List.take_append_of_le_length hlt.le]
    exact hwhole n (by omega)
  · rw [List.take_append, List.take_of_length_le hge, Folder.performAll_append]
    rcases hops.logs_take (d.performAll (deleteOps dead)) (n - (deleteOps dead).length) with hl | hl
    · refine ⟨c.length, le_rfl, Nat.min_le_right _ _, ?_⟩
      have hall := hwhole (deleteOps dead).length (by rw [length_deleteOps]; omega)
      rw [List.take_length] at hall
      rw [hl, hall]
    · refine ⟨min k c.length, Nat.min_le_right _ _, le_rfl, ?_⟩
      rw [hl, ← Folder.performAll_append, hcut]
      congr 4
      rcases Nat.le_total k c.length with hle | hle
      · rw [Nat.min_eq_left hle]
      · rw [Nat.min_eq_right hle, List.take_length, List.take_of_length_le hle]

/-- No deletion started, or all files of the later segments are gone: a first part of the records
is left. -/
theorem Lays.keeps_of_crash (h : s.Lays sh) (hn : s.nextOffset = sh.stop)
    {pre post : List (List Datum)} {c : List Datum} (hc : sh.chunks = pre ++ c :: post) {k : ℕ}
    (hk : post = [] ∨ k < c.length) (maxSegmentBytes interval : ℕ) {n : ℕ}
    (hcrash : n = 0 ∨ 2 * post.length ≤ n + 1) :
    ∃ s' out, afterCrashIn maxSegmentBytes interval s (sh.first + pre.flatten.length + k) n =
        ⟨s', out, .ok ()⟩ ∧ KeepsPrefix s s' (sh.first + pre.flatten.length + k) := by
  have hobs : Observes s ⟨sh.first, sh.data⟩ := Tracks.observes ⟨sh, h, hn, rfl⟩
  obtain ⟨segs, seg, segs', seg', changed, ops, -, hlen, hrun, hdel, hcut, hops, -, -⟩ :=
    h.truncateFrom_run hc hk
  unfold afterCrashIn
  rw [hrun]
  have hdata : sh.data.length = pre.flatten.length + c.length + post.flatten.length := by
    rw [Shape.data, hc]
    simp
    omega
  rcases Nat.eq_zero_or_pos n with rfl | hpos
  · obtain ⟨s', out, hopen, htracks⟩ :=
      openAt_shape maxSegmentBytes interval h.holds (.inl readRecord_nil)
    refine ⟨s', out, hopen, keepsPrefix_of_observes hobs (k := sh.stop) ?_ ?_ le_rfl ?_⟩
    · unfold AbstractLog.truncateFrom Shape.stop
      rw [Nat.add_sub_cancel_left, List.take_length]
      exact htracks.observes
    · exact Nat.le_add_right _ _
    · exact Nat.min_le_right _ _
  · obtain ⟨j, hj, hkj, hlogs⟩ := logs_of_crash (n := n) hlen hdel hcut hops (by omega)
    have hholds : (s.folder.performAll ((deleteOps segs' ++ ops).take n)).Holds (sh.cut hc j) [] :=
      Folder.holds_of_logs hlogs
    obtain ⟨s', out, hopen, htracks⟩ :=
      openAt_shape maxSegmentBytes interval hholds (.inl readRecord_nil)
    have hobs' := htracks.observes
    rw [sh.cut_data hc (.inr hj)] at hobs'
    refine ⟨s', out, hopen, keepsPrefix_of_observes hobs
      (k := sh.first + pre.flatten.length + j) ?_ ?_ ?_ ?_⟩
    · unfold AbstractLog.truncateFrom
      rwa [Nat.add_assoc, Nat.add_sub_cancel_left]
    · dsimp only
      omega
    · unfold AbstractLog.next
      dsimp only
      omega
    · unfold AbstractLog.next
      dsimp only
      rcases hk with rfl | hk
      · rw [List.flatten_nil, List.length_nil] at hdata
        omega
      · omega

/-- Two segments behind a segment: the last one is the active one, the others are sealed. -/
theorem Shape.later_split {pre post : List (List Datum)} {c : List Datum}
    (hc : sh.chunks = pre ++ c :: post) (hpost : 2 ≤ post.length) :
    ∃ y ys, post = y :: ys ++ [sh.active] ∧ sh.full = (pre ++ [c]) ++ y :: ys ∧
      sh.first + (pre ++ [c]).flatten.length + (y :: ys).flatten.length = sh.base := by
  obtain ⟨post', z, rfl⟩ : ∃ post' z, post = post' ++ [z] := by
    refine ⟨post.dropLast, post.getLast ?_, (List.dropLast_append_getLast _).symm⟩
    rintro rfl
    simp at hpost
  obtain ⟨y, ys, rfl⟩ : ∃ y ys, post' = y :: ys := by
    refine List.exists_cons_of_ne_nil ?_
    rintro rfl
    simp at hpost
  have hchunks : sh.full ++ [sh.active] = ((pre ++ [c]) ++ y :: ys) ++ [z] := by
    rw [← Shape.chunks, hc]
    simp
  obtain ⟨hfull, hz⟩ := List.append_inj' hchunks rfl
  obtain rfl : sh.active = z := by simpa using hz
  refine ⟨y, ys, rfl, hfull, ?_⟩
  have hlen : ((pre ++ [c]) ++ y :: ys).flatten.length =
      (pre ++ [c]).flatten.length + (y :: ys).flatten.length := by
    rw [List.flatten_append, List.length_append]
  unfold Shape.base
  rw [hfull, hlen, Nat.add_assoc]

/-- Between two deletions the records of the files that are gone lie below `next_offset`. -/
theorem Lays.gap_of_crash (h : s.Lays sh) (hn : s.nextOffset = sh.stop)
    {pre post : List (List Datum)} {c : List Datum} (hc : sh.chunks = pre ++ c :: post) {k : ℕ}
    (hk : post = [] ∨ k < c.length) (maxSegmentBytes interval : ℕ) {n : ℕ} (hpos : 0 < n)
    (hlt : n + 1 < 2 * post.length) :
    ∃ s' out, afterCrashIn maxSegmentBytes interval s (sh.first + pre.flatten.length + k) n =
        ⟨s', out, .ok ()⟩ ∧ s'.nextOffset = s.nextOffset ∧
      ∃ x : ℤ, x < s.nextOffset ∧ (s.read x).isSome ∧ s'.read x = none := by
  obtain ⟨segs, seg, segs', seg', changed, ops, -, hlen, hrun, hdel, -, -, -, -⟩ :=
    h.truncateFrom_run hc hk
  -- the first file that is gone, and the sealed ones behind it
  obtain ⟨y, ys, rfl, hfull, hbase⟩ := Shape.later_split hc (by omega)
  generalize hb : sh.first + pre.flatten.length + c.length = b at hdel
  have hb' : b = sh.first + (pre ++ [c]).flatten.length := by
    rw [← hb]
    simp [Nat.add_assoc]
  rw [← hb'] at hbase
  obtain ⟨r, hr⟩ : ∃ r, (n + 1) / 2 = r + 1 := ⟨(n + 1) / 2 - 1, by omega⟩
  have hrl : r ≤ ys.length := by
    simp at hlt
    omega
  have hplaced : placed sh.first sh.full =
      placed sh.first (pre ++ [c]) ++ (b, y) :: placed (b + y.length) ys := by
    rw [hfull, placed_append, ← hb']
    rfl
  have hlater : placed b (y :: ys ++ [sh.active]) =
      (b, y) :: placed (b + y.length) ys ++ [(sh.base, sh.active)] := by
    rw [placed_append, hbase]
    rfl
  have hlogs : (s.folder.performAll ((deleteOps segs' ++ ops).take n)).logs =
      ((placed sh.first (pre ++ [c]) ++ (placed (b + y.length) ys).drop r) ++
        [(sh.base, sh.active)]).map fileOf := by
    rw [List.take_append_of_le_length (by simp at hlt; simp [hlen]; omega), hdel, hr, hlater,
      ← List.map_drop, ← List.map_append, List.cons_append, List.drop_succ_cons,
      List.drop_append_of_le_length (by simpa using hrl), List.append_assoc]
  have hsub : ((placed sh.first (pre ++ [c]) ++ (placed (b + y.length) ys).drop r) ++
      [(sh.base, sh.active)]).Sublist (placed sh.first sh.chunks) := by
    rw [sh.placed_eq, hplaced]
    exact ((List.Sublist.refl _).append ((List.drop_sublist r _).trans
      (List.sublist_cons_self _ _))).append (List.Sublist.refl _)
  obtain ⟨s', out, hopen, hnext, hnone⟩ := openAt_lacks maxSegmentBytes interval hsub hlogs
  have hy : 0 < y.length := List.length_pos_iff.mpr (sh.nonempty y (by rw [hfull]; simp))
  have hstop : b + y.length ≤ sh.base := by
    rw [← hbase, List.flatten_cons, List.length_append]
    omega
  refine ⟨s', out, ?_, by rw [hnext, hn], (b : ℤ), ?_, ?_, hnone _ ?_⟩
  · unfold afterCrashIn
    rw [hrun]
    exact hopen
  · rw [hn, sh.stop_eq]
    omega
  · rw [(Tracks.observes ⟨sh, h, hn, rfl⟩).2, AbstractLog.get_isSome_iff]
    have := sh.stop_eq
    unfold Shape.stop at this
    unfold AbstractLog.next
    dsimp only
    omega
  · intro p hp
    simp only [List.mem_append, List.mem_singleton] at hp
    rcases hp with (hp | hp) | rfl
    · have := (mem_placed hp).2.2
      omega
    · have := (mem_placed (List.mem_of_mem_drop hp)).2.1
      omega
    · omega

end CommitLog

variable {s : CommitLog} {a : AbstractLog} {maxSegmentBytes interval : ℕ}

theorem Tracks.keepsPrefix_iff (h : Tracks s a) {o : ℕ} (ho : a.first ≤ o)
    (maxSegmentBytes interval n : ℕ) :
    (∃ s' out, afterCrashIn maxSegmentBytes interval s o n = ⟨s', out, .ok ()⟩ ∧
      KeepsPrefix s s' o) ↔
    n = 0 ∨ 2 * (s.segments.countP fun seg => decide (o < seg.baseOffset)) ≤ n + 1 := by
  obtain ⟨sh, hl, hn, rfl⟩ := h
  obtain ⟨pre, c, post, hc, h1, h2⟩ :=
    CommitLog.exists_chunk sh.chunks (by simp [Shape.chunks]) ho
  obtain ⟨k, rfl⟩ := Nat.exists_eq_add_of_le h1
  have hk : post = [] ∨ k < c.length := h2.imp_right fun hlt => by
    dsimp only at hlt
    omega
  rw [hl.countP_above hc hk]
  constructor
  · rintro ⟨s', out, hopen, k', -, -, hk', hread⟩
    by_contra hcond
    rw [not_or, not_le] at hcond
    obtain ⟨s'', out', hopen', hnext, x, hx, hsome, hnone⟩ :=
      hl.gap_of_crash hn hc hk maxSegmentBytes interval (Nat.pos_of_ne_zero hcond.1) hcond.2
    have hsame := hopen.symm.trans hopen'
    rw [Outcome.mk.injEq] at hsame
    obtain ⟨rfl, -, -⟩ := hsame
    have hgone := hread x
    rw [hnone, if_pos (by omega)] at hgone
    rw [← hgone] at hsome
    cases hsome
  · exact hl.keeps_of_crash hn hc hk maxSegmentBytes interval

/-- A crash in `truncate_from` leaves a first part of the records exactly if it does not fall
between the removals of the `.log` files of the later segments. -/
theorem reopen_after_truncate_crash_iff
    (hs : Reach LogOp.after LogOp.Writing (CommitLog.openAt maxSegmentBytes interval {}).state s)
    (o n maxSegmentBytes' interval' : ℕ) :
    (∃ s' out, afterCrashIn maxSegmentBytes' interval' s o n = ⟨s', out, .ok ()⟩ ∧
      KeepsPrefix s s' o) ↔
    n = 0 ∨ 2 * (s.segments.countP fun seg => decide (o < seg.baseOffset)) ≤ n + 1 := by
  obtain ⟨a, h, h0⟩ := tracks_of_reach hs
  exact h.keepsPrefix_iff (by omega) maxSegmentBytes' interval' n

/-- Three records in segments of their own. -/
def threeSegments : CommitLog :=
  [LogOp.append [7] (some 0) 0, .append [8] (some 0) 0, .append [9] (some 0) 0].foldl LogOp.after
    (CommitLog.openAt 1 1 {}).state

theorem threeSegments_reach :
    Reach LogOp.after LogOp.Writing (CommitLog.openAt 1 1 {}).state threeSegments := by
  have hstep : ∀ {s : CommitLog} (b : UInt8), s.nextOffset < 2 ^ 64 →
      (LogOp.append [b] (some 0) 0).Writing s :=
    fun b hn => ⟨show 1 ≤ maxRecordBytes by decide, show FitsI64 0 by decide, hn⟩
  exact .step (.step (.step .refl (hstep 7 (by decide +kernel))) (hstep 8 (by decide +kernel)))
    (hstep 9 (by decide +kernel))

theorem reopen_after_truncate_crash_three :
    (∃ s' out, afterCrashIn 1 1 threeSegments 1 1 = ⟨s', out, .ok ()⟩ ∧
      KeepsPrefix threeSegments s' 1) ↔
    1 = 0 ∨ 2 * (threeSegments.segments.countP fun seg => decide (1 < seg.baseOffset)) ≤ 1 + 1 :=
  reopen_after_truncate_crash_iff threeSegments_reach 1 1 1 1

/-- `truncate_from(0)`, stopped after the removal of the second segment's `.log` file. -/
theorem truncate_crash_leaves_gap :
    ¬ ∃ s' out, afterCrashIn 1 1 threeSegments 0 1 = ⟨s', out, .ok ()⟩ ∧
      KeepsPrefix threeSegments s' 0 := by
  obtain ⟨a, h, h0⟩ := tracks_of_reach threeSegments_reach
  rw [h.keepsPrefix_iff (by omega)]
  decide +kernel

/-! ### Damage inside the log -/

/-- The bytes of the file `b` from `position` on are now `t`. -/
def Folder.damage (d : Folder) (b position : ℕ) (t : Bytes) : Folder :=
  { d with logs := d.logs.put b (((d.logs.get b).getD []).take position ++ t) }

/-- Everything from offset `o` on is gone, everything below it is as it was: the readable offsets
reach from the first base offset to `next_offset`, and `read_range` returns all of them. -/
def NoHole (s s' : CommitLog) (o : ℕ) : Prop :=
  s'.nextOffset = o ∧ (∀ x : ℤ, s'.read x = if x < o then s.read x else none) ∧
    ∃ first, s'.segments.head?.map Segment.baseOffset = some first ∧
      (∀ x : ℤ, (s'.read x).isSome ↔ (first : ℤ) ≤ x ∧ x < s'.nextOffset) ∧
      ∀ n, (s'.readRange first n).map some =
        ((List.range' first (s'.nextOffset - first)).take n).map fun x : ℕ => s'.read x

theorem noHole_of_tracks {s' : CommitLog} (h : Observes s a) {o : ℕ} (h1 : a.first ≤ o)
    (h2 : o ≤ a.next) (h' : Tracks s' (a.truncateFrom o)) : NoHole s s' o := by
  have hobs := h'.observes
  refine ⟨?_, ?_, a.first, h'.head, ?_, hobs.readRange_first⟩
  · rw [hobs.1, AbstractLog.next_truncateFrom h1 h2]
  · intro x
    rw [hobs.2, h.2, AbstractLog.get_truncateFrom]
  · intro x
    rw [hobs.2, AbstractLog.get_isSome_iff, ← hobs.1]
    rfl

/-- A cut of the bytes at the start of a record. -/
theorem encodeAll_take (b : ℕ) (es : List Datum) (k : ℕ) :
    (encodeAll (records b es)).take (encodeAll (records b (es.take k))).length =
      encodeAll (records b (es.take k)) := by
  conv_lhs => rw [← List.take_append_drop k es, records_append, encodeAll_append]
  rw [List.take_append_drop, List.take_left]

namespace CommitLog

variable {sh : Shape}

/-- The damaged directory, file by file. -/
theorem Lays.damage_logs (h : s.Lays sh) {pre post : List (List Datum)} {c : List Datum}
    (hc : sh.chunks = pre ++ c :: post) (k : ℕ) (t : Bytes) :
    (s.folder.damage (sh.first + pre.flatten.length)
      (encodeAll (records (sh.first + pre.flatten.length) (c.take k))).length t).logs =
    (placed sh.first pre).map fileOf ++
      (sh.first + pre.flatten.length,
        encodeAll (records (sh.first + pre.flatten.length) (c.take k)) ++ t) ::
      (placed (sh.first + pre.flatten.length + c.length) post).map fileOf := by
  obtain ⟨hfiles, hnot⟩ := h.files_split hc
  unfold Folder.damage
  dsimp only
  rw [hfiles, fileOf, Dir.get_mid hnot, Option.getD_some, encodeAll_take, Dir.put_mid hnot]

/-- Damage in the last segment cuts the log there. -/
theorem Lays.damage_last (h : s.Lays sh) {pre : List (List Datum)} {c : List Datum}
    (hc : sh.chunks = pre ++ [c]) (k : ℕ) {t : Bytes} (ht : Segment.Ends t)
    (maxSegmentBytes interval : ℕ) :
    ∃ s' out, openAt maxSegmentBytes interval (s.folder.damage (sh.first + pre.flatten.length)
        (encodeAll (records (sh.first + pre.flatten.length) (c.take k))).length t) =
        ⟨s', out, .ok ()⟩ ∧
      Tracks s' (AbstractLog.truncateFrom ⟨sh.first, sh.data⟩
        (sh.first + pre.flatten.length + k)) := by
  have hholds : (s.folder.damage (sh.first + pre.flatten.length)
      (encodeAll (records (sh.first + pre.flatten.length) (c.take k))).length t).Holds
      (sh.cut hc k) t := h.damage_logs hc k t
  obtain ⟨s', out, hopen, htracks⟩ := openAt_shape maxSegmentBytes interval hholds ht
  refine ⟨s', out, hopen, ?_⟩
  rw [sh.cut_data hc (.inl rfl)] at htracks
  unfold AbstractLog.truncateFrom
  rwa [Nat.add_assoc, Nat.add_sub_cancel_left]

/-- Damage in another segment leaves the segments behind it, and `next_offset`. -/
theorem Lays.damage_inner (h : s.Lays sh) {pre post : List (List Datum)} {c : List Datum}
    (hc : sh.chunks = pre ++ c :: post) (hpost : post ≠ []) (k : ℕ) {t : Bytes}
    (ht : Segment.Ends t) (maxSegmentBytes interval : ℕ) :
    ∃ s' out, openAt maxSegmentBytes interval (s.folder.damage (sh.first + pre.flatten.length)
        (encodeAll (records (sh.first + pre.flatten.length) (c.take k))).length t) =
        ⟨s', out, .ok ()⟩ ∧ s'.nextOffset = sh.stop := by
  generalize hb : sh.first + pre.flatten.length = b
  have hd := h.damage_logs hc k t
  rw [hb] at hd
  have hsorted := sh.sorted
  have hplaced : placed sh.first sh.chunks =
      placed sh.first pre ++ (b, c) :: placed (b + c.length) post := by
    rw [hc, placed_append, hb]
    rfl
  have hfits : ∀ p ∈ placed sh.first sh.chunks, ∀ r ∈ records p.1 p.2, r.Fits :=
    fun p hp r hr => sh.fits_data r (records_placed hp r hr)
  rw [hplaced] at hsorted hfits
  obtain ⟨s', out, hopen, -, -, -, -, ⟨p, hp, hnext⟩, -⟩ :=
    openAt_damaged (d := s.folder.damage b (encodeAll (records b (c.take k))).length t)
      maxSegmentBytes interval
      ((placed sh.first pre).map (fun p => (p.1, p.2, [])) ++ (b, c.take k, t) ::
        (placed (b + c.length) post).map fun p => (p.1, p.2, []))
      (by simp)
      (by
        rw [hd, List.map_append, List.map_cons, Damaged.file_intact, Damaged.file_intact]
        rfl)
      (by
        intro p hp
        simp only [List.mem_append, List.mem_map, List.mem_cons] at hp
        rcases hp with ⟨q, hq, rfl⟩ | rfl | ⟨q, hq, rfl⟩
        · exact ⟨hfits q (by simp [hq]), .inl readRecord_nil⟩
        · refine ⟨?_, ht⟩
          intro r hr
          rw [← records_take] at hr
          exact hfits (b, c) (by simp) r (List.mem_of_mem_take hr)
        · exact ⟨hfits q (by simp [hq]), .inl readRecord_nil⟩)
      (by
        have hbases := (List.pairwise_map (f := Prod.fst) (R := (· < ·))).mpr hsorted
        refine (List.pairwise_map (f := Prod.fst) (R := (· < ·))).mp ?_
        simpa [Function.comp_def] using hbases)
  refine ⟨s', out, hopen, ?_⟩
  -- the last file is that of the active segment
  obtain ⟨post', z, rfl⟩ : ∃ post' z, post = post' ++ [z] :=
    ⟨post.dropLast, post.getLast hpost, (List.dropLast_append_getLast _).symm⟩
  have hlast := congrArg List.getLast? (sh.placed_eq.symm.trans hplaced)
  rw [placed_append] at hlast hp
  have hz : (b + c.length + post'.flatten.length, z) = (sh.base, sh.active) := by
    simpa [placed, List.getLast?_cons] using hlast.symm
  obtain rfl : (b + c.length + post'.flatten.length, z, []) = p := by
    simpa [placed, List.getLast?_cons] using hp
  rw [Prod.mk.injEq] at hz
  rw [hnext, sh.stop_eq, ← hz.1, ← hz.2]

end CommitLog

/-- A record that a segment finds is one of the records of its file. -/
theorem CommitLog.Lays.positionOf {sh : Shape} (h : s.Lays sh) {pre post : List (List Datum)}
    {c : List Datum} (hc : sh.chunks = pre ++ c :: post) {seg : Segment}
    (hseg : s.segments[pre.length]? = some seg) {o position : ℕ}
    (hpos : seg.positionOf s.folder o = some position) :
    seg.baseOffset = sh.first + pre.flatten.length ∧ ∃ k < c.length,
      o = sh.first + pre.flatten.length + k ∧
      position = (encodeAll (records (sh.first + pre.flatten.length) (c.take k))).length := by
  obtain ⟨segs, seg', segs', hs, hlen, -, hholds, -⟩ := h.segment hc
  obtain ⟨hfiles, hnot⟩ := h.files_split hc
  obtain rfl : seg' = seg := by
    rw [hs, ← hlen, List.getElem?_append_right le_rfl] at hseg
    simpa using hseg
  have hget : s.folder.logs.get (sh.first + pre.flatten.length) =
      some (encodeAll (records (sh.first + pre.flatten.length) c)) := by
    rw [hfiles]
    exact Dir.get_mid hnot
  refine ⟨hholds.baseOffset, ?_⟩
  rcases Nat.lt_or_ge o (sh.first + pre.flatten.length) with hlt | hge
  · unfold Segment.positionOf at hpos
    rw [hholds.find_none (.inl (by exact_mod_cast hlt))] at hpos
    cases hpos
  · obtain ⟨k, rfl⟩ := Nat.exists_eq_add_of_le hge
    rw [hholds.positionOf (h.fits_chunk hc) hget] at hpos
    by_cases hk : k < c.length
    · rw [if_pos hk] at hpos
      exact ⟨k, hk, rfl, (Option.some.inj hpos).symm⟩
    · rw [if_neg hk] at hpos
      cases hpos

theorem Tracks.noHole_iff (h : Tracks s a) {i o position : ℕ} {seg : Segment}
    (hseg : s.segments[i]? = some seg) (hpos : seg.positionOf s.folder o = some position)
    {t : Bytes} {e : CorruptRecord} (ht : readRecord t = .error e) (maxSegmentBytes interval : ℕ) :
    (∃ s' out, CommitLog.openAt maxSegmentBytes interval
        (s.folder.damage seg.baseOffset position t) = ⟨s', out, .ok ()⟩ ∧ NoHole s s' o) ↔
      i + 1 = s.segments.length := by
  have hobs := h.observes
  obtain ⟨sh, hl, hn, rfl⟩ := h
  have hlen : s.segments.length = sh.chunks.length := by
    have := congrArg List.length hl.segments
    simpa using this
  have hi : i < sh.chunks.length := hlen ▸ (List.getElem?_eq_some_iff.mp hseg).1
  obtain ⟨pre, c, post, hc, hpre⟩ : ∃ pre c post, sh.chunks = pre ++ c :: post ∧ pre.length = i :=
    ⟨sh.chunks.take i, sh.chunks[i], sh.chunks.drop (i + 1), by simp, by simp; omega⟩
  subst hpre
  obtain ⟨hbase, k, hk, rfl, rfl⟩ := hl.positionOf hc hseg hpos
  have hends : Segment.Ends t := .inr ⟨e, ht⟩
  have hdata : sh.data.length = pre.flatten.length + c.length + post.flatten.length := by
    rw [Shape.data, hc]
    simp
    omega
  rw [hlen, hc, hbase, List.length_append, List.length_cons]
  constructor
  · rintro ⟨s', out, hopen, hnext, -⟩
    by_contra hlast
    have hpost : post ≠ [] := by
      rintro rfl
      exact hlast rfl
    obtain ⟨s'', out', hopen', hstop⟩ := hl.damage_inner hc hpost k hends maxSegmentBytes interval
    have hsame := hopen.symm.trans hopen'
    rw [Outcome.mk.injEq] at hsame
    obtain ⟨rfl, -, -⟩ := hsame
    unfold Shape.stop at hstop
    omega
  · intro hlast
    obtain rfl : post = [] := List.eq_nil_of_length_eq_zero (by omega)
    obtain ⟨s', out, hopen, htracks⟩ := hl.damage_last hc k hends maxSegmentBytes interval
    refine ⟨s', out, hopen, noHole_of_tracks hobs ?_ ?_ htracks⟩
    · dsimp only
      omega
    · unfold AbstractLog.next
      dsimp only
      rw [hdata, List.flatten_nil, List.length_nil]
      omega

/-- Let the bytes of a segment file change from the start of a record on, so that no record is read
there any more.  The log reopens as the records before it exactly if the file is the last one. -/
theorem recovery_leaves_no_hole_iff
    (hs : Reach LogOp.after LogOp.Returning (CommitLog.openAt maxSegmentBytes interval {}).state s)
    {i o position : ℕ} {seg : Segment} (hseg : s.segments[i]? = some seg)
    (hpos : seg.positionOf s.folder o = some position) {t : Bytes} {e : CorruptRecord}
    (ht : readRecord t = .error e) (maxSegmentBytes' interval' : ℕ) :
    (∃ s' out, CommitLog.openAt maxSegmentBytes' interval'
        (s.folder.damage seg.baseOffset position t) = ⟨s', out, .ok ()⟩ ∧ NoHole s s' o) ↔
      i + 1 = s.segments.length := by
  obtain ⟨a, h⟩ := tracks_of_run hs
  exact h.noHole_iff hseg hpos ht maxSegmentBytes' interval'

theorem threeSegments_run :
    Reach LogOp.after LogOp.Returning (CommitLog.openAt 1 1 {}).state threeSegments :=
  threeSegments_reach.mono fun _ _ => LogOp.Writing.returning

theorem recovery_leaves_no_hole_three :
    (∃ s' out, CommitLog.openAt 1 1
        (threeSegments.folder.damage (Segment.mk 2 1 [(0, 0)] 29 0 0 3).baseOffset 0 [0]) =
          ⟨s', out, .ok ()⟩ ∧ NoHole threeSegments s' 2) ↔
      2 + 1 = threeSegments.segments.length :=
  recovery_leaves_no_hole_iff (e := ⟨"truncated record header"⟩) threeSegments_run
    (by decide +kernel) (by decide +kernel) (by decide +kernel) 1 1

/-- The only record of the first of three segments is damaged. -/
theorem recovery_leaves_hole :
    ¬ ∃ s' out, CommitLog.openAt 1 1
        (threeSegments.folder.damage (Segment.mk 0 1 [(0, 0)] 29 0 0 1).baseOffset 0 [0]) =
          ⟨s', out, .ok ()⟩ ∧ NoHole threeSegments s' 0 := by
  obtain ⟨a, h⟩ := tracks_of_run threeSegments_run
  rw [h.noHole_iff (i := 0) (e := ⟨"truncated record header"⟩) (by decide +kernel)
    (by decide +kernel) (by decide +kernel)]
  decide +kernel

end Pylog.Log
