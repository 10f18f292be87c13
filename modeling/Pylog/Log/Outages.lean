import Pylog.Log.Holes

/-!
# A log through crashes

A `Life` is a directory and, while a process has it open, the log of that process.  Its events are
the calls, crashes at any byte of any call, starts on what a crash left, and crashes at any byte of
such a start.  `outages_refine`: along every life the log behaves as a list of records, of which a
crash takes nothing that a call had finished with; a crash in an append leaves the records whose
bytes were all written.

Two crashes are left out: one between the removals of `truncate_from`, which leaves a hole
(`reopen_after_truncate_crash_iff`), and calls outside `LogOp.Admissible`.
-/

namespace Pylog.Log

open Effect Effect.Handler Files Framing Transition CommitLog

variable {d : Folder} {s : CommitLog} {a : AbstractLog}

/-! ### Directories a crash can leave -/

/-- The directory holds the records of `a` and a torn rest, or no process has opened it yet. -/
def Folder.Bears (d : Folder) (a : AbstractLog) : Prop :=
  (∃ sh t, d.Holds sh t ∧ Segment.Ends t ∧ a = ⟨sh.first, sh.data⟩) ∨ d = {} ∧ a = ⟨0, []⟩

theorem Tracks.bears (h : Tracks s a) : s.folder.Bears a := by
  obtain ⟨sh, hl, -, rfl⟩ := h
  exact .inl ⟨sh, [], hl.holds, .inl readRecord_nil, rfl⟩

/-- Such a directory opens with its records, and stays one wherever a crash falls into that. -/
theorem Folder.Bears.openAt (h : d.Bears a) (maxSegmentBytes interval : ℕ) :
    ∃ s out, CommitLog.openAt maxSegmentBytes interval d = ⟨s, out, .ok ()⟩ ∧ Tracks s a ∧
      EveryCut FileOp.part Folder.perform (Folder.Bears · a) d out := by
  rcases h with ⟨sh, t, hd, ht, rfl⟩ | ⟨rfl, rfl⟩
  · obtain ⟨s, out, hrun, htracks⟩ := openAt_shape maxSegmentBytes interval hd ht
    have hcuts := openAt_holds_cuts maxSegmentBytes interval hd ht
    rw [hrun] at hcuts
    refine ⟨s, out, hrun, htracks, hcuts.mono ?_⟩
    rintro d' (hd' | hd')
    · exact .inl ⟨sh, t, hd', ht, rfl⟩
    · exact .inl ⟨sh, [], hd', .inl readRecord_nil, rfl⟩
  · obtain ⟨s, out, hrun, hl, hn, -, -⟩ := CommitLog.openAt_nil maxSegmentBytes interval
    have hcuts := openAt_nil_cuts maxSegmentBytes interval
    rw [hrun] at hcuts
    refine ⟨s, out, hrun, ⟨emptyShape, hl, hn, rfl⟩, hcuts.mono ?_⟩
    rintro d' (hd' | hd')
    · exact .inr ⟨hd', rfl⟩
    · exact .inl ⟨emptyShape, [], hd', .inl readRecord_nil, rfl⟩

/-! ### Crashes in a truncation -/

/-- An operation of which a crash leaves all or nothing in the `.log` files. -/
def FileOp.AtOnce (o : FileOp) : Prop := ∀ b bs, o ≠ ⟨.log, .append b bs⟩

/-- Among such operations a crash falls between two of them. -/
theorem crash_logs {ops : List FileOp} (h : ∀ o ∈ ops, o.AtOnce) (d : Folder) (k n : ℕ) :
    (d.performAll (crash ops k n)).logs = (d.performAll (ops.take k)).logs := by
  unfold crash cut
  rw [Folder.performAll_append]
  cases hdrop : ops.drop k with
  | nil => rfl
  | cons o rest =>
    have ho : o.AtOnce := h o (List.mem_of_mem_drop (hdrop ▸ List.mem_cons_self))
    obtain ⟨ext, op⟩ := o
    cases op with
    | append b bs =>
      cases ext with
      | log => exact absurd rfl (ho b bs)
      | index => rfl
    | create b => rfl
    | truncate b size => rfl
    | remove b => rfl

section AtOnce

/-- Code all of whose operations are such. -/
abbrev WritesAtOnce {σ α : Type} (x : Handler σ FileOp LogError α) (s : σ) : Prop :=
  Stays (fun _ => ()) (fun _ o => o.AtOnce) x s

theorem atOnce_index (op : Op ℕ UInt8) : FileOp.AtOnce ⟨.index, op⟩ := by
  rintro b bs ⟨⟩

theorem fileOp_atOnce {ext : Ext} {op : Op ℕ UInt8} (h : FileOp.AtOnce ⟨ext, op⟩)
    (s : Folder × Segment) : WritesAtOnce (fileOp ext op) s :=
  ⟨rfl, fun o ho => by rwa [List.mem_singleton.mp ho]⟩

theorem packIndexEntry_atOnce (rel : ℤ) (position : ℕ) (s : Folder × Segment) :
    WritesAtOnce (packIndexEntry rel position) s :=
  stays_ite (fun _ => stays_pure _) fun _ => stays_raise _

theorem rewriteIndex_atOnce (s : Folder × Segment) : WritesAtOnce Segment.rewriteIndex s := by
  refine stays_read (stays_bind (fileOp_atOnce (atOnce_index _) s) fun _ s' _ => ?_)
  exact stays_each _ _ fun e _ s' _ => stays_bind (packIndexEntry_atOnce _ _ _)
    fun entry s'' _ => fileOp_atOnce (atOnce_index _) s''

theorem segmentTruncateFrom_atOnce (o : ℤ) (s : Folder × Segment) :
    WritesAtOnce (Segment.truncateFrom o) s := by
  refine stays_read (stays_ite (fun _ => ?_) fun _ => ?_)
  · exact stays_bind (fileOp_atOnce (by rintro b bs ⟨⟩) s) fun _ _ _ =>
      stays_bind (stays_update rfl) fun _ s' _ => stays_bind (rewriteIndex_atOnce s') fun _ _ _ =>
        stays_pure _
  · cases s.2.positionOf s.1 o with
    | none => exact stays_pure _
    | some position =>
      exact stays_bind (fileOp_atOnce (by rintro b bs ⟨⟩) s) fun _ _ _ =>
        stays_bind (stays_update rfl) fun _ s' _ => stays_bind (rewriteIndex_atOnce s') fun _ _ _ =>
          stays_pure _

theorem delete_atOnce (s : Folder × Segment) : WritesAtOnce Segment.delete s :=
  stays_read (stays_bind (fileOp_atOnce (by rintro b bs ⟨⟩) s) fun _ s' _ =>
    fileOp_atOnce (atOnce_index _) s')

theorem onSegment_atOnce {α : Type} {x : SegmentM α} (h : ∀ s, WritesAtOnce x s) (i : ℕ)
    (s : CommitLog) : WritesAtOnce (onSegment i x) s := by
  refine ⟨rfl, fun o ho => ?_⟩
  unfold onSegment at ho
  cases hi : s.segments[i]? with
  | none =>
    rw [hi] at ho
    cases ho
  | some seg =>
    rw [hi] at ho
    exact (h (s.folder, seg)).out o ho

theorem truncateFrom_atOnce (o : ℤ) (s : CommitLog) : WritesAtOnce (CommitLog.truncateFrom o) s := by
  refine stays_read ?_
  split
  · exact stays_pure _
  · refine stays_read (stays_bind ?_ fun _ s' _ => stays_bind (stays_update rfl) fun _ s' _ => ?_)
    · exact stays_each _ _ fun i _ s' _ => onSegment_atOnce delete_atOnce i s'
    · refine stays_bind (onSegment_atOnce (segmentTruncateFrom_atOnce o) _ s') fun changed s' _ => ?_
      refine stays_bind ?_ fun last s' _ => stays_bind (stays_update rfl) fun _ _ _ => stays_pure _
      refine stays_read ?_
      cases s'.segments.getLast? with
      | none => exact stays_raise _
      | some seg => exact stays_pure _

theorem truncateSegmentsBefore_atOnce (m : ℤ) (s : CommitLog) :
    WritesAtOnce (CommitLog.truncateSegmentsBefore m) s :=
  stays_read (stays_bind (stays_each _ _ fun i _ s' _ => onSegment_atOnce delete_atOnce i s')
    fun _ _ _ => stays_bind (stays_update rfl) fun _ _ _ => stays_pure _)

end AtOnce

/-- No removal lies between the crash and the start of `truncate_from`, or between it and the end of
the removals. -/
def LogOp.Spares (s : CommitLog) (k : ℕ) : LogOp → Prop
  | truncateFrom o =>
    k = 0 ∨ 2 * (s.segments.countP fun seg => decide (o < (seg.baseOffset : ℤ))) ≤ k + 1
  | _ => True

/-- A crash in `truncate_from` that spares the segments cuts the log somewhere at the offset or above. -/
theorem Tracks.crash_truncateFrom (h : Tracks s a) {o : ℕ} (ho : a.first ≤ o) {k : ℕ}
    (hk : (LogOp.truncateFrom o).Spares s k) (n : ℕ) : ∃ j, o ≤ j ∧
      (s.folder.performAll (crash ((LogOp.truncateFrom o).exec s).out k n)).Bears
        (a.truncateFrom j) := by
  obtain ⟨sh, hl, -, rfl⟩ := h
  change sh.first ≤ o at ho
  obtain ⟨pre, c, post, hc, h1, h2⟩ := exists_chunk sh.chunks (by simp [Shape.chunks]) ho
  obtain ⟨x, rfl⟩ := Nat.exists_eq_add_of_le h1
  have hx : post = [] ∨ x < c.length := h2.imp_right fun hlt => by omega
  obtain ⟨segs, seg, segs', seg', changed, ops, -, hlen, hrun, hdel, hcut, hops, -, -⟩ :=
    hl.truncateFrom_run hc hx
  have hexec : (LogOp.truncateFrom ((sh.first + pre.flatten.length + x : ℕ) : ℤ)).exec s = _ :=
    bind_run hrun (pure_eq _ _)
  have hatOnce := (truncateFrom_atOnce ((sh.first + pre.flatten.length + x : ℕ) : ℤ) s).out
  rw [hrun] at hatOnce
  have hlogs := crash_logs hatOnce s.folder k n
  rw [hexec, List.append_nil]
  have hcount := hl.countP_above hc hx
  have hdata : sh.data.length = pre.flatten.length + c.length + post.flatten.length := by
    rw [Shape.data, hc]
    simp
    omega
  rcases Nat.eq_zero_or_pos k with rfl | hpos
  · -- nothing happened
    refine ⟨sh.first + pre.flatten.length + x + sh.data.length, by omega, ?_⟩
    have hall : (⟨sh.first, sh.data⟩ : AbstractLog).truncateFrom
        (sh.first + pre.flatten.length + x + sh.data.length) = ⟨sh.first, sh.data⟩ := by
      unfold AbstractLog.truncateFrom
      dsimp only
      rw [List.take_of_length_le (by omega)]
    rw [hall]
    refine .inl ⟨sh, [], Folder.holds_of_logs (hlogs.trans ?_), .inl readRecord_nil, rfl⟩
    rw [List.take_zero]
    exact hl.files
  · have hn : 2 * post.length ≤ k + 1 := by
      rcases hk with rfl | hk
      · omega
      · simp only [Nat.cast_lt] at hk
        omega
    obtain ⟨j, hj, hxj, hfiles⟩ := logs_of_crash hlen hdel hcut hops hn
    refine ⟨max (sh.first + pre.flatten.length + x) (sh.first + pre.flatten.length + j),
      Nat.le_max_left _ _, .inl ⟨sh.cut hc j, [], Folder.holds_of_logs (hlogs.trans hfiles),
        .inl readRecord_nil, ?_⟩⟩
    unfold AbstractLog.truncateFrom
    rw [sh.cut_data hc (.inr hj)]
    dsimp only
    congr 1
    rcases Nat.le_total x j with hle | hle
    · congr 1
      omega
    · -- the offset lies behind the last record
      have hjc : x = j ∨ (j = c.length ∧ c.length < x) := by omega
      rcases hjc with rfl | ⟨rfl, hlt⟩
      · congr 1
        omega
      · have hpost : post = [] := hx.resolve_right (by omega)
        rw [hpost, List.flatten_nil, List.length_nil] at hdata
        rw [List.take_of_length_le (by omega), List.take_of_length_le (by omega)]

theorem Shape.placed_dropHead (sh : Shape) {i : ℕ} (hi : i ≤ sh.full.length) :
    placed (sh.dropHead i).first (sh.dropHead i).chunks = (placed sh.first sh.chunks).drop i := by
  have hlen : (placed sh.first (sh.full.take i)).length = i := by
    rw [length_placed, List.length_take]
    omega
  have hsplit : placed sh.first sh.chunks = placed sh.first (sh.full.take i) ++
      placed (sh.dropHead i).first (sh.dropHead i).chunks := by
    show _ = _ ++ placed (sh.first + (sh.full.take i).flatten.length) (sh.full.drop i ++ [sh.active])
    rw [← placed_append, ← List.append_assoc, List.take_append_drop]
    rfl
  rw [hsplit, List.drop_left' hlen]

/-- A crash in `truncate_segments_before` drops the first of the segments it was to drop. -/
theorem Tracks.crash_truncateSegmentsBefore (h : Tracks s a) (m : ℤ) (k n : ℕ) :
    ∃ a₁ a₂, Tracks ((LogOp.truncateSegmentsBefore m).after s) a₂ ∧
      (s.folder.performAll (crash ((LogOp.truncateSegmentsBefore m).exec s).out k n)).Bears a₁ ∧
      a.first ≤ a₁.first ∧ a₁.first ≤ a₂.first ∧ a₁ = a.dropBefore a₁.first := by
  obtain ⟨sh, hl, hn, rfl⟩ := h
  obtain ⟨j, hj, hexp, s', ops, hrun, hl', -, hnext, -, -⟩ := hl.truncateSegmentsBefore m
  have hsegs : s.segments.length = sh.full.length + 1 := by
    have := congrArg List.length hl.segments
    simpa [Shape.chunks] using this
  have hout : ops = deleteOps (s.segments.take j) :=
    congrArg Outcome.out (hrun.symm.trans (truncateSegmentsBefore_run (by omega) hexp))
  have hexec : (LogOp.truncateSegmentsBefore m).exec s = _ := bind_run hrun (pure_eq _ _)
  have hatOnce := (truncateSegmentsBefore_atOnce m s).out
  rw [hrun] at hatOnce
  have hlogs := crash_logs hatOnce s.folder k n
  -- the files of the first `j` segments and the others
  have hfiles : s.folder.logs = [] ++ (((placed sh.first sh.chunks).take j).map fileOf ++
      ((placed sh.first sh.chunks).drop j).map fileOf) := by
    rw [List.nil_append, ← List.map_append, List.take_append_drop]
    exact hl.files
  have hnames : Dir.names (((placed sh.first sh.chunks).take j).map fileOf) =
      (s.segments.take j).map Segment.baseOffset := by
    have hall := names_placed s.indexIntervalBytes sh.first sh.chunks hl.segments
    rw [Dir.names, List.map_map] at hall ⊢
    rw [List.map_take, List.map_take, ← hall]
  have hleft := deleteOps_logs (s.segments.take j) _ _ _ s.folder k hfiles hnames (by simp [Dir.names])
  rw [hout] at hlogs
  rw [hleft] at hlogs
  have hi : min ((k + 1) / 2) j ≤ j := Nat.min_le_right _ _
  refine ⟨⟨(sh.dropHead (min ((k + 1) / 2) j)).first, (sh.dropHead (min ((k + 1) / 2) j)).data⟩,
    ⟨(sh.dropHead j).first, (sh.dropHead j).data⟩, ?_, ?_, Nat.le_add_right _ _, ?_, ?_⟩
  · refine ⟨sh.dropHead j, ?_, ?_, rfl⟩
    · unfold LogOp.after
      rw [hexec]
      exact hl'
    · unfold LogOp.after
      rw [hexec]
      exact hnext.trans (hn.trans (sh.dropHead_stop j).symm)
  · rw [hexec, List.append_nil, hout]
    refine .inl ⟨_, [], Folder.holds_of_logs (hlogs.trans ?_), .inl readRecord_nil, rfl⟩
    rw [sh.placed_dropHead (by omega), List.nil_append, ← List.map_drop, ← List.map_append]
    congr 1
    rcases Nat.le_total ((k + 1) / 2) j with hle | hle
    · have hlater : (placed sh.first sh.chunks).drop j =
          ((placed sh.first sh.chunks).drop ((k + 1) / 2)).drop (j - (k + 1) / 2) := by
        rw [List.drop_drop]
        congr 1
        omega
      rw [Nat.min_eq_left hle, List.drop_take, hlater, List.take_append_drop]
    · rw [Nat.min_eq_right hle, List.drop_of_length_le (by rw [List.length_take]; omega),
        List.nil_append]
  · show sh.first + _ ≤ sh.first + _
    refine Nat.add_le_add_left ?_ _
    exact ((List.take_prefix_take_left hi).sublist.flatten).length_le
  · unfold AbstractLog.dropBefore
    rw [sh.dropHead_data]
    show _ = AbstractLog.mk _ (sh.data.drop (sh.first + _ - sh.first))
    rw [Nat.add_sub_cancel_left]

/-! ### Crashes in the other calls -/

/-- A crash in an append leaves the old records and the new ones whose bytes were all written. -/
theorem Tracks.crash_append (h : Tracks s a) {op : LogOp} {new : List Datum}
    (hnew : op.items = some new) (hop : op.Writing s) (k n : ℕ) :
    ∃ m, Completes a.next new (logBytes (crash (op.exec s).out k n)) m ∧
      (s.folder.performAll (crash (op.exec s).out k n)).Bears ⟨a.first, a.items ++ new.take m⟩ := by
  obtain ⟨sh, m, t, hint⟩ := h.cuts hnew hop k n
  have hnext : s.nextOffset = a.first + a.items.length := h.observes.1
  have hfits : ∀ r ∈ records (a.first + a.items.length + m) (new.drop m), r.Fits := by
    intro r hr
    rw [← hnext, ← records_drop _ _ hint.le] at hr
    exact LogOp.fits_items hnew hop r (List.mem_of_mem_drop hr)
  refine ⟨m, hint.completes, .inl ⟨sh, t, hint.holds, Segment.ends_of_torn hfits hint.torn, ?_⟩⟩
  rw [hint.first_eq, hint.data]

/-- What a crash in a call leaves, of whose writes to `.log` files `bytes` bytes were done. -/
def LogOp.Leaves (s : CommitLog) (bytes : ℕ) (a a' : AbstractLog) : LogOp → Prop
  | append payload timestamp now => ∃ m, Completes a.next [(timestamp.getD now, payload)] bytes m ∧
      a' = ⟨a.first, a.items ++ [(timestamp.getD now, payload)].take m⟩
  | appendMany payloads timestamps now =>
      ∃ m, Completes a.next (batchData payloads timestamps now) bytes m ∧
        a' = ⟨a.first, a.items ++ (batchData payloads timestamps now).take m⟩
  | truncateFrom o => ∃ j : ℕ, o ≤ j ∧ a' = a.truncateFrom j
  | truncateSegmentsBefore m => ∃ a₂, Tracks ((truncateSegmentsBefore m).after s) a₂ ∧
      a.first ≤ a'.first ∧ a'.first ≤ a₂.first ∧ a' = a.dropBefore a'.first
  | reopen => a' = a

theorem Tracks.crash (h : Tracks s a) {op : LogOp} (hop : op.Admissible s) {k : ℕ}
    (hk : op.Spares s k) (n : ℕ) :
    ∃ a', op.Leaves s (logBytes (crash (op.exec s).out k n)) a a' ∧
      (s.folder.performAll (crash (op.exec s).out k n)).Bears a' := by
  cases op with
  | append payload timestamp now =>
    obtain ⟨m, hm, hd⟩ := h.crash_append rfl (show (LogOp.append payload timestamp now).Writing s from hop) k n
    exact ⟨_, ⟨m, hm, rfl⟩, hd⟩
  | appendMany payloads timestamps now =>
    obtain ⟨m, hm, hd⟩ := h.crash_append rfl
      (show (LogOp.appendMany payloads timestamps now).Writing s from hop) k n
    exact ⟨_, ⟨m, hm, rfl⟩, hd⟩
  | truncateFrom offset =>
    have hfirst := h.first_le hop
    obtain ⟨o, rfl⟩ := Int.eq_ofNat_of_zero_le (le_trans (Int.natCast_nonneg _) hfirst)
    obtain ⟨j, hj, hd⟩ := h.crash_truncateFrom (by exact_mod_cast hfirst : a.first ≤ o) hk n
    exact ⟨_, ⟨j, by exact_mod_cast hj, rfl⟩, hd⟩
  | truncateSegmentsBefore m =>
    obtain ⟨a₁, a₂, h₂, hd, hle, hle', heq⟩ := h.crash_truncateSegmentsBefore m k n
    exact ⟨a₁, ⟨a₂, h₂, hle, hle', heq⟩, hd⟩
  | reopen =>
    obtain ⟨s', out, hrun, -, hcuts⟩ := h.bears.openAt s.maxSegmentBytes s.indexIntervalBytes
    have hout : (LogOp.reopen.exec s).out = out := congrArg Outcome.out hrun
    rw [hout]
    exact ⟨a, rfl, hcuts k n⟩

/-! ### Whole lives -/

/-- The log of the process that has the directory open, or the directory alone. -/
inductive Life
  | up (s : CommitLog)
  | down (d : Folder)

inductive LifeEvent
  | call (op : LogOp)
  /-- The process stops in file operation `k` of the call, after `n` bytes of it. -/
  | crash (op : LogOp) (k n : ℕ)
  /-- A new process opens the directory. -/
  | start (maxSegmentBytes interval : ℕ)
  /-- It stops in file operation `k` of that. -/
  | crashStart (maxSegmentBytes interval k n : ℕ)

namespace Life

def next : Life → LifeEvent → Life
  | .up s, .call op => .up (op.after s)
  | .up s, .crash op k n => .down (s.folder.performAll (Log.crash (op.exec s).out k n))
  | .down d, .start maxSegmentBytes interval =>
    let r := CommitLog.openAt maxSegmentBytes interval d
    match r.result with
    | .ok _ => .up r.state
    | .error _ => .down r.state.folder
  | .down d, .crashStart maxSegmentBytes interval k n =>
    .down (d.performAll (Log.crash (CommitLog.openAt maxSegmentBytes interval d).out k n))
  | l, _ => l

/-- Calls are admissible, and only a process that is up makes them. -/
def Legal : Life → LifeEvent → Prop
  | .up s, .call op => op.Admissible s
  | .up s, .crash op k _ => op.Admissible s ∧ op.Spares s k
  | .down _, .start .. => True
  | .down _, .crashStart .. => True
  | _, _ => False

instance (s : CommitLog) : ∀ op : LogOp, Decidable (op.Admissible s)
  | .append .. => inferInstanceAs (Decidable (_ ∧ _ ∧ _))
  | .appendMany .. => inferInstanceAs (Decidable (_ ∧ _ ∧ _))
  | .truncateFrom _ => inferInstanceAs (Decidable (∀ seg ∈ s.segments.head?, _))
  | .truncateSegmentsBefore _ => inferInstanceAs (Decidable True)
  | .reopen => inferInstanceAs (Decidable True)

instance (s : CommitLog) (k : ℕ) : ∀ op : LogOp, Decidable (op.Spares s k)
  | .truncateFrom _ => inferInstanceAs (Decidable (_ ∨ _))
  | .append .. | .appendMany .. | .truncateSegmentsBefore _ | .reopen => inferInstanceAs (Decidable True)

instance : ∀ (l : Life) (e : LifeEvent), Decidable (l.Legal e)
  | .up s, .call op => inferInstanceAs (Decidable (op.Admissible s))
  | .up s, .crash op k _ => inferInstanceAs (Decidable (op.Admissible s ∧ op.Spares s k))
  | .down _, .start .. | .down _, .crashStart .. => inferInstanceAs (Decidable True)
  | .up _, .start .. | .up _, .crashStart .. | .down _, .call _ | .down _, .crash .. =>
    inferInstanceAs (Decidable False)

/-- What an event makes of the records. -/
def Means : Life → LifeEvent → AbstractLog → AbstractLog → Prop
  | .up s, .call op, a, a' => ∃ v, (op.exec s).result = .ok v ∧ op.Means s (op.after s) a a' v
  | .up s, .crash op k n, a, a' => op.Leaves s (logBytes (Log.crash (op.exec s).out k n)) a a'
  | _, _, a, a' => a' = a

/-- The records `a` become `a'` along the events. -/
def Explains : Life → List LifeEvent → AbstractLog → AbstractLog → Prop
  | _, [], a, a' => a' = a
  | l, e :: es, a, a' => ∃ b, l.Means e a b ∧ Explains (l.next e) es b a'

/-- What can be seen: of a directory, what a process will see that opens it. -/
def Shows (a : AbstractLog) : Life → Prop
  | .up s => Observes s a
  | .down d => ∀ maxSegmentBytes interval, ∃ s out,
      CommitLog.openAt maxSegmentBytes interval d = ⟨s, out, .ok ()⟩ ∧ Observes s a

/-- The invariant of every life. -/
def Bears (a : AbstractLog) : Life → Prop
  | .up s => Tracks s a
  | .down d => d.Bears a

variable {l : Life}

theorem Bears.shows (h : l.Bears a) : l.Shows a := by
  cases l with
  | up s => exact Tracks.observes h
  | down d =>
    intro maxSegmentBytes interval
    obtain ⟨s, out, hrun, htracks, -⟩ := Folder.Bears.openAt h maxSegmentBytes interval
    exact ⟨s, out, hrun, htracks.observes⟩

/-- One event. -/
theorem Bears.step (h : l.Bears a) {e : LifeEvent} (he : l.Legal e) :
    ∃ a', l.Means e a a' ∧ (l.next e).Bears a' := by
  cases l with
  | up s =>
    cases e with
    | call op =>
      obtain ⟨s', a', v, out, hrun, hmeans, h'⟩ := Tracks.step h he
      have hafter : op.after s = s' := congrArg Outcome.state hrun
      refine ⟨a', ⟨v, congrArg Outcome.result hrun, ?_⟩, ?_⟩
      · rwa [hafter]
      · show Tracks (op.after s) a'
        rwa [hafter]
    | crash op k n => exact Tracks.crash h he.1 he.2 n
    | start maxSegmentBytes interval => exact he.elim
    | crashStart maxSegmentBytes interval k n => exact he.elim
  | down d =>
    cases e with
    | call op => exact he.elim
    | crash op k n => exact he.elim
    | start maxSegmentBytes interval =>
      obtain ⟨s, out, hrun, htracks, -⟩ := Folder.Bears.openAt h maxSegmentBytes interval
      refine ⟨a, rfl, ?_⟩
      show Bears a (match (CommitLog.openAt maxSegmentBytes interval d).result with
        | .ok _ => .up (CommitLog.openAt maxSegmentBytes interval d).state
        | .error _ => .down (CommitLog.openAt maxSegmentBytes interval d).state.folder)
      rw [hrun]
      exact htracks
    | crashStart maxSegmentBytes interval k n =>
      obtain ⟨s, out, hrun, -, hcuts⟩ := Folder.Bears.openAt h maxSegmentBytes interval
      refine ⟨a, rfl, ?_⟩
      show (d.performAll (Log.crash (CommitLog.openAt maxSegmentBytes interval d).out k n)).Bears a
      rw [hrun]
      exact hcuts k n

theorem Bears.run : ∀ (events : List LifeEvent) {l : Life} {a : AbstractLog}, l.Bears a →
    Along next Legal l events → ∃ a', l.Explains events a a' ∧ (events.foldl next l).Bears a'
  | [], _, a, h, _ => ⟨a, rfl, h⟩
  | e :: events, l, a, h, hev => by
    obtain ⟨b, hmeans, hb⟩ := h.step hev.1
    obtain ⟨a', hexp, ha'⟩ := Bears.run events hb hev.2
    exact ⟨a', ⟨b, hmeans, hexp⟩, ha'⟩

end Life

/-- The first start stops between its two files, the second append inside the payload. -/
def stormy : List LifeEvent :=
  [.crashStart 64 1 1 0, .start 64 1, .call (.append [7] (some 5) 0), .crash (.append [8, 9] (some 6) 0) 0 29,
    .crashStart 64 1 0 0, .start 64 1, .call (.append [10] (some 7) 0)]

end Pylog.Log
