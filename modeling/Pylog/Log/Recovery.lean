import Pylog.Log.Append

/-!
# Opening a directory

`openAt_eq`: a directory that holds the records of a shape and a torn rest opens as a log of that
shape, with the rest cut off.  `openAt_nil` is the first start.
-/

namespace Pylog.Log

open Effect Effect.Handler Files Framing Bisect

theorem placed_sorted : ∀ {b : ℕ} {cs : List (List Datum)}, (∀ c ∈ cs, c ≠ []) →
    (placed b cs).Pairwise fun p q => p.1 < q.1
  | _, [], _ => List.Pairwise.nil
  | b, c :: cs, h => by
    rw [placed, List.pairwise_cons]
    refine ⟨?_, placed_sorted fun c' hc' => h c' (by simp [hc'])⟩
    intro q hq
    have hc := List.length_pos_iff.mpr (h c (by simp))
    have := (mem_placed hq).2.1
    dsimp only
    omega

/-- The base offsets of a log ascend. -/
theorem Shape.sorted (sh : Shape) :
    (placed sh.first sh.chunks).Pairwise fun p q => p.1 < q.1 := by
  rw [sh.placed_eq, List.pairwise_append]
  refine ⟨placed_sorted sh.nonempty, by simp, ?_⟩
  intro p hp q hq
  rw [List.mem_singleton.mp hq]
  exact placed_lt sh.nonempty hp

namespace CommitLog

/-- A file to recover: base offset, records, and the bytes behind them. -/
abbrev Damaged := ℕ × List Datum × Bytes

def Damaged.file (p : Damaged) : ℕ × Bytes := (p.1, encodeAll (records p.1 p.2.1) ++ p.2.2)

/-- Whole files, as files to recover. -/
theorem Damaged.file_intact (ps : List (ℕ × List Datum)) :
    (ps.map fun p => ((p.1, p.2, []) : Damaged)).map Damaged.file = ps.map fileOf := by
  simp [Damaged.file, fileOf, Function.comp_def]

def Damaged.repaired (p : Damaged) : ℕ × List Datum := (p.1, p.2.1)

/-- The file can be replayed: its records fit and end at the damage. -/
def Damaged.Readable (p : Damaged) : Prop :=
  (∀ r ∈ records p.1 p.2.1, r.Fits) ∧ Segment.Ends p.2.2

/-- The file without the damage. -/
def Damaged.cleared (p : Damaged) : Damaged := (p.1, p.2.1, [])

theorem Damaged.file_cleared (p : Damaged) : p.cleared.file = fileOf p.repaired := by
  simp [Damaged.file, Damaged.cleared, Damaged.repaired, fileOf]

/-- Some of the files are cleared. -/
def PartlyCleared (ps' ps : List Damaged) : Prop :=
  List.Forall₂ (fun p' p => p' = p ∨ p' = p.cleared) ps' ps

theorem partlyCleared_refl : ∀ ps : List Damaged, PartlyCleared ps ps
  | [] => .nil
  | _ :: ps => .cons (.inl rfl) (partlyCleared_refl ps)

/-- Only the last file has something to clear. -/
theorem partlyCleared_concat : ∀ {ps ps' : List Damaged} {q : Damaged}, (∀ p ∈ ps, p.cleared = p) →
    PartlyCleared ps' (ps ++ [q]) → ps' = ps ++ [q] ∨ ps' = ps ++ [q.cleared]
  | [], _, q, _, .cons hq .nil => hq.imp (fun h => by rw [h]; rfl) fun h => by rw [h]; rfl
  | p :: ps, _, q, h, .cons hp hrest => by
    have hp' := hp.elim id fun hp => hp.trans (h p List.mem_cons_self)
    rw [hp']
    exact (partlyCleared_concat (fun p hp => h p (List.mem_cons_of_mem _ hp)) hrest).imp
      (congrArg (p :: ·)) (congrArg (p :: ·))

/-- The loop of `recover` over the segments; a crash leaves some of the files cleared. -/
theorem recoverEach_cuts (interval : ℕ) : ∀ (post : List Damaged) (segs : List Segment)
    (files : Dir ℕ UInt8) (s : CommitLog), (∀ p ∈ post, p.Readable) →
    s.segments = segs ++ post.map (fun p => Segment.new p.1 interval) →
    s.folder.logs = files ++ post.map Damaged.file →
    (files.names ++ post.map Prod.fst).Nodup →
    ∃ ops, each recoverSegment (List.range' segs.length post.length) s =
      ⟨{ s with
        folder := s.folder.performAll ops
        segments := segs ++ post.map fun p =>
          (Segment.new p.1 interval).fill (records p.1 p.2.1) }, ops, .ok ()⟩ ∧
      (s.folder.performAll ops).logs = (files ++ post.map fun p => fileOf p.repaired) ∧
      EveryCut FileOp.part Folder.perform (fun d' => ∃ post', PartlyCleared post' post ∧
        d'.logs = files ++ post'.map Damaged.file) s.folder ops
  | [], segs, files, s, _, hs, hd, _ => by
    refine ⟨[], ?_, by simpa using hd, everyCut_nil ⟨[], .nil, hd⟩⟩
    rw [List.map_nil, List.append_nil] at hs
    rw [List.map_nil, List.append_nil, Folder.performAll_nil, ← hs]
    rfl
  | p :: post, segs, files, s, hr, hs, hd, hn => by
    obtain ⟨hfit, hends⟩ := hr p (by simp)
    have hwhole : s.folder.logs = files ++ (p :: post).map Damaged.file := hd
    rw [List.map_cons] at hs hd hn
    have hnot : p.1 ∉ files.names := by
      intro hmem
      exact (List.nodup_append.mp hn).2.2 p.1 hmem p.1 (by simp) rfl
    have hget : s.folder.logs.get p.1 = some (encodeAll (records p.1 p.2.1) ++ p.2.2) := by
      rw [hd]
      exact Dir.get_mid hnot
    obtain ⟨ops, hlogs, hcuts, hrec⟩ := Segment.recover_cuts interval hget
      (fun r hr => ⟨hfit r hr, (Segment.mem_records hr).1⟩) hends
    have hstep : recoverSegment segs.length s = _ :=
      bind_run (onSegment_eq hs hrec) (pure_eq () _)
    have hput : s.folder.logs.put p.1 (encodeAll (records p.1 p.2.1)) =
        files ++ fileOf p.repaired :: post.map Damaged.file := by
      rw [hd, Damaged.file, Dir.put_mid hnot]
      rfl
    rw [hput] at hlogs hcuts
    have hlogs' : (s.folder.performAll ops).logs =
        (files ++ [fileOf p.repaired]) ++ post.map Damaged.file := by
      rw [hlogs, List.append_cons]
    obtain ⟨ops', hrun, hlast, hcuts'⟩ := recoverEach_cuts interval post
      (segs ++ [(Segment.new p.1 interval).fill (records p.1 p.2.1)]) (files ++ [fileOf p.repaired])
      { s with
        folder := s.folder.performAll ops
        segments := segs ++ (Segment.new p.1 interval).fill (records p.1 p.2.1) ::
          post.map fun p => Segment.new p.1 interval }
      (fun q hq => hr q (by simp [hq])) (by simp) hlogs' (by
        simpa [Dir.names, fileOf, Damaged.repaired] using hn)
    refine ⟨ops ++ ops', ?_, ?_, EveryCut.append (hcuts.mono ?_) (hcuts'.mono ?_)⟩
    · rw [List.length_cons, List.range'_succ, each]
      rw [List.length_append, List.length_singleton] at hrun
      refine (bind_run hstep hrun).trans ?_
      simp [Folder.performAll_append]
    · rw [Folder.performAll_append, hlast]
      simp
    · -- a crash in the recovery of this file
      rintro d' (hd' | hd')
      · exact ⟨p :: post, partlyCleared_refl _, hd'.trans hwhole⟩
      · refine ⟨p.cleared :: post, .cons (.inr rfl) (partlyCleared_refl post), ?_⟩
        rw [hd', List.map_cons, Damaged.file_cleared]
    · -- a crash in the recovery of a later one
      rintro d' ⟨post', hpost, hd'⟩
      refine ⟨p.cleared :: post', .cons (.inr rfl) hpost, ?_⟩
      rw [hd', List.map_cons, Damaged.file_cleared, ← List.append_cons]

variable {d : Folder}

/-- A directory opens as the log of the records that can be replayed from it; a crash leaves some of
its files cleared. -/
theorem openAt_cuts (maxSegmentBytes interval : ℕ) (ps : List Damaged) (hne : ps ≠ [])
    (hd : d.logs = ps.map Damaged.file) (hr : ∀ p ∈ ps, p.Readable)
    (hsorted : ps.Pairwise fun p q => p.1 < q.1) :
    ∃ s ops, openAt maxSegmentBytes interval d = ⟨s, ops, .ok ()⟩ ∧
      s.maxSegmentBytes = max 1 maxSegmentBytes ∧ s.indexIntervalBytes = interval ∧
      s.segments = (ps.map fun p => (Segment.new p.1 interval).fill (records p.1 p.2.1)) ∧
      s.folder.logs = (ps.map fun p => fileOf p.repaired) ∧
      (∃ p, ps.getLast? = some p ∧ s.nextOffset = p.1 + p.2.1.length) ∧
      s.folder = d.performAll ops ∧
      EveryCut FileOp.part Folder.perform (fun d' => ∃ ps', PartlyCleared ps' ps ∧
        d'.logs = ps'.map Damaged.file) d ops := by
  have hnames : d.logs.names = ps.map Prod.fst := by
    rw [hd, Dir.names, List.map_map]
    rfl
  have hle : (ps.map Prod.fst).Pairwise fun a b => decide (a ≤ b) = true := by
    rw [List.pairwise_map]
    exact hsorted.imp fun h => decide_eq_true h.le
  have hstems : d.logs.names.mergeSort (fun a b => decide (a ≤ b)) = ps.map Prod.fst := by
    rw [hnames, List.mergeSort_of_pairwise hle]
  have hnodup : (ps.map Prod.fst).Nodup := by
    unfold List.Nodup
    rw [List.pairwise_map]
    exact hsorted.imp fun h => Nat.ne_of_lt h
  obtain ⟨ops, hrun, hlogs, hcuts⟩ := recoverEach_cuts interval ps [] []
    { maxSegmentBytes := max 1 maxSegmentBytes, indexIntervalBytes := interval, folder := d
      segments := ps.map fun p => Segment.new p.1 interval } hr (by simp) (by simpa using hd)
    (by simpa [Dir.names] using hnodup)
  obtain ⟨init, last, rfl⟩ : ∃ init last, ps = init ++ [last] :=
    ⟨ps.dropLast, ps.getLast hne, (List.dropLast_append_getLast hne).symm⟩
  rw [List.nil_append] at hrun hlogs
  rw [List.length_nil, ← List.range_eq_range'] at hrun
  generalize hs₂ : (CommitLog.mk (max 1 maxSegmentBytes) interval
    ((init ++ [last]).map fun p => (Segment.new p.1 interval).fill (records p.1 p.2.1)) 0
    (d.performAll ops)) = s₂ at hrun
  have hsegs : s₂.segments =
      (init.map fun p => (Segment.new p.1 interval).fill (records p.1 p.2.1)) ++
        [(Segment.new last.1 interval).fill (records last.1 last.2.1)] := by
    rw [← hs₂]
    simp
  have hrec : recover
      { maxSegmentBytes := max 1 maxSegmentBytes, indexIntervalBytes := interval, folder := d } =
      ⟨s₂, ops, .ok ((Segment.new last.1 interval).fill (records last.1 last.2.1)).nextOffset⟩ := by
    unfold recover
    rw [read_bind]
    dsimp only
    rw [hstems, if_neg (by simp)]
    refine update_run ?_
    rw [List.map_map, List.length_map]
    refine (bind_eq hrun).trans ?_
    rw [bind_eq (active_eq hsegs)]
    exact congrArg (fun o => (⟨s₂, o, _⟩ : Outcome CommitLog FileOp LogError ℕ))
      (List.append_nil ops)
  refine ⟨{ s₂ with
    nextOffset := ((Segment.new last.1 interval).fill (records last.1 last.2.1)).nextOffset }, ops,
    ?_, ?_, ?_, ?_, ?_, ⟨last, by simp, Segment.fill_nextOffset _ _ _ rfl⟩, ?_, hcuts⟩
  · unfold openAt
    exact (bind_run hrec rfl).trans (by rw [List.append_nil])
  · rw [← hs₂]
  · rw [← hs₂]
  · rw [← hs₂]
  · rw [← hs₂]
    exact hlogs
  · rw [← hs₂]

theorem openAt_damaged (maxSegmentBytes interval : ℕ) (ps : List Damaged) (hne : ps ≠ [])
    (hd : d.logs = ps.map Damaged.file) (hr : ∀ p ∈ ps, p.Readable)
    (hsorted : ps.Pairwise fun p q => p.1 < q.1) :
    ∃ s ops, openAt maxSegmentBytes interval d = ⟨s, ops, .ok ()⟩ ∧
      s.maxSegmentBytes = max 1 maxSegmentBytes ∧ s.indexIntervalBytes = interval ∧
      s.segments = (ps.map fun p => (Segment.new p.1 interval).fill (records p.1 p.2.1)) ∧
      s.folder.logs = (ps.map fun p => fileOf p.repaired) ∧
      (∃ p, ps.getLast? = some p ∧ s.nextOffset = p.1 + p.2.1.length) ∧
      s.folder = d.performAll ops := by
  obtain ⟨s, ops, hrun, hmax, hint, hsegs, hlogs, hnext, hfolder, -⟩ :=
    openAt_cuts maxSegmentBytes interval ps hne hd hr hsorted
  exact ⟨s, ops, hrun, hmax, hint, hsegs, hlogs, hnext, hfolder⟩

end CommitLog

/-- The files of a shape, with the bytes `t` behind the last record. -/
def Shape.torn (sh : Shape) (t : Bytes) : List CommitLog.Damaged :=
  ((placed sh.first sh.full).map fun p => (p.1, p.2, [])) ++ [(sh.base, sh.active, t)]

theorem Folder.holds_iff {d : Folder} {sh : Shape} {t : Bytes} :
    d.Holds sh t ↔ d.logs = (sh.torn t).map CommitLog.Damaged.file := by
  unfold Folder.Holds Shape.torn
  rw [List.map_append, CommitLog.Damaged.file_intact]
  exact Iff.rfl

/-- The sealed segments end with their last record, the active one with the rest. -/
theorem Shape.torn_readable (sh : Shape) {t : Bytes} (ht : Segment.Ends t) :
    ∀ p ∈ sh.torn t, p.Readable := by
  have hfits : ∀ p ∈ placed sh.first sh.chunks, ∀ r ∈ records p.1 p.2, r.Fits :=
    fun p hp r hr => sh.fits_data r (records_placed hp r hr)
  rw [sh.placed_eq] at hfits
  intro p hp
  rcases List.mem_append.mp hp with hp | hp
  · obtain ⟨q, hq, rfl⟩ := List.mem_map.mp hp
    exact ⟨hfits q (by simp [hq]), .inl readRecord_nil⟩
  · rw [List.mem_singleton.mp hp]
    exact ⟨hfits (sh.base, sh.active) (by simp), ht⟩

theorem Shape.torn_sorted (sh : Shape) (t : Bytes) : (sh.torn t).Pairwise fun p q => p.1 < q.1 := by
  have hsorted := sh.sorted
  rw [sh.placed_eq] at hsorted
  unfold Shape.torn
  rw [List.pairwise_append] at hsorted ⊢
  refine ⟨?_, by simp, ?_⟩
  · rw [List.pairwise_map]
    exact hsorted.1
  · intro p hp q hq
    obtain ⟨p', hp', rfl⟩ := List.mem_map.mp hp
    rw [List.mem_singleton.mp hq]
    exact hsorted.2.2 p' hp' (sh.base, sh.active) (by simp)

namespace CommitLog

variable {d : Folder}

/-- A directory of a shape with a torn rest opens as a log of that shape. -/
theorem openAt_eq (maxSegmentBytes interval : ℕ) {sh : Shape} {t : Bytes} (hd : d.Holds sh t)
    (ht : Segment.Ends t) :
    ∃ s ops, openAt maxSegmentBytes interval d = ⟨s, ops, .ok ()⟩ ∧ s.Lays sh ∧
      s.segments = ((placed sh.first sh.chunks).map fun p =>
        (Segment.new p.1 interval).fill (records p.1 p.2)) ∧
      s.nextOffset = sh.stop ∧ s.maxSegmentBytes = max 1 maxSegmentBytes ∧
      s.indexIntervalBytes = interval ∧ s.folder = d.performAll ops := by
  obtain ⟨s, ops, hrun, hmax, hint, hsegs, hlogs, ⟨p, hp, hnext⟩, hfolder⟩ :=
    openAt_damaged maxSegmentBytes interval (sh.torn t) (by simp [Shape.torn])
      (Folder.holds_iff.mp hd) (sh.torn_readable ht) (sh.torn_sorted t)
  refine ⟨s, ops, hrun, ⟨?_, ?_, ?_⟩, ?_, ?_, hmax, hint, hfolder⟩
  · rw [hmax]
    omega
  · rw [hsegs, hint, sh.placed_eq]
    simp [Shape.torn, coreOf, Function.comp_def]
  · rw [hlogs, sh.placed_eq]
    simp [Shape.torn, Damaged.repaired, fileOf, Function.comp_def]
  · rw [hsegs, sh.placed_eq]
    simp [Shape.torn, Function.comp_def]
  · obtain rfl : (sh.base, sh.active, t) = p := by simpa [Shape.torn] using hp
    rw [hnext, sh.stop_eq]

/-- A crash in the recovery leaves the records, with the rest or without it. -/
theorem openAt_holds_cuts (maxSegmentBytes interval : ℕ) {sh : Shape} {t : Bytes} (hd : d.Holds sh t)
    (ht : Segment.Ends t) : EveryCut FileOp.part Folder.perform
      (fun d' => d'.Holds sh t ∨ d'.Holds sh []) d (openAt maxSegmentBytes interval d).out := by
  obtain ⟨s, ops, hrun, -, -, -, -, -, -, hcuts⟩ :=
    openAt_cuts maxSegmentBytes interval (sh.torn t) (by simp [Shape.torn])
      (Folder.holds_iff.mp hd) (sh.torn_readable ht) (sh.torn_sorted t)
  rw [hrun]
  refine hcuts.mono ?_
  rintro d' ⟨ps', hps', hd'⟩
  rw [Folder.holds_iff, Folder.holds_iff, hd']
  rcases partlyCleared_concat (by simp [Damaged.cleared]) hps' with rfl | rfl
  · exact .inl rfl
  · exact .inr rfl

/-- The first start: one empty segment at offset `0`. -/
def emptyShape : Shape := ⟨0, [], [], by simp, by simp⟩

theorem recover_nil (maxSegmentBytes interval : ℕ) :
    recover { maxSegmentBytes := maxSegmentBytes, indexIntervalBytes := interval } =
      ⟨{ maxSegmentBytes := maxSegmentBytes, indexIntervalBytes := interval
         segments := [Segment.new 0 interval]
         folder := { logs := [(0, [])], indexes := [(0, [])] } },
        [⟨.log, .create 0⟩, ⟨.index, .create 0⟩], .ok 0⟩ := by
  have hstems : Dir.names ([] : Dir ℕ UInt8) = [] := rfl
  unfold recover
  rw [read_bind]
  dsimp only
  rw [hstems, List.mergeSort_nil]
  rfl

theorem openAt_nil (maxSegmentBytes interval : ℕ) :
    ∃ s ops, openAt maxSegmentBytes interval {} = ⟨s, ops, .ok ()⟩ ∧ s.Lays emptyShape ∧
      s.nextOffset = 0 ∧ s.maxSegmentBytes = max 1 maxSegmentBytes ∧
      s.indexIntervalBytes = interval := by
  refine ⟨_, _, bind_run (recover_nil _ interval) rfl, ⟨?_, rfl, rfl⟩, rfl, rfl, rfl⟩
  show 0 < max 1 maxSegmentBytes
  omega

/-- A crash in the first start leaves nothing, or the first segment. -/
theorem openAt_nil_cuts (maxSegmentBytes interval : ℕ) : EveryCut FileOp.part Folder.perform
    (fun d' => d' = {} ∨ d'.Holds emptyShape []) {} (openAt maxSegmentBytes interval {}).out := by
  have hrun : openAt maxSegmentBytes interval {} = _ := bind_run (recover_nil _ interval) rfl
  rw [hrun]
  refine everyCut_cons (.inl rfl) (fun n o ho => by cases ho) ?_
  refine everyCut_cons (.inr rfl) (fun n o ho => by cases ho) (everyCut_nil (.inr rfl))

end CommitLog

end Pylog.Log
