import Mathlib.Data.List.Sort
import Pylog.Log.SegmentFacts

/-!
# How a `CommitLog` lays out its records

A `Shape` is a log as data: the offset of its first record, the records of its sealed segments (none
of them empty) and those of the active one.  `Lays s sh`: the segments and files of `s` are those of
`sh`.  Each operation is a step between shapes; `Lays.read` says what can be read from one.
-/

namespace Pylog.Log

open Effect Effect.Handler Files Framing Bisect

/-- The segments of a log with their base offsets. -/
def placed : ℕ → List (List Datum) → List (ℕ × List Datum)
  | _, [] => []
  | b, c :: cs => (b, c) :: placed (b + c.length) cs

def fileOf (p : ℕ × List Datum) : ℕ × Bytes := (p.1, encodeAll (records p.1 p.2))

def coreOf (interval : ℕ) (p : ℕ × List Datum) : Segment :=
  ((Segment.new p.1 interval).fill (records p.1 p.2)).core

@[simp] theorem length_placed : ∀ (b : ℕ) (cs : List (List Datum)), (placed b cs).length = cs.length
  | _, [] => rfl
  | b, c :: cs => by simp [placed, length_placed]

theorem placed_append : ∀ (b : ℕ) (cs ds : List (List Datum)),
    placed b (cs ++ ds) = placed b cs ++ placed (b + cs.flatten.length) ds
  | b, [], ds => by simp [placed]
  | b, c :: cs, ds => by
    simp only [List.cons_append, placed, placed_append (b + c.length) cs ds, List.flatten_cons,
      List.length_append]
    rw [Nat.add_assoc]

/-- A segment lies between the start of the log and what follows it. -/
theorem mem_placed : ∀ {b : ℕ} {cs : List (List Datum)} {p : ℕ × List Datum}, p ∈ placed b cs →
    p.2 ∈ cs ∧ b ≤ p.1 ∧ p.1 + p.2.length ≤ b + cs.flatten.length
  | b, c :: cs, p, h => by
    rcases List.mem_cons.mp h with rfl | h
    · simp
    · obtain ⟨h1, h2, h3⟩ := mem_placed h
      refine ⟨by simp [h1], by omega, ?_⟩
      simp only [List.flatten_cons, List.length_append]
      omega

theorem records_placed : ∀ {b : ℕ} {cs : List (List Datum)} {p : ℕ × List Datum}, p ∈ placed b cs →
    ∀ r ∈ records p.1 p.2, r ∈ records b cs.flatten
  | b, c :: cs, p, h, r, hr => by
    rw [List.flatten_cons, records_append, List.mem_append]
    rcases List.mem_cons.mp h with rfl | h
    · exact .inl hr
    · exact .inr (records_placed h r hr)

theorem placed_lt {b : ℕ} {cs : List (List Datum)} (hne : ∀ c ∈ cs, c ≠ []) {p : ℕ × List Datum}
    (h : p ∈ placed b cs) : p.1 < b + cs.flatten.length := by
  obtain ⟨h1, -, h3⟩ := mem_placed h
  have := List.length_pos_iff.mpr (hne p.2 h1)
  omega

/-- The contents of a log: `fits` is what `append` checks or is promised of every record. -/
structure Shape where
  first : ℕ
  full : List (List Datum)
  active : List Datum
  nonempty : ∀ c ∈ full, c ≠ []
  fits : ∀ r ∈ records first (full ++ [active]).flatten, r.Fits

namespace Shape

variable (sh : Shape)

def chunks : List (List Datum) := sh.full ++ [sh.active]

def data : List Datum := sh.chunks.flatten

/-- The base offset of the active segment. -/
def base : ℕ := sh.first + sh.full.flatten.length

/-- The offset behind the last record. -/
def stop : ℕ := sh.first + sh.data.length

theorem data_eq : sh.data = sh.full.flatten ++ sh.active := by
  simp [data, chunks]

theorem stop_eq : sh.stop = sh.base + sh.active.length := by
  unfold stop base
  rw [data_eq, List.length_append]
  omega

theorem placed_eq :
    placed sh.first sh.chunks = placed sh.first sh.full ++ [(sh.base, sh.active)] := by
  unfold chunks base
  rw [placed_append]
  rfl

/-- No sealed segment has the base of the active one. -/
theorem base_notMem : sh.base ∉ Dir.names ((placed sh.first sh.full).map fileOf) := by
  intro h
  obtain ⟨f, hf, hb⟩ := List.mem_map.mp h
  obtain ⟨p, hp, rfl⟩ := List.mem_map.mp hf
  have hlt := placed_lt sh.nonempty hp
  simp only [fileOf] at hb
  unfold base at hb
  omega

theorem fits_data : ∀ r ∈ records sh.first sh.data, r.Fits := sh.fits

/-- Records behind the last one, in the active segment. -/
def extend (fs : List Datum) (h : ∀ r ∈ records sh.stop fs, r.Fits) : Shape where
  first := sh.first
  full := sh.full
  active := sh.active ++ fs
  nonempty := sh.nonempty
  fits := by
    intro r hr
    have he : (sh.full ++ [sh.active ++ fs]).flatten = sh.data ++ fs := by
      simp [data, chunks]
    rw [he, records_append] at hr
    rcases List.mem_append.mp hr with hr | hr
    · exact sh.fits_data r hr
    · exact h r hr

/-- A new active segment behind a nonempty one. -/
def roll (h : sh.active ≠ []) : Shape where
  first := sh.first
  full := sh.full ++ [sh.active]
  active := []
  nonempty := by
    intro c hc
    rcases List.mem_append.mp hc with hc | hc
    · exact sh.nonempty c hc
    · rw [List.mem_singleton.mp hc]
      exact h
  fits := by
    intro r hr
    refine sh.fits_data r ?_
    simpa [data, chunks] using hr

@[simp] theorem extend_data (fs : List Datum) (h : ∀ r ∈ records sh.stop fs, r.Fits) :
    (sh.extend fs h).data = sh.data ++ fs := by
  simp [data, chunks, extend]

@[simp] theorem roll_data (h : sh.active ≠ []) : (sh.roll h).data = sh.data := by
  simp [data, chunks, roll]

@[simp] theorem roll_stop (h : sh.active ≠ []) : (sh.roll h).stop = sh.stop := by
  unfold stop
  rw [roll_data]
  rfl

/-- The segments before another one are sealed. -/
theorem nonempty_of_split {pre post : List (List Datum)} {c : List Datum}
    (hc : sh.chunks = pre ++ c :: post) : ∀ x ∈ pre, x ≠ [] := by
  intro x hx
  refine sh.nonempty x ?_
  have hfull : sh.full = pre ++ (c :: post).dropLast := by
    have := congrArg List.dropLast hc
    rwa [chunks, List.dropLast_concat, List.dropLast_append_of_ne_nil (by simp)] at this
  rw [hfull]
  exact List.mem_append_left _ hx

/-- The shape cut inside one of its segments. -/
def cut {pre post : List (List Datum)} {c : List Datum} (hc : sh.chunks = pre ++ c :: post)
    (k : ℕ) : Shape where
  first := sh.first
  full := pre
  active := c.take k
  nonempty := sh.nonempty_of_split hc
  fits := by
    intro r hr
    refine sh.fits_data r ?_
    have hd : sh.data = (pre ++ [c.take k]).flatten ++ (c.drop k ++ post.flatten) := by
      rw [data, hc]
      simp only [List.flatten_append, List.flatten_cons, List.flatten_nil, List.append_nil]
      rw [List.append_assoc, ← List.append_assoc (c.take k), List.take_append_drop]
    rw [hd, records_append]
    exact List.mem_append_left _ hr

theorem cut_data {pre post : List (List Datum)} {c : List Datum} (hc : sh.chunks = pre ++ c :: post)
    {k : ℕ} (hk : post = [] ∨ k ≤ c.length) :
    (sh.cut hc k).data = sh.data.take (pre.flatten.length + k) := by
  show (pre ++ [c.take k]).flatten = _
  rw [data, hc]
  simp only [List.flatten_append, List.flatten_cons, List.flatten_nil, List.append_nil]
  rw [List.take_length_add_append]
  rcases hk with rfl | hk
  · simp
  · rw [List.take_append_of_le_length hk]

/-- The shape without its first `j` sealed segments. -/
def dropHead (j : ℕ) : Shape where
  first := sh.first + (sh.full.take j).flatten.length
  full := sh.full.drop j
  active := sh.active
  nonempty := fun c hc => sh.nonempty c (List.mem_of_mem_drop hc)
  fits := by
    intro r hr
    refine sh.fits_data r ?_
    have hd : sh.data = (sh.full.take j).flatten ++ (sh.full.drop j ++ [sh.active]).flatten := by
      rw [data, chunks, ← List.flatten_append, ← List.append_assoc, List.take_append_drop]
    rw [hd, records_append]
    exact List.mem_append_right _ hr

theorem dropHead_data (j : ℕ) :
    (sh.dropHead j).data = sh.data.drop (sh.full.take j).flatten.length := by
  have hd : sh.data = (sh.full.take j).flatten ++ (sh.full.drop j ++ [sh.active]).flatten := by
    rw [data, chunks, ← List.flatten_append, ← List.append_assoc, List.take_append_drop]
  rw [hd, List.drop_left]
  rfl

theorem dropHead_stop (j : ℕ) : (sh.dropHead j).stop = sh.stop := by
  have hd : sh.data = (sh.full.take j).flatten ++ (sh.dropHead j).data := by
    rw [data, chunks]
    show _ = (sh.full.take j).flatten ++ (sh.full.drop j ++ [sh.active]).flatten
    rw [← List.flatten_append, ← List.append_assoc, List.take_append_drop]
  unfold stop
  rw [hd, List.length_append]
  show sh.first + _ + _ = _
  omega

end Shape

namespace CommitLog

/-- The segments and files of the log are those of the shape. -/
structure Lays (s : CommitLog) (sh : Shape) : Prop where
  max_pos : 0 < s.maxSegmentBytes
  segments : s.segments.map Segment.core =
    (placed sh.first sh.chunks).map (coreOf s.indexIntervalBytes)
  files : s.folder.logs = (placed sh.first sh.chunks).map fileOf

variable {s : CommitLog} {sh : Shape}

/-- The active segment is the last one. -/
theorem Lays.active (h : s.Lays sh) : ∃ segs seg, s.segments = segs ++ [seg] ∧
    segs.map Segment.core = (placed sh.first sh.full).map (coreOf s.indexIntervalBytes) ∧
    seg.Holds s.indexIntervalBytes sh.base sh.active := by
  have hs := h.segments
  rw [sh.placed_eq, List.map_append, List.map_cons, List.map_nil] at hs
  obtain ⟨segs, last, hsegs, h1, h2⟩ := List.map_eq_append_iff.mp hs
  obtain ⟨seg, segs', rfl, h3, h4⟩ := List.map_eq_cons_iff.mp h2
  rw [List.map_eq_nil_iff] at h4
  subst h4
  exact ⟨segs, seg, hsegs, h1, ⟨h3⟩⟩

theorem Lays.logs (h : s.Lays sh) : s.folder.logs =
    (placed sh.first sh.full).map fileOf ++ [(sh.base, encodeAll (records sh.base sh.active))] := by
  rw [h.files, sh.placed_eq, List.map_append]
  rfl

theorem Lays.get (h : s.Lays sh) :
    s.folder.logs.get sh.base = some (encodeAll (records sh.base sh.active)) := by
  rw [h.logs]
  exact Dir.get_mid sh.base_notMem

theorem onSegment_eq {α : Type} {x : SegmentM α} {segs post : List Segment} {seg seg' : Segment}
    {d' : Folder} {o : List FileOp} {r : Except LogError α} (hs : s.segments = segs ++ seg :: post)
    (hx : x (s.folder, seg) = ⟨(d', seg'), o, r⟩) :
    onSegment segs.length x s =
      ⟨{ s with folder := d', segments := segs ++ seg' :: post }, o, r⟩ := by
  have hget : s.segments[segs.length]? = some seg := by
    rw [hs, List.getElem?_append_right le_rfl]
    simp
  unfold onSegment
  rw [hget]
  dsimp only
  rw [hx, hs]
  simp

theorem onActive_eq {α : Type} {x : SegmentM α} {segs : List Segment} {seg seg' : Segment}
    {d' : Folder} {o : List FileOp} {r : Except LogError α} (hs : s.segments = segs ++ [seg])
    (hx : x (s.folder, seg) = ⟨(d', seg'), o, r⟩) :
    onActive x s = ⟨{ s with folder := d', segments := segs ++ [seg'] }, o, r⟩ := by
  unfold onActive
  rw [read_bind, hs, List.length_append, List.length_singleton, Nat.add_sub_cancel]
  exact onSegment_eq hs hx

theorem active_eq {segs : List Segment} {seg : Segment} (hs : s.segments = segs ++ [seg]) :
    CommitLog.active s = ⟨s, [], .ok seg⟩ := by
  unfold CommitLog.active
  rw [read_bind, hs, List.getLast?_concat]
  rfl

/-- What an operation leaves alone, and that its file operations are all it did to the files. -/
structure Ran (s s' : CommitLog) (ops : List FileOp) : Prop where
  max : s'.maxSegmentBytes = s.maxSegmentBytes
  interval : s'.indexIntervalBytes = s.indexIntervalBytes
  next : s'.nextOffset = s.nextOffset
  folder : s'.folder = s.folder.performAll ops

theorem Ran.trans {s' s'' : CommitLog} {o o' : List FileOp} (h : Ran s s' o) (h' : Ran s' s'' o') :
    Ran s s'' (o ++ o') where
  max := h'.max.trans h.max
  interval := h'.interval.trans h.interval
  next := h'.next.trans h.next
  folder := by rw [h'.folder, h.folder, Folder.performAll_append]

/-- `_new_segment` behind a nonempty active segment. -/
theorem Lays.newSegment (h : s.Lays sh) (ha : sh.active ≠ []) :
    ∃ s', CommitLog.newSegment sh.stop s =
        ⟨s', [⟨.log, .create sh.stop⟩, ⟨.index, .create sh.stop⟩], .ok ()⟩ ∧
      s'.Lays (sh.roll ha) ∧ Ran s s' [⟨.log, .create sh.stop⟩, ⟨.index, .create sh.stop⟩] := by
  have hbase : (sh.roll ha).base = sh.stop := by
    show sh.first + (sh.full ++ [sh.active]).flatten.length = sh.stop
    rfl
  have hnew : sh.stop ∉ s.folder.logs.names := by
    have := (sh.roll ha).base_notMem
    rw [hbase] at this
    rw [h.files]
    exact this
  have hrec := Segment.recover_new s.indexIntervalBytes (Dir.get_eq_none hnew)
  refine ⟨{ s with
    folder := s.folder.performAll [⟨.log, .create sh.stop⟩, ⟨.index, .create sh.stop⟩]
    segments := s.segments ++ [Segment.new sh.stop s.indexIntervalBytes] }, ?_, ?_, ?_⟩
  · unfold CommitLog.newSegment
    dsimp only
    rw [hrec]
  · refine ⟨h.max_pos, ?_, ?_⟩
    · show List.map _ (s.segments ++ _) = _
      rw [(sh.roll ha).placed_eq, List.map_append, List.map_append, h.segments, hbase]
      rfl
    · rw [(sh.roll ha).placed_eq, List.map_append, hbase]
      show s.folder.logs.perform (.create sh.stop) = _
      rw [Dir.perform, Dir.put_new hnew, h.files]
      rfl
  · exact ⟨rfl, rfl, rfl, rfl⟩

/-- Records written behind those of the active segment. -/
theorem Lays.extend (h : s.Lays sh) {fs : List Datum} (hf : ∀ r ∈ records sh.stop fs, r.Fits)
    {segs : List Segment} {seg seg' : Segment} {d' : Folder} (hs : s.segments = segs ++ [seg])
    (hseg : seg'.Holds s.indexIntervalBytes sh.base (sh.active ++ fs))
    (hd : d'.logs = s.folder.logs.perform (.append sh.base (encodeAll (records sh.stop fs)))) :
    Lays { s with folder := d', segments := segs ++ [seg'] } (sh.extend fs hf) := by
  have hpl := (sh.extend fs hf).placed_eq
  have hsegs := h.segments
  rw [hs, sh.placed_eq, List.map_append, List.map_append] at hsegs
  have hcore := List.append_inj_left' hsegs (by simp)
  refine ⟨h.max_pos, ?_, ?_⟩
  · rw [hpl, List.map_append, List.map_append, hcore]
    show _ = _ ++ [coreOf _ (sh.base, sh.active ++ fs)]
    rw [List.map_cons, List.map_nil, hseg.fields]
    rfl
  · rw [hpl, List.map_append]
    show d'.logs = _ ++ [fileOf (sh.base, sh.active ++ fs)]
    rw [hd, Dir.perform, h.get, h.logs, Dir.put_mid sh.base_notMem]
    unfold fileOf
    dsimp only
    rw [records_append, encodeAll_append, sh.stop_eq]
    rfl

end CommitLog

end Pylog.Log
