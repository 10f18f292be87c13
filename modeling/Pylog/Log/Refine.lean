import Pylog.Log.Recovery

/-!
# The `CommitLog` as a list of records

`Lays.read` reads the records of a shape through the segment list, the sparse indexes and the files;
`Lays.truncateFrom` and `Lays.truncateSegmentsBefore` cut a shape at its end and at its head.
-/

namespace Pylog.Log

open Effect Effect.Handler Files Framing Bisect

namespace CommitLog

variable {s : CommitLog} {sh : Shape}

/-! ### Finding a segment -/

/-- The segment an offset belongs to; offsets behind the log belong to the last one. -/
theorem exists_chunk : ∀ (cs : List (List Datum)) {b o : ℕ}, cs ≠ [] → b ≤ o →
    ∃ pre c post, cs = pre ++ c :: post ∧ b + pre.flatten.length ≤ o ∧
      (post = [] ∨ o < b + pre.flatten.length + c.length)
  | [c], b, o, _, h => ⟨[], c, [], rfl, by simpa using h, .inl rfl⟩
  | c :: c' :: cs, b, o, _, h => by
    rcases Nat.lt_or_ge o (b + c.length) with hlt | hge
    · exact ⟨[], c, c' :: cs, rfl, by simpa using h, .inr (by simpa using hlt)⟩
    · obtain ⟨pre, x, post, he, h1, h2⟩ := exists_chunk (c' :: cs) (by simp) hge
      refine ⟨c :: pre, x, post, by rw [he]; rfl, ?_, ?_⟩
      · rw [List.flatten_cons, List.length_append]
        omega
      · rw [List.flatten_cons, List.length_append]
        rcases h2 with h2 | h2
        · exact .inl h2
        · exact .inr (by omega)

theorem Lays.bases (h : s.Lays sh) : (s.segments.map fun seg => (seg.baseOffset : ℤ)) =
    (placed sh.first sh.chunks).map fun p => (p.1 : ℤ) := by
  have hb := congrArg (List.map fun seg : Segment => (seg.baseOffset : ℤ)) h.segments
  rw [List.map_map, List.map_map] at hb
  refine hb.trans (List.map_congr_left ?_)
  intro p _
  show ((coreOf s.indexIntervalBytes p).baseOffset : ℤ) = p.1
  rw [coreOf, Segment.core, Segment.fill_baseOffset, Segment.new]

/-- `bisect_right` finds the segment of an offset. -/
theorem Lays.bisect (h : s.Lays sh) {pre post : List (List Datum)} {c : List Datum}
    (hc : sh.chunks = pre ++ c :: post) {o : ℕ} (h1 : sh.first + pre.flatten.length ≤ o)
    (h2 : post = [] ∨ o < sh.first + pre.flatten.length + c.length) :
    bisectRight (s.segments.map fun seg => (seg.baseOffset : ℤ)) o = pre.length + 1 := by
  rw [h.bases, hc, placed_append, placed, List.map_append, List.map_cons,
    List.append_cons, bisectRight_append]
  · simp
  · intro y hy
    rcases List.mem_append.mp hy with hy | hy
    · obtain ⟨p, hp, rfl⟩ := List.mem_map.mp hy
      have := (mem_placed hp).2.2
      omega
    · rw [List.mem_singleton.mp hy]
      exact_mod_cast h1
  · intro y hy
    obtain ⟨p, hp, rfl⟩ := List.mem_map.mp hy
    have := (mem_placed hp).2.1
    rcases h2 with rfl | h2
    · simp [placed] at hp
    · omega

theorem Lays.bisect_below (h : s.Lays sh) {o : ℤ} (ho : o < sh.first) :
    bisectRight (s.segments.map fun seg => (seg.baseOffset : ℤ)) o = 0 := by
  rw [h.bases]
  refine bisectRight_append (by simp : ∀ y ∈ ([] : List ℤ), y ≤ o) ?_
  intro y hy
  obtain ⟨p, hp, rfl⟩ := List.mem_map.mp hy
  have := (mem_placed hp).2.1
  omega

/-- The segment at a place of the shape, with its file. -/
theorem Lays.segment (h : s.Lays sh) {pre post : List (List Datum)} {c : List Datum}
    (hc : sh.chunks = pre ++ c :: post) :
    ∃ segs seg segs', s.segments = segs ++ seg :: segs' ∧ segs.length = pre.length ∧
      segs.map Segment.core = (placed sh.first pre).map (coreOf s.indexIntervalBytes) ∧
      seg.Holds s.indexIntervalBytes (sh.first + pre.flatten.length) c ∧
      segs'.map Segment.core = (placed (sh.first + pre.flatten.length + c.length) post).map
        (coreOf s.indexIntervalBytes) := by
  have hs := h.segments
  rw [hc, placed_append, placed, List.map_append, List.map_cons] at hs
  obtain ⟨segs, rest, hsegs, h1, h2⟩ := List.map_eq_append_iff.mp hs
  obtain ⟨seg, segs', rfl, h3, h4⟩ := List.map_eq_cons_iff.mp h2
  refine ⟨segs, seg, segs', hsegs, ?_, h1, ⟨h3⟩, h4⟩
  have := congrArg List.length h1
  simpa using this

theorem Lays.files_split (h : s.Lays sh) {pre post : List (List Datum)} {c : List Datum}
    (hc : sh.chunks = pre ++ c :: post) :
    s.folder.logs = (placed sh.first pre).map fileOf ++
      fileOf (sh.first + pre.flatten.length, c) ::
      (placed (sh.first + pre.flatten.length + c.length) post).map fileOf ∧
    sh.first + pre.flatten.length ∉ Dir.names ((placed sh.first pre).map fileOf) := by
  refine ⟨?_, ?_⟩
  · rw [h.files, hc, placed_append, placed, List.map_append, List.map_cons]
  · intro hmem
    obtain ⟨f, hf, hb⟩ := List.mem_map.mp hmem
    obtain ⟨p, hp, rfl⟩ := List.mem_map.mp hf
    have hsorted := sh.sorted
    rw [hc, placed_append, placed, List.pairwise_append] at hsorted
    have hlt := hsorted.2.2 p hp (sh.first + pre.flatten.length, c) (by simp)
    simp only [fileOf] at hb
    dsimp only at hlt
    omega

theorem Lays.fits_chunk (_ : s.Lays sh) {pre post : List (List Datum)} {c : List Datum}
    (hc : sh.chunks = pre ++ c :: post) :
    ∀ r ∈ records (sh.first + pre.flatten.length) c, r.Fits := by
  intro r hr
  refine sh.fits_data r (records_placed (p := (sh.first + pre.flatten.length, c)) ?_ r hr)
  rw [hc, placed_append, placed]
  simp

/-! ### Reading -/

/-- What a segment reads. -/
theorem Lays.read_chunk (h : s.Lays sh) {pre post : List (List Datum)} {ds : List Datum}
    (hc : sh.chunks = pre ++ ds :: post) {o : ℕ} (ho : sh.first + pre.flatten.length ≤ o) :
    (s.segments[pre.length]?.bind fun seg => seg.read s.folder (o : ℤ)) =
      ds[o - (sh.first + pre.flatten.length)]?.map fun e => ⟨o, e.1, e.2⟩ := by
  obtain ⟨segs, seg, segs', hs, hlen, -, hseg, -⟩ := h.segment hc
  obtain ⟨hfiles, hnot⟩ := h.files_split hc
  have hget : s.segments[pre.length]? = some seg := by
    rw [hs, ← hlen, List.getElem?_append_right le_rfl]
    simp
  have hfile : s.folder.logs.get (sh.first + pre.flatten.length) =
      some (encodeAll (records (sh.first + pre.flatten.length) ds)) := by
    rw [hfiles]
    exact Dir.get_mid hnot
  rw [hget, Option.bind_some, Segment.read, hseg.baseOffset, hfile, Option.getD_some]
  obtain ⟨k, rfl⟩ := Nat.exists_eq_add_of_le ho
  rw [Nat.add_sub_cancel_left]
  cases hk : ds[k]? with
  | none =>
    rw [hseg.find_none (.inr ?_)]
    · rfl
    · have := List.getElem?_eq_none_iff.mp hk
      push_cast
      omega
  | some e =>
    have hfind := hseg.find (h.fits_chunk hc) hk []
    rw [List.append_nil] at hfind
    rw [hfind]
    rfl

/-- `read` finds exactly the records of the log. -/
theorem Lays.read (h : s.Lays sh) (o : ℤ) :
    s.read o = if (sh.first : ℤ) ≤ o then
      (sh.data[o.toNat - sh.first]?).map fun e => ⟨o.toNat, e.1, e.2⟩ else none := by
  unfold CommitLog.read
  by_cases ho : (sh.first : ℤ) ≤ o
  · rw [if_pos ho]
    obtain ⟨n, rfl⟩ := Int.eq_ofNat_of_zero_le (le_trans (Int.natCast_nonneg _) ho)
    rw [Int.toNat_natCast]
    have hn : sh.first ≤ n := by exact_mod_cast ho
    obtain ⟨pre, ds, post, hc, h1, h2⟩ := exists_chunk sh.chunks (by simp [Shape.chunks]) hn
    rw [h.bisect hc h1 h2]
    dsimp only
    rw [h.read_chunk hc h1]
    have hdata : sh.data = pre.flatten ++ (ds ++ post.flatten) := by
      rw [Shape.data, hc]
      simp
    rw [hdata, List.getElem?_append_right (by omega), Nat.sub_sub]
    cases hk : ds[n - (sh.first + pre.flatten.length)]? with
    | some e =>
      rw [List.getElem?_append_left (List.getElem?_eq_some_iff.mp hk).1, hk]
      rfl
    | none =>
      -- behind the log: the segment before the last one has nothing either
      have hlen := List.getElem?_eq_none_iff.mp hk
      obtain rfl : post = [] := by
        rcases h2 with h2 | h2
        · exact h2
        · omega
      rw [List.flatten_nil, List.append_nil, hk, Option.map_none]
      by_cases hpre : 0 < pre.length
      · rw [if_pos hpre]
        obtain ⟨pre', x, rfl⟩ : ∃ pre' x, pre = pre' ++ [x] :=
          ⟨pre.dropLast, pre.getLast (List.ne_nil_of_length_pos hpre),
            (List.dropLast_append_getLast _).symm⟩
        have hc' : sh.chunks = pre' ++ x :: [ds] := by
          rw [hc]
          simp
        simp only [List.flatten_append, List.flatten_cons, List.flatten_nil, List.append_nil,
          List.length_append] at h1 hlen
        rw [List.length_append, List.length_singleton, Nat.add_sub_cancel,
          h.read_chunk hc' (by omega), List.getElem?_eq_none (by omega)]
        rfl
      · rw [if_neg hpre]
  · rw [if_neg ho]
    rw [h.bisect_below (by omega)]

/-! ### Truncation -/

/-- The operations of `delete` on each of the segments. -/
def deleteOps (dead : List Segment) : List FileOp :=
  dead.flatMap fun x => [⟨.log, .remove x.baseOffset⟩, ⟨.index, .remove x.baseOffset⟩]

theorem deleteOps_cons (x : Segment) (dead : List Segment) :
    deleteOps (x :: dead) =
      ⟨.log, .remove x.baseOffset⟩ :: ⟨.index, .remove x.baseOffset⟩ :: deleteOps dead := by
  simp [deleteOps]

@[simp] theorem length_deleteOps (dead : List Segment) :
    (deleteOps dead).length = 2 * dead.length := by
  induction dead with
  | nil => rfl
  | cons x dead ih =>
    rw [deleteOps_cons, List.length_cons, List.length_cons, List.length_cons, ih]
    omega

theorem deleteOps_append (xs ys : List Segment) :
    deleteOps (xs ++ ys) = deleteOps xs ++ deleteOps ys := by
  simp [deleteOps]

/-- Files of other names stay as they are. -/
theorem get_deleteOps {n : ℕ} : ∀ (dead : List Segment) (d : Folder),
    (∀ x ∈ dead, x.baseOffset ≠ n) →
    (d.performAll (deleteOps dead)).logs.get n = d.logs.get n ∧
      (d.performAll (deleteOps dead)).indexes.get n = d.indexes.get n
  | [], _, _ => ⟨rfl, rfl⟩
  | x :: dead, d, h => by
    obtain ⟨h1, h2⟩ := get_deleteOps dead
      ((d.perform ⟨.log, .remove x.baseOffset⟩).perform ⟨.index, .remove x.baseOffset⟩)
      (fun y hy => h y (List.mem_cons_of_mem _ hy))
    have hx := h x List.mem_cons_self
    rw [deleteOps_cons, Folder.performAll_cons, Folder.performAll_cons]
    exact ⟨h1.trans (Dir.get_erase_of_ne hx _), h2.trans (Dir.get_erase_of_ne hx _)⟩

theorem names_deleteOps_sublist : ∀ (dead : List Segment) (d : Folder),
    (d.performAll (deleteOps dead)).logs.names.Sublist d.logs.names
  | [], _ => List.Sublist.refl _
  | x :: dead, d => by
    rw [deleteOps_cons, Folder.performAll_cons, Folder.performAll_cons]
    exact (names_deleteOps_sublist dead _).trans (Dir.names_erase_sublist _)

/-- The files of the deleted segments are gone. -/
theorem notMem_names_deleteOps : ∀ {dead : List Segment} {d : Folder}, d.logs.names.Nodup →
    ∀ x ∈ dead, x.baseOffset ∉ (d.performAll (deleteOps dead)).logs.names
  | y :: dead, d, hd, x, hx => by
    rw [deleteOps_cons, Folder.performAll_cons, Folder.performAll_cons]
    rcases List.mem_cons.mp hx with rfl | hx
    · intro hmem
      exact Dir.notMem_names_erase hd ((names_deleteOps_sublist dead _).subset hmem)
    · exact notMem_names_deleteOps (hd.sublist (Dir.names_erase_sublist _)) x hx

/-- The loop that deletes the segments `dead`; the list of segments is changed afterwards. -/
theorem deleteEach_eq : ∀ (dead segs post : List Segment) (s : CommitLog),
    s.segments = segs ++ (dead ++ post) →
    each (fun i => onSegment i Segment.delete) (List.range' segs.length dead.length) s =
      ⟨{ s with folder := s.folder.performAll (deleteOps dead) }, deleteOps dead, .ok ()⟩
  | [], _, _, _, _ => rfl
  | x :: dead, segs, post, s, hs => by
    rw [List.cons_append] at hs
    have hdel := onSegment_eq hs (Segment.delete_eq s.folder x)
    rw [← hs] at hdel
    have hrun := deleteEach_eq dead (segs ++ [x]) post
      { s with folder := (s.folder.performAll
          [⟨.log, .remove x.baseOffset⟩, ⟨.index, .remove x.baseOffset⟩]) } (by simpa using hs)
    rw [List.length_append, List.length_singleton] at hrun
    rw [List.length_cons, List.range'_succ, each, deleteOps_cons]
    exact bind_run hdel hrun

/-- The files are deleted in their order: every second operation takes one. -/
theorem deleteOps_logs : ∀ (dead : List Segment) (files keep rest : Dir ℕ UInt8) (d : Folder)
    (n : ℕ), d.logs = keep ++ (files ++ rest) → files.names = dead.map Segment.baseOffset →
    (∀ f ∈ files, f.1 ∉ keep.names) →
    (d.performAll ((deleteOps dead).take n)).logs = keep ++ (files.drop ((n + 1) / 2) ++ rest)
  | [], files, keep, rest, d, n, hd, hn, _ => by
    obtain rfl : files = [] := by simpa [Dir.names] using hn
    simpa [deleteOps] using hd
  | x :: dead, [], _, _, _, _, _, hn, _ => by simp [Dir.names] at hn
  | x :: dead, (b, bs) :: files, keep, rest, d, n, hd, hn, hk => by
    simp only [Dir.names, List.map_cons, List.cons.injEq] at hn
    obtain ⟨rfl, hn⟩ := hn
    have hrem : (d.perform ⟨.log, .remove x.baseOffset⟩).logs = keep ++ (files ++ rest) := by
      show d.logs.perform (.remove x.baseOffset) = _
      rw [Dir.perform, hd]
      exact Dir.erase_mid (hk (x.baseOffset, bs) (by simp))
    rw [deleteOps_cons]
    rcases n with _ | _ | n
    · simpa using hd
    · simpa using hrem
    · rw [List.take_succ_cons, List.take_succ_cons, Folder.performAll_cons, Folder.performAll_cons,
        show (n + 1 + 1 + 1) / 2 = (n + 1) / 2 + 1 by omega, List.drop_succ_cons]
      exact deleteOps_logs dead files keep rest _ n hrem hn fun f hf => hk f (by simp [hf])

theorem deleteOps_logs_all {dead : List Segment} {files keep rest : Dir ℕ UInt8} {d : Folder}
    (hd : d.logs = keep ++ (files ++ rest)) (hn : files.names = dead.map Segment.baseOffset)
    (hk : ∀ f ∈ files, f.1 ∉ keep.names) :
    (d.performAll (deleteOps dead)).logs = keep ++ rest := by
  have hall := deleteOps_logs dead files keep rest d (2 * dead.length) hd hn hk
  have hlen : files.length = dead.length := by
    have := congrArg List.length hn
    simpa [Dir.names] using this
  rwa [← length_deleteOps, List.take_length, length_deleteOps,
    List.drop_of_length_le (by omega), List.nil_append] at hall

/-- The names of a part of the files. -/
theorem names_placed (interval b : ℕ) (cs : List (List Datum)) {segs : List Segment}
    (h : segs.map Segment.core = (placed b cs).map (coreOf interval)) :
    Dir.names ((placed b cs).map fileOf) = segs.map Segment.baseOffset := by
  have hb := congrArg (List.map Segment.baseOffset) h
  rw [List.map_map, List.map_map] at hb
  rw [Dir.names, List.map_map]
  refine Eq.trans (List.map_congr_left ?_) hb.symm
  intro p _
  show p.1 = (coreOf interval p).baseOffset
  rw [coreOf, Segment.core, Segment.fill_baseOffset, Segment.new]

/-- The files of the later segments have names of their own. -/
theorem Shape.names_fresh {sh : Shape} {pre post : List (List Datum)} {c : List Datum}
    (hc : sh.chunks = pre ++ c :: post) :
    ∀ f ∈ (placed (sh.first + pre.flatten.length + c.length) post).map fileOf,
      f.1 ∉ Dir.names ((placed sh.first pre).map fileOf ++
        [fileOf (sh.first + pre.flatten.length, c)]) := by
  intro f hf hmem
  obtain ⟨q, hq, rfl⟩ := List.mem_map.mp hf
  obtain ⟨f', hf', hb⟩ := List.mem_map.mp hmem
  have hsorted := sh.sorted
  rw [hc, placed_append, placed, List.append_cons, List.pairwise_append] at hsorted
  rw [← List.map_singleton, ← List.map_append] at hf'
  obtain ⟨p, hp, rfl⟩ := List.mem_map.mp hf'
  have hlt := hsorted.2.2 p hp q hq
  simp only [fileOf] at hb
  omega

/-- `truncate_from`, once the segment of the offset is found: the later segments are deleted, then it
is cut. -/
theorem truncateAt_run {segs segs' : List Segment} {seg seg' : Segment}
    (hs : s.segments = segs ++ seg :: segs') {offset : ℤ} {changed : Bool} {ops : List FileOp}
    (hcut : Segment.truncateFrom offset (s.folder.performAll (deleteOps segs'), seg) =
      ⟨((s.folder.performAll (deleteOps segs')).performAll ops, seg'), ops, .ok changed⟩) :
    truncateAt segs.length offset s =
      ⟨{ s with
        folder := s.folder.performAll (deleteOps segs' ++ ops)
        segments := segs ++ [seg']
        nextOffset := seg'.nextOffset }, deleteOps segs' ++ ops,
        .ok (decide (segs.length + 1 < s.segments.length) || changed)⟩ := by
  have hdel := deleteEach_eq segs' (segs ++ [seg]) [] s (by rw [hs]; simp)
  have hidx : List.range' (segs.length + 1) (s.segments.length - (segs.length + 1)) =
      List.range' (segs ++ [seg]).length segs'.length := by
    rw [hs]
    simp
    omega
  generalize hs₁ : ({ s with
    folder := s.folder.performAll (deleteOps segs'), segments := segs ++ [seg] } : CommitLog) = s₁
  have htake : ({ { s with folder := s.folder.performAll (deleteOps segs') } with
      segments := s.segments.take (segs.length + 1) } : CommitLog) = s₁ := by
    rw [← hs₁, hs, List.take_length_add_append]
    rfl
  have hseg₁ : s₁.segments = segs ++ seg :: [] := by rw [← hs₁]
  have hon := onSegment_eq hseg₁ (by
    rw [← hs₁]
    exact hcut)
  have hact := active_eq (show ({ s₁ with
    folder := (s.folder.performAll (deleteOps segs')).performAll ops
    segments := segs ++ [seg'] } : CommitLog).segments = segs ++ [seg'] from rfl)
  have hrun : truncateAt segs.length offset s = ⟨{ s₁ with
      folder := (s.folder.performAll (deleteOps segs')).performAll ops
      segments := segs ++ [seg']
      nextOffset := seg'.nextOffset }, deleteOps segs' ++ (ops ++ []),
      .ok (decide (segs.length + 1 < s.segments.length) || changed)⟩ := by
    unfold truncateAt
    rw [read_bind, hidx]
    refine bind_run hdel (update_run ?_)
    rw [htake]
    exact bind_run hon (bind_run hact rfl)
  rw [hrun, List.append_nil, ← Folder.performAll_append, ← hs₁]

/-- `truncate_from` deletes the later segments, then cuts the one the offset belongs to. -/
theorem Lays.truncateFrom_run (h : s.Lays sh) {pre post : List (List Datum)} {c : List Datum}
    (hc : sh.chunks = pre ++ c :: post) {k : ℕ} (hk : post = [] ∨ k < c.length) :
    ∃ segs seg segs' seg' changed ops, s.segments = segs ++ seg :: segs' ∧
      segs'.length = post.length ∧
      CommitLog.truncateFrom ((sh.first + pre.flatten.length + k : ℕ) : ℤ) s =
        ⟨{ s with
          folder := s.folder.performAll (deleteOps segs' ++ ops)
          segments := segs ++ [seg']
          nextOffset := seg'.nextOffset }, deleteOps segs' ++ ops, .ok changed⟩ ∧
      (∀ n, (s.folder.performAll ((deleteOps segs').take n)).logs =
        (placed sh.first (pre ++ [c])).map fileOf ++
          ((placed (sh.first + pre.flatten.length + c.length) post).map fileOf).drop
            ((n + 1) / 2)) ∧
      (s.folder.performAll (deleteOps segs' ++ ops)).logs =
        (placed sh.first (pre ++ [c.take k])).map fileOf ∧
      IndexOnly ops.tail ∧
      segs.map Segment.core = (placed sh.first pre).map (coreOf s.indexIntervalBytes) ∧
      seg'.Holds s.indexIntervalBytes (sh.first + pre.flatten.length) (c.take k) := by
  obtain ⟨segs, seg, segs', hs, hlen, hpre, hseg, hpost⟩ := h.segment hc
  obtain ⟨hfiles, hnot⟩ := h.files_split hc
  have hlast : ∀ c', (placed sh.first (pre ++ [c'])).map fileOf =
      (placed sh.first pre).map fileOf ++ [fileOf (sh.first + pre.flatten.length, c')] := by
    intro c'
    rw [placed_append, List.map_append]
    rfl
  have hfiles' : s.folder.logs = (placed sh.first (pre ++ [c])).map fileOf ++
      ((placed (sh.first + pre.flatten.length + c.length) post).map fileOf ++ []) := by
    rw [hfiles, hlast]
    simp
  have hfresh := Shape.names_fresh hc
  rw [← hlast] at hfresh
  have hnames := names_placed _ _ _ hpost
  have hlogs := deleteOps_logs_all hfiles' hnames hfresh
  rw [List.append_nil, hlast] at hlogs
  -- the file of the segment is still there when it is cut
  have hget : (s.folder.performAll (deleteOps segs')).logs.get (sh.first + pre.flatten.length) =
      some (encodeAll (records (sh.first + pre.flatten.length) c)) := by
    rw [hlogs]
    exact Dir.get_mid hnot
  obtain ⟨ops, seg', changed, hcut, hseg', hlogs', hops⟩ :=
    hseg.truncateFrom (h.fits_chunk hc) hget k
  refine ⟨segs, seg, segs', seg', decide (segs.length + 1 < s.segments.length) || changed, ops, hs,
    ?_, ?_, ?_, ?_, hops, hpre, hseg'⟩
  · have := congrArg List.length hpost
    simpa using this
  · have h1 : sh.first + pre.flatten.length ≤ sh.first + pre.flatten.length + k := by omega
    unfold CommitLog.truncateFrom
    rw [read_bind, h.bisect hc h1 (hk.imp_right fun hlt => by omega), ← hlen]
    exact truncateAt_run hs hcut
  · intro n
    have hn := deleteOps_logs segs' _ _ _ _ n hfiles' hnames hfresh
    rwa [List.append_nil] at hn
  · rw [Folder.performAll_append, hlogs', hlogs, hlast]
    exact Dir.put_mid hnot

/-- `truncate_from` cuts the shape inside the segment of the offset. -/
theorem Lays.truncateFrom_cut (h : s.Lays sh) {o : ℕ} (ho : sh.first ≤ o) :
    ∃ (pre post : List (List Datum)) (c : List Datum) (hc : sh.chunks = pre ++ c :: post) (k : ℕ)
      (s' : CommitLog) (changed : Bool) (ops : List FileOp),
      CommitLog.truncateFrom (o : ℤ) s = ⟨s', ops, .ok changed⟩ ∧ s'.Lays (sh.cut hc k) ∧
      (sh.cut hc k).data = sh.data.take (o - sh.first) ∧ s'.nextOffset = (sh.cut hc k).stop ∧
      s'.maxSegmentBytes = s.maxSegmentBytes ∧ s'.indexIntervalBytes = s.indexIntervalBytes := by
  obtain ⟨pre, c, post, hc, h1, h2⟩ := exists_chunk sh.chunks (by simp [Shape.chunks]) ho
  obtain ⟨k, rfl⟩ := Nat.exists_eq_add_of_le h1
  have hk : post = [] ∨ k < c.length := by
    rcases h2 with h2 | h2
    · exact .inl h2
    · exact .inr (by omega)
  obtain ⟨segs, seg, segs', seg', changed, ops, -, -, hrun, -, hfiles, -, hpre, hseg⟩ :=
    h.truncateFrom_run hc hk
  refine ⟨pre, post, c, hc, k, _, changed, _, hrun, ⟨h.max_pos, ?_, hfiles⟩, ?_, ?_, rfl, rfl⟩
  · rw [(sh.cut hc k).placed_eq, List.map_append, List.map_append, hpre]
    show _ ++ [seg'.core] = _
    rw [hseg.fields]
    rfl
  · rw [sh.cut_data hc (hk.imp_right Nat.le_of_lt)]
    congr 1
    omega
  · show seg'.nextOffset = _
    rw [hseg.nextOffset, (sh.cut hc k).stop_eq]
    rfl

/-- `truncate_from` keeps exactly the records below the offset. -/
theorem Lays.truncateFrom (h : s.Lays sh) {o : ℕ} (ho : sh.first ≤ o) :
    ∃ s' sh' changed ops, CommitLog.truncateFrom (o : ℤ) s = ⟨s', ops, .ok changed⟩ ∧ s'.Lays sh' ∧
      sh'.first = sh.first ∧ sh'.data = sh.data.take (o - sh.first) ∧ s'.nextOffset = sh'.stop ∧
      s'.maxSegmentBytes = s.maxSegmentBytes ∧ s'.indexIntervalBytes = s.indexIntervalBytes := by
  obtain ⟨pre, post, c, hc, k, s', changed, ops, hrun, hl, hdata, hnext, hmax, hint⟩ :=
    h.truncateFrom_cut ho
  exact ⟨s', _, changed, ops, hrun, hl, rfl, hdata, hnext, hmax, hint⟩

/-- A sealed segment holds its records, and is not empty. -/
theorem Lays.sealed (h : s.Lays sh) {i : ℕ} {seg : Segment} (hi : s.segments[i]? = some seg)
    (hlt : i < sh.full.length) : seg.isEmpty = false ∧
      ∃ p, (placed sh.first sh.full)[i]? = some p ∧ seg.Holds s.indexIntervalBytes p.1 p.2 := by
  obtain ⟨segs, last, hs, hcore, -⟩ := h.active
  have hls : segs.length = sh.full.length := by
    have := congrArg List.length hcore
    simpa using this
  have hseg : segs[i]? = some seg := by
    rwa [hs, List.getElem?_append_left (by omega)] at hi
  have hp : i < (placed sh.first sh.full).length := by simpa using hlt
  have hci := congrArg (fun l => l[i]?) hcore
  simp only [List.getElem?_map, hseg, List.getElem?_eq_getElem hp, Option.map_some,
    Option.some.injEq] at hci
  have hholds : seg.Holds s.indexIntervalBytes ((placed sh.first sh.full)[i]).1
      ((placed sh.first sh.full)[i]).2 := ⟨hci⟩
  refine ⟨?_, _, List.getElem?_eq_getElem hp, hholds⟩
  have hne := sh.nonempty _ (mem_placed (List.getElem_mem hp)).1
  have hpos : 0 < (encodeAll (records ((placed sh.first sh.full)[i]).1
      ((placed sh.first sh.full)[i]).2)).length := by
    have h3 := length_le_encodeAll (records ((placed sh.first sh.full)[i]).1
      ((placed sh.first sh.full)[i]).2)
    rw [length_records] at h3
    have h4 := List.length_pos_iff.mpr hne
    omega
  rw [← hholds.size] at hpos
  unfold Segment.isEmpty
  simp
  omega

/-- The segments `truncate_segments_before` deletes are the first ones. -/
theorem Lays.expired (h : s.Lays sh) (m : ℤ) :
    ∃ j ≤ sh.full.length, ∀ i seg, s.segments[i]? = some seg →
      s.expired m (seg, i) = decide (i < j) := by
  have hsorted : ((placed sh.first sh.full).map fun p => (p.1 : ℤ)).Pairwise (· < ·) := by
    rw [List.pairwise_map]
    exact (placed_sorted sh.nonempty).imp fun h => by exact_mod_cast h
  obtain ⟨xs, ys, hxy, h1, h2⟩ := exists_split (m - 1) hsorted
  have hlen : xs.length + ys.length = sh.full.length := by
    have := congrArg List.length hxy
    simp at this
    omega
  refine ⟨xs.length, by omega, ?_⟩
  intro i seg hi
  have hn : s.segments.length = sh.full.length + 1 := by
    have := congrArg List.length h.segments
    simpa [Shape.chunks] using this
  rcases Nat.lt_or_ge i sh.full.length with hlt | hge
  · -- a sealed segment is not empty, so only its base decides
    obtain ⟨hsize, p, hp, hholds⟩ := h.sealed hi hlt
    have hbase : (xs ++ ys)[i]? = some (seg.baseOffset : ℤ) := by
      rw [← hxy, List.getElem?_map, hp, hholds.baseOffset]
      rfl
    refine decide_eq_decide.mpr ?_
    rw [hsize, hn]
    simp only [Bool.false_eq_true, false_or]
    rcases Nat.lt_or_ge i xs.length with hx | hx
    · rw [List.getElem?_append_left hx] at hbase
      have := h1 _ (List.mem_of_getElem? hbase)
      exact ⟨fun _ => hx, fun _ => ⟨by omega, by omega⟩⟩
    · rw [List.getElem?_append_right hx] at hbase
      have := h2 _ (List.mem_of_getElem? hbase)
      exact ⟨fun hb => by omega, fun hi => by omega⟩
  · refine decide_eq_decide.mpr ?_
    rw [hn]
    exact ⟨fun hb => by omega, fun hi => by omega⟩

theorem filter_zipIdx {α : Type} {l : List α} {p : α × ℕ → Bool} {j : ℕ} (hj : j ≤ l.length)
    (h : ∀ i a, l[i]? = some a → p (a, i) = decide (i < j)) :
    l.zipIdx.filter p = (l.take j).zipIdx ∧
      (l.zipIdx.filter fun x => !p x).map Prod.fst = l.drop j := by
  have hsplit : l.zipIdx = (l.take j).zipIdx ++ (l.drop j).zipIdx j := by
    conv_lhs => rw [← List.take_append_drop j l, List.zipIdx_append]
    rw [List.length_take, Nat.min_eq_left hj, Nat.zero_add]
  have h1 : ∀ x ∈ (l.take j).zipIdx, p x = true := by
    rintro ⟨a, i⟩ hx
    have hget := List.mem_zipIdx_iff_getElem?.mp hx
    have hi : i < j := by
      have := (List.getElem?_eq_some_iff.mp hget).1
      rw [List.length_take] at this
      dsimp only at this
      omega
    rw [List.getElem?_take_of_lt hi] at hget
    rw [h i a hget]
    simpa using hi
  have h2 : ∀ x ∈ (l.drop j).zipIdx j, p x = false := by
    rintro ⟨a, i⟩ hx
    obtain ⟨hi, -, -⟩ := List.mem_zipIdx hx
    have hget := List.mem_zipIdx_iff_le_and_getElem?_sub.mp hx
    rw [List.getElem?_drop, show j + (i - j) = i by omega] at hget
    rw [h i a hget.2]
    simpa using hi
  rw [hsplit]
  constructor
  · rw [List.filter_append, List.filter_eq_self.mpr h1, List.filter_eq_nil_iff.mpr
      (fun x hx => by simp [h2 x hx]), List.append_nil]
  · rw [List.filter_append, List.filter_eq_nil_iff.mpr (fun x hx => by simp [h1 x hx]),
      List.filter_eq_self.mpr (fun x hx => by simp [h2 x hx]), List.nil_append, List.zipIdx_map_fst]

/-- `truncate_segments_before` when the segments it takes are the first `j`. -/
theorem truncateSegmentsBefore_run {m : ℤ} {j : ℕ} (hj : j ≤ s.segments.length)
    (hexp : ∀ i seg, s.segments[i]? = some seg → s.expired m (seg, i) = decide (i < j)) :
    CommitLog.truncateSegmentsBefore m s =
      ⟨{ s with
          folder := s.folder.performAll (deleteOps (s.segments.take j))
          segments := s.segments.drop j }, deleteOps (s.segments.take j), .ok j⟩ := by
  obtain ⟨hfil, hkept⟩ := filter_zipIdx hj hexp
  have hdel := deleteEach_eq (s.segments.take j) [] (s.segments.drop j) s (by simp)
  have hlen : (s.segments.take j).length = j := by
    rw [List.length_take]
    omega
  unfold CommitLog.truncateSegmentsBefore
  rw [read_bind, hfil, hkept, List.zipIdx_map_snd, List.length_zipIdx, hlen]
  rw [hlen] at hdel
  refine (bind_run hdel (update_pure _ _ _)).trans ?_
  rw [List.append_nil]

/-- `truncate_segments_before` drops the first segments as a whole. -/
theorem Lays.truncateSegmentsBefore (h : s.Lays sh) (m : ℤ) :
    ∃ j ≤ sh.full.length, (∀ i seg, s.segments[i]? = some seg →
        s.expired m (seg, i) = decide (i < j)) ∧
      ∃ s' ops, CommitLog.truncateSegmentsBefore m s = ⟨s', ops, .ok j⟩ ∧
      s'.Lays (sh.dropHead j) ∧ s'.segments = s.segments.drop j ∧ s'.nextOffset = s.nextOffset ∧
      s'.maxSegmentBytes = s.maxSegmentBytes ∧ s'.indexIntervalBytes = s.indexIntervalBytes := by
  obtain ⟨j, hj, hexp⟩ := h.expired m
  have hn : s.segments.length = sh.full.length + 1 := by
    have := congrArg List.length h.segments
    simpa [Shape.chunks] using this
  have hjl : (sh.full.take j).length = j := by
    rw [List.length_take]
    omega
  have hplaced : placed sh.first sh.chunks = placed sh.first (sh.full.take j) ++
      placed (sh.dropHead j).first (sh.dropHead j).chunks := by
    show _ = _ ++ placed (sh.first + (sh.full.take j).flatten.length) (sh.full.drop j ++ [sh.active])
    rw [← placed_append, ← List.append_assoc, List.take_append_drop]
    rfl
  have hsegs := h.segments
  have hfiles := h.files
  rw [hplaced, List.map_append] at hsegs hfiles
  have htake := congrArg (List.take j) hsegs
  have hdrop := congrArg (List.drop j) hsegs
  rw [← List.map_take, List.take_left' (by simp [hjl])] at htake
  rw [← List.map_drop, List.drop_left' (by simp [hjl])] at hdrop
  have hlogs : (s.folder.performAll (deleteOps (s.segments.take j))).logs = [] ++ _ :=
    deleteOps_logs_all hfiles (names_placed _ _ _ htake) (by simp [Dir.names])
  exact ⟨j, hj, hexp, _, _, truncateSegmentsBefore_run (by omega) hexp,
    ⟨h.max_pos, hdrop, hlogs⟩, rfl, rfl, rfl, rfl⟩

end CommitLog

/-! ### The abstract log -/

/-- A log as a list: timestamps and payloads from the offset `first` on. -/
structure AbstractLog where
  first : ℕ
  items : List Datum
  deriving DecidableEq, Repr

namespace AbstractLog

/-- The offset of the next record. -/
def next (a : AbstractLog) : ℕ := a.first + a.items.length

def append (a : AbstractLog) (e : Datum) : AbstractLog := { a with items := a.items ++ [e] }

/-- Only the records below `o`. -/
def truncateFrom (a : AbstractLog) (o : ℕ) : AbstractLog :=
  { a with items := a.items.take (o - a.first) }

/-- Only the records from offset `o` on. -/
def dropBefore (a : AbstractLog) (o : ℕ) : AbstractLog := ⟨o, a.items.drop (o - a.first)⟩

def get (a : AbstractLog) (o : ℤ) : Option Record :=
  if (a.first : ℤ) ≤ o then (a.items[o.toNat - a.first]?).map fun e => ⟨o.toNat, e.1, e.2⟩ else none

/-- Every record from `first` up to `next` can be read, at its own offset. -/
theorem get_isSome_iff (a : AbstractLog) (o : ℤ) :
    (a.get o).isSome ↔ (a.first : ℤ) ≤ o ∧ o < a.next := by
  unfold get next
  by_cases h : (a.first : ℤ) ≤ o
  · rw [if_pos h]
    simp [h]
    omega
  · simp [h]

theorem get_add (a : AbstractLog) (k : ℕ) :
    a.get ((a.first + k : ℕ) : ℤ) = (a.items[k]?).map fun e => ⟨a.first + k, e.1, e.2⟩ := by
  unfold get
  rw [if_pos (by push_cast; omega), Int.toNat_natCast, Nat.add_sub_cancel_left]

theorem foldl_append (es : List Datum) (a : AbstractLog) :
    es.foldl append a = { a with items := a.items ++ es } := by
  induction es generalizing a with
  | nil => simp
  | cons e es ih => simp [ih, append]

end AbstractLog

/-- A call of a `CommitLog` method, with the clock it sees. -/
inductive LogOp
  | append (payload : Bytes) (timestamp : Option ℤ) (now : ℤ)
  | appendMany (payloads : List Bytes) (timestamps : Option (List ℤ)) (now : ℤ)
  | truncateFrom (offset : ℤ)
  | truncateSegmentsBefore (minBaseOffset : ℤ)
  /-- `close`, and a new object on the same directory. -/
  | reopen

/-- What a call returns. -/
inductive LogValue
  | offset (n : ℕ)
  | offsets (l : List ℕ)
  | changed (b : Bool)
  | removed (n : ℕ)
  | opened
  deriving DecidableEq, Repr

namespace LogOp

def exec (op : LogOp) (s : CommitLog) : Outcome CommitLog FileOp LogError LogValue :=
  match op with
  | append payload timestamp now =>
    (do let n ← CommitLog.append payload timestamp now; pure (.offset n) : LogM LogValue) s
  | appendMany payloads timestamps now =>
    (do let l ← CommitLog.appendMany payloads timestamps now; pure (.offsets l) : LogM LogValue) s
  | truncateFrom offset =>
    (do let b ← CommitLog.truncateFrom offset; pure (.changed b) : LogM LogValue) s
  | truncateSegmentsBefore minBaseOffset =>
    (do let n ← CommitLog.truncateSegmentsBefore minBaseOffset; pure (.removed n) : LogM LogValue) s
  | reopen =>
    let r := CommitLog.openAt s.maxSegmentBytes s.indexIntervalBytes s.folder
    ⟨r.state, r.out, r.result.map fun _ => .opened⟩

/-- The elements of a batch, with the clock where no timestamps are given. -/
def batchData (payloads : List Bytes) (timestamps : Option (List ℤ)) (now : ℤ) : List Datum :=
  (timestamps.getD (List.replicate payloads.length now)).zip payloads

/-- The domain of the calls: payloads of at most `MAX_RECORD_BYTES`, timestamps that fit, offsets
below `2^64`, cuts not below the first segment. -/
def Admissible (s : CommitLog) : LogOp → Prop
  | append payload timestamp now =>
    payload.length ≤ maxRecordBytes ∧ FitsI64 (timestamp.getD now) ∧ s.nextOffset < 2 ^ 64
  | appendMany payloads timestamps now =>
    payloads.length ≤ (timestamps.getD (List.replicate payloads.length now)).length ∧
      (∀ e ∈ batchData payloads timestamps now, FitsI64 e.1 ∧ e.2.length ≤ maxRecordBytes) ∧
      s.nextOffset + payloads.length ≤ 2 ^ 64
  | truncateFrom offset => ∀ seg ∈ s.segments.head?, (seg.baseOffset : ℤ) ≤ offset
  | truncateSegmentsBefore _ => True
  | reopen => True

/-- What a call means for the abstract log: `a` before it, `a'` and the value after it. -/
def Means (s s' : CommitLog) (a a' : AbstractLog) (v : LogValue) : LogOp → Prop
  | append payload timestamp now =>
    v = .offset a.next ∧ a' = a.append (timestamp.getD now, payload)
  | appendMany payloads timestamps now =>
    v = .offsets (List.range' a.next payloads.length) ∧
      a' = (batchData payloads timestamps now).foldl AbstractLog.append a
  | truncateFrom offset => (∃ b, v = .changed b) ∧ a' = a.truncateFrom offset.toNat
  | truncateSegmentsBefore _ =>
    ∃ j < s.segments.length, v = .removed j ∧ s'.segments = s.segments.drop j ∧
      a.first ≤ a'.first ∧ a'.first ≤ a.next ∧ a' = a.dropBefore a'.first ∧
      s'.segments.head?.map Segment.baseOffset = some a'.first
  | reopen => v = .opened ∧ a' = a

end LogOp

/-- What can be seen of a log: `next_offset`, and `read` at every offset. -/
def Observes (s : CommitLog) (a : AbstractLog) : Prop :=
  s.nextOffset = a.next ∧ ∀ o : ℤ, s.read o = a.get o

/-- The log behaves as the abstract one along every sequence of calls. -/
def Refines : List LogOp → CommitLog → AbstractLog → Prop
  | [], s, a => Observes s a
  | op :: ops, s, a => Observes s a ∧ (op.Admissible s →
      ∃ s' a' v out, op.exec s = ⟨s', out, .ok v⟩ ∧ op.Means s s' a a' v ∧ Refines ops s' a')

/-- The log holds the records of the abstract one. -/
def Tracks (s : CommitLog) (a : AbstractLog) : Prop :=
  ∃ sh : Shape, s.Lays sh ∧ s.nextOffset = sh.stop ∧ a = ⟨sh.first, sh.data⟩

theorem Tracks.observes {s : CommitLog} {a : AbstractLog} (h : Tracks s a) : Observes s a := by
  obtain ⟨sh, hl, hn, rfl⟩ := h
  exact ⟨hn, hl.read⟩

/-- `read_range` returns the records from an offset of the log on. -/
theorem Observes.readRange {s : CommitLog} {a : AbstractLog} (h : Observes s a) : ∀ n k : ℕ,
    s.readRange ((a.first + k : ℕ) : ℤ) n =
      (records (a.first + k) (a.items.drop k)).take n
  | 0, k => by simp [CommitLog.readRange]
  | n + 1, k => by
    rw [CommitLog.readRange, h.2, AbstractLog.get_add]
    cases hk : a.items[k]? with
    | none =>
      rw [List.drop_of_length_le (List.getElem?_eq_none_iff.mp hk)]
      rfl
    | some e =>
      obtain ⟨hlt, he⟩ := List.getElem?_eq_some_iff.mp hk
      have hnext : (((a.first + k : ℕ) : ℤ) + 1) = ((a.first + (k + 1) : ℕ) : ℤ) := by
        push_cast
        omega
      rw [List.drop_eq_getElem_cons hlt, he, records_cons, List.take_succ_cons]
      show (⟨a.first + k, e.1, e.2⟩ : Record) :: s.readRange _ n = _
      rw [hnext, h.readRange n (k + 1)]
      rfl

theorem Observes.readRange_first {s : CommitLog} {a : AbstractLog} (h : Observes s a) (n : ℕ) :
    (s.readRange a.first n).map some =
      ((List.range' a.first (s.nextOffset - a.first)).take n).map fun x : ℕ => s.read x := by
  have hrun := h.readRange n 0
  rw [Nat.add_zero, List.drop_zero] at hrun
  have hlen : s.nextOffset - a.first = a.items.length := by
    rw [h.1, AbstractLog.next]
    omega
  rw [hrun, hlen, List.map_take, List.map_take]
  congr 1
  apply List.ext_getElem?
  intro k
  rw [List.getElem?_map, List.getElem?_map, getElem?_records]
  rcases Nat.lt_or_ge k a.items.length with hk | hk
  · rw [List.getElem?_range' hk, Option.map_some, h.2, Nat.one_mul, a.get_add,
      List.getElem?_eq_getElem hk]
    rfl
  · rw [List.getElem?_eq_none hk, List.getElem?_eq_none (by simpa using hk)]
    rfl

theorem fits_of_mem {b : ℕ} {es : List Datum} (hb : b + es.length ≤ 2 ^ 64)
    (he : ∀ e ∈ es, FitsI64 e.1 ∧ e.2.length ≤ maxRecordBytes) : ∀ r ∈ records b es, r.Fits := by
  intro r hr
  obtain ⟨h1, h2⟩ := he _ (Segment.datum_of_mem_records hr)
  have := (Segment.mem_records hr).2
  exact ⟨by omega, h1, h2⟩

theorem CommitLog.Lays.head {s : CommitLog} {sh : Shape} (h : s.Lays sh) :
    s.segments.head?.map Segment.baseOffset = some sh.first := by
  have hb := h.bases
  obtain ⟨c, cs, hc⟩ : ∃ c cs, sh.chunks = c :: cs :=
    List.exists_cons_of_ne_nil (by simp [Shape.chunks])
  rw [hc, placed, List.map_cons] at hb
  obtain ⟨seg, segs, hs, h1, -⟩ := List.map_eq_cons_iff.mp hb
  rw [hs]
  simpa using h1

theorem Tracks.head {s : CommitLog} {a : AbstractLog} (h : Tracks s a) :
    s.segments.head?.map Segment.baseOffset = some a.first := by
  obtain ⟨sh, hl, hn, rfl⟩ := h
  exact hl.head

theorem LogOp.length_batchData {payloads : List Bytes} {timestamps : Option (List ℤ)} {now : ℤ}
    (h : payloads.length ≤ (timestamps.getD (List.replicate payloads.length now)).length) :
    (batchData payloads timestamps now).length = payloads.length := by
  unfold batchData
  rw [List.length_zip]
  omega

namespace Tracks

variable {s : CommitLog} {a : AbstractLog}

theorem append (h : Tracks s a) {payload : Bytes} {timestamp : Option ℤ} {now : ℤ}
    (hop : (LogOp.append payload timestamp now).Admissible s) :
    ∃ s' out, CommitLog.append payload timestamp now s = ⟨s', out, .ok a.next⟩ ∧
      Tracks s' (a.append (timestamp.getD now, payload)) := by
  obtain ⟨sh, hl, hn, rfl⟩ := h
  obtain ⟨h1, h2, h3⟩ := hop
  obtain ⟨s', sh', ops, hrun, happ⟩ := hl.append hn payload timestamp now
    (fits_of_mem (by rw [List.length_singleton]; omega) (by simp [h1, h2]))
  refine ⟨_, _, hrun, sh', ?_, happ.stop.symm, ?_⟩
  · exact ⟨happ.lays.max_pos, happ.lays.segments, happ.lays.files⟩
  · rw [happ.first, happ.data]
    rfl

/-- An `append` of a payload that is not too long either writes the record or raises and keeps the
records there are. -/
theorem append_cases (h : Tracks s a) {payload : Bytes} (hp : payload.length ≤ maxRecordBytes)
    (timestamp : Option ℤ) (now : ℤ) :
    (∃ s' out, CommitLog.append payload timestamp now s = ⟨s', out, .ok a.next⟩ ∧
      Tracks s' (a.append (timestamp.getD now, payload))) ∨
    ∃ s' out, CommitLog.append payload timestamp now s = ⟨s', out, .error .structError⟩ ∧
      Tracks s' a := by
  by_cases hop : (LogOp.append payload timestamp now).Admissible s
  · exact .inl (h.append hop)
  · obtain ⟨sh, hl, hn, rfl⟩ := h
    have he : encodeRecord sh.stop payload (timestamp.getD now) = .error .structError := by
      unfold encodeRecord
      rw [if_neg]
      rintro ⟨-, ho, ht⟩
      exact hop ⟨hp, ht, by rw [hn]; exact ho⟩
    obtain ⟨s', sh', ops, hrun, happ, -⟩ := hl.append_refused hn he
    refine .inr ⟨s', ops, hrun, sh', happ.lays, ?_, ?_⟩
    · rw [happ.ran.next, hn]
      exact happ.stop.symm
    · rw [happ.first, happ.data, List.append_nil]

theorem appendMany (h : Tracks s a) {payloads : List Bytes} {timestamps : Option (List ℤ)} {now : ℤ}
    (hop : (LogOp.appendMany payloads timestamps now).Admissible s) :
    ∃ s' out, CommitLog.appendMany payloads timestamps now s =
        ⟨s', out, .ok (List.range' a.next payloads.length)⟩ ∧
      Tracks s' ⟨a.first, a.items ++ LogOp.batchData payloads timestamps now⟩ := by
  obtain ⟨sh, hl, hn, rfl⟩ := h
  obtain ⟨h1, h2, h3⟩ := hop
  have hlen := LogOp.length_batchData h1
  obtain ⟨s', sh', ops, hrun, happ⟩ := hl.appendMany hn payloads timestamps now h1
    (fits_of_mem (by rw [← LogOp.batchData, hlen]; omega) h2)
  refine ⟨_, _, hrun, sh', ?_, ?_, ?_⟩
  · exact ⟨happ.lays.max_pos, happ.lays.segments, happ.lays.files⟩
  · have hstop := happ.stop
    rw [← LogOp.batchData, hlen] at hstop
    exact hstop.symm
  · rw [happ.first, happ.data]
    rfl

theorem truncateFrom (h : Tracks s a) {o : ℕ} (ho : a.first ≤ o) :
    ∃ s' changed out, CommitLog.truncateFrom (o : ℤ) s = ⟨s', out, .ok changed⟩ ∧
      Tracks s' (a.truncateFrom o) := by
  obtain ⟨sh, hl, hn, rfl⟩ := h
  obtain ⟨s', sh', changed, ops, hrun, hl', h1, h2, h3, -, -⟩ := hl.truncateFrom ho
  refine ⟨s', changed, ops, hrun, sh', hl', h3, ?_⟩
  rw [h1, h2]
  rfl

/-- The first segments go as a whole, the others keep their records. -/
theorem truncateSegmentsBefore (h : Tracks s a) (m : ℤ) :
    ∃ j s' a' out, CommitLog.truncateSegmentsBefore m s = ⟨s', out, .ok j⟩ ∧ Tracks s' a' ∧
      j < s.segments.length ∧ s'.segments = s.segments.drop j ∧
      (∀ i seg, s.segments[i]? = some seg → s.expired m (seg, i) = decide (i < j)) ∧
      a.first ≤ a'.first ∧ a'.first ≤ a.next ∧ a' = a.dropBefore a'.first := by
  obtain ⟨sh, hl, hn, rfl⟩ := h
  obtain ⟨j, hj, hexp, s', ops, hrun, hl', hsegs, hnext, -, -⟩ := hl.truncateSegmentsBefore m
  have hn' : s.segments.length = sh.full.length + 1 := by
    have := congrArg List.length hl.segments
    simpa [Shape.chunks] using this
  have hstop := sh.dropHead_stop j
  refine ⟨j, s', ⟨(sh.dropHead j).first, (sh.dropHead j).data⟩, ops, hrun,
    ⟨sh.dropHead j, hl', ?_, rfl⟩, by omega, hsegs, hexp, ?_, ?_, ?_⟩
  · rw [hnext, hn, hstop]
  · show sh.first ≤ sh.first + _
    omega
  · unfold Shape.stop at hstop
    show (sh.dropHead j).first ≤ sh.first + sh.data.length
    omega
  · unfold AbstractLog.dropBefore
    rw [sh.dropHead_data]
    show _ = AbstractLog.mk _ (sh.data.drop (sh.first + _ - sh.first))
    rw [Nat.add_sub_cancel_left]

/-- The directory of the log opens as the same records, with any configuration. -/
theorem openAt (h : Tracks s a) (maxSegmentBytes interval : ℕ) :
    ∃ s' out, CommitLog.openAt maxSegmentBytes interval s.folder = ⟨s', out, .ok ()⟩ ∧
      Tracks s' a := by
  obtain ⟨sh, hl, hn, rfl⟩ := h
  obtain ⟨s', out, hrun, hl', -, hn', -, -, -⟩ := CommitLog.openAt_eq maxSegmentBytes interval
    hl.holds (.inl readRecord_nil)
  exact ⟨s', out, hrun, sh, hl', hn', rfl⟩

/-- A cut at or above the first segment. -/
theorem first_le (h : Tracks s a) {offset : ℤ} (hop : (LogOp.truncateFrom offset).Admissible s) :
    (a.first : ℤ) ≤ offset := by
  obtain ⟨sh, hl, hn, rfl⟩ := h
  have hhead := hl.head
  cases hs : s.segments.head? with
  | none =>
    rw [hs] at hhead
    cases hhead
  | some seg =>
    rw [hs] at hhead
    have := hop seg hs
    dsimp only
    rw [← Option.some.inj hhead]
    exact this

/-- Every admissible call takes the abstract step, and returns its value. -/
theorem step (h : Tracks s a) {op : LogOp} (hop : op.Admissible s) :
    ∃ s' a' v out, op.exec s = ⟨s', out, .ok v⟩ ∧ op.Means s s' a a' v ∧ Tracks s' a' := by
  cases op with
  | append payload timestamp now =>
    obtain ⟨s', out, hrun, h'⟩ := h.append hop
    exact ⟨s', _, _, _, bind_run hrun (pure_eq _ _), ⟨rfl, rfl⟩, h'⟩
  | appendMany payloads timestamps now =>
    obtain ⟨s', out, hrun, h'⟩ := h.appendMany hop
    refine ⟨s', _, _, _, bind_run hrun (pure_eq _ _), ⟨rfl, rfl⟩, ?_⟩
    rwa [AbstractLog.foldl_append]
  | truncateFrom offset =>
    have hfirst := h.first_le hop
    obtain ⟨o, rfl⟩ := Int.eq_ofNat_of_zero_le (le_trans (Int.natCast_nonneg _) hfirst)
    obtain ⟨s', changed, out, hrun, h'⟩ := h.truncateFrom (by exact_mod_cast hfirst : a.first ≤ o)
    exact ⟨s', _, _, _, bind_run hrun (pure_eq _ _), ⟨⟨changed, rfl⟩, rfl⟩, h'⟩
  | truncateSegmentsBefore m =>
    obtain ⟨j, s', a', ops, hrun, h', hj, hsegs, -, h1, h2, h3⟩ := h.truncateSegmentsBefore m
    exact ⟨s', a', _, _, bind_run hrun (pure_eq _ _), ⟨j, hj, rfl, hsegs, h1, h2, h3, h'.head⟩, h'⟩
  | reopen =>
    obtain ⟨s', out, hrun, h'⟩ := h.openAt s.maxSegmentBytes s.indexIntervalBytes
    refine ⟨s', _, .opened, out, ?_, ⟨rfl, rfl⟩, h'⟩
    unfold LogOp.exec
    dsimp only
    rw [hrun]
    rfl

end Tracks

/-- What the calls preserve, they preserve along every sequence. -/
theorem Tracks.refines : ∀ (ops : List LogOp) {s : CommitLog} {a : AbstractLog}, Tracks s a →
    Refines ops s a
  | [], _, _, h => h.observes
  | op :: ops, s, a, h => by
    refine ⟨h.observes, ?_⟩
    intro hop
    obtain ⟨s', a', v, out, hrun, hm, h'⟩ := h.step hop
    exact ⟨s', a', v, out, hrun, hm, h'.refines ops⟩

/-- From the empty directory on, every sequence of calls behaves as the abstract log. -/
theorem commitLog_refines (maxSegmentBytes indexIntervalBytes : ℕ) (ops : List LogOp) :
    ∃ s out, CommitLog.openAt maxSegmentBytes indexIntervalBytes {} = ⟨s, out, .ok ()⟩ ∧
      Refines ops s ⟨0, []⟩ := by
  obtain ⟨s, out, hrun, hl, hn, -, -⟩ := CommitLog.openAt_nil maxSegmentBytes indexIntervalBytes
  refine ⟨s, out, hrun, Tracks.refines ops ⟨CommitLog.emptyShape, hl, hn, rfl⟩⟩

end Pylog.Log
