import Pylog.Log.Rolling

/-!
# The maintained index is the rebuilt one

The sparse index of a segment is kept by `append`, by the loop of `append_many` and by the replay of
`recover`, and filtered by `truncate_from`.  All of them leave `(Segment.new b interval).fill rs`,
so the fields are those that `recover` computes from the file (`signposted_of_intact`).
-/

namespace Pylog.Log

open Effect Effect.Handler Files Framing Transition CommitLog

namespace Segment

/-- Any two entries of the index are at least the interval apart. -/
theorem spaced_fill (b interval : ℕ) (es : List Datum) :
    ((new b interval).fill (records b es)).index.Pairwise
      fun e e' => e.2 + max 1 interval ≤ e'.2 := by
  induction es using List.reverseRecOn with
  | nil => exact List.Pairwise.nil
  | append_singleton es e ih =>
    rw [fill_concat]
    have hlast := fill_lastIndexed (records b es) (new b interval) rfl
    have hint := fill_interval (records b es) (new b interval)
    generalize (new b interval).fill (records b es) = acc at ih hlast hint ⊢
    by_cases h : acc.indexes acc.size
    · unfold add
      rw [note_pos h, List.pairwise_append]
      refine ⟨ih, List.pairwise_singleton _ _, ?_⟩
      intro x hx y hy
      rw [List.mem_singleton.mp hy]
      dsimp only
      -- the last entry is an interval below the new one, the others are below the last
      have hne : acc.index ≠ [] := List.ne_nil_of_mem hx
      have hgap := h.resolve_left hne
      obtain ⟨init, l, hl⟩ := (List.eq_nil_or_concat acc.index).resolve_left hne
      rw [List.concat_eq_append] at hl
      rw [hlast, hint, hl, lastPosition, List.getLast?_concat] at hgap
      have hnew : (new b interval).indexIntervalBytes = max 1 interval := rfl
      rw [hnew] at hgap
      dsimp only at hgap
      have hle : x.2 ≤ l.2 := by
        rw [hl] at hx ih
        rcases List.mem_append.mp hx with hx | hx
        · have := (List.pairwise_append.mp ih).2.2 x hx l (List.mem_singleton_self l)
          omega
        · rw [List.mem_singleton.mp hx]
      omega
    · unfold add
      rw [note_neg h]
      exact ih

/-- `recover` starts from the base and the interval of the segment alone. -/
theorem Holds.recover_new {seg : Segment} {interval b : ℕ} {es : List Datum}
    (h : seg.Holds interval b es) (d : Folder) :
    recover (d, seg) = recover (d, new b interval) := by
  obtain ⟨base, interval', index, size, last, ts, next⟩ := seg
  obtain rfl : base = b := h.baseOffset
  obtain rfl : interval' = max 1 interval := h.indexInterval
  rfl

theorem Holds.lastIndexedPosition {seg : Segment} {interval b : ℕ} {es : List Datum}
    (h : seg.Holds interval b es) : seg.lastIndexedPosition =
      ((new b interval).fill (records b es)).lastIndexedPosition :=
  (congrArg Segment.lastIndexedPosition h.fields :)

end Segment

/-- In every segment: the maintained fields are those that `recover` computes from the file, the
index ascends in both components, every entry's position is where a scan from the start of the file
finds the record of that relative offset, and the positions are an interval apart. -/
structure CommitLog.Signposted (s : CommitLog) : Prop where
  rebuilt : ∀ seg ∈ s.segments, ∃ d seg' out n,
    Segment.recover (s.folder, seg) = ⟨(d, seg'), out, .ok n⟩ ∧ seg'.index = seg.index ∧
      seg'.lastIndexedPosition = seg.lastIndexedPosition ∧ seg'.size = seg.size ∧
      seg'.nextOffset = seg.nextOffset
  ascending : ∀ seg ∈ s.segments, (seg.index.map Prod.fst).Pairwise (· < ·) ∧
    (seg.index.map Prod.snd).Pairwise (· < ·)
  starts : ∀ seg ∈ s.segments, ∀ e ∈ seg.index, ∃ (k : ℕ) (rec : Record), e.1 = k ∧
    Segment.scan (seg.baseOffset + k)
      (((s.folder.logs.get seg.baseOffset).getD []).length + 1)
      ((s.folder.logs.get seg.baseOffset).getD []) 0 = some (e.2, rec)
  spaced : ∀ seg ∈ s.segments, seg.index.Pairwise fun e e' => e.2 + s.indexIntervalBytes ≤ e'.2

theorem Tracks.signposted {s : CommitLog} {a : AbstractLog} (h : Tracks s a) : s.Signposted := by
  obtain ⟨sh, hl, -, -⟩ := h
  refine ⟨?_, ?_, ?_, ?_⟩
  · intro seg hseg
    obtain ⟨p, hp, hholds⟩ := hl.place hseg
    have htakes : Segment.Takes p.1 (records p.1 p.2) :=
      fun r hr => ⟨hl.fits_place hp r hr, (Segment.mem_records hr).1⟩
    have hget := hl.get_file hp
    rw [← List.append_nil (encodeAll (records p.1 p.2))] at hget
    obtain ⟨ops, -, hrun⟩ := Segment.recover_eq s.indexIntervalBytes hget htakes
      (.inl readRecord_nil)
    refine ⟨_, _, ops, _, (hholds.recover_new s.folder).trans hrun, hholds.index.symm,
      hholds.lastIndexedPosition.symm, ?_, ?_⟩
    · rw [hholds.size, Segment.fill_size]
      simp [Segment.new]
    · rw [hholds.nextOffset, Segment.fill_nextOffset p.2 p.1 (Segment.new _ _) rfl]
  · intro seg hseg
    obtain ⟨p, hp, hholds⟩ := hl.place hseg
    refine ⟨hholds.indexed.sorted, List.pairwise_map.mpr ?_⟩
    rw [hholds.index]
    refine (Segment.spaced_fill _ _ _).imp ?_
    intro e e' hle
    have := Nat.le_max_left 1 s.indexIntervalBytes
    omega
  · intro seg hseg e he
    obtain ⟨p, hp, hholds⟩ := hl.place hseg
    obtain ⟨k, hk, h1, h2⟩ := hholds.indexed.entry e he
    have hlen := length_le_encodeAll (records p.1 p.2)
    rw [length_records] at hlen
    have hscan := Segment.scan_spec [] p.2 p.1 k 0 ((encodeAll (records p.1 p.2)).length + 1)
      (hl.fits_place hp) (List.getElem?_eq_getElem hk) (by omega)
    rw [List.append_nil, Nat.zero_add, ← h2] at hscan
    rw [hholds.baseOffset, hl.get_file hp, Option.getD_some]
    exact ⟨k, _, h1, hscan⟩
  · intro seg hseg
    obtain ⟨p, hp, hholds⟩ := hl.place hseg
    rw [hholds.index]
    refine (Segment.spaced_fill _ _ _).imp ?_
    intro e e' hle
    have := Nat.le_max_right 1 s.indexIntervalBytes
    omega

/-- After every run of intact calls. -/
theorem signposted_of_intact {maxSegmentBytes interval : ℕ} {s : CommitLog}
    (hs : Reach LogOp.after LogOp.Intact (CommitLog.openAt maxSegmentBytes interval {}).state s) :
    s.Signposted := by
  obtain ⟨a, h⟩ := tracks_of_intact hs
  exact h.signposted

/-- Two appends with an interval of 40 bytes. -/
theorem signposted_two_appends :
    ((LogOp.append [8] (some 5) 0).after ((LogOp.append [7] (some 5) 0).after
      (CommitLog.openAt 64 40 {}).state)).Signposted := by
  have hone : ∀ b : UInt8, [b].length ≤ maxRecordBytes := fun b => by
    show 1 ≤ maxRecordBytes
    decide
  exact signposted_of_intact (.step (.step .refl ⟨hone 7, trivial⟩) ⟨hone 8, trivial⟩)

/-- After an `append_many` that raised behind its first blob, the next `append` leaves an entry with
a negative relative offset. -/
theorem append_misindexed :
    ¬ ((LogOp.append [7] (some 5) 0).after
      ((LogOp.appendMany [[1], [2], [3]] (some [5, 5]) 0).after
        (CommitLog.openAt 40 1 {}).state)).Signposted := by
  intro h
  have hentry : ∃ seg ∈ ((LogOp.append [7] (some 5) 0).after
      ((LogOp.appendMany [[1], [2], [3]] (some [5, 5]) 0).after
        (CommitLog.openAt 40 1 {}).state)).segments, (-1, 0) ∈ seg.index := by
    decide +kernel
  obtain ⟨seg, hseg, hmem⟩ := hentry
  obtain ⟨k, -, hk, -⟩ := h.starts seg hseg _ hmem
  dsimp only at hk
  omega

end Pylog.Log
