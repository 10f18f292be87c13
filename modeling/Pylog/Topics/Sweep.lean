import Mathlib.Data.List.TakeDrop
import Mathlib.Order.Bounds.Basic
import Pylog.Topics.Retention

/-!
# What a retention sweep removes

A policy asks to remove the leading segments that are too old, and then as few further ones as bring
the rest within the byte budget.  The age rule removes what the policy asks for
(`sweepAge_run`).  A round of the byte rule passes `segments[1].base_offset + 1` on, and so removes
two segments, while it counts one; `sweep_obeys_iff` says when no harm is done.
-/

namespace Pylog.Topics

open Effect Effect.Handler Files Log Transition

/-- The segments of a partition are in the order of their offsets, the sealed ones hold records, and
a file name is there once. -/
structure Partition.Ordered (p : Partition) : Prop where
  bases : p.segments.Pairwise fun x y => x.baseOffset < y.baseOffset
  sealed : ∀ seg ∈ p.segments.dropLast, seg.isEmpty = false
  names : p.folder.logs.names.Nodup

/-- The partition without its first `j` segments and their files. -/
def Partition.dropped (p : Partition) (j : ℕ) : Partition :=
  { p with
    folder := p.folder.performAll (CommitLog.deleteOps (p.segments.take j))
    segments := p.segments.drop j }

/-- `p'` is `p` without its first `j` segments; the others and their files are as before. -/
structure Partition.Lost (p p' : Partition) (j : ℕ) : Prop where
  segments : p'.segments = p.segments.drop j
  files : ∀ seg ∈ p'.segments,
    p'.folder.logs.get seg.baseOffset = p.folder.logs.get seg.baseOffset ∧
      p'.folder.indexes.get seg.baseOffset = p.folder.indexes.get seg.baseOffset
  records : ∀ seg ∈ p'.segments, ∀ o, seg.read p'.folder o = seg.read p.folder o
  gone : ∀ seg ∈ p.segments.take j, p'.folder.logs.get seg.baseOffset = none
  next : p'.nextOffset = p.nextOffset
  max : p'.maxSegmentBytes = p.maxSegmentBytes
  interval : p'.indexIntervalBytes = p.indexIntervalBytes

/-! ### Policies -/

/-- The arguments of a sweep. -/
structure Policy where
  nowMs : ℤ
  maxAgeMs : Option ℤ
  maxTotalBytes : Option ℤ
  deriving DecidableEq, Repr

namespace Policy

variable (π : Policy)

def tooOld (seg : Segment) : Bool :=
  π.maxAgeMs.any fun age => decide (age < π.nowMs - seg.maxTimestamp)

/-- The length of the longest run of leading sealed segments that are too old. -/
def aged (p : Partition) : ℕ := (p.segments.dropLast.takeWhile π.tooOld).length

/-- Only the active segment is left, or few enough bytes. -/
def Fits (segs : List Segment) : Prop :=
  segs.length ≤ 1 ∨ ∀ n ∈ π.maxTotalBytes, (((segs.map Segment.size).sum : ℕ) : ℤ) ≤ n

/-- The policy asks to remove the first `j` segments. -/
def Asks (p : Partition) (j : ℕ) : Prop :=
  ∃ k, IsLeast {k | π.Fits (p.segments.drop (π.aged p + k))} k ∧ j = π.aged p + k

/-- The sweep removes what the policy asks for, nothing else, and returns how many it removed. -/
def Obeyed (p : Partition) : Prop :=
  ∃ p' out j, Partition.retentionSweep π.nowMs π.maxAgeMs π.maxTotalBytes p = ⟨p', out, .ok j⟩ ∧
    π.Asks p j ∧ Partition.Lost p p' j

end Policy

/-! ### Dropping segments -/

section Drop

variable {p : Partition}

@[simp] theorem dropped_segments (p : Partition) (j : ℕ) :
    (Partition.dropped p j).segments = p.segments.drop j := rfl

@[simp] theorem dropped_zero (p : Partition) : Partition.dropped p 0 = p := by
  simp [Partition.dropped, CommitLog.deleteOps]

theorem dropped_dropped (p : Partition) (i j : ℕ) :
    Partition.dropped (Partition.dropped p i) j = Partition.dropped p (i + j) := by
  unfold Partition.dropped
  rw [List.take_add, CommitLog.deleteOps_append, Folder.performAll_append, List.drop_drop]

theorem Partition.Ordered.dropped (h : Partition.Ordered p) (j : ℕ) :
    Partition.Ordered (Partition.dropped p j) where
  bases := h.bases.sublist (List.drop_sublist _ _)
  sealed := by
    intro seg hseg
    rw [dropped_segments, List.dropLast_drop_eq_drop_dropLast] at hseg
    exact h.sealed seg (List.mem_of_mem_drop hseg)
  names := h.names.sublist (CommitLog.names_deleteOps_sublist _ _)

/-- The dropped segments have other file names than those kept. -/
theorem Partition.Ordered.lost (h : Partition.Ordered p) (j : ℕ) :
    Partition.Lost p (Partition.dropped p j) j := by
  have hne : ∀ seg ∈ p.segments.drop j, ∀ x ∈ p.segments.take j, x.baseOffset ≠ seg.baseOffset := by
    intro seg hseg x hx
    have hb := h.bases
    rw [← List.take_append_drop j p.segments, List.pairwise_append] at hb
    exact (hb.2.2 x hx seg hseg).ne
  have hfiles := fun seg hseg => CommitLog.get_deleteOps (p.segments.take j) p.folder (hne seg hseg)
  refine ⟨rfl, hfiles, ?_, ?_, rfl, rfl, rfl⟩
  · intro seg hseg o
    unfold Segment.read
    rw [show (Partition.dropped p j).folder.logs.get seg.baseOffset = _ from (hfiles seg hseg).1]
  · intro seg hseg
    exact Dir.get_eq_none (CommitLog.notMem_names_deleteOps h.names seg hseg)

/-- A cut behind the base of a segment takes the segments up to it, but never the active one. -/
theorem Partition.Ordered.truncate (h : Partition.Ordered p) {e : ℕ} {seg : Segment}
    (he : p.segments[e]? = some seg) :
    ∃ out, CommitLog.truncateSegmentsBefore (seg.baseOffset + 1) p =
      ⟨Partition.dropped p (min (e + 1) (p.segments.length - 1)), out,
        .ok (min (e + 1) (p.segments.length - 1))⟩ := by
  refine ⟨_, CommitLog.truncateSegmentsBefore_run (by omega) ?_⟩
  intro i x hi
  obtain ⟨he', rfl⟩ := List.getElem?_eq_some_iff.mp he
  obtain ⟨hi', rfl⟩ := List.getElem?_eq_some_iff.mp hi
  have hsorted := List.pairwise_iff_getElem.mp h.bases
  refine decide_eq_decide.mpr ?_
  rw [Nat.lt_min]
  refine and_congr_left ?_
  intro hlast
  have hmem : p.segments[i] ∈ p.segments.dropLast := by
    rw [List.mem_iff_getElem]
    exact ⟨i, by rw [List.length_dropLast]; exact hlast, by rw [List.getElem_dropLast]⟩
  rw [h.sealed _ hmem]
  simp only [Bool.false_eq_true, false_or]
  rcases Nat.lt_trichotomy i e with hlt | rfl | hgt
  · have := hsorted i e hi' he' hlt
    omega
  · omega
  · have := hsorted e i he' hi' hgt
    omega

end Drop

/-! ### The two rules -/

section Rules

variable {p : Partition}

/-- The age rule removes the longest run of leading segments that are too old. -/
theorem sweepAge_run (h : Partition.Ordered p) (π : Policy) :
    ∃ out, Partition.sweepAge π.nowMs π.maxAgeMs p =
      ⟨Partition.dropped p (π.aged p), out, .ok (π.aged p)⟩ := by
  have hthrough : Partition.expiredThrough p π.nowMs π.maxAgeMs =
      (p.segments.dropLast.takeWhile π.tooOld).getLast? := by
    unfold Partition.expiredThrough Policy.tooOld
    cases π.maxAgeMs <;> rfl
  have hle : π.aged p ≤ p.segments.length - 1 := by
    rw [← List.length_dropLast]
    exact (List.takeWhile_prefix _).length_le
  have haged : (p.segments.dropLast.takeWhile π.tooOld).length = π.aged p := rfl
  unfold Partition.sweepAge
  rw [read_bind, hthrough, List.getLast?_eq_getElem?, haged]
  cases hget : (p.segments.dropLast.takeWhile π.tooOld)[π.aged p - 1]? with
  | none =>
    have hzero : π.aged p = 0 := by
      have := List.getElem?_eq_none_iff.mp hget
      unfold Policy.aged at this ⊢
      omega
    rw [hzero, dropped_zero]
    exact ⟨[], rfl⟩
  | some seg =>
    obtain ⟨hpos, rfl⟩ := List.getElem?_eq_some_iff.mp hget
    have hpre := (List.takeWhile_prefix π.tooOld).trans (List.dropLast_prefix p.segments)
    have hseg := List.prefix_iff_getElem?.mp hpre (π.aged p - 1) hpos
    obtain ⟨out, hrun⟩ := h.truncate hseg
    have hlt : π.aged p - 1 < π.aged p := hpos
    rw [show min (π.aged p - 1 + 1) (p.segments.length - 1) = π.aged p by omega] at hrun
    exact ⟨out, hrun⟩

theorem sweepBytes_fits {n : ℤ} (hfits : p.segments.length ≤ 1 ∨
    (((p.segments.map Segment.size).sum : ℕ) : ℤ) ≤ n) (fuel : ℕ) :
    Partition.sweepBytes n fuel p = ⟨p, [], .ok 0⟩ := by
  cases fuel with
  | zero => rfl
  | succ fuel =>
    unfold Partition.sweepBytes
    rw [read_bind]
    rcases hs : p.segments with _ | ⟨x, _ | ⟨y, zs⟩⟩
    · rfl
    · rfl
    · rw [hs] at hfits
      exact congrFun (if_pos (hfits.resolve_left (by simp))) p

/-- A round above the budget takes two segments, or the only sealed one. -/
theorem sweepBytes_round (h : Partition.Ordered p) {n : ℤ} (hlen : 2 ≤ p.segments.length)
    (hover : n < (((p.segments.map Segment.size).sum : ℕ) : ℤ)) (fuel : ℕ) {m : ℕ}
    {p' : Partition} {out : List FileOp}
    (hrest : Partition.sweepBytes n fuel
      (Partition.dropped p (min 2 (p.segments.length - 1))) = ⟨p', out, .ok m⟩) :
    ∃ out', Partition.sweepBytes n (fuel + 1) p = ⟨p', out', .ok (m + 1)⟩ := by
  rcases hs : p.segments with _ | ⟨x, _ | ⟨y, zs⟩⟩
  · simp [hs] at hlen
  · simp [hs] at hlen
  · have hy : p.segments[1]? = some y := by rw [hs]; rfl
    obtain ⟨out₁, hrun⟩ := h.truncate hy
    unfold Partition.sweepBytes
    rw [read_bind, hs]
    rw [hs] at hover
    dsimp only
    rw [if_neg (not_le.mpr hover)]
    exact ⟨_, bind_run hrun (bind_run hrest (pure_eq _ _))⟩

/-- The byte rule never counts more segments than it removes, and leaves the active one. -/
theorem sweepBytes_run (n : ℤ) : ∀ (fuel : ℕ) {p : Partition}, Partition.Ordered p →
    ∃ m j out, Partition.sweepBytes n fuel p = ⟨Partition.dropped p j, out, .ok m⟩ ∧ m ≤ j ∧
      j ≤ p.segments.length - 1
  | 0, p, _ => ⟨0, 0, [], by rw [dropped_zero]; rfl, le_rfl, Nat.zero_le _⟩
  | fuel + 1, p, h => by
    by_cases hfits : p.segments.length ≤ 1 ∨ (((p.segments.map Segment.size).sum : ℕ) : ℤ) ≤ n
    · exact ⟨0, 0, [], by rw [dropped_zero, sweepBytes_fits hfits], le_rfl, Nat.zero_le _⟩
    · rw [not_or, not_le, not_le] at hfits
      obtain ⟨m, j, out, hrun, hm, hj⟩ := sweepBytes_run n fuel
        (h.dropped (min 2 (p.segments.length - 1)))
      obtain ⟨out', hround⟩ := sweepBytes_round h hfits.1 hfits.2 fuel hrun
      rw [dropped_dropped] at hround
      rw [dropped_segments, List.length_drop] at hj
      exact ⟨m + 1, _, out', hround, by omega, by omega⟩

/-- Both rules: what is removed, and what is counted. -/
theorem retentionSweep_run (h : Partition.Ordered p) (π : Policy) {m j : ℕ} {out : List FileOp}
    (htotal : Partition.sweepTotal π.maxTotalBytes (Partition.dropped p (π.aged p)) =
      ⟨Partition.dropped (Partition.dropped p (π.aged p)) j, out, .ok m⟩) :
    ∃ out', Partition.retentionSweep π.nowMs π.maxAgeMs π.maxTotalBytes p =
      ⟨Partition.dropped p (π.aged p + j), out', .ok (π.aged p + m)⟩ := by
  obtain ⟨out₁, hage⟩ := sweepAge_run h π
  rw [dropped_dropped] at htotal
  exact ⟨_, bind_run hage (bind_run htotal (pure_eq _ _))⟩

theorem sweepTotal_fits {π : Policy} (hfits : π.Fits p.segments) :
    Partition.sweepTotal π.maxTotalBytes p = ⟨Partition.dropped p 0, [], .ok 0⟩ := by
  rw [dropped_zero]
  unfold Partition.sweepTotal
  rw [read_bind]
  match hn : π.maxTotalBytes with
  | none => rfl
  | some n => exact sweepBytes_fits (hfits.imp_right fun hall => hall n hn) _

/-- With two segments left the sealed one goes, and is counted. -/
theorem sweepTotal_two (h : Partition.Ordered p) {π : Policy} (hlen : p.segments.length = 2)
    (hfits : ¬ π.Fits p.segments) :
    ∃ out, Partition.sweepTotal π.maxTotalBytes p = ⟨Partition.dropped p 1, out, .ok 1⟩ := by
  unfold Policy.Fits at hfits
  push Not at hfits
  obtain ⟨-, n, hn, hover⟩ := hfits
  unfold Partition.sweepTotal
  rw [read_bind, show π.maxTotalBytes = some n from hn, hlen]
  have hrest := sweepBytes_fits (p := Partition.dropped p 1) (n := n)
    (.inl (by rw [dropped_segments, List.length_drop]; omega)) 1
  exact sweepBytes_round h hlen.ge hover 1 (by rw [hlen]; exact hrest)

/-- With more segments left the sweep removes one that it does not count. -/
theorem sweepTotal_many (h : Partition.Ordered p) {π : Policy} (hlen : 2 < p.segments.length)
    (hfits : ¬ π.Fits p.segments) :
    ∃ m j out, Partition.sweepTotal π.maxTotalBytes p = ⟨Partition.dropped p j, out, .ok m⟩ ∧
      m < j ∧ j ≤ p.segments.length - 1 := by
  unfold Policy.Fits at hfits
  push Not at hfits
  obtain ⟨-, n, hn, hover⟩ := hfits
  obtain ⟨fuel, hfuel⟩ := Nat.exists_eq_add_of_lt hlen
  obtain ⟨m, j, out, hrun, hm, hj⟩ := sweepBytes_run n (2 + fuel)
    (h.dropped (min 2 (p.segments.length - 1)))
  obtain ⟨out', hround⟩ := sweepBytes_round h hlen.le hover (2 + fuel) hrun
  rw [dropped_dropped] at hround
  rw [dropped_segments, List.length_drop] at hj
  refine ⟨m + 1, min 2 (p.segments.length - 1) + j, out', ?_, by omega, by omega⟩
  unfold Partition.sweepTotal
  rw [read_bind, show π.maxTotalBytes = some n from hn]
  rwa [← hfuel] at hround

end Rules

theorem ordered_of_tracks {p : Partition} {a : AbstractLog} (h : Tracks p a) :
    Partition.Ordered p := by
  obtain ⟨sh, hl, -, -⟩ := h
  have hb := hl.bases
  refine ⟨?_, ?_, ?_⟩
  · have hsorted : ((placed sh.first sh.chunks).map fun q => (q.1 : ℤ)).Pairwise (· < ·) := by
      rw [List.pairwise_map]
      exact sh.sorted.imp fun h => by exact_mod_cast h
    rw [← hb, List.pairwise_map] at hsorted
    exact hsorted.imp fun h => by exact_mod_cast h
  · intro seg hseg
    obtain ⟨i, hi, rfl⟩ := List.mem_iff_getElem.mp hseg
    have hn := congrArg List.length hl.segments
    rw [List.length_map, List.length_map, length_placed, Shape.chunks, List.length_append,
      List.length_singleton] at hn
    rw [List.length_dropLast] at hi
    rw [List.getElem_dropLast]
    exact (hl.sealed (List.getElem?_eq_getElem (by omega)) (by omega)).1
  · rw [hl.files]
    unfold Dir.names
    rw [List.map_map, List.nodup_iff_pairwise_ne, List.pairwise_map]
    exact sh.sorted.imp fun h => h.ne

/-- Every run of appends and sweeps leaves such a partition. -/
theorem ordered_of_partition_run {maxSegmentBytes interval : ℕ} {p : Partition}
    (hp : Reach PartitionOp.after PartitionOp.Short
      (CommitLog.openAt maxSegmentBytes interval {}).state p) : Partition.Ordered p := by
  obtain ⟨a, h⟩ := tracks_of_partition_run hp
  exact ordered_of_tracks h

/-- For a partition with its segments in order, none of the sealed ones empty: the sweep obeys its
policy exactly if, of the segments behind the run that is too old, at most two are left or only as
many bytes as allowed. -/
theorem sweep_obeys_iff {p : Partition} (h : Partition.Ordered p) (π : Policy) :
    π.Obeyed p ↔ (p.segments.drop (π.aged p)).length ≤ 2 ∨ π.Fits (p.segments.drop (π.aged p)) := by
  have ho := h.dropped (π.aged p)
  by_cases hfits : π.Fits (p.segments.drop (π.aged p))
  · obtain ⟨out, hrun⟩ := retentionSweep_run h π (sweepTotal_fits hfits)
    refine iff_of_true ⟨_, out, π.aged p, hrun, ⟨0, ⟨hfits, fun _ _ => Nat.zero_le _⟩, rfl⟩, ?_⟩
      (.inr hfits)
    exact h.lost _
  · have hlen : 1 < (p.segments.drop (π.aged p)).length := by
      by_contra hle
      exact hfits (.inl (by omega))
    rw [or_iff_left hfits]
    rcases Nat.eq_or_lt_of_le hlen with htwo | hmany
    · obtain ⟨out, hrun⟩ := sweepTotal_two ho htwo.symm hfits
      obtain ⟨out', hsweep⟩ := retentionSweep_run h π hrun
      refine iff_of_true ⟨_, out', _, hsweep, ⟨1, ⟨.inl ?_, ?_⟩, rfl⟩, h.lost _⟩ htwo.ge
      · rw [List.length_drop] at htwo ⊢
        omega
      · rintro k hk
        by_contra hlt
        obtain rfl : k = 0 := by omega
        exact hfits hk
    · -- fewer are counted than removed
      obtain ⟨m, j, out, hrun, hm, hj⟩ := sweepTotal_many ho hmany hfits
      obtain ⟨out', hsweep⟩ := retentionSweep_run h π hrun
      refine iff_of_false ?_ (by omega)
      rintro ⟨p', out'', i, hrun', -, hlost⟩
      rw [hsweep] at hrun'
      obtain ⟨rfl, -, hi⟩ := Outcome.mk.inj hrun'
      have hcount := congrArg List.length hlost.segments
      rw [← Except.ok.inj hi, dropped_segments, List.length_drop, List.length_drop] at hcount
      rw [dropped_segments, List.length_drop] at hj
      omega

/-- Four segments of one record each, at the times 0, 1, 2 and 3. -/
def sealedPartition : Partition :=
  [.append [65] 0, .append [66] 1, .append [67] 2, .append [68] 3].foldl PartitionOp.after
    (CommitLog.openAt 1 1 {}).state

theorem sealedPartition_reach : Reach PartitionOp.after PartitionOp.Short
    (CommitLog.openAt 1 1 {}).state sealedPartition := by
  have hstep : ∀ (p : Partition) (b : UInt8) (t : ℤ), PartitionOp.Short p (.append [b] t) :=
    fun p b t => show 1 ≤ maxRecordBytes by decide
  exact .step (.step (.step (.step .refl (hstep _ 65 0)) (hstep _ 66 1)) (hstep _ 67 2))
    (hstep _ 68 3)

/-- Two segments are too old, and one of the other two goes for the budget. -/
theorem sweep_obeys_by_age : (Policy.mk 5 (some 3) (some 40)).Obeyed sealedPartition :=
  (sweep_obeys_iff (ordered_of_partition_run sealedPartition_reach) _).mpr
    (.inl (by decide +kernel))

/-- One segment has to go for a budget of 100 bytes: two go, and one is reported. -/
theorem sweep_removes_too_much :
    Partition.Ordered sealedPartition ∧
      (Policy.mk 5 none (some 100)).Asks sealedPartition 1 ∧
      (Partition.retentionSweep 5 none (some 100) sealedPartition).result = .ok 1 ∧
      (Partition.retentionSweep 5 none (some 100) sealedPartition).state.segments =
        sealedPartition.segments.drop 2 ∧
      ¬ (Policy.mk 5 none (some 100)).Obeyed sealedPartition := by
  have hresult : (Partition.retentionSweep 5 none (some 100) sealedPartition).result = .ok 1 := by
    decide +kernel
  have hsegments : (Partition.retentionSweep 5 none (some 100) sealedPartition).state.segments =
      sealedPartition.segments.drop 2 := by
    decide +kernel
  refine ⟨ordered_of_partition_run sealedPartition_reach, ⟨1, ⟨.inr ?_, ?_⟩, by decide +kernel⟩,
    hresult, hsegments, ?_⟩
  · rintro n ⟨⟩
    decide +kernel
  · rintro k hk
    by_contra hlt
    obtain rfl : k = 0 := by omega
    rcases hk with hone | hall
    · exact absurd hone (by decide +kernel)
    · exact absurd (hall 100 rfl) (by decide +kernel)
  · rintro ⟨p', out, j, hrun, -, hlost⟩
    rw [hrun] at hresult hsegments
    have hdrop := hlost.segments.symm.trans hsegments
    rw [Except.ok.inj hresult] at hdrop
    exact absurd hdrop (by decide +kernel)

end Pylog.Topics
