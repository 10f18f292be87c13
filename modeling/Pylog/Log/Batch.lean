import Pylog.Log.Crash

/-!
# Batches that `append_many` refuses

`append_many` encodes a batch piece by piece, with writes and new segments in between, and sets
`next_offset` at its end.  `encoded items` are the records it can encode before the first element it
cannot.  `appendLoop_refused`: when they all go into the first blob nothing was done; else the
active segment is a new one that starts behind `next_offset` (`Stranded`), and no record can be
appended to it.
-/

namespace Pylog.Log

open Effect Effect.Handler Files Framing Transition

/-- The fields of the record fit those of its header. -/
def Record.Encodable (r : Record) : Prop :=
  r.payload.length < 2 ^ 32 ∧ r.offset < 2 ^ 64 ∧ FitsI64 r.timestamp

instance (r : Record) : Decidable r.Encodable := inferInstanceAs (Decidable (_ ∧ _))

theorem Record.Encodable.eq {r : Record} (h : r.Encodable) :
    encodeRecord r.offset r.payload r.timestamp = .ok r.bytes := by
  unfold encodeRecord
  exact if_pos h

namespace BatchItem

/-- The record of an element that can be encoded. -/
def record (it : BatchItem) : Option Record :=
  it.timestamp.bind fun ts =>
    if Record.Encodable ⟨it.offset, ts, it.payload⟩ then some ⟨it.offset, ts, it.payload⟩ else none

theorem record_some {it : BatchItem} {r : Record} (h : it.record = some r) :
    r.Encodable ∧ it = CommitLog.itemOf r := by
  obtain ⟨offset, payload, timestamp⟩ := it
  cases timestamp with
  | none => cases h
  | some ts =>
    simp only [record, Option.bind_some] at h
    split_ifs at h with he
    obtain rfl := Option.some.inj h
    exact ⟨he, rfl⟩

end BatchItem

namespace CommitLog

/-- The records of a batch up to the first element that cannot be encoded. -/
def encoded : List BatchItem → List Record
  | [] => []
  | it :: rest =>
    match it.record with
    | none => []
    | some r => r :: encoded rest

/-- A batch is its encoded records and, if there is more, an element that cannot be encoded. -/
theorem encoded_split : ∀ items : List BatchItem, ∃ left,
    items = (encoded items).map itemOf ++ left ∧ (∀ r ∈ encoded items, r.Encodable) ∧
      ∀ it ∈ left.head?, it.record = none
  | [] => ⟨[], rfl, by simp [encoded], by simp⟩
  | it :: rest => by
    cases h : it.record with
    | none =>
      simp only [encoded, h]
      exact ⟨it :: rest, rfl, by simp, by simpa using h⟩
    | some r =>
      obtain ⟨left, he, henc, hleft⟩ := encoded_split rest
      obtain ⟨hr, hit⟩ := BatchItem.record_some h
      simp only [encoded, h]
      refine ⟨left, ?_, ?_, hleft⟩
      · rw [List.map_cons, List.cons_append, ← he, hit]
      · intro r' hr'
        rcases List.mem_cons.mp hr' with rfl | hr'
        · exact hr
        · exact henc r' hr'

theorem length_encoded_le (items : List BatchItem) : (encoded items).length ≤ items.length := by
  obtain ⟨left, he, -, -⟩ := encoded_split items
  have hlen := congrArg List.length he
  rw [List.length_append, List.length_map] at hlen
  omega

variable {max : ℕ} {it : BatchItem}

theorem gather_none (hit : it.record = none) (rest : List BatchItem) (started : Bool) (pos : ℕ) :
    ∃ e, gather max started pos (it :: rest) = .error e := by
  obtain ⟨offset, payload, timestamp⟩ := it
  cases timestamp with
  | none => exact ⟨.indexError, rfl⟩
  | some ts =>
    have hno : ¬ Record.Encodable ⟨offset, ts, payload⟩ := by
      intro he
      simp [BatchItem.record, he] at hit
    refine ⟨.structError, ?_⟩
    have henc : encodeRecord offset payload ts = .error .structError := if_neg hno
    simp only [gather, henc]

theorem gather_cons {r : Record} (hr : r.Encodable) {started : Bool} {pos : ℕ}
    (hc : ¬ (started = true ∧ max < pos + r.bytes.length)) (items : List BatchItem) :
    gather max started pos (itemOf r :: items) =
      match gather max true (pos + r.bytes.length) items with
      | .error e => .error e
      | .ok (taken, left) => .ok ((pos, r) :: taken, left) := by
  unfold itemOf
  rw [gather]
  dsimp only
  rw [hr.eq]
  exact if_neg hc

/-- Later records of a blob that has room for all of them: the loop goes on behind them. -/
theorem gather_room (items : List BatchItem) : ∀ (rs : List Record) (pos : ℕ),
    (∀ r ∈ rs, r.Encodable) → (rs = [] ∨ pos + (encodeAll rs).length ≤ max) →
    gather max true pos (rs.map itemOf ++ items) =
      match gather max true (pos + (encodeAll rs).length) items with
      | .error e => .error e
      | .ok (taken, left) => .ok (Segment.positioned pos rs ++ taken, left)
  | [], pos, _, _ => by
    rw [List.map_nil, List.nil_append, encodeAll_nil, List.length_nil, Nat.add_zero]
    cases gather max true pos items <;> rfl
  | r :: rs, pos, henc, hroom => by
    have hlen := hroom.resolve_left (by simp)
    rw [encodeAll_cons, List.length_append] at hlen
    have hc : ¬ (true = true ∧ max < pos + r.bytes.length) := by omega
    rw [List.map_cons, List.cons_append, gather_cons (henc r (by simp)) hc,
      gather_room items rs (pos + r.bytes.length) (fun r' hr' => henc r' (by simp [hr']))
        (.inr (by omega)), encodeAll_cons, List.length_append, ← Nat.add_assoc]
    cases gather max true (pos + r.bytes.length + (encodeAll rs).length) items <;> rfl

/-- Later records of a blob that has no room for all of them. -/
theorem gather_full (max : ℕ) : ∀ (rs : List Record) (pos : ℕ) (items : List BatchItem),
    (∀ r ∈ rs, r.Encodable) → rs ≠ [] → max < pos + (encodeAll rs).length →
    ∃ j < rs.length, gather max true pos (rs.map itemOf ++ items) =
      .ok (Segment.positioned pos (rs.take j), (rs.drop j).map itemOf ++ items)
  | r :: rs, pos, items, henc, _, hfull => by
    have hr := henc r (by simp)
    by_cases hc : max < pos + r.bytes.length
    · refine ⟨0, by simp, ?_⟩
      simp only [List.map_cons, List.cons_append, gather, itemOf, hr.eq,
        if_pos (show True ∧ max < pos + r.bytes.length from ⟨trivial, hc⟩)]
      rfl
    · rw [encodeAll_cons, List.length_append] at hfull
      have hne : rs ≠ [] := by
        rintro rfl
        rw [encodeAll_nil, List.length_nil] at hfull
        omega
      obtain ⟨j, hj, hrun⟩ := gather_full max rs (pos + r.bytes.length) items
        (fun r' hr' => henc r' (by simp [hr'])) hne (by omega)
      refine ⟨j + 1, by simpa using hj, ?_⟩
      have hc' : ¬ (true = true ∧ max < pos + r.bytes.length) := fun h => hc h.2
      rw [List.map_cons, List.cons_append, gather_cons hr hc', hrun]
      rfl

/-- All the records go into the blob that is written first, to a segment of `size` bytes. -/
def InFirstBlob (max size : ℕ) (rs : List Record) : Prop :=
  rs.length ≤ 1 ∨ size + (encodeAll rs).length ≤ max

instance (max size : ℕ) (rs : List Record) : Decidable (InFirstBlob max size rs) :=
  inferInstanceAs (Decidable (_ ∨ _))

/-- Records that all go into the first blob: the loop goes on behind them. -/
theorem gather_all {r : Record} {rs : List Record} {pos : ℕ} (henc : ∀ r' ∈ r :: rs, r'.Encodable)
    (h : InFirstBlob max pos (r :: rs)) (items : List BatchItem) :
    gather max false pos ((r :: rs).map itemOf ++ items) =
      match gather max true (pos + (encodeAll (r :: rs)).length) items with
      | .error e => .error e
      | .ok (taken, left) => .ok (Segment.positioned pos (r :: rs) ++ taken, left) := by
  have hroom : rs = [] ∨ pos + r.bytes.length + (encodeAll rs).length ≤ max := by
    refine h.imp ?_ ?_
    · intro hlen
      exact List.eq_nil_of_length_eq_zero (by simpa using hlen)
    · intro hlen
      rw [encodeAll_cons, List.length_append] at hlen
      omega
  rw [List.map_cons, List.cons_append, gather_cons (henc r (by simp)) (by simp),
    gather_room items rs (pos + r.bytes.length) (fun r' hr' => henc r' (by simp [hr'])) hroom,
    encodeAll_cons, List.length_append, ← Nat.add_assoc]
  cases gather max true (pos + r.bytes.length + (encodeAll rs).length) items <;> rfl

theorem gather_error (hit : it.record = none) (rest : List BatchItem) {rs : List Record} {pos : ℕ}
    (henc : ∀ r ∈ rs, r.Encodable) (h : InFirstBlob max pos rs) :
    ∃ e, gather max false pos (rs.map itemOf ++ it :: rest) = .error e := by
  cases rs with
  | nil => exact gather_none hit rest false pos
  | cons r rs =>
    obtain ⟨e, he⟩ := gather_none hit rest true (pos + (encodeAll (r :: rs)).length)
    exact ⟨e, by rw [gather_all henc h, he]⟩

theorem gather_done {rs : List Record} {pos : ℕ} (henc : ∀ r ∈ rs, r.Encodable)
    (h : InFirstBlob max pos rs) :
    gather max false pos (rs.map itemOf) = .ok (Segment.positioned pos rs, []) := by
  cases rs with
  | nil => rfl
  | cons r rs =>
    have hall := gather_all henc h []
    rw [List.append_nil] at hall
    rw [hall]
    exact congrArg (fun l => Except.ok (l, [])) (List.append_nil _)

theorem gather_first {rs : List Record} {pos : ℕ} (henc : ∀ r ∈ rs, r.Encodable)
    (h : ¬ InFirstBlob max pos rs) (items : List BatchItem) :
    ∃ j < rs.length, 0 < j ∧ gather max false pos (rs.map itemOf ++ items) =
      .ok (Segment.positioned pos (rs.take j), (rs.drop j).map itemOf ++ items) := by
  obtain ⟨hlen, hfull⟩ := not_or.mp h
  cases rs with
  | nil => simp at hlen
  | cons r rs =>
    rw [encodeAll_cons, List.length_append] at hfull
    have hne : rs ≠ [] := by
      rintro rfl
      simp at hlen
    obtain ⟨j, hj, hrun⟩ := gather_full max rs (pos + r.bytes.length) items
      (fun r' hr' => henc r' (by simp [hr'])) hne (by omega)
    refine ⟨j + 1, by simpa using hj, by omega, ?_⟩
    rw [List.map_cons, List.cons_append, gather_cons (henc r (by simp)) (by simp), hrun]
    rfl

/-! ### The loop over the blobs -/

/-- The active segment is new and starts behind the log's own `next_offset`. -/
def Stranded (s : CommitLog) : Prop :=
  ∃ segs base, s.segments = segs ++ [Segment.new base s.indexIntervalBytes] ∧ s.nextOffset < base

/-- Records at ascending offsets, as a batch has them. -/
def Ascending (rs : List Record) : Prop := rs.Pairwise fun r r' => r.offset < r'.offset

theorem Ascending.drop {rs : List Record} (h : Ascending rs) {j : ℕ} (hj : j < rs.length) :
    Ascending (rs.drop j) ∧ ∀ r ∈ rs.drop j, rs[j].offset ≤ r.offset := by
  have hd : Ascending (rs.drop j) := h.sublist (List.drop_sublist j rs)
  refine ⟨hd, ?_⟩
  unfold Ascending at hd
  rw [List.drop_eq_getElem_cons hj, List.pairwise_cons] at hd
  intro r hr
  rw [List.drop_eq_getElem_cons hj] at hr
  rcases List.mem_cons.mp hr with rfl | hr
  · exact le_rfl
  · exact (hd.1 r hr).le

theorem Ascending.lt_getElem {rs : List Record} (h : Ascending rs) {b : ℕ}
    (hb : ∀ r ∈ rs, b ≤ r.offset) {j : ℕ} (hj : j < rs.length) (hpos : 0 < j) :
    b < rs[j].offset := by
  have hlt := List.pairwise_iff_getElem.mp h 0 j (by omega) hj hpos
  exact lt_of_le_of_lt (hb _ (List.getElem_mem _)) hlt

/-- One blob of a batch that goes on, and the new segment behind it. -/
theorem blob_roll {s : CommitLog} {segs : List Segment} {seg : Segment}
    (hs : s.segments = segs ++ [seg]) {rs : List Record} (hrs : Segment.Ranged seg.baseOffset rs)
    (it : BatchItem) (hb : seg.baseOffset < it.offset)
    (hn : ∀ n ∈ s.folder.logs.names, n < it.offset) (items : List BatchItem) :
    ∃ s' out, (do
        onActive (writeBlob (Segment.positioned seg.size rs))
        rollFor (it :: items) : LogM Unit) s = ⟨s', out, .ok ()⟩ ∧
      s'.segments = segs ++ [seg.fill rs] ++ [Segment.new it.offset s.indexIntervalBytes] ∧
      s'.maxSegmentBytes = s.maxSegmentBytes ∧ s'.indexIntervalBytes = s.indexIntervalBytes ∧
      s'.nextOffset = s.nextOffset ∧ ∀ n ∈ s'.folder.logs.names, n ≤ it.offset := by
  obtain ⟨idx, hidx, hblob⟩ := Segment.writeBlob_eq (d := s.folder) hrs
  have hact := onActive_eq hs hblob
  generalize hd : s.folder.performAll (⟨.log, .append seg.baseOffset (encodeAll rs)⟩ :: idx) = d
    at hact
  have hnames : ∀ n ∈ d.logs.names, n < it.offset := by
    intro n hmem
    rw [← hd, Folder.performAll_cons, hidx.logs, Folder.perform_log_logs] at hmem
    rcases Dir.mem_names_put hmem with rfl | hmem
    · exact hb
    · exact hn n hmem
  have hrec := Segment.recover_new s.indexIntervalBytes
    (Dir.get_eq_none fun hmem => lt_irrefl it.offset (hnames it.offset hmem))
  have hroll : rollFor (it :: items)
      { s with folder := d, segments := segs ++ [seg.fill rs] } =
      ⟨{ s with
        folder := d.performAll [⟨.log, .create it.offset⟩, ⟨.index, .create it.offset⟩]
        segments := segs ++ [seg.fill rs] ++ [Segment.new it.offset s.indexIntervalBytes] },
        [⟨.log, .create it.offset⟩, ⟨.index, .create it.offset⟩], .ok ()⟩ := by
    unfold rollFor CommitLog.newSegment
    dsimp only
    rw [hrec]
  refine ⟨_, _, bind_run hact hroll, rfl, rfl, rfl, rfl, ?_⟩
  intro n hmem
  rcases Dir.mem_names_put hmem with rfl | hmem
  · exact le_rfl
  · exact (hnames n hmem).le

/-- One round of the outer loop. -/
theorem appendLoop_round {s : CommitLog} {segs : List Segment} {seg : Segment}
    (hs : s.segments = segs ++ [seg]) (fuel : ℕ) (x : BatchItem) (xs : List BatchItem) :
    appendLoop (fuel + 1) (x :: xs) s =
      (do
        let g ← orRaise (gather s.maxSegmentBytes false seg.size (x :: xs))
        (do onActive (writeBlob g.1); rollFor g.2 : LogM Unit)
        appendLoop fuel g.2 : LogM Unit) s := by
  have hassoc : ∀ g : List (ℕ × Record) × List BatchItem,
      ((do onActive (writeBlob g.1); rollFor g.2 : LogM Unit) >>= fun _ => appendLoop fuel g.2) =
        (do onActive (writeBlob g.1); rollFor g.2; appendLoop fuel g.2 : LogM Unit) :=
    fun g => (bind_assoc _ _ _).symm
  simp only [hassoc]
  conv_lhs => unfold appendLoop
  rw [read_bind, bind_eq (active_eq hs)]
  rfl

/-- A round that does not take all the records: it writes those before some record `r` and makes a
new segment for `r`. -/
theorem appendLoop_part {s : CommitLog} {segs : List Segment} {seg : Segment} {rs : List Record}
    {b : ℕ} (hs : s.segments = segs ++ [seg]) (henc : ∀ r ∈ rs, r.Encodable) (hasc : Ascending rs)
    (hle : ∀ r ∈ rs, b ≤ r.offset) (hb : seg.baseOffset ≤ b)
    (hn : ∀ n ∈ s.folder.logs.names, n ≤ b) (hin : ¬ InFirstBlob s.maxSegmentBytes seg.size rs)
    (fuel : ℕ) (left : List BatchItem) :
    ∃ (j : ℕ) (hj : j < rs.length) (s' : CommitLog) (out : List FileOp),
      (∀ s'' out' res, appendLoop fuel ((rs.drop j).map itemOf ++ left) s' = ⟨s'', out', res⟩ →
        appendLoop (fuel + 1) (rs.map itemOf ++ left) s = ⟨s'', out ++ out', res⟩) ∧
      0 < j ∧ b < rs[j].offset ∧
      s'.segments = segs ++ [seg.fill (rs.take j)] ++
        [Segment.new rs[j].offset s.indexIntervalBytes] ∧
      s'.maxSegmentBytes = s.maxSegmentBytes ∧ s'.indexIntervalBytes = s.indexIntervalBytes ∧
      s'.nextOffset = s.nextOffset ∧ ∀ n ∈ s'.folder.logs.names, n ≤ rs[j].offset := by
  obtain ⟨j, hj, hj0, hg⟩ := gather_first henc hin left
  have hdrop : rs.drop j = rs[j] :: rs.drop (j + 1) := List.drop_eq_getElem_cons hj
  have hlt := hasc.lt_getElem hle hj hj0
  have hrs : Segment.Ranged seg.baseOffset (rs.take j) := by
    intro r hr
    have hr' := List.mem_of_mem_take hr
    exact ⟨hb.trans (hle r hr'), (henc r hr').2.1⟩
  obtain ⟨s₁, out₁, hrun₁, hsegs, hmax, hint, hnext, hnames⟩ := blob_roll hs hrs
    (itemOf rs[j]) (by show _ < rs[j].offset; omega)
    (fun n hmem => lt_of_le_of_lt (hn n hmem) hlt)
    ((rs.drop (j + 1)).map itemOf ++ left)
  refine ⟨j, hj, s₁, out₁, ?_, hj0, hlt, hsegs, hmax, hint, hnext, hnames⟩
  intro s'' out' res hrun
  obtain ⟨x, xs, hx⟩ : ∃ x xs, rs.map itemOf ++ left = x :: xs :=
    List.exists_cons_of_ne_nil (by simp; rintro rfl; simp at hj)
  have hround := appendLoop_round hs fuel x xs
  rw [← hx] at hround
  rw [← List.cons_append, ← List.map_cons, ← hdrop] at hrun₁
  rw [hround, hg]
  refine (bind_run (orRaise_ok _ s) (bind_run hrun₁ hrun)).trans ?_
  rw [List.nil_append]

/-- The loop over a batch with an element that cannot be encoded raises: before it writes, when the
records before that element are all in the first blob, else with a new active segment. -/
theorem appendLoop_refused {it : BatchItem} {rest : List BatchItem} (hit : it.record = none) :
    ∀ (fuel : ℕ) (rs : List Record) {s : CommitLog} {segs : List Segment} {seg : Segment} (b : ℕ),
    s.segments = segs ++ [seg] → (∀ r ∈ rs, r.Encodable) → Ascending rs → (∀ r ∈ rs, b ≤ r.offset) →
    seg.baseOffset ≤ b → (∀ n ∈ s.folder.logs.names, n ≤ b) → rs.length < fuel →
    ∃ s' out e, appendLoop fuel (rs.map itemOf ++ it :: rest) s = ⟨s', out, .error e⟩ ∧
      s'.maxSegmentBytes = s.maxSegmentBytes ∧ s'.nextOffset = s.nextOffset ∧
      if InFirstBlob s.maxSegmentBytes seg.size rs then s' = s
      else ∃ segs' base, s'.segments = segs' ++ [Segment.new base s'.indexIntervalBytes] ∧ b < base
  | fuel + 1, rs, s, segs, seg, b, hs, henc, hasc, hle, hb, hn, hfuel => by
    by_cases hin : InFirstBlob s.maxSegmentBytes seg.size rs
    · obtain ⟨x, xs, hx⟩ : ∃ x xs, rs.map itemOf ++ it :: rest = x :: xs :=
        List.exists_cons_of_ne_nil (by simp)
      obtain ⟨e, he⟩ := gather_error hit rest henc hin
      refine ⟨s, [], e, ?_, rfl, rfl, by rw [if_pos hin]⟩
      rw [hx, appendLoop_round hs fuel x xs, ← hx, he]
      rfl
    · obtain ⟨j, hj, s₁, out₁, hround, hj0, hlt, hsegs, hmax, hint, hnext, hnames⟩ :=
        appendLoop_part hs henc hasc hle hb hn hin fuel (it :: rest)
      obtain ⟨s', out, e, hrun, hmax', hnext', hend⟩ := appendLoop_refused hit fuel (rs.drop j)
        rs[j].offset hsegs (fun r hr => henc r (List.mem_of_mem_drop hr)) (hasc.drop hj).1
        (hasc.drop hj).2 le_rfl hnames (by rw [List.length_drop]; omega)
      refine ⟨s', _, e, hround _ _ _ hrun, hmax'.trans hmax, hnext'.trans hnext, ?_⟩
      rw [if_neg hin]
      split_ifs at hend with hin'
      · subst hend
        exact ⟨_, rs[j].offset, by rw [hsegs, hint], hlt⟩
      · obtain ⟨segs', base, hs', hbase⟩ := hend
        exact ⟨segs', base, hs', hlt.trans hbase⟩

/-- The loop over a batch that can be encoded does not raise, however long its payloads are. -/
theorem appendLoop_encodable : ∀ (fuel : ℕ) (rs : List Record) {s : CommitLog} {segs : List Segment}
    {seg : Segment} (b : ℕ), s.segments = segs ++ [seg] → (∀ r ∈ rs, r.Encodable) → Ascending rs →
    (∀ r ∈ rs, b ≤ r.offset) → seg.baseOffset ≤ b → (∀ n ∈ s.folder.logs.names, n ≤ b) →
    rs.length ≤ fuel → ∃ s' out, appendLoop fuel (rs.map itemOf) s = ⟨s', out, .ok ()⟩
  | 0, rs, s, segs, seg, b, _, _, _, _, _, _, hfuel => by
    obtain rfl := List.eq_nil_of_length_eq_zero (Nat.le_zero.mp hfuel)
    exact ⟨s, [], rfl⟩
  | fuel + 1, rs, s, segs, seg, b, hs, henc, hasc, hle, hb, hn, hfuel => by
    by_cases hin : InFirstBlob s.maxSegmentBytes seg.size rs
    · cases rs with
      | nil => exact ⟨s, [], rfl⟩
      | cons r rs =>
        obtain ⟨idx, -, hblob⟩ := Segment.writeBlob_eq (d := s.folder)
          (fun r' hr' => ⟨hb.trans (hle r' hr'), (henc r' hr').2.1⟩ :
            Segment.Ranged seg.baseOffset (r :: rs))
        have hend : ∀ t, appendLoop fuel [] t = ⟨t, [], .ok ()⟩ := by
          intro t
          cases fuel <;> rfl
        rw [List.map_cons, appendLoop_round hs, ← List.map_cons, gather_done henc hin]
        exact ⟨_, _, bind_run (orRaise_ok _ s) (bind_run (bind_run (onActive_eq hs hblob)
          (pure_eq _ _)) (hend _))⟩
    · obtain ⟨j, hj, s₁, out₁, hround, hj0, hlt, hsegs, -, -, -, hnames⟩ :=
        appendLoop_part hs henc hasc hle hb hn hin fuel []
      obtain ⟨s', out, hrun⟩ := appendLoop_encodable fuel (rs.drop j) rs[j].offset hsegs
        (fun r hr => henc r (List.mem_of_mem_drop hr)) (hasc.drop hj).1 (hasc.drop hj).2 le_rfl
        hnames (by rw [List.length_drop]; omega)
      rw [← List.append_nil (rs.map itemOf)]
      exact ⟨s', _, hround _ _ _ (by rw [List.append_nil]; exact hrun)⟩

/-! ### The call -/

/-- The size of the active segment. -/
def activeSize (s : CommitLog) : ℕ := (s.segments.getLast?.map Segment.size).getD 0

theorem activeSize_eq {s : CommitLog} {segs : List Segment} {seg : Segment}
    (hs : s.segments = segs ++ [seg]) : s.activeSize = seg.size := by
  unfold activeSize
  rw [hs, List.getLast?_concat]
  rfl

/-- The elements of a call. -/
def items (s : CommitLog) (payloads : List Bytes) (timestamps : Option (List ℤ)) (now : ℤ) :
    List BatchItem :=
  batch s.nextOffset payloads (timestamps.getD (List.replicate payloads.length now))

@[simp] theorem length_items (s : CommitLog) (payloads : List Bytes) (timestamps : Option (List ℤ))
    (now : ℤ) : (s.items payloads timestamps now).length = payloads.length := by
  simp [items, batch]

theorem offset_batch (b : ℕ) (payloads : List Bytes) (timestamps : List ℤ) :
    (batch b payloads timestamps).map BatchItem.offset = List.range' b payloads.length := by
  apply List.ext_getElem?
  intro k
  rw [batch, List.getElem?_map, List.getElem?_mapIdx]
  rcases Nat.lt_or_ge k payloads.length with hk | hk
  · rw [List.getElem?_eq_getElem hk, List.getElem?_range' hk]
    simp
  · rw [List.getElem?_eq_none hk, List.getElem?_eq_none (l := List.range' _ _) (by simpa using hk)]
    rfl

/-- The encoded records of a batch are at its first offsets. -/
theorem offset_encoded {b n : ℕ} {items : List BatchItem}
    (h : items.map BatchItem.offset = List.range' b n) :
    Ascending (encoded items) ∧ ∀ r ∈ encoded items, b ≤ r.offset := by
  obtain ⟨left, he, -, -⟩ := encoded_split items
  have hpre : (encoded items).map Record.offset <+: List.range' b n := by
    rw [← h]
    conv_rhs => rw [he, List.map_append, List.map_map]
    exact List.prefix_append _ _
  constructor
  · exact List.pairwise_map.mp ((List.pairwise_lt_range' (s := b)).sublist hpre.sublist)
  · intro r hr
    have hmem := hpre.subset (List.mem_map_of_mem hr)
    exact (List.mem_range'_1.mp hmem).1

/-- The elements of a call that can be encoded as a whole. -/
theorem encoded_whole {s : CommitLog} {payloads : List Bytes} {timestamps : Option (List ℤ)}
    {now : ℤ} (he : (encoded (s.items payloads timestamps now)).length = payloads.length) :
    s.items payloads timestamps now = (encoded (s.items payloads timestamps now)).map itemOf ∧
      ∀ r ∈ encoded (s.items payloads timestamps now), r.Encodable := by
  obtain ⟨left, hsplit, henc, -⟩ := encoded_split (s.items payloads timestamps now)
  have hlen := congrArg List.length hsplit
  rw [length_items, List.length_append, List.length_map, he] at hlen
  obtain rfl : left = [] := List.eq_nil_of_length_eq_zero (by omega)
  rw [List.append_nil] at hsplit
  exact ⟨hsplit, henc⟩

/-- A call not all of whose elements can be encoded has fewer records. -/
theorem encoded_lt {s : CommitLog} {payloads : List Bytes} {timestamps : Option (List ℤ)} {now : ℤ}
    (he : (encoded (s.items payloads timestamps now)).length ≠ payloads.length) :
    (encoded (s.items payloads timestamps now)).length < payloads.length := by
  have hle := length_encoded_le (s.items payloads timestamps now)
  rw [length_items] at hle
  omega

/-- A call whose elements can all be encoded returns the offsets from `next_offset` on. -/
theorem appendMany_encodable {s : CommitLog} {segs : List Segment} {seg : Segment}
    (hs : s.segments = segs ++ [seg]) (hb : seg.baseOffset ≤ s.nextOffset)
    (hn : ∀ n ∈ s.folder.logs.names, n ≤ s.nextOffset) {payloads : List Bytes}
    {timestamps : Option (List ℤ)} {now : ℤ}
    (he : (encoded (s.items payloads timestamps now)).length = payloads.length) :
    ∃ s' out, CommitLog.appendMany payloads timestamps now s =
      ⟨s', out, .ok (List.range' s.nextOffset payloads.length)⟩ := by
  obtain ⟨hsplit, henc⟩ := encoded_whole he
  obtain ⟨hasc, hle⟩ := offset_encoded (offset_batch s.nextOffset payloads
    (timestamps.getD (List.replicate payloads.length now)))
  obtain ⟨s', out, hrun⟩ := appendLoop_encodable payloads.length
    (encoded (s.items payloads timestamps now)) s.nextOffset hs henc hasc hle hb hn he.le
  rw [← hsplit] at hrun
  unfold CommitLog.appendMany
  rw [read_bind]
  by_cases hne : payloads = []
  · rw [if_pos hne]
    subst hne
    exact ⟨s, [], rfl⟩
  · rw [if_neg hne]
    exact ⟨_, _, bind_run hrun (update_pure _ _ _)⟩

/-- A call with an element that cannot be encoded: all or nothing, or the active segment is
stranded. -/
theorem appendMany_refused {s : CommitLog} {segs : List Segment} {seg : Segment}
    (hs : s.segments = segs ++ [seg]) (hb : seg.baseOffset ≤ s.nextOffset)
    (hn : ∀ n ∈ s.folder.logs.names, n ≤ s.nextOffset) {payloads : List Bytes}
    {timestamps : Option (List ℤ)} {now : ℤ}
    (hlt : (encoded (s.items payloads timestamps now)).length < payloads.length) :
    ∃ s' out e, CommitLog.appendMany payloads timestamps now s = ⟨s', out, .error e⟩ ∧
      if InFirstBlob s.maxSegmentBytes s.activeSize (encoded (s.items payloads timestamps now)) then
        s' = s
      else s'.maxSegmentBytes = s.maxSegmentBytes ∧ s'.nextOffset = s.nextOffset ∧ s'.Stranded := by
  obtain ⟨left, he, henc, hleft⟩ := encoded_split (s.items payloads timestamps now)
  have hlen := congrArg List.length he
  rw [length_items, List.length_append, List.length_map] at hlen
  obtain ⟨it, rest, rfl⟩ : ∃ it rest, left = it :: rest :=
    List.exists_cons_of_ne_nil (List.ne_nil_of_length_pos (by omega))
  have hne : payloads ≠ [] := List.ne_nil_of_length_pos (by omega)
  obtain ⟨hasc, hle⟩ := offset_encoded (offset_batch s.nextOffset payloads
    (timestamps.getD (List.replicate payloads.length now)))
  obtain ⟨s', out, e, hrun, hmax, hnext, hend⟩ := appendLoop_refused (hleft it rfl) payloads.length
    (encoded (s.items payloads timestamps now)) s.nextOffset hs henc hasc hle hb hn hlt
  rw [← he] at hrun
  refine ⟨s', out, e, ?_, ?_⟩
  · unfold CommitLog.appendMany
    rw [read_bind, if_neg hne]
    exact bind_error hrun
  · rw [activeSize_eq hs]
    split_ifs at hend ⊢
    · exact hend
    · obtain ⟨segs', base, hsegs, hbase⟩ := hend
      exact ⟨hmax, hnext, segs', base, hsegs, hnext ▸ hbase⟩

/-- No record can be appended to a stranded segment. -/
theorem Stranded.append {s : CommitLog} (h : s.Stranded) (hpos : 0 < s.maxSegmentBytes)
    {payload : Bytes} {timestamp : Option ℤ} {now : ℤ}
    (he : Record.Encodable ⟨s.nextOffset, timestamp.getD now, payload⟩) :
    (CommitLog.append payload timestamp now s).result = .error .structError := by
  obtain ⟨segs, base, hs, hlt⟩ := h
  have hsize : ¬ s.maxSegmentBytes ≤ (Segment.new base s.indexIntervalBytes).size := by
    show ¬ s.maxSegmentBytes ≤ 0
    omega
  have hpack : ∀ t, packIndexEntry ((s.nextOffset : ℤ) - base) 0 t =
      ⟨t, [], .error .structError⟩ := by
    intro t
    rw [packIndexEntry, if_neg (by omega)]
    rfl
  -- the first record of the segment is indexed, and its relative offset is negative
  have hidx : ∀ d seg, seg.index = [] → seg.baseOffset = base →
      ∃ t out, Segment.maybeIndex s.nextOffset 0 (d, seg) = ⟨t, out, .error .structError⟩ := by
    intro d seg hnil hbase
    unfold Segment.maybeIndex assign
    rw [read_bind]
    dsimp only
    rw [when_eq_of_pos (.inl hnil), update_bind, hbase]
    exact ⟨_, _, bind_error (hpack _)⟩
  have happ : ∀ d, ∃ t out, Segment.append s.nextOffset
      (Record.bytes ⟨s.nextOffset, timestamp.getD now, payload⟩) (timestamp.getD now)
      (d, Segment.new base s.indexIntervalBytes) = ⟨t, out, .error .structError⟩ := by
    intro d
    generalize Record.bytes ⟨s.nextOffset, timestamp.getD now, payload⟩ = bytes
    have hw : fileOp .log (.append base bytes) (d, Segment.new base s.indexIntervalBytes) =
      ⟨(d.perform ⟨.log, .append base bytes⟩, Segment.new base s.indexIntervalBytes),
        [⟨.log, .append base bytes⟩], .ok ()⟩ := rfl
    obtain ⟨t, out, hrun⟩ := hidx (d.perform ⟨.log, .append base bytes⟩)
      { Segment.new base s.indexIntervalBytes with
        size := 0 + bytes.length
        maxTimestamp := max 0 (timestamp.getD now)
        nextOffset := s.nextOffset + 1 } rfl rfl
    unfold Segment.append assign
    rw [read_bind]
    exact ⟨t, _, bind_run hw (update_run hrun)⟩
  obtain ⟨⟨d', seg'⟩, out, hrun⟩ := happ s.folder
  have henc := he.eq
  dsimp only at henc
  unfold CommitLog.append
  rw [read_bind, henc]
  have hact := onActive_eq hs hrun
  rw [bind_eq (active_eq hs), bind_eq (when_eq_of_neg hsize _ _), bind_eq (orRaise_ok _ _),
    bind_error hact]

end CommitLog

open CommitLog

/-! ### Calls that leave a log whole -/

namespace LogOp

/-- Payloads of at most `MAX_RECORD_BYTES`. -/
def Short : LogOp → Prop
  | append payload _ _ => payload.length ≤ maxRecordBytes
  | appendMany payloads _ _ => ∀ p ∈ payloads, p.length ≤ maxRecordBytes
  | _ => True

/-- Not an `append_many` that writes a blob and then raises: all of its elements can be encoded, or
those before the first that cannot are all in the first blob. -/
def Whole (s : CommitLog) : LogOp → Prop
  | appendMany payloads timestamps now =>
    (encoded (s.items payloads timestamps now)).length = payloads.length ∨
      InFirstBlob s.maxSegmentBytes s.activeSize (encoded (s.items payloads timestamps now))
  | _ => True

def Intact (s : CommitLog) (op : LogOp) : Prop := op.Short ∧ op.Whole s

end LogOp

variable {s : CommitLog} {a : AbstractLog}

theorem Tracks.active (h : Tracks s a) : ∃ segs seg, s.segments = segs ++ [seg] ∧
    seg.baseOffset ≤ s.nextOffset ∧ ∀ n ∈ s.folder.logs.names, n ≤ s.nextOffset := by
  obtain ⟨sh, hl, hn, rfl⟩ := h
  obtain ⟨segs, seg, hs, -, hseg⟩ := hl.active
  have hstop := sh.stop_eq
  refine ⟨segs, seg, hs, by rw [hseg.baseOffset]; omega, ?_⟩
  intro n hmem
  rw [hl.files] at hmem
  obtain ⟨f, hf, rfl⟩ := List.mem_map.mp hmem
  obtain ⟨p, hp, rfl⟩ := List.mem_map.mp hf
  have hle := (mem_placed hp).2.2
  rw [hn]
  unfold Shape.stop Shape.data
  simp only [fileOf]
  omega

/-- A batch that can be encoded as a whole has a timestamp for every payload, and they fit. -/
theorem encoded_timestamps {payloads : List Bytes} {timestamps : Option (List ℤ)} {now : ℤ}
    (he : (encoded (s.items payloads timestamps now)).length = payloads.length) {k : ℕ}
    (hk : k < payloads.length) :
    ∃ ts, (timestamps.getD (List.replicate payloads.length now))[k]? = some ts ∧ FitsI64 ts ∧
      s.nextOffset + k < 2 ^ 64 := by
  obtain ⟨hsplit, henc⟩ := encoded_whole he
  obtain ⟨r, hr⟩ : ∃ r, (encoded (s.items payloads timestamps now))[k]? = some r :=
    ⟨_, List.getElem?_eq_getElem (by omega)⟩
  have hget : (s.items payloads timestamps now)[k]? = some (itemOf r) := by
    rw [hsplit, List.getElem?_map, hr]
    rfl
  have hitem : BatchItem.mk (s.nextOffset + k) payloads[k]
      (timestamps.getD (List.replicate payloads.length now))[k]? = itemOf r := by
    simpa [CommitLog.items, batch, hk] using hget
  obtain ⟨-, ho, hts⟩ := henc r (List.mem_of_getElem? hr)
  obtain ⟨h1, -, h3⟩ := BatchItem.mk.inj hitem
  exact ⟨r.timestamp, h3, hts, h1 ▸ ho⟩

/-- There are as many timestamps as payloads. -/
theorem encoded_length_le {payloads : List Bytes} {timestamps : Option (List ℤ)} {now : ℤ}
    (he : (encoded (s.items payloads timestamps now)).length = payloads.length) :
    payloads.length ≤ (timestamps.getD (List.replicate payloads.length now)).length := by
  rcases Nat.eq_zero_or_pos payloads.length with h0 | hpos
  · omega
  · obtain ⟨ts, hts, -⟩ := encoded_timestamps he (k := payloads.length - 1) (by omega)
    have := (List.getElem?_eq_some_iff.mp hts).1
    omega

theorem LogOp.admissible_of_encoded {payloads : List Bytes} {timestamps : Option (List ℤ)} {now : ℤ}
    (hp : ∀ p ∈ payloads, p.length ≤ maxRecordBytes) (hne : payloads ≠ [])
    (he : (encoded (s.items payloads timestamps now)).length = payloads.length) :
    (LogOp.appendMany payloads timestamps now).Admissible s := by
  have hpos : 0 < payloads.length := List.length_pos_iff.mpr hne
  refine ⟨encoded_length_le he, ?_, ?_⟩
  · rintro ⟨ts, p⟩ hmem
    unfold LogOp.batchData at hmem
    obtain ⟨k, hk, hget⟩ := List.mem_iff_getElem.mp hmem
    rw [List.length_zip] at hk
    rw [List.getElem_zip, Prod.mk.injEq] at hget
    obtain ⟨ts', hts', hfit, -⟩ := encoded_timestamps he (k := k) (by omega)
    rw [List.getElem?_eq_getElem (by omega)] at hts'
    refine ⟨?_, hp p (hget.2 ▸ List.getElem_mem _)⟩
    rw [← hget.1, Option.some.inj hts']
    exact hfit
  · obtain ⟨-, -, -, hlt⟩ := encoded_timestamps he (k := payloads.length - 1) (by omega)
    omega

theorem appendMany_nil (timestamps : Option (List ℤ)) (now : ℤ) (s : CommitLog) :
    CommitLog.appendMany [] timestamps now s = ⟨s, [], .ok []⟩ := by
  unfold CommitLog.appendMany
  rw [read_bind, if_pos rfl, pure_eq]

/-- A call with short payloads writes its whole batch, or raises. -/
theorem Tracks.appendMany_cases (h : Tracks s a) {payloads : List Bytes}
    (hp : ∀ p ∈ payloads, p.length ≤ maxRecordBytes) (timestamps : Option (List ℤ)) (now : ℤ) :
    (∃ s' out, CommitLog.appendMany payloads timestamps now s =
        ⟨s', out, .ok (List.range' a.next payloads.length)⟩ ∧
      Tracks s' ⟨a.first, a.items ++ LogOp.batchData payloads timestamps now⟩) ∨
    (encoded (s.items payloads timestamps now)).length < payloads.length := by
  by_cases he : (encoded (s.items payloads timestamps now)).length = payloads.length
  · left
    by_cases hne : payloads = []
    · subst hne
      refine ⟨s, [], appendMany_nil timestamps now s, ?_⟩
      rwa [LogOp.batchData, List.zip_nil_right, List.append_nil]
    · exact h.appendMany (LogOp.admissible_of_encoded hp hne he)
  · exact .inr (encoded_lt he)

/-- What a call does that is refused before anything is written. -/
theorem Tracks.refused (h : Tracks s a) {payloads : List Bytes} {timestamps : Option (List ℤ)}
    {now : ℤ} (hlt : (encoded (s.items payloads timestamps now)).length < payloads.length)
    (hin : InFirstBlob s.maxSegmentBytes s.activeSize (encoded (s.items payloads timestamps now))) :
    ∃ out e, CommitLog.appendMany payloads timestamps now s = ⟨s, out, .error e⟩ := by
  obtain ⟨segs, seg, hs, hb, hn⟩ := h.active
  obtain ⟨s', out, e, hrun, hend⟩ := appendMany_refused hs hb hn hlt
  rw [if_pos hin] at hend
  exact ⟨out, e, by rw [hrun, hend]⟩

/-- An `append` of a payload that can be encoded returns, however long the payload is. -/
theorem Tracks.append_encodable (h : Tracks s a) {payload : Bytes} {timestamp : Option ℤ} {now : ℤ}
    (he : Record.Encodable ⟨s.nextOffset, timestamp.getD now, payload⟩) :
    ∃ s' out, CommitLog.append payload timestamp now s = ⟨s', out, .ok s.nextOffset⟩ := by
  obtain ⟨sh, hl, hn, rfl⟩ := h
  obtain ⟨segs, seg, hs, -, -⟩ := hl.active
  obtain ⟨s₁, sh₁, ops₁, hroll, h₁, -⟩ := hl.rolled hs
  obtain ⟨segs₁, seg₁, hs₁, -, hseg₁⟩ := h₁.lays.active
  have hbase : seg₁.baseOffset ≤ s.nextOffset := by
    have hstop := h₁.stop
    rw [sh₁.stop_eq, List.length_nil] at hstop
    rw [hseg₁.baseOffset]
    omega
  have hrec := Segment.append_eq (d := s₁.folder)
    (r := ⟨s.nextOffset, timestamp.getD now, payload⟩) hbase he.2.1
  have hok := he.eq
  dsimp only at hok hrec
  unfold CommitLog.append
  rw [read_bind, hok]
  rw [← hn] at hroll
  exact ⟨_, _, bind_run (active_eq hs) (bind_run hroll (bind_run (orRaise_ok _ _)
    (bind_run (onActive_eq hs₁ hrec) (update_pure _ _ _))))⟩

/-- An `append` that raises keeps the records there are. -/
theorem Tracks.append_raised (h : Tracks s a) {payload : Bytes} {timestamp : Option ℤ} {now : ℤ}
    {e : LogError} (he : (CommitLog.append payload timestamp now s).result = .error e) :
    Tracks (CommitLog.append payload timestamp now s).state a := by
  have hbad : ¬ Record.Encodable ⟨s.nextOffset, timestamp.getD now, payload⟩ := by
    intro henc
    obtain ⟨s', out, hrun⟩ := h.append_encodable henc
    rw [hrun] at he
    cases he
  obtain ⟨sh, hl, hn, rfl⟩ := h
  rw [hn] at hbad
  have hbad' : encodeRecord sh.stop payload (timestamp.getD now) = .error .structError := if_neg hbad
  obtain ⟨s', sh', ops, hrun, happ, -⟩ := hl.append_refused hn hbad'
  rw [hrun]
  refine ⟨sh', happ.lays, ?_, ?_⟩
  · rw [happ.ran.next, hn]
    exact happ.stop.symm
  · rw [happ.first, happ.data, List.append_nil]

/-- An `append_many` that raises keeps the records there are, if it has not written a blob. -/
theorem Tracks.appendMany_raised (h : Tracks s a) {payloads : List Bytes}
    {timestamps : Option (List ℤ)} {now : ℤ} {e : LogError}
    (he : (CommitLog.appendMany payloads timestamps now s).result = .error e)
    (hop : (LogOp.appendMany payloads timestamps now).Whole s) :
    (CommitLog.appendMany payloads timestamps now s).state = s := by
  obtain ⟨segs, seg, hs, hb, hn⟩ := h.active
  have hno : (encoded (s.items payloads timestamps now)).length ≠ payloads.length := by
    intro hall
    obtain ⟨s', out, hrun⟩ := appendMany_encodable hs hb hn hall
    rw [hrun] at he
    cases he
  obtain ⟨out, e', hrun⟩ := h.refused (encoded_lt hno) (hop.resolve_left hno)
  rw [hrun]

/-- An intact call leaves a log of records. -/
theorem Tracks.intact (h : Tracks s a) {op : LogOp} (hop : op.Intact s) :
    ∃ a', Tracks (op.after s) a' := by
  obtain ⟨hshort, hwhole⟩ := hop
  cases op with
  | append payload timestamp now =>
    rw [LogOp.after_append]
    rcases h.append_cases hshort timestamp now with ⟨s', out, hrun, h'⟩ | ⟨s', out, hrun, h'⟩
    · rw [hrun]
      exact ⟨_, h'⟩
    · rw [hrun]
      exact ⟨a, h'⟩
  | appendMany payloads timestamps now =>
    rw [LogOp.after_appendMany]
    rcases h.appendMany_cases hshort timestamps now with ⟨s', out, hrun, h'⟩ | hlt
    · rw [hrun]
      exact ⟨_, h'⟩
    · obtain ⟨out, e, hrun⟩ := h.refused hlt (hwhole.resolve_left hlt.ne)
      rw [hrun]
      exact ⟨a, h⟩
  | truncateFrom offset =>
    obtain ⟨a', h', -⟩ := h.after (show (LogOp.truncateFrom offset).Returning s from trivial)
    exact ⟨a', h'⟩
  | truncateSegmentsBefore m =>
    obtain ⟨a', h', -⟩ := h.after (show (LogOp.truncateSegmentsBefore m).Returning s from trivial)
    exact ⟨a', h'⟩
  | reopen =>
    obtain ⟨a', h', -⟩ := h.after (show LogOp.reopen.Returning s from trivial)
    exact ⟨a', h'⟩

/-- Every run of intact calls leaves a log of records. -/
theorem tracks_of_intact {maxSegmentBytes interval : ℕ}
    (hs : Reach LogOp.after LogOp.Intact (CommitLog.openAt maxSegmentBytes interval {}).state s) :
    ∃ a, Tracks s a := by
  refine hs.inv (fun s => ∃ a, Tracks s a) ⟨_, tracks_openAt_nil maxSegmentBytes interval⟩ ?_
  rintro s op - ⟨a, h⟩ hop
  exact h.intact hop

/-! ### All or nothing -/

/-- Nothing was done, as far as the log can be seen: its next offset, its records and its directory
are as before, and the next `append` returns the next offset and can be read. -/
structure Untouched (s s' : CommitLog) : Prop where
  next : s'.nextOffset = s.nextOffset
  reads : ∀ o : ℤ, s'.read o = s.read o
  reopens : ∀ maxSegmentBytes interval : ℕ,
    (CommitLog.openAt maxSegmentBytes interval s'.folder).result =
      (CommitLog.openAt maxSegmentBytes interval s.folder).result ∧
    (CommitLog.openAt maxSegmentBytes interval s'.folder).state =
      (CommitLog.openAt maxSegmentBytes interval s.folder).state
  appends : ∀ (payload : Bytes) (timestamp : Option ℤ) (now : ℤ),
    (LogOp.append payload timestamp now).Admissible s → s.read s.nextOffset = none ∧
      ∃ t out, CommitLog.append payload timestamp now s' = ⟨t, out, .ok s.nextOffset⟩ ∧
        t.read s.nextOffset = some ⟨s.nextOffset, timestamp.getD now, payload⟩

theorem Tracks.untouched (h : Tracks s a) : Untouched s s where
  next := rfl
  reads _ := rfl
  reopens _ _ := ⟨rfl, rfl⟩
  appends payload timestamp now hop := by
    have hnext : s.nextOffset = a.next := h.observes.1
    refine ⟨?_, ?_⟩
    · rw [h.observes.2, hnext]
      have hno := a.get_isSome_iff (a.next : ℤ)
      rw [← Option.not_isSome_iff_eq_none, hno]
      omega
    · obtain ⟨t, out, hrun, ht⟩ := h.append hop
      refine ⟨t, out, by rw [hnext]; exact hrun, ?_⟩
      have hget := (a.append (timestamp.getD now, payload)).get_add a.items.length
      rw [ht.observes.2, hnext]
      simpa [AbstractLog.append, AbstractLog.next] using hget

/-- A batch whose records do not all go into the first blob has one. -/
theorem nextOffset_lt_of_encoded {payloads : List Bytes} {timestamps : Option (List ℤ)} {now : ℤ}
    {max size : ℕ} (hin : ¬ InFirstBlob max size (encoded (s.items payloads timestamps now))) :
    s.nextOffset < 2 ^ 64 := by
  have hlen : 0 < (encoded (s.items payloads timestamps now)).length := by
    have := (not_or.mp hin).1
    omega
  obtain ⟨left, -, henc, -⟩ := encoded_split (s.items payloads timestamps now)
  obtain ⟨-, hle⟩ := offset_encoded (offset_batch s.nextOffset payloads
    (timestamps.getD (List.replicate payloads.length now)))
  obtain ⟨r, hr⟩ := List.exists_mem_of_length_pos hlen
  exact lt_of_le_of_lt (hle r hr) (henc r hr).2.1

/-- After any intact calls, an `append_many` that raises has left the log untouched exactly when the
elements before the first one that cannot be encoded are all in the first blob. -/
theorem appendMany_untouched_iff {maxSegmentBytes interval : ℕ}
    (hs : Reach LogOp.after LogOp.Intact (CommitLog.openAt maxSegmentBytes interval {}).state s)
    {payloads : List Bytes} {timestamps : Option (List ℤ)} {now : ℤ} {e : LogError}
    (he : (CommitLog.appendMany payloads timestamps now s).result = .error e) :
    Untouched s (CommitLog.appendMany payloads timestamps now s).state ↔
      InFirstBlob s.maxSegmentBytes s.activeSize
        (encoded (s.items payloads timestamps now)) := by
  obtain ⟨a, h⟩ := tracks_of_intact hs
  obtain ⟨segs, seg, hsegs, hb, hn⟩ := h.active
  have hlt : (encoded (s.items payloads timestamps now)).length < payloads.length := by
    refine encoded_lt fun hall => ?_
    obtain ⟨s', out, hrun⟩ := appendMany_encodable hsegs hb hn hall
    rw [hrun] at he
    cases he
  obtain ⟨s', out, e', hrun, hend⟩ := appendMany_refused hsegs hb hn hlt
  rw [hrun]
  split_ifs at hend with hin
  · rw [hend]
    exact iff_of_true h.untouched hin
  · refine iff_of_false ?_ hin
    intro hu
    -- the next `append` finds the stranded segment
    obtain ⟨hmax, hnext, hstr⟩ := hend
    have hpos : 0 < s'.maxSegmentBytes := by
      obtain ⟨sh, hl, -⟩ := h
      rw [hmax]
      exact hl.max_pos
    have hnext64 := nextOffset_lt_of_encoded hin
    obtain ⟨-, t, out', hok, -⟩ := hu.appends [] (some 0) 0
      ⟨Nat.zero_le _, by decide, hnext64⟩
    have henc : Record.Encodable ⟨s'.nextOffset, (some 0).getD 0, []⟩ := by
      refine ⟨Nat.two_pow_pos 32, ?_, by show FitsI64 0; decide⟩
      rw [hnext]
      exact hnext64
    have hbad := hstr.append hpos henc
    rw [hok] at hbad
    cases hbad

/-- Two payloads and one timestamp: the call raises before its first write. -/
theorem appendMany_untouched_short :
    Untouched (CommitLog.openAt 40 1 {}).state
        (CommitLog.appendMany [[1], [2]] (some [5]) 0 (CommitLog.openAt 40 1 {}).state).state ↔
      InFirstBlob (CommitLog.openAt 40 1 {}).state.maxSegmentBytes
        (CommitLog.openAt 40 1 {}).state.activeSize
        (encoded ((CommitLog.openAt 40 1 {}).state.items [[1], [2]] (some [5]) 0)) :=
  appendMany_untouched_iff .refl (e := .indexError) (by decide +kernel)

/-- Three payloads and two timestamps, in segments of at most 40 bytes: the first record is written
before the call raises, and the next `append` raises too. -/
theorem appendMany_stranded :
    (CommitLog.appendMany [[1], [2], [3]] (some [5, 5]) 0
      (CommitLog.openAt 40 1 {}).state).result = .error .indexError ∧
    (CommitLog.append [7] (some 5) 0 (CommitLog.appendMany [[1], [2], [3]] (some [5, 5]) 0
      (CommitLog.openAt 40 1 {}).state).state).result = .error .structError ∧
    ¬ Untouched (CommitLog.openAt 40 1 {}).state
      (CommitLog.appendMany [[1], [2], [3]] (some [5, 5]) 0
        (CommitLog.openAt 40 1 {}).state).state := by
  have hbad : (CommitLog.append [7] (some 5) 0 (CommitLog.appendMany [[1], [2], [3]] (some [5, 5]) 0
      (CommitLog.openAt 40 1 {}).state).state).result = .error .structError := by decide +kernel
  refine ⟨by decide +kernel, hbad, fun hu => ?_⟩
  obtain ⟨-, t, out, hok, -⟩ := hu.appends [7] (some 5) 0
    ⟨by decide, by decide, by decide +kernel⟩
  rw [hok] at hbad
  cases hbad

end Pylog.Log
