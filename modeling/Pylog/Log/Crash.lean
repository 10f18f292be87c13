import Pylog.Base.Transition
import Pylog.Log.Refine

/-!
# A crash during an append

A history of appends and truncations keeps a layout (`laid_of_reach`); a crash at any byte of a
further append leaves a directory that opens as the old records and the completely written new ones
(`reopen_after_crash`).
-/

namespace Pylog.Log

open Effect Effect.Handler Files Framing Transition

namespace LogOp

/-- The calls of a history: appends that return, and cuts at any offset. -/
def Writing (s : CommitLog) : LogOp → Prop
  | append payload timestamp now => Admissible s (append payload timestamp now)
  | appendMany payloads timestamps now => Admissible s (appendMany payloads timestamps now)
  | truncateFrom _ => True
  | truncateSegmentsBefore _ => False
  | reopen => False

/-- A call that returns: an admissible one, or a cut at any offset. -/
def Returning (s : CommitLog) : LogOp → Prop
  | truncateFrom _ => True
  | op => Admissible s op

/-- The records a call appends, if it is an append. -/
def items : LogOp → Option (List Datum)
  | append payload timestamp now => some [(timestamp.getD now, payload)]
  | appendMany payloads timestamps now => some (batchData payloads timestamps now)
  | _ => none

/-- The state after a call. -/
def after (s : CommitLog) (op : LogOp) : CommitLog := (op.exec s).state

section After

variable (s : CommitLog)

theorem after_append (payload : Bytes) (timestamp : Option ℤ) (now : ℤ) :
    (append payload timestamp now).after s = (CommitLog.append payload timestamp now s).state :=
  bind_pure_state _ _ _

theorem after_appendMany (payloads : List Bytes) (timestamps : Option (List ℤ)) (now : ℤ) :
    (appendMany payloads timestamps now).after s =
      (CommitLog.appendMany payloads timestamps now s).state :=
  bind_pure_state _ _ _

theorem after_truncateFrom (offset : ℤ) :
    (truncateFrom offset).after s = (CommitLog.truncateFrom offset s).state :=
  bind_pure_state _ _ _

theorem after_truncateSegmentsBefore (m : ℤ) :
    (truncateSegmentsBefore m).after s = (CommitLog.truncateSegmentsBefore m s).state :=
  bind_pure_state _ _ _

theorem after_reopen : reopen.after s =
    (CommitLog.openAt s.maxSegmentBytes s.indexIntervalBytes s.folder).state := rfl

end After

end LogOp

/-- `m` is the number of records of `new`, written from offset `b` on, that are complete after
`bytes` bytes. -/
def Completes (b : ℕ) (new : List Datum) (bytes m : ℕ) : Prop :=
  m ≤ new.length ∧ (encodeAll (records b (new.take m))).length ≤ bytes ∧
    (m < new.length → bytes < (encodeAll (records b (new.take (m + 1)))).length)

theorem Interrupted.completes {d : Folder} {first : ℕ} {old new : List Datum} {done : List FileOp}
    {sh : Shape} {m : ℕ} {t : Bytes} (h : Interrupted d first old new done sh m t) :
    Completes (first + old.length) new (logBytes done) m := by
  refine ⟨h.le, by rw [h.written]; omega, ?_⟩
  intro hlt
  have htake : new.take (m + 1) = new.take m ++ [new[m]] := by
    rw [List.take_add_one, List.getElem?_eq_getElem hlt]
    rfl
  have hlen : (new.take m).length = m := by
    rw [List.length_take]
    omega
  have hdrop : records (first + old.length + m) (new.drop m) =
      ⟨first + old.length + m, new[m].1, new[m].2⟩ ::
        records (first + old.length + m + 1) (new.drop (m + 1)) := by
    rw [List.drop_eq_getElem_cons hlt, records_cons]
  have ht := h.torn.length_lt hdrop (Record.length_bytes_pos _)
  rw [h.written, htake, records_append, encodeAll_append, List.length_append, hlen]
  simp only [records_cons, records_nil, encodeAll_cons, encodeAll_nil, List.append_nil]
  omega

theorem CommitLog.Lays.truncateFrom_below {s : CommitLog} {sh : Shape} (h : s.Lays sh) {o : ℤ}
    (ho : o < sh.first) : CommitLog.truncateFrom o s = ⟨s, [], .ok false⟩ := by
  unfold CommitLog.truncateFrom
  rw [read_bind, h.bisect_below ho]
  rfl

/-- A cut at or above the first record. -/
theorem Tracks.admissible_of_le {s : CommitLog} {a : AbstractLog} (h : Tracks s a) {offset : ℤ}
    (ho : (a.first : ℤ) ≤ offset) : (LogOp.truncateFrom offset).Admissible s := by
  intro seg hseg
  have hhead := h.head
  rw [hseg] at hhead
  rwa [Option.some.inj hhead]

/-- A cut below the first record changes nothing. -/
theorem Tracks.exec_below {s : CommitLog} {a : AbstractLog} (h : Tracks s a) {offset : ℤ}
    (ho : offset < a.first) :
    (LogOp.truncateFrom offset).exec s = ⟨s, [], .ok (.changed false)⟩ := by
  obtain ⟨sh, hl, -, rfl⟩ := h
  exact bind_run (hl.truncateFrom_below ho) (pure_eq _ _)

/-- A call that returns keeps a layout; appends and cuts keep its start. -/
theorem Tracks.after {s : CommitLog} {a : AbstractLog} (h : Tracks s a) {op : LogOp}
    (hop : op.Returning s) :
    ∃ a', Tracks (op.after s) a' ∧ (op.Writing s → a'.first = a.first) := by
  by_cases hadm : op.Admissible s
  · obtain ⟨s', a', v, out, hrun, hmeans, h'⟩ := h.step hadm
    refine ⟨a', ?_, ?_⟩
    · unfold LogOp.after
      rwa [hrun]
    · intro hw
      cases op with
      | append payload timestamp now =>
        rw [hmeans.2]
        rfl
      | appendMany payloads timestamps now =>
        rw [hmeans.2, AbstractLog.foldl_append]
      | truncateFrom offset =>
        rw [hmeans.2]
        rfl
      | truncateSegmentsBefore m => exact hw.elim
      | reopen => exact hw.elim
  · cases op with
    | truncateFrom offset =>
      -- a cut below the first segment changes nothing
      have hlow : offset < a.first := not_le.mp fun ho => hadm (h.admissible_of_le ho)
      have hsame : (LogOp.truncateFrom offset).after s = s :=
        congrArg Outcome.state (h.exec_below hlow)
      rw [hsame]
      exact ⟨a, h, fun _ => rfl⟩
    | append payload timestamp now => exact absurd hop hadm
    | appendMany payloads timestamps now => exact absurd hop hadm
    | truncateSegmentsBefore m => exact absurd hop hadm
    | reopen => exact absurd hop hadm

theorem LogOp.Writing.returning {s : CommitLog} {op : LogOp} (h : op.Writing s) :
    op.Returning s := by
  cases op with
  | append payload timestamp now => exact h
  | appendMany payloads timestamps now => exact h
  | truncateFrom offset => trivial
  | truncateSegmentsBefore m => exact h.elim
  | reopen => exact h.elim

variable {maxSegmentBytes interval : ℕ} {s : CommitLog}

theorem tracks_openAt_nil (maxSegmentBytes interval : ℕ) :
    Tracks (CommitLog.openAt maxSegmentBytes interval {}).state ⟨0, []⟩ := by
  obtain ⟨s₀, out, hrun, hl, hn, -, -⟩ := CommitLog.openAt_nil maxSegmentBytes interval
  rw [hrun]
  exact ⟨CommitLog.emptyShape, hl, hn, rfl⟩

/-- Every run of calls that return keeps a layout. -/
theorem tracks_of_run
    (hs : Reach LogOp.after LogOp.Returning (CommitLog.openAt maxSegmentBytes interval {}).state s) :
    ∃ a, Tracks s a := by
  refine hs.inv (fun s => ∃ a, Tracks s a) ⟨_, tracks_openAt_nil maxSegmentBytes interval⟩ ?_
  rintro s op - ⟨a, h⟩ hop
  obtain ⟨a', h', -⟩ := h.after hop
  exact ⟨a', h'⟩

/-- Every history of appends and cuts keeps a layout that starts at offset `0`. -/
theorem tracks_of_reach
    (hs : Reach LogOp.after LogOp.Writing (CommitLog.openAt maxSegmentBytes interval {}).state s) :
    ∃ a, Tracks s a ∧ a.first = 0 := by
  refine hs.inv (fun s => ∃ a, Tracks s a ∧ a.first = 0)
    ⟨_, tracks_openAt_nil maxSegmentBytes interval, rfl⟩ ?_
  rintro s op - ⟨a, h, h0⟩ hop
  obtain ⟨a', h', hfirst⟩ := h.after hop.returning
  exact ⟨a', h', (hfirst hop).trans h0⟩

/-- The records of an admissible append can be written. -/
theorem LogOp.fits_items {op : LogOp} {new : List Datum} (hnew : op.items = some new)
    (hop : op.Writing s) : ∀ r ∈ records s.nextOffset new, r.Fits := by
  cases op with
  | append payload timestamp now =>
    obtain ⟨h1, h2, h3⟩ := hop
    obtain rfl := Option.some.inj hnew
    exact fits_of_mem (by rw [List.length_singleton]; omega) (by simp [h1, h2])
  | appendMany payloads timestamps now =>
    obtain ⟨h1, h2, h3⟩ := hop
    obtain rfl := Option.some.inj hnew
    exact fits_of_mem (by rw [length_batchData h1]; omega) h2
  | truncateFrom offset => cases hnew
  | truncateSegmentsBefore m => cases hnew
  | reopen => cases hnew

/-- The cuts of an append. -/
theorem Tracks.cuts {a : AbstractLog} (h : Tracks s a) {op : LogOp} {new : List Datum}
    (hnew : op.items = some new) (hop : op.Writing s) :
    Cuts s.folder a.first a.items new (op.exec s).out := by
  have hfits := LogOp.fits_items hnew hop
  obtain ⟨sh, hl, hn, rfl⟩ := h
  rw [hn] at hfits
  cases op with
  | append payload timestamp now =>
    obtain rfl := Option.some.inj hnew
    obtain ⟨s', sh', ops, hrun, happ⟩ := hl.append hn payload timestamp now hfits
    have hexec : (LogOp.append payload timestamp now).exec s = _ := bind_run hrun (pure_eq _ _)
    rw [hexec, List.append_nil]
    exact happ.cuts
  | appendMany payloads timestamps now =>
    obtain rfl := Option.some.inj hnew
    obtain ⟨s', sh', ops, hrun, happ⟩ := hl.appendMany hn payloads timestamps now hop.1 hfits
    have hexec : (LogOp.appendMany payloads timestamps now).exec s = _ :=
      bind_run hrun (pure_eq _ _)
    rw [hexec, List.append_nil]
    exact happ.cuts
  | truncateFrom offset => cases hnew
  | truncateSegmentsBefore m => cases hnew
  | reopen => cases hnew

/-- After a history of appends and truncations, let an append be cut
off in file operation `k` after `n` bytes of it.  The directory opens as the old records and the `m`
records of the call that were completely written; opening it again finds the same. -/
theorem reopen_after_crash
    (hs : Reach LogOp.after LogOp.Writing (CommitLog.openAt maxSegmentBytes interval {}).state s)
    {op : LogOp} {new : List Datum} (hnew : op.items = some new) (hop : op.Writing s) (k n : ℕ) :
    ∃ (a : AbstractLog) (m : ℕ) (s₁ s₂ : CommitLog), Observes s a ∧
      Completes s.nextOffset new (logBytes (crash (op.exec s).out k n)) m ∧
      (∃ out, CommitLog.openAt maxSegmentBytes interval
        (s.folder.performAll (crash (op.exec s).out k n)) = ⟨s₁, out, .ok ()⟩) ∧
      Observes s₁ ⟨a.first, a.items ++ new.take m⟩ ∧
      (∃ out, CommitLog.openAt maxSegmentBytes interval s₁.folder = ⟨s₂, out, .ok ()⟩) ∧
      s₂.segments = s₁.segments ∧ s₂.nextOffset = s₁.nextOffset ∧
      s₂.folder.logs = s₁.folder.logs := by
  obtain ⟨a, h, -⟩ := tracks_of_reach hs
  obtain ⟨sh, m, t, hint⟩ := h.cuts hnew hop k n
  have hcompl := hint.completes
  have hnext : s.nextOffset = a.first + a.items.length := h.observes.1
  rw [← hnext] at hcompl
  have hfits : ∀ r ∈ records (a.first + a.items.length + m) (new.drop m), r.Fits := by
    intro r hr
    rw [← hnext, ← records_drop _ _ hint.le] at hr
    exact LogOp.fits_items hnew hop r (List.mem_of_mem_drop hr)
  obtain ⟨s₁, out₁, hrun₁, hl₁, hseg₁, hn₁, -, -, -⟩ := CommitLog.openAt_eq maxSegmentBytes interval
    hint.holds (Segment.ends_of_torn hfits hint.torn)
  obtain ⟨s₂, out₂, hrun₂, hl₂, hseg₂, hn₂, -, -, -⟩ := CommitLog.openAt_eq maxSegmentBytes interval
    hl₁.holds (.inl readRecord_nil)
  refine ⟨a, m, s₁, s₂, h.observes, hcompl, ⟨out₁, hrun₁⟩, ?_, ⟨out₂, hrun₂⟩, ?_, ?_, ?_⟩
  · refine Tracks.observes ⟨sh, hl₁, hn₁, ?_⟩
    rw [hint.first_eq, hint.data]
  · rw [hseg₁, hseg₂]
  · rw [hn₁, hn₂]
  · rw [hl₁.files, hl₂.files]

/-- The first append, cut off inside its header. -/
theorem reopen_after_crash_in_header :
    ∃ (a : AbstractLog) (m : ℕ) (s₁ s₂ : CommitLog),
      Observes (CommitLog.openAt 64 1 {}).state a ∧
      Completes (CommitLog.openAt 64 1 {}).state.nextOffset [(5, [7])]
        (logBytes (crash ((LogOp.append [7] (some 5) 0).exec
          (CommitLog.openAt 64 1 {}).state).out 0 3)) m ∧
      (∃ out, CommitLog.openAt 64 1 ((CommitLog.openAt 64 1 {}).state.folder.performAll
        (crash ((LogOp.append [7] (some 5) 0).exec (CommitLog.openAt 64 1 {}).state).out 0 3)) =
          ⟨s₁, out, .ok ()⟩) ∧
      Observes s₁ ⟨a.first, a.items ++ [(5, [7])].take m⟩ ∧
      (∃ out, CommitLog.openAt 64 1 s₁.folder = ⟨s₂, out, .ok ()⟩) ∧
      s₂.segments = s₁.segments ∧ s₂.nextOffset = s₁.nextOffset ∧
      s₂.folder.logs = s₁.folder.logs :=
  reopen_after_crash .refl rfl (by
    refine ⟨by decide, by decide, ?_⟩
    obtain ⟨s, out, hrun, -, hn, -, -⟩ := CommitLog.openAt_nil 64 1
    rw [hrun, hn]
    decide) 0 3

end Pylog.Log
