import Pylog.Log.Layout

/-!
# Appends, with what a crash leaves of them

`Interrupted d first old new done`: after the file operations `done` the directory holds the records
`old`, the first `m` records of `new` and a torn rest, where `m` is the number of records of `new`
whose bytes have all been written.  Both appends reach only such directories, at every cut.
-/

namespace Pylog.Log

open Effect Effect.Handler Files Framing Bisect

/-- The bytes an operation writes to `.log` files. -/
def FileOp.logBytes : FileOp → ℕ
  | ⟨.log, .append _ bs⟩ => bs.length
  | _ => 0

def logBytes (ops : List FileOp) : ℕ := (ops.map FileOp.logBytes).sum

@[simp] theorem logBytes_nil : logBytes [] = 0 := rfl

@[simp] theorem logBytes_cons (o : FileOp) (ops : List FileOp) :
    logBytes (o :: ops) = o.logBytes + logBytes ops := by
  simp [logBytes]

theorem logBytes_append (xs ys : List FileOp) : logBytes (xs ++ ys) = logBytes xs + logBytes ys := by
  simp [logBytes]

theorem IndexOnly.logBytes : ∀ {ops : List FileOp}, IndexOnly ops → logBytes ops = 0
  | [], _ => rfl
  | ⟨ext, op⟩ :: ops, h => by
    obtain rfl : ext = .index := h ⟨ext, op⟩ (by simp)
    have hops : IndexOnly ops := fun o ho => h o (by simp [ho])
    rw [logBytes_cons, hops.logBytes]
    rfl

/-- What reached the disk when the process stopped in operation `k`, after `n` bytes of it. -/
def crash (ops : List FileOp) (k n : ℕ) : List FileOp := cut FileOp.part ops k n

theorem IndexOnly.crash {ops : List FileOp} (h : IndexOnly ops) (k n : ℕ) :
    IndexOnly (crash ops k n) := by
  intro o ho
  rcases List.mem_append.mp ho with ho | ho
  · exact h o (List.mem_of_mem_take ho)
  · obtain ⟨o', ho', hpart⟩ := List.mem_filterMap.mp ho
    have hmem : o' ∈ ops.drop k := List.mem_of_mem_head? (by simpa using ho')
    have hext := h o' (List.mem_of_mem_drop hmem)
    obtain ⟨ext, op⟩ := o'
    cases op with
    | append b bs =>
      simp only [FileOp.part, Option.some.injEq] at hpart
      rw [← hpart]
      exact hext
    | create b => simp [FileOp.part] at hpart
    | truncate b n => simp [FileOp.part] at hpart
    | remove b => simp [FileOp.part] at hpart

/-- The files of the shape, with the bytes `t` behind the last record. -/
def Folder.Holds (d : Folder) (sh : Shape) (t : Bytes) : Prop :=
  d.logs = (placed sh.first sh.full).map fileOf ++
    [(sh.base, encodeAll (records sh.base sh.active) ++ t)]

/-- The directory after the operations `done` of a write of `new` behind `old`. -/
structure Interrupted (d : Folder) (first : ℕ) (old new : List Datum) (done : List FileOp)
    (sh : Shape) (m : ℕ) (t : Bytes) : Prop where
  holds : (d.performAll done).Holds sh t
  first_eq : sh.first = first
  le : m ≤ new.length
  data : sh.data = old ++ new.take m
  written : logBytes done =
    (encodeAll (records (first + old.length) (new.take m))).length + t.length
  torn : Torn Record.bytes (records (first + old.length + m) (new.drop m)) t

/-- Every cut of the operations leaves old records, complete new ones and a torn rest. -/
def Cuts (d : Folder) (first : ℕ) (old new : List Datum) (ops : List FileOp) : Prop :=
  ∀ k n, ∃ sh m t, Interrupted d first old new (crash ops k n) sh m t

namespace CommitLog

variable {s : CommitLog} {sh : Shape}

theorem Lays.holds (h : s.Lays sh) : s.folder.Holds sh [] := by
  unfold Folder.Holds
  rw [h.logs, List.append_nil]

/-- Nothing was written to a `.log` file yet. -/
theorem Lays.interrupted {done : List FileOp} (h : s.Lays sh) (new : List Datum)
    (hl : (s.folder.performAll done).logs = s.folder.logs) (hb : logBytes done = 0) :
    Interrupted s.folder sh.first sh.data new done sh 0 [] where
  holds := by
    unfold Folder.Holds
    rw [hl, h.logs, List.append_nil]
  first_eq := rfl
  le := by omega
  data := by simp
  written := by simpa using hb
  torn := .inl rfl

/-- The cuts of one write behind the records. -/
theorem Lays.cuts_write (h : s.Lays sh) {fs : List Datum} (hf : ∀ r ∈ records sh.stop fs, r.Fits)
    {idx : List FileOp} (hidx : IndexOnly idx) :
    Cuts s.folder sh.first sh.data fs
      (⟨.log, .append sh.base (encodeAll (records sh.stop fs))⟩ :: idx) := by
  have hwrite : ∀ bs : Bytes, (s.folder.perform ⟨.log, .append sh.base bs⟩).logs =
      (placed sh.first sh.full).map fileOf ++
        [(sh.base, encodeAll (records sh.base sh.active) ++ bs)] := by
    intro bs
    rw [Folder.perform_log_logs, Dir.perform, h.get, h.logs, Dir.put_mid sh.base_notMem]
    rfl
  have hshape : ∀ (m : ℕ) (t : Bytes), encodeAll (records sh.base sh.active) ++
      (encodeAll (records sh.stop (fs.take m)) ++ t) =
      encodeAll (records sh.base (sh.active ++ fs.take m)) ++ t := by
    intro m t
    rw [records_append, encodeAll_append, sh.stop_eq, List.append_assoc]
  have hfm : ∀ m, ∀ r ∈ records sh.stop (fs.take m), r.Fits := by
    intro m r hr
    rw [← records_take] at hr
    exact hf r (List.mem_of_mem_take hr)
  rintro (_ | k) n
  · -- the crash falls into the write
    obtain ⟨m, hm, t, hp, ht⟩ := exists_torn (records sh.stop fs)
      (List.take_prefix n (encodeAll (records sh.stop fs)))
    rw [length_records] at hm
    rw [records_take] at hp
    rw [records_drop _ _ hm] at ht
    refine ⟨sh.extend (fs.take m) (hfm m), m, t, ?_⟩
    have hdone : crash (⟨.log, .append sh.base (encodeAll (records sh.stop fs))⟩ :: idx) 0 n =
        [⟨.log, .append sh.base (encodeAll (records sh.stop (fs.take m)) ++ t)⟩] := by
      unfold crash
      rw [cut_zero, FileOp.part, hp]
      rfl
    rw [hdone]
    refine ⟨?_, rfl, hm, by simp, ?_, ht⟩
    · unfold Folder.Holds
      rw [Folder.performAll_cons, Folder.performAll_nil, hwrite, hshape]
      rfl
    · rw [logBytes_cons, logBytes_nil, FileOp.logBytes, List.length_append]
      rfl
  · -- the write is done
    refine ⟨sh.extend fs hf, fs.length, [], ?_⟩
    have hdone : crash (⟨.log, .append sh.base (encodeAll (records sh.stop fs))⟩ :: idx) (k + 1) n =
        ⟨.log, .append sh.base (encodeAll (records sh.stop fs))⟩ :: crash idx k n :=
      cut_succ _ _ _ _ _
    rw [hdone]
    refine ⟨?_, rfl, le_rfl, by simp, ?_, .inl rfl⟩
    · have hall := hshape fs.length []
      rw [List.take_length, List.append_nil] at hall
      unfold Folder.Holds
      rw [Folder.performAll_cons, (hidx.crash k n).logs, hwrite, hall]
      rfl
    · rw [logBytes_cons, (hidx.crash k n).logBytes, FileOp.logBytes, List.take_length]
      rfl

/-- The cuts of `_new_segment`. -/
theorem Lays.cuts_roll (h : s.Lays sh) (ha : sh.active ≠ []) (new : List Datum) :
    Cuts s.folder sh.first sh.data new
      [⟨.log, .create sh.stop⟩, ⟨.index, .create sh.stop⟩] := by
  rintro (_ | k) n
  · exact ⟨sh, 0, [], h.interrupted new rfl rfl⟩
  · obtain ⟨s', -, hlays, hran⟩ := h.newSegment ha
    have hdone : crash [⟨.log, .create sh.stop⟩, ⟨.index, .create sh.stop⟩] (k + 1) n =
        ⟨.log, .create sh.stop⟩ :: crash [⟨.index, .create sh.stop⟩] k n :=
      cut_succ _ _ _ _ _
    have hidx : IndexOnly [⟨.index, .create sh.stop⟩] := by simp [IndexOnly]
    refine ⟨sh.roll ha, 0, [], ?_⟩
    rw [hdone]
    refine ⟨?_, rfl, by omega, by simp, ?_, .inl rfl⟩
    · have hholds := hlays.holds
      unfold Folder.Holds at hholds ⊢
      rw [hran.folder] at hholds
      rw [Folder.performAll_cons, (hidx.crash k n).logs, ← hholds]
      rfl
    · rw [logBytes_cons, (hidx.crash k n).logBytes]
      rfl

end CommitLog

/-- A block that wrote all of its records, and then another one. -/
theorem Cuts.append {d : Folder} {first : ℕ} {old new₁ new₂ : List Datum} {xs ys : List FileOp}
    (hx : Cuts d first old new₁ xs) (hy : Cuts (d.performAll xs) first (old ++ new₁) new₂ ys)
    (hb : logBytes xs = (encodeAll (records (first + old.length) new₁)).length) :
    Cuts d first old (new₁ ++ new₂) (xs ++ ys) := by
  intro k n
  rcases cut_append FileOp.part xs ys k n with ⟨he, hk⟩ | ⟨k', he⟩
  · obtain ⟨sh, m, t, h⟩ := hx k n
    refine ⟨sh, m, t, ?_⟩
    have hm := h.le
    have htake : (new₁ ++ new₂).take m = new₁.take m := List.take_append_of_le_length hm
    unfold crash at h ⊢
    rw [he]
    refine ⟨h.holds, h.first_eq, by rw [List.length_append]; omega, ?_, ?_, ?_⟩
    · rw [htake]
      exact h.data
    · rw [htake]
      exact h.written
    · rw [List.drop_append_of_le_length hm, records_append]
      rcases h.torn with ht | ⟨r, rs, hr, h1, h2⟩
      · exact .inl ht
      · exact .inr ⟨r, rs ++ records (first + old.length + m + (new₁.drop m).length) new₂, by
          rw [hr]; rfl, h1, h2⟩
  · obtain ⟨sh, m, t, h⟩ := hy k' n
    refine ⟨sh, new₁.length + m, t, ?_⟩
    have htake : (new₁ ++ new₂).take (new₁.length + m) = new₁ ++ new₂.take m := by
      rw [List.take_append, List.take_of_length_le (by omega), Nat.add_sub_cancel_left]
    have hdrop : (new₁ ++ new₂).drop (new₁.length + m) = new₂.drop m := by
      rw [List.drop_append, List.drop_of_length_le (by omega), Nat.add_sub_cancel_left,
        List.nil_append]
    have hw := h.written
    have ht := h.torn
    rw [List.length_append] at hw ht
    unfold crash at h hw ⊢
    rw [he]
    refine ⟨?_, h.first_eq, ?_, ?_, ?_, ?_⟩
    · rw [Folder.performAll_append]
      exact h.holds
    · rw [List.length_append]
      have := h.le
      omega
    · rw [htake, ← List.append_assoc]
      exact h.data
    · rw [logBytes_append, hb, hw, htake, records_append, encodeAll_append, List.length_append,
        ← Nat.add_assoc, ← Nat.add_assoc]
    · rw [hdrop]
      rwa [show first + old.length + (new₁.length + m) = first + (old.length + new₁.length) + m by
        omega]

/-- The size of the active segment. -/
def Shape.activeBytes (sh : Shape) : ℕ := (encodeAll (records sh.base sh.active)).length

namespace CommitLog

/-- The records `new` were appended by the file operations `ops`; `next_offset` is not set yet. -/
structure Appended (s s' : CommitLog) (sh sh' : Shape) (new : List Datum) (ops : List FileOp) :
    Prop where
  lays : s'.Lays sh'
  first : sh'.first = sh.first
  data : sh'.data = sh.data ++ new
  ran : Ran s s' ops
  cuts : Cuts s.folder sh.first sh.data new ops
  bytes : logBytes ops = (encodeAll (records sh.stop new)).length

variable {s s' s'' : CommitLog} {sh sh' sh'' : Shape}

theorem Appended.stop {new : List Datum} {ops : List FileOp} (h : Appended s s' sh sh' new ops) :
    sh'.stop = sh.stop + new.length := by
  unfold Shape.stop
  rw [h.first, h.data, List.length_append]
  omega

theorem Appended.trans {new new' : List Datum} {ops ops' : List FileOp}
    (h : Appended s s' sh sh' new ops) (h' : Appended s' s'' sh' sh'' new' ops') :
    Appended s s'' sh sh'' (new ++ new') (ops ++ ops') where
  lays := h'.lays
  first := h'.first.trans h.first
  data := by rw [h'.data, h.data, List.append_assoc]
  ran := h.ran.trans h'.ran
  cuts := by
    have hc := h'.cuts
    rw [h.first, h.data, h.ran.folder] at hc
    exact h.cuts.append hc h.bytes
  bytes := by
    rw [logBytes_append, h.bytes, h'.bytes, h.stop, records_append, encodeAll_append,
      List.length_append]

theorem Lays.appended_roll (h : s.Lays sh) (ha : sh.active ≠ []) :
    ∃ s' ops, CommitLog.newSegment sh.stop s = ⟨s', ops, .ok ()⟩ ∧
      Appended s s' sh (sh.roll ha) [] ops := by
  obtain ⟨s', hrun, hlays, hran⟩ := h.newSegment ha
  exact ⟨s', _, hrun, hlays, rfl, by simp, hran, h.cuts_roll ha [], rfl⟩

/-- A write of records into the active segment. -/
theorem Lays.appended_write (h : s.Lays sh) {fs : List Datum}
    (hf : ∀ r ∈ records sh.stop fs, r.Fits) {segs : List Segment} {seg seg' : Segment}
    (hs : s.segments = segs ++ [seg])
    (hseg : seg'.Holds s.indexIntervalBytes sh.base (sh.active ++ fs)) {idx : List FileOp}
    (hidx : IndexOnly idx) :
    Appended s
      { s with
        folder := s.folder.performAll
          (⟨.log, .append sh.base (encodeAll (records sh.stop fs))⟩ :: idx)
        segments := segs ++ [seg'] }
      sh (sh.extend fs hf) fs
      (⟨.log, .append sh.base (encodeAll (records sh.stop fs))⟩ :: idx) where
  lays := by
    refine h.extend hf hs hseg ?_
    rw [Folder.performAll_cons, hidx.logs, Folder.perform_log_logs]
  first := rfl
  data := by simp
  ran := ⟨rfl, rfl, rfl, rfl⟩
  cuts := h.cuts_write hf hidx
  bytes := by
    rw [logBytes_cons, hidx.logBytes]
    rfl

/-- The records of the active segment can be followed by those behind the last one. -/
theorem Lays.holds_extend (_ : s.Lays sh) {seg : Segment} {interval : ℕ}
    (hseg : seg.Holds interval sh.base sh.active) (fs : List Datum) :
    (seg.fill (records sh.stop fs)).Holds interval sh.base (sh.active ++ fs) := by
  rw [sh.stop_eq]
  exact hseg.fill

theorem takes_of_fits {fs : List Datum} (hf : ∀ r ∈ records sh.stop fs, r.Fits) :
    Segment.Takes sh.base (records sh.stop fs) := by
  intro r hr
  refine ⟨hf r hr, ?_⟩
  have h1 := (Segment.mem_records hr).1
  rw [sh.stop_eq] at h1
  omega

/-- `Segment.append` on the active segment. -/
theorem Lays.appended_record (h : s.Lays sh) {e : Datum}
    (hf : ∀ r ∈ records sh.stop [e], r.Fits) :
    ∃ s' ops, onActive (Segment.append sh.stop (Record.bytes ⟨sh.stop, e.1, e.2⟩) e.1) s =
        ⟨s', ops, .ok ()⟩ ∧ Appended s s' sh (sh.extend [e] hf) [e] ops := by
  obtain ⟨segs, seg, hs, -, hseg⟩ := h.active
  have htakes := takes_of_fits hf _ (List.mem_singleton_self (⟨sh.stop, e.1, e.2⟩ : Record))
  have hrun := Segment.append_eq (d := s.folder) (r := ⟨sh.stop, e.1, e.2⟩)
    (le_of_eq_of_le hseg.baseOffset htakes.2) htakes.1.offset
  have happ := h.appended_write hf hs (h.holds_extend hseg [e])
    (Segment.noteOps_indexOnly seg sh.stop seg.size)
  refine ⟨_, _, onActive_eq hs hrun, ?_⟩
  unfold Segment.appendOps
  rw [hseg.baseOffset]
  have hbytes : encodeAll (records sh.stop [e]) = Record.bytes ⟨sh.stop, e.1, e.2⟩ := by
    simp
  rw [hbytes] at happ
  exact happ

/-- One blob on the active segment. -/
theorem Lays.appended_blob (h : s.Lays sh) {segs : List Segment} {seg : Segment}
    (hs : s.segments = segs ++ [seg]) {fs : List Datum} (hf : ∀ r ∈ records sh.stop fs, r.Fits) :
    ∃ s' ops, onActive (writeBlob (Segment.positioned seg.size (records sh.stop fs))) s =
        ⟨s', ops, .ok ()⟩ ∧ Appended s s' sh (sh.extend fs hf) fs ops := by
  obtain ⟨segs', seg', hs', -, hseg⟩ := h.active
  obtain ⟨rfl, hlast⟩ := List.append_inj' (hs.symm.trans hs') rfl
  obtain rfl : seg = seg' := by simpa using hlast
  have htakes := takes_of_fits hf
  rw [← hseg.baseOffset] at htakes
  obtain ⟨idx, hidx, hrun⟩ := Segment.writeBlob_eq (d := s.folder) htakes.ranged
  have happ := h.appended_write hf hs (h.holds_extend hseg fs) hidx
  refine ⟨_, _, onActive_eq hs hrun, ?_⟩
  rw [hseg.baseOffset]
  exact happ

theorem orRaise_ok {α : Type} (a : α) (s : CommitLog) :
    orRaise (.ok a : Except LogError α) s = ⟨s, [], .ok a⟩ := rfl

/-! ### `append` -/

theorem Lays.active_ne_nil (_ : s.Lays sh) {seg : Segment} {interval : ℕ}
    (hseg : seg.Holds interval sh.base sh.active) (hsize : 0 < seg.size) : sh.active ≠ [] := by
  intro ha
  rw [hseg.size, ha] at hsize
  simp at hsize

/-- `append` rolls a full active segment before it encodes the record. -/
theorem Lays.rolled (h : s.Lays sh) {segs : List Segment} {seg : Segment}
    (hs : s.segments = segs ++ [seg]) :
    ∃ s₁ sh₁ ops₁,
      when (s.maxSegmentBytes ≤ seg.size) (CommitLog.newSegment sh.stop) s = ⟨s₁, ops₁, .ok ()⟩ ∧
        Appended s s₁ sh sh₁ [] ops₁ ∧ sh₁.activeBytes < s.maxSegmentBytes ∧
        (sh₁ = sh ∨ ∃ ha, sh₁ = sh.roll ha) := by
  obtain ⟨segs', seg', hs', -, hseg⟩ := h.active
  obtain ⟨-, hlast⟩ := List.append_inj' (hs.symm.trans hs') rfl
  obtain rfl : seg = seg' := by simpa using hlast
  by_cases hc : s.maxSegmentBytes ≤ seg.size
  · have ha := h.active_ne_nil hseg (lt_of_lt_of_le h.max_pos hc)
    obtain ⟨s₁, ops₁, hrun, happ⟩ := h.appended_roll ha
    exact ⟨s₁, _, ops₁, by rw [when_eq_of_pos hc, hrun], happ, h.max_pos, .inr ⟨ha, rfl⟩⟩
  · refine ⟨s, sh, [], when_eq_of_neg hc _ _, ⟨h, rfl, by simp, ⟨rfl, rfl, rfl, rfl⟩,
      fun k n => ⟨sh, 0, [], h.interrupted [] (by simp [crash]) (by simp [crash])⟩, rfl⟩, ?_, .inl rfl⟩
    unfold Shape.activeBytes
    rw [← hseg.size]
    omega

/-- `append` writes one record into an active segment that is below the limit: the one there is, or a
new one. -/
theorem Lays.append_rolled (h : s.Lays sh) (hn : s.nextOffset = sh.stop) (payload : Bytes)
    (timestamp : Option ℤ) (now : ℤ)
    (hf : ∀ r ∈ records sh.stop [(timestamp.getD now, payload)], r.Fits) :
    ∃ s' sh₁ hf₁ ops, CommitLog.append payload timestamp now s =
        ⟨{ s' with nextOffset := sh.stop + 1 }, ops, .ok sh.stop⟩ ∧
      Appended s s' sh (sh₁.extend [(timestamp.getD now, payload)] hf₁)
        [(timestamp.getD now, payload)] ops ∧
      sh₁.activeBytes < s.maxSegmentBytes ∧ (sh₁ = sh ∨ ∃ ha, sh₁ = sh.roll ha) := by
  obtain ⟨segs, seg, hs, -, -⟩ := h.active
  obtain ⟨s₁, sh₁, ops₁, hroll, h₁, hlt, hsh₁⟩ := h.rolled hs
  have hstop : sh₁.stop = sh.stop := h₁.stop
  have hfit : (⟨sh.stop, timestamp.getD now, payload⟩ : Record).Fits :=
    hf _ (List.mem_singleton_self _)
  rw [← hstop] at hf
  obtain ⟨s₂, ops₂, hrec, h₂⟩ := h₁.lays.appended_record hf
  rw [hstop] at hrec
  refine ⟨s₂, sh₁, hf, ops₁ ++ ops₂, ?_, h₁.trans h₂, hlt, hsh₁⟩
  unfold CommitLog.append
  rw [read_bind, hn]
  have henc := encodeRecord_eq hfit
  dsimp only at henc
  rw [henc]
  refine (bind_run (active_eq hs) (bind_run hroll
    (bind_run (orRaise_ok _ _) (bind_run hrec (update_pure _ _ _))))).trans ?_
  simp

/-- `append` writes one record behind the others. -/
theorem Lays.append (h : s.Lays sh) (hn : s.nextOffset = sh.stop) (payload : Bytes)
    (timestamp : Option ℤ) (now : ℤ)
    (hf : ∀ r ∈ records sh.stop [(timestamp.getD now, payload)], r.Fits) :
    ∃ s' sh' ops, CommitLog.append payload timestamp now s =
        ⟨{ s' with nextOffset := sh.stop + 1 }, ops, .ok sh.stop⟩ ∧
      Appended s s' sh sh' [(timestamp.getD now, payload)] ops := by
  obtain ⟨s', sh₁, hf₁, ops, hrun, happ, -⟩ := h.append_rolled hn payload timestamp now hf
  exact ⟨s', _, ops, hrun, happ⟩

/-- An `append` whose record cannot be encoded has at most rolled the active segment. -/
theorem Lays.append_refused (h : s.Lays sh) (hn : s.nextOffset = sh.stop) {payload : Bytes}
    {timestamp : Option ℤ} {now : ℤ} {e : LogError}
    (he : encodeRecord sh.stop payload (timestamp.getD now) = .error e) :
    ∃ s' sh' ops, CommitLog.append payload timestamp now s = ⟨s', ops, .error e⟩ ∧
      Appended s s' sh sh' [] ops ∧ (sh' = sh ∨ ∃ ha, sh' = sh.roll ha) := by
  obtain ⟨segs, seg, hs, -, -⟩ := h.active
  obtain ⟨s₁, sh₁, ops₁, hroll, h₁, -, hsh₁⟩ := h.rolled hs
  refine ⟨s₁, sh₁, ops₁, ?_, h₁, hsh₁⟩
  unfold CommitLog.append
  rw [read_bind, hn, he]
  rw [bind_eq (active_eq hs), bind_eq hroll, List.nil_append]
  exact congrArg (Outcome.mk s₁ · (.error e)) (List.append_nil ops₁)

/-! ### `append_many` -/

def itemOf (r : Record) : BatchItem := ⟨r.offset, r.payload, some r.timestamp⟩

/-- The inner loop takes a first part of the records, and at least one of them; all but the first
one start below the limit. -/
theorem gather_eq (max : ℕ) : ∀ (rs : List Record) (started : Bool) (pos : ℕ),
    (∀ r ∈ rs, r.Fits) → ∃ j ≤ rs.length,
      gather max started pos (rs.map itemOf) =
        .ok (Segment.positioned pos (rs.take j), (rs.drop j).map itemOf) ∧
      (started = false → rs ≠ [] → 0 < j) ∧
      ∀ i < j, started = true ∨ 0 < i → pos + (encodeAll (rs.take i)).length < max
  | [], _, _, _ => ⟨0, le_rfl, rfl, by simp, fun i hi => absurd hi (Nat.not_lt_zero i)⟩
  | r :: rs, started, pos, hf => by
    have henc := encodeRecord_eq (hf r (by simp))
    by_cases hc : started = true ∧ max < pos + r.bytes.length
    · have hno : started = false → r :: rs ≠ [] → 0 < 0 := by
        intro h0
        rw [hc.1] at h0
        cases h0
      refine ⟨0, by omega, ?_, hno, fun i hi => absurd hi (Nat.not_lt_zero i)⟩
      simp only [List.map_cons, gather, itemOf, henc, if_pos hc]
      rfl
    · obtain ⟨j, hj, hrun, -, hroom⟩ := gather_eq max rs true (pos + r.bytes.length)
        (fun r' hr' => hf r' (by simp [hr']))
      refine ⟨j + 1, by simpa using hj, ?_, fun _ _ => by omega, ?_⟩
      · simp only [List.map_cons, gather, itemOf, henc, if_neg hc]
        rw [hrun]
        rfl
      · rintro (_ | i) hi hpos
        · have hr := r.length_bytes_pos
          have hle : ¬ max < pos + r.bytes.length := fun hlt =>
            hc ⟨hpos.resolve_right (lt_irrefl 0), hlt⟩
          rw [List.take_zero, encodeAll_nil, List.length_nil]
          omega
        · have hi' := hroom i (by omega) (.inl rfl)
          rw [List.take_succ_cons, encodeAll_cons, List.length_append]
          omega

/-- How a batch grows a log: a blob in the active segment, then new segments with a blob each.  All
records of a blob but the first start below the limit. -/
inductive Batched (max : ℕ) : Shape → Shape → Prop
  | last (sh : Shape) (fs : List Datum) (hf : ∀ r ∈ records sh.stop fs, r.Fits) (hne : fs ≠ [])
      (hroom : ∀ i < fs.length, 0 < i →
        sh.activeBytes + (encodeAll (records sh.stop (fs.take i))).length < max) :
      Batched max sh (sh.extend fs hf)
  | next (sh : Shape) (fs : List Datum) (hf : ∀ r ∈ records sh.stop fs, r.Fits) (hne : fs ≠ [])
      (hroom : ∀ i < fs.length, 0 < i →
        sh.activeBytes + (encodeAll (records sh.stop (fs.take i))).length < max)
      (ha : (sh.extend fs hf).active ≠ []) {sh' : Shape}
      (hnext : Batched max ((sh.extend fs hf).roll ha) sh') : Batched max sh sh'

/-- One round of the outer loop writes the first `j` records as one blob, and goes on with what
`rollFor` leaves and the records behind them. -/
theorem Lays.appendLoop_round (h : s.Lays sh) {fs : List Datum} (hne : fs ≠ [])
    (hf : ∀ r ∈ records sh.stop fs, r.Fits) :
    ∃ j s₁ ops₁, ∃ hf₁ : ∀ r ∈ records sh.stop (fs.take j), r.Fits,
      0 < j ∧ j ≤ fs.length ∧ Appended s s₁ sh (sh.extend (fs.take j) hf₁) (fs.take j) ops₁ ∧
      (∀ i < (fs.take j).length, 0 < i → sh.activeBytes +
        (encodeAll (records sh.stop ((fs.take j).take i))).length < s.maxSegmentBytes) ∧
      ∀ fuel {s₂ s₃ ops₂ ops₃},
        rollFor ((records (sh.stop + j) (fs.drop j)).map itemOf) s₁ = ⟨s₂, ops₂, .ok ()⟩ →
        appendLoop fuel ((records (sh.stop + j) (fs.drop j)).map itemOf) s₂ = ⟨s₃, ops₃, .ok ()⟩ →
        appendLoop (fuel + 1) ((records sh.stop fs).map itemOf) s =
          ⟨s₃, ops₁ ++ (ops₂ ++ ops₃), .ok ()⟩ := by
  obtain ⟨segs, seg, hs, -, hseg⟩ := h.active
  obtain ⟨j, hj, hgather, hpos, hroom⟩ := gather_eq s.maxSegmentBytes (records sh.stop fs) false
    seg.size hf
  obtain ⟨e, es, rfl⟩ := List.exists_cons_of_ne_nil hne
  rw [length_records] at hj
  rw [records_take, records_drop _ _ hj] at hgather
  have hf₁ : ∀ r ∈ records sh.stop ((e :: es).take j), r.Fits := by
    intro r hr
    rw [← records_take] at hr
    exact hf r (List.mem_of_mem_take hr)
  obtain ⟨s₁, ops₁, hblob, h₁⟩ := h.appended_blob hs hf₁
  refine ⟨j, s₁, ops₁, hf₁, hpos rfl (by simp), hj, h₁, fun i hi hi0 => ?_, ?_⟩
  · have hsize : sh.activeBytes = seg.size := hseg.size.symm
    rw [List.length_take, Nat.min_eq_left hj] at hi
    rw [List.take_take, Nat.min_eq_left hi.le, ← records_take, hsize]
    exact hroom i hi (.inr hi0)
  · intro fuel s₂ s₃ ops₂ ops₃ hroll hloop
    have hg := congrFun (congrArg orRaise hgather) s
    rw [orRaise_ok] at hg
    show appendLoop (fuel + 1) (itemOf _ :: _) s = _
    unfold appendLoop
    rw [read_bind]
    refine (bind_run (active_eq hs) (bind_run hg (bind_run hblob (bind_run hroll hloop)))).trans ?_
    simp

/-- The outer loop: blob after blob, with a new segment between them. -/
theorem appendLoop_batched : ∀ (fuel : ℕ) (fs : List Datum) (s : CommitLog) (sh : Shape), s.Lays sh →
    fs.length ≤ fuel → (∀ r ∈ records sh.stop fs, r.Fits) →
    ∃ s' sh' ops, appendLoop fuel ((records sh.stop fs).map itemOf) s = ⟨s', ops, .ok ()⟩ ∧
      Appended s s' sh sh' fs ops ∧ (fs ≠ [] → Batched s.maxSegmentBytes sh sh')
  | fuel, [], s, sh, h, _, _ => by
    refine ⟨s, sh, [], ?_, ⟨h, rfl, by simp, ⟨rfl, rfl, rfl, rfl⟩,
      fun k n => ⟨sh, 0, [], h.interrupted [] (by simp [crash]) (by simp [crash])⟩, rfl⟩,
      fun hne => absurd rfl hne⟩
    cases fuel <;> rfl
  | fuel + 1, e :: es, s, sh, h, hlen, hf => by
    obtain ⟨j, s₁, ops₁, hf₁, hj0, hj, h₁, hroom₁, hround⟩ := h.appendLoop_round (by simp) hf
    have hjl : ((e :: es).take j).length = j := by
      rw [List.length_take]
      omega
    have hne₁ : (e :: es).take j ≠ [] := List.ne_nil_of_length_pos (by omega)
    have hstop₁ : (sh.extend ((e :: es).take j) hf₁).stop = sh.stop + j := by
      rw [h₁.stop, hjl]
    have hact : (sh.extend ((e :: es).take j) hf₁).active ≠ [] :=
      List.append_ne_nil_of_right_ne_nil sh.active hne₁
    by_cases hleft : (e :: es).drop j = []
    · -- the batch is done
      have htake : (e :: es).take j = e :: es := by
        rw [← List.append_nil ((e :: es).take j), ← hleft, List.take_append_drop]
      rw [hleft] at hround
      have hrun := hround fuel rfl (show appendLoop fuel [] s₁ = _ by cases fuel <;> rfl)
      rw [List.append_nil, List.append_nil] at hrun
      have happ : ∀ {sh₁}, Appended s s₁ sh sh₁ ((e :: es).take j) ops₁ →
          Appended s s₁ sh sh₁ (e :: es) ops₁ := by
        intro sh₁ h'
        rwa [htake] at h'
      exact ⟨s₁, _, ops₁, hrun, happ h₁, fun _ => .last sh _ hf₁ hne₁ hroom₁⟩
    · obtain ⟨s₂, ops₂, hroll, h₂⟩ := h₁.lays.appended_roll hact
      have hstop₂ : ((sh.extend ((e :: es).take j) hf₁).roll hact).stop = sh.stop + j := by
        rw [h₂.stop, hstop₁]
        rfl
      obtain ⟨s₃, sh₃, ops₃, hloop, h₃, hbatch⟩ := appendLoop_batched fuel ((e :: es).drop j) s₂ _
        h₂.lays (by rw [List.length_drop]; omega) (by
          intro r hr
          rw [hstop₂, ← records_drop _ _ hj] at hr
          exact hf r (List.mem_of_mem_drop hr))
      rw [hstop₂] at hloop
      have hroll' : rollFor ((records (sh.stop + j) ((e :: es).drop j)).map itemOf) s₁ =
          ⟨s₂, ops₂, .ok ()⟩ := by
        obtain ⟨x, xs, hx⟩ := List.exists_cons_of_ne_nil hleft
        rw [hx, records_cons, List.map_cons, rollFor]
        rwa [hstop₁] at hroll
      have hmax : s₂.maxSegmentBytes = s.maxSegmentBytes := h₂.ran.max.trans h₁.ran.max
      rw [hmax] at hbatch
      refine ⟨s₃, sh₃, _, hround fuel hroll' hloop, ?_,
        fun _ => .next sh _ hf₁ hne₁ hroom₁ hact (hbatch hleft)⟩
      have happ := h₁.trans (h₂.trans h₃)
      rwa [List.nil_append, List.take_append_drop] at happ

/-- A batch with a timestamp for every payload. -/
theorem batch_eq {b : ℕ} {payloads : List Bytes} {timestamps : List ℤ}
    (h : payloads.length ≤ timestamps.length) :
    batch b payloads timestamps = (records b (timestamps.zip payloads)).map itemOf := by
  apply List.ext_getElem?
  intro k
  rw [batch, List.getElem?_mapIdx, List.getElem?_map, getElem?_records, List.zip,
    List.getElem?_zipWith]
  rcases Nat.lt_or_ge k payloads.length with hk | hk
  · rw [List.getElem?_eq_getElem hk, List.getElem?_eq_getElem (by omega : k < timestamps.length)]
    rfl
  · rw [List.getElem?_eq_none hk]
    cases timestamps[k]? <;> rfl

/-- `append_many` writes the whole batch and sets `next_offset` behind it. -/
theorem Lays.appendMany_batched (h : s.Lays sh) (hn : s.nextOffset = sh.stop) (payloads : List Bytes)
    (timestamps : Option (List ℤ)) (now : ℤ)
    (hlen : payloads.length ≤ (timestamps.getD (List.replicate payloads.length now)).length)
    (hf : ∀ r ∈ records sh.stop
      ((timestamps.getD (List.replicate payloads.length now)).zip payloads), r.Fits) :
    ∃ s' sh' ops, CommitLog.appendMany payloads timestamps now s =
        ⟨{ s' with nextOffset := sh.stop + payloads.length }, ops,
          .ok (List.range' sh.stop payloads.length)⟩ ∧
      Appended s s' sh sh' ((timestamps.getD (List.replicate payloads.length now)).zip payloads)
        ops ∧ (payloads ≠ [] → Batched s.maxSegmentBytes sh sh') := by
  generalize htss : timestamps.getD (List.replicate payloads.length now) = tss at hlen hf ⊢
  have hzip : (tss.zip payloads).length = payloads.length := by
    rw [List.length_zip]
    omega
  obtain ⟨s', sh', ops, hloop, happ, hbatch⟩ := appendLoop_batched payloads.length
    (tss.zip payloads) s sh h hzip.le hf
  rw [← batch_eq hlen] at hloop
  have hne : payloads ≠ [] → tss.zip payloads ≠ [] := by
    intro hp hnil
    rw [hnil] at hzip
    exact hp (List.eq_nil_of_length_eq_zero hzip.symm)
  refine ⟨s', sh', ops, ?_, happ, fun hp => hbatch (hne hp)⟩
  unfold CommitLog.appendMany
  rw [read_bind]
  by_cases hp : payloads = []
  · subst hp
    rw [if_pos rfl, pure_eq]
    have hnil : batch sh.stop [] tss = [] := rfl
    rw [hnil] at hloop
    obtain ⟨rfl, rfl⟩ : s = s' ∧ [] = ops := by
      have : (⟨s, [], .ok ()⟩ : Outcome CommitLog FileOp LogError Unit) = ⟨s', ops, .ok ()⟩ := hloop
      simpa using this
    rw [List.length_nil, Nat.add_zero, ← hn]
    rfl
  · rw [if_neg hp, hn]
    rw [htss]
    refine (bind_run hloop (update_pure _ _ _)).trans ?_
    rw [List.append_nil]

theorem Lays.appendMany (h : s.Lays sh) (hn : s.nextOffset = sh.stop) (payloads : List Bytes)
    (timestamps : Option (List ℤ)) (now : ℤ)
    (hlen : payloads.length ≤ (timestamps.getD (List.replicate payloads.length now)).length)
    (hf : ∀ r ∈ records sh.stop
      ((timestamps.getD (List.replicate payloads.length now)).zip payloads), r.Fits) :
    ∃ s' sh' ops, CommitLog.appendMany payloads timestamps now s =
        ⟨{ s' with nextOffset := sh.stop + payloads.length }, ops,
          .ok (List.range' sh.stop payloads.length)⟩ ∧
      Appended s s' sh sh' ((timestamps.getD (List.replicate payloads.length now)).zip payloads)
        ops := by
  obtain ⟨s', sh', ops, hrun, happ, -⟩ := h.appendMany_batched hn payloads timestamps now hlen hf
  exact ⟨s', sh', ops, hrun, happ⟩

end CommitLog

end Pylog.Log
