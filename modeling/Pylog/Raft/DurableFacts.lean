import Pylog.Raft.Durable

/-!
# Pylog.Raft.DurableFacts — what a `DurableRaftLog` keeps on disk

`Stored disk es`: the records of `disk` are the entries `es`, record `i - 1` for entry `i`.  Every
method that writes is an equation about the entries stored; the cache is compared with them
afterwards.  Without compaction the two are equal, and the log behaves as a `RaftLog`.
-/

namespace Pylog.Raft

open Effect Effect.Handler Framing Pylog.Log

/-- The records on disk are the entries, in the order of their indexes. -/
def Stored (disk : CommitLog) (es : List Entry) : Prop :=
  (∃ items : List Datum, Tracks disk ⟨0, items⟩ ∧ items.map Prod.snd = es.map recordPayload) ∧
    RaftLog.Indexed es ∧ ∀ e ∈ es, e.term < 2 ^ 64

/-- An entry that `append_many` can write and `read` accepts: a term of eight bytes, and a record
within `MAX_RECORD_BYTES`. -/
def Entry.Storable (e : Entry) : Prop := e.term < 2 ^ 64 ∧ e.payload.length + 8 ≤ maxRecordBytes

/-- Record `index - 1` decodes to the term and payload of the entry. -/
def OnRecord (disk : CommitLog) (e : Entry) : Prop :=
  ∃ r, disk.read ((e.index : ℤ) - 1) = some r ∧ decodeEntryPayload r.payload = .ok (e.term, e.payload)

theorem length_recordPayload (e : Entry) : (recordPayload e).length = e.payload.length + 8 := by
  simp [recordPayload, packEntry]
  omega

/-- A filter that keeps the first `n` positions. -/
theorem filter_eq_take {α : Type} {p : α → Bool} : ∀ {es : List α} {n : ℕ},
    (∀ (k : ℕ) (e : α), es[k]? = some e → p e = decide (k < n)) → es.filter p = es.take n
  | [], n, _ => by simp
  | e :: es, 0, h => by
    have he := h 0 e rfl
    have ih := filter_eq_take (n := 0) fun k e' he' => (h (k + 1) e' he').trans (by simp)
    rw [List.filter_cons_of_neg (by simp [he]), ih, List.take_zero, List.take_zero]
  | e :: es, n + 1, h => by
    have he := h 0 e rfl
    have ih := filter_eq_take (n := n) fun k e' he' => (h (k + 1) e' he').trans (by simp)
    rw [List.filter_cons_of_pos (by simp [he]), ih, List.take_succ_cons]

/-- Without timestamps, all records of a batch carry the clock. -/
theorem batchData_now (payloads : List Bytes) (now : ℤ) :
    LogOp.batchData payloads none now = payloads.map fun b => (now, b) := by
  unfold LogOp.batchData
  rw [Option.getD_none]
  induction payloads with
  | nil => rfl
  | cons b bs ih => rw [List.length_cons, List.replicate_succ, List.zip_cons_cons, ih, List.map_cons]

namespace RaftLog

theorem map_reindex (p : ℕ) : ∀ (n : ℕ) (es : List Entry),
    (reindex p n es).map recordPayload = es.map recordPayload
  | _, [] => rfl
  | n, e :: es => by
    rw [reindex, List.map_cons, List.map_cons, map_reindex p (n + 1) es]
    rfl

theorem indexed_append {es : List Entry} (h : Indexed es) (fs : List Entry) :
    Indexed (es ++ reindex es.length 0 fs) := by
  intro k e he
  by_cases hk : k < es.length
  · rw [List.getElem?_append_left hk] at he
    exact h k e he
  · rw [List.getElem?_append_right (by omega)] at he
    rw [getElem_reindex _ _ _ _ he]
    omega

end RaftLog

namespace Stored

variable {disk : CommitLog} {es : List Entry}

theorem length (h : Stored disk es) : disk.nextOffset = es.length := by
  obtain ⟨⟨items, ht, hitems⟩, -, -⟩ := h
  have hlen := congrArg List.length hitems
  rw [List.length_map, List.length_map] at hlen
  rw [ht.observes.1]
  show 0 + items.length = _
  omega

/-- Reading an offset gives the record of the entry stored there. -/
theorem read (h : Stored disk es) (k : ℕ) :
    (disk.read k).map (fun r => (r.offset, r.payload)) = (es[k]?).map fun e => (k, recordPayload e) := by
  obtain ⟨⟨items, ht, hitems⟩, -, -⟩ := h
  have hk := congrArg (fun l => (l[k]?).map (Prod.mk k)) hitems
  rw [List.getElem?_map, List.getElem?_map, Option.map_map, Option.map_map] at hk
  rw [ht.observes.2, AbstractLog.get, if_pos (by simp), Option.map_map]
  exact hk

theorem read_of_get (h : Stored disk es) {k : ℕ} {e : Entry} (he : es[k]? = some e) :
    ∃ t, disk.read k = some ⟨k, t, recordPayload e⟩ := by
  have hread := h.read k
  rw [he, Option.map_some] at hread
  obtain ⟨⟨o, t, p⟩, hr, hp⟩ := Option.map_eq_some_iff.mp hread
  obtain ⟨rfl, rfl⟩ := Prod.mk.inj hp
  exact ⟨t, hr⟩

theorem onRecord (h : Stored disk es) {e : Entry} (he : e ∈ es) : OnRecord disk e := by
  obtain ⟨k, hk⟩ := List.mem_iff_getElem?.mp he
  obtain ⟨t, hread⟩ := h.read_of_get hk
  refine ⟨⟨k, t, recordPayload e⟩, ?_, decodeEntryPayload_pack (h.2.2 e he) _⟩
  rw [h.2.1 k e hk, show ((k + 1 : ℕ) : ℤ) - 1 = (k : ℤ) by omega]
  exact hread

/-- A record on disk is that of a stored entry. -/
theorem mem_of_onRecord (h : Stored disk es) {e : Entry} (hpos : 0 < e.index)
    (he : OnRecord disk e) : e ∈ es := by
  obtain ⟨r, hr, hdec⟩ := he
  have hread := h.read (e.index - 1)
  rw [show ((e.index - 1 : ℕ) : ℤ) = (e.index : ℤ) - 1 by omega, hr, Option.map_some] at hread
  obtain ⟨e', he', hp⟩ := Option.map_eq_some_iff.mp hread.symm
  rw [← (Prod.mk.inj hp).2, recordPayload, decodeEntryPayload_pack (h.2.2 e' (List.mem_of_getElem? he'))] at hdec
  have hidx : e.index = e'.index := by
    rw [h.2.1 _ _ he']
    omega
  obtain ⟨hterm, hpayload⟩ := Prod.mk.inj (Except.ok.inj hdec)
  have heq : e = e' := by
    cases e
    cases e'
    simp_all
  rw [heq]
  exact List.mem_of_getElem? he'

/-- A cut at an offset drops the entries above it. -/
theorem truncateFrom (h : Stored disk es) (o : ℕ) :
    ∃ disk' changed out, CommitLog.truncateFrom (o : ℤ) disk = ⟨disk', out, .ok changed⟩ ∧
      Stored disk' (es.take o) := by
  obtain ⟨⟨items, ht, hitems⟩, hidx, hterm⟩ := h
  obtain ⟨disk', changed, out, hrun, ht'⟩ := ht.truncateFrom (Nat.zero_le o)
  refine ⟨disk', changed, out, hrun, ⟨items.take o, ht', ?_⟩, RaftLog.indexed_take hidx o,
    fun e he => hterm e (List.mem_of_mem_take he)⟩
  rw [List.map_take, List.map_take, hitems]

/-- A group commit of storable entries. -/
theorem appendMany (h : Stored disk es) {fs : List Entry} {now : ℤ} (hf : ∀ e ∈ fs, e.Storable)
    (hnow : FitsI64 now) (hroom : es.length + fs.length ≤ 2 ^ 64) :
    ∃ disk' offsets out,
      CommitLog.appendMany (fs.map recordPayload) none now disk = ⟨disk', out, .ok offsets⟩ ∧
      Stored disk' (es ++ RaftLog.reindex es.length 0 fs) := by
  have hnext := h.length
  obtain ⟨⟨items, ht, hitems⟩, hidx, hterm⟩ := h
  have hdata := batchData_now (fs.map recordPayload) now
  have hop : (LogOp.appendMany (fs.map recordPayload) none now).Admissible disk := by
    refine ⟨by simp, ?_, by rw [List.length_map, hnext]; exact hroom⟩
    intro d hd
    rw [hdata, List.map_map, List.mem_map] at hd
    obtain ⟨e, he, rfl⟩ := hd
    refine ⟨hnow, ?_⟩
    show (recordPayload e).length ≤ _
    rw [length_recordPayload]
    exact (hf e he).2
  obtain ⟨disk', out, hrun, ht'⟩ := ht.appendMany hop
  refine ⟨disk', _, out, hrun, ⟨_, ht', ?_⟩, RaftLog.indexed_append hidx fs, ?_⟩
  · rw [List.map_append, List.map_append, hitems, RaftLog.map_reindex, hdata, List.map_map]
    congr 1
    exact List.map_id _
  · intro e he
    rcases List.mem_append.mp he with he | he
    · exact hterm e he
    · obtain ⟨y, hy, ht, -⟩ := RaftLog.mem_reindex he
      rw [ht]
      exact (hf y hy).1

/-- Every record decodes, to the entry of its offset. -/
theorem decodeRecords (h : Stored disk es) : ∀ (n k : ℕ), k + n = es.length →
    DurableRaftLog.decodeRecords (disk.readRange k n) = .ok (es.drop k)
  | 0, k, hk => by
    rw [List.drop_of_length_le (by omega)]
    rfl
  | n + 1, k, hk => by
    have hlt : k < es.length := by omega
    have hget := List.getElem?_eq_getElem hlt
    obtain ⟨t, hread⟩ := h.read_of_get hget
    have ih := decodeRecords h n (k + 1) (by omega)
    have hidx := h.2.1 k _ hget
    rw [CommitLog.readRange, hread]
    show DurableRaftLog.decodeRecords (_ :: disk.readRange ((k + 1 : ℕ) : ℤ) n) = _
    rw [DurableRaftLog.decodeRecords, recordPayload,
      decodeEntryPayload_pack (h.2.2 _ (List.getElem_mem hlt)), ih, List.drop_eq_getElem_cons hlt]
    show Except.ok (Entry.mk (k + 1) es[k].term es[k].payload :: es.drop (k + 1)) = _
    rw [← hidx]

/-- A new object on the directory has the stored entries. -/
theorem openAt (h : Stored disk es) (maxSegmentBytes : ℕ) :
    ∃ disk' out, DurableRaftLog.openAt maxSegmentBytes disk.folder =
        ⟨{ entries := es, disk := disk' }, out, .ok ()⟩ ∧ Stored disk' es := by
  obtain ⟨⟨items, ht, hitems⟩, hidx, hterm⟩ := h
  obtain ⟨disk', out, hrun, ht'⟩ := ht.openAt maxSegmentBytes 4096
  have h' : Stored disk' es := ⟨⟨items, ht', hitems⟩, hidx, hterm⟩
  have hdec := h'.decodeRecords es.length 0 (by omega)
  refine ⟨disk', out, ?_, h'⟩
  unfold DurableRaftLog.openAt
  dsimp only
  rw [hrun]
  dsimp only
  rw [h'.length, show (0 : ℤ) = ((0 : ℕ) : ℤ) from rfl, hdec]
  rfl

end Stored

/-- On an empty directory the log is empty. -/
theorem openAt_empty (maxSegmentBytes : ℕ) :
    ∃ disk out, DurableRaftLog.openAt maxSegmentBytes {} = ⟨{ disk := disk }, out, .ok ()⟩ ∧
      Stored disk [] := by
  obtain ⟨s, out, hrun, hl, hn, -, -⟩ := CommitLog.openAt_nil maxSegmentBytes 4096
  refine ⟨s, out, ?_, ⟨⟨[], ⟨CommitLog.emptyShape, hl, hn, rfl⟩, rfl⟩, by simp [RaftLog.Indexed], by simp⟩⟩
  unfold DurableRaftLog.openAt
  dsimp only
  rw [hrun]
  dsimp only
  rw [hn]
  rfl

/-! ### The methods that write -/

namespace DurableRaftLog

variable {dl : DurableRaftLog} {es : List Entry}

theorem onDisk_run {α : Type} {x : LogM α} {disk' : CommitLog} {out : List FileOp}
    {r : Except LogError α} (h : x dl.disk = ⟨disk', out, r⟩) :
    onDisk x dl = ⟨{ dl with disk := disk' }, out, r⟩ := by
  unfold onDisk
  rw [h]

theorem writeEntries_run (h : Stored dl.disk es) {fs : List Entry} {now : ℤ}
    (hf : ∀ e ∈ fs, e.Storable) (hnow : FitsI64 now) (hroom : es.length + fs.length ≤ 2 ^ 64) :
    ∃ disk' out, writeEntries fs now dl = ⟨{ dl with disk := disk' }, out, .ok ()⟩ ∧
      Stored disk' (es ++ RaftLog.reindex es.length 0 fs) := by
  obtain ⟨disk', offsets, out, hrun, h'⟩ := h.appendMany hf hnow hroom
  refine ⟨disk', out ++ [], ?_, h'⟩
  unfold writeEntries
  rw [encodeEntries_eq fun e he => (hf e he).1]
  exact bind_run (onDisk_run hrun) (pure_eq _ _)

/-- `append_entry` stores one entry behind the others. -/
theorem appendEntry_run (h : Stored dl.disk es) {term : ℕ} {payload : Bytes} {now : ℤ}
    (hf : Entry.Storable ⟨dl.lastIndex + 1, term, payload⟩) (hnow : FitsI64 now)
    (hroom : es.length < 2 ^ 64) :
    ∃ disk' out, appendEntry term payload now dl =
        ⟨{ entries := dl.entries ++ [⟨dl.lastIndex + 1, term, payload⟩], firstIndex := dl.firstIndex,
           snapshotLastIndex := dl.snapshotLastIndex, snapshotLastTerm := dl.snapshotLastTerm,
           disk := disk' }, out, .ok ⟨dl.lastIndex + 1, term, payload⟩⟩ ∧
      Stored disk' (es ++ [⟨es.length + 1, term, payload⟩]) := by
  let entry : Entry := ⟨dl.lastIndex + 1, term, payload⟩
  have hst : Stored { dl with entries := dl.entries ++ [entry] }.disk es := h
  have hmem : ∀ e ∈ [entry], e.Storable := by
    intro e he
    rw [List.mem_singleton.mp he]
    exact hf
  obtain ⟨disk', out, hrun, h'⟩ := writeEntries_run hst hmem hnow hroom
  refine ⟨disk', out ++ [], ?_, h'⟩
  unfold appendEntry
  rw [read_bind]
  exact update_run (bind_run hrun (pure_eq _ _))

/-- The entries of the cache below a cut. -/
def cached (l : RaftLog) : Option ℕ → RaftLog
  | none => l
  | some cut => { l with entries := l.entries.filter fun e => decide (e.index < cut) }

/-- A cut changes the entries only. -/
theorem cached_eq (l : RaftLog) (cut : Option ℕ) :
    cached l cut = { l with entries := (cached l cut).entries } := by
  cases cut <;> rfl

/-- The entries on disk below a cut. -/
def kept (es : List Entry) : Option ℕ → List Entry
  | none => es
  | some cut => es.take (cut - 1)

theorem findCut_pos {l : RaftLog} {prevIndex cut : ℕ} : ∀ {incoming : List Entry} {k : ℕ},
    findCut l prevIndex k incoming = some cut → prevIndex < cut
  | [], _, h => by cases h
  | inc :: rest, k, h => by
    unfold findCut at h
    dsimp only at h
    split_ifs at h
    · cases h
      omega
    · exact findCut_pos h

theorem mem_toAdd {last : ℕ} {x : Entry} : ∀ {incoming : List Entry} {n : ℕ},
    x ∈ toAdd last n incoming → ∃ y ∈ incoming, x.term = y.term ∧ x.payload = y.payload
  | [], _, h => by cases h
  | inc :: rest, n, h => by
    unfold toAdd at h
    split_ifs at h
    · rcases List.mem_cons.mp h with rfl | h
      · exact ⟨inc, by simp, rfl, rfl⟩
      · obtain ⟨y, hy, heq⟩ := mem_toAdd h
        exact ⟨y, by simp [hy], heq⟩
    · obtain ⟨y, hy, heq⟩ := mem_toAdd h
      exact ⟨y, by simp [hy], heq⟩

theorem cutFrom_run (h : Stored dl.disk es) {cut : Option ℕ} (hpos : ∀ c ∈ cut, 0 < c) :
    ∃ disk' out, cutFrom cut dl =
        ⟨⟨cached dl.toRaftLog cut, disk'⟩, out, .ok ()⟩ ∧ Stored disk' (kept es cut) := by
  cases cut with
  | none => exact ⟨dl.disk, [], rfl, h⟩
  | some c =>
    have hc := hpos c rfl
    obtain ⟨disk', changed, out, hrun, h'⟩ := h.truncateFrom (c - 1)
    rw [show ((c - 1 : ℕ) : ℤ) = (c : ℤ) - 1 by omega] at hrun
    exact ⟨disk', out ++ [], update_run (bind_run (onDisk_run hrun) (pure_eq _ _)), h'⟩

/-- An accepted `merge`: cache and disk are cut at the same index, and get the same entries. -/
theorem merge_run (h : Stored dl.disk es) {prevIndex : ℕ} {prevTerm : ℤ} {incoming : List Entry}
    {now : ℤ} (hprev : prevIndex ≤ dl.lastIndex) (hterm : dl.termAt prevIndex = prevTerm)
    (hf : ∀ e ∈ incoming, e.Storable) (hnow : FitsI64 now) {cut : Option ℕ}
    (hcut : findCut dl.toRaftLog prevIndex 0 incoming = cut) {added : List Entry}
    (hadd : toAdd (cached dl.toRaftLog cut).lastIndex 0 incoming = added)
    (hroom : added ≠ [] → (kept es cut).length + added.length ≤ 2 ^ 64) :
    ∃ disk' out, merge prevIndex prevTerm incoming now dl =
        ⟨⟨{ cached dl.toRaftLog cut with
            entries := (cached dl.toRaftLog cut).entries ++ added }, disk'⟩, out,
          .ok (true, prevIndex + incoming.length, 0)⟩ ∧
      Stored disk' (kept es cut ++ RaftLog.reindex (kept es cut).length 0 added) := by
  have hpos : ∀ c ∈ cut, 0 < c := by
    rintro c hc
    rw [← hcut] at hc
    have := findCut_pos hc
    omega
  obtain ⟨disk₁, out₁, hrun₁, h₁⟩ := cutFrom_run h hpos
  have hmem : ∀ e ∈ added, e.Storable := by
    intro e he
    rw [← hadd] at he
    obtain ⟨y, hy, hyt, hyp⟩ := mem_toAdd he
    unfold Entry.Storable
    rw [hyt, hyp]
    exact hf y hy
  let dl₂ : DurableRaftLog := ⟨{ cached dl.toRaftLog cut with
    entries := (cached dl.toRaftLog cut).entries ++ added }, disk₁⟩
  have hwrite : ∃ disk' out, when (added ≠ []) (writeEntries added now) dl₂ =
      ⟨{ dl₂ with disk := disk' }, out, .ok ()⟩ ∧
        Stored disk' (kept es cut ++ RaftLog.reindex (kept es cut).length 0 added) := by
    by_cases hne : added = []
    · refine ⟨disk₁, [], when_eq_of_neg (not_not.mpr hne) _ _, ?_⟩
      rw [hne]
      simpa [RaftLog.reindex] using h₁
    · rw [when_eq_of_pos hne]
      have h₂ : Stored dl₂.disk (kept es cut) := h₁
      exact writeEntries_run h₂ hmem hnow (hroom hne)
  obtain ⟨disk', out, hrun, h'⟩ := hwrite
  refine ⟨disk', out₁ ++ (out ++ []), ?_, h'⟩
  unfold merge
  rw [read_bind, if_neg (by omega), if_neg (not_not.mpr hterm), hcut]
  refine bind_run hrun₁ ?_
  rw [read_bind]
  show (update _ >>= _) _ = _
  rw [show toAdd (RaftLog.lastIndex (cached dl.toRaftLog cut)) 0 incoming = added from hadd]
  exact update_run (bind_run hrun (pure_eq _ _))

end DurableRaftLog

/-! ### The two merges -/

namespace RaftLog

open DurableRaftLog

variable {l : RaftLog} {prevIndex : ℕ} {incoming : List Entry}

/-- The cut on disk is at the entry where the in-memory merge inserts. -/
theorem findCut_eq (l : RaftLog) (prevIndex : ℕ) : ∀ (incoming : List Entry) (k : ℕ),
    findCut l prevIndex k incoming =
      (l.findInsert prevIndex k incoming).2.map fun j => prevIndex + 1 + j
  | [], _ => rfl
  | inc :: rest, k => by
    unfold findCut findInsert
    dsimp only
    by_cases h1 : l.termAt (prevIndex + 1 + k) = -1
    · rw [if_pos (.inl h1), if_pos h1]
      rfl
    · by_cases h2 : l.termAt (prevIndex + 1 + k) = (inc.term : ℤ)
      · rw [if_neg (not_or.mpr ⟨h1, not_not.mpr h2⟩), if_neg h1, if_neg (not_not.mpr h2)]
        exact findCut_eq l prevIndex rest (k + 1)
      · rw [if_pos (.inr h2), if_neg h1, if_pos h2]
        rfl

theorem filter_below {es : List Entry} (h : Indexed es) (c : ℕ) :
    es.filter (fun e => decide (e.index < c)) = es.take (c - 1) := by
  refine filter_eq_take fun k e he => ?_
  have := h k e he
  exact decide_eq_decide.mpr (by omega)

theorem reindex_reindex (p q : ℕ) : ∀ (n m : ℕ) (es : List Entry),
    reindex p n (reindex q m es) = reindex p n es
  | _, _, [] => rfl
  | n, m, e :: es => by
    rw [reindex, reindex, reindex, reindex_reindex p q (n + 1) (m + 1) es]

/-- Without snapshots the cache and the disk keep the same entries below a cut. -/
theorem Plain.cached_kept (hl : l.Plain) (cut : Option ℕ) :
    (cached l cut).entries = kept l.entries cut ∧ (cached l cut).Plain := by
  have hsame : (cached l cut).entries = kept l.entries cut := by
    cases cut with
    | none => rfl
    | some c => exact filter_below hl.indexed c
  refine ⟨hsame, ?_⟩
  rw [cached_eq]
  refine ⟨hl.first, hl.snap, ?_⟩
  rw [hsame]
  cases cut with
  | none => exact hl.indexed
  | some c => exact indexed_take hl.indexed _

/-- An in-memory merge is the cut and the entries added by the durable one. -/
theorem merge_eq (hl : l.Plain) (hn : Numbered prevIndex incoming) (hprev : prevIndex ≤ l.lastIndex) :
    let cut := findCut l prevIndex 0 incoming
    let added := toAdd (cached l cut).lastIndex 0 incoming
    l.merge prevIndex (l.termAt prevIndex) incoming =
        ⟨{ cached l cut with entries := (cached l cut).entries ++ added }, true,
          prevIndex + incoming.length, 0⟩ ∧
      kept l.entries cut ++ reindex (kept l.entries cut).length 0 added =
        (cached l cut).entries ++ added ∧
      (added ≠ [] → (kept l.entries cut).length + added.length = prevIndex + incoming.length) := by
  intro cut added
  have hlast := hl.lastIndex
  have hfirst := hl.first
  have hplaced := findInsert_placed l prevIndex incoming 0 (by omega) (by omega)
  have hcut : cut = _ := findCut_eq l prevIndex incoming 0
  rw [merge, if_neg (by omega), if_neg (not_not.mpr rfl)]
  cases hf : l.findInsert prevIndex 0 incoming with
  | mk l' o =>
    rw [hf] at hplaced hcut
    cases o with
    | none =>
      obtain ⟨rfl, hterms⟩ := hplaced
      -- the log holds every term of the window, so it reaches behind it
      have hlong : prevIndex + incoming.length ≤ l'.entries.length := by
        rcases Nat.eq_zero_or_pos incoming.length with h0 | h0
        · omega
        · have hlt : incoming.length - 1 < incoming.length := by omega
          have hterm := hterms _ _ (List.getElem?_eq_getElem hlt)
          by_contra hgt
          have hge : l'.firstIndex ≤ prevIndex + 1 + 0 + (incoming.length - 1) := by omega
          have hnone := (termAt_eq_neg (by omega)).mpr ((get_eq_none hge).mpr (by omega))
          omega
      have hadd : added = [] := by
        show toAdd (cached l' cut).lastIndex 0 incoming = []
        rw [hcut]
        have hskip := toAdd_skip l'.lastIndex incoming [] 0 (by
          intro e he
          obtain ⟨k, hk⟩ := List.mem_iff_getElem?.mp he
          have := (List.getElem?_eq_some_iff.mp hk).1
          rw [hn k e hk]
          omega)
        rw [List.append_nil] at hskip
        exact hskip
      rw [hadd, hcut]
      simp [cached, kept, reindex]
    | some j =>
      obtain ⟨-, hj, hlen, rfl, -⟩ := hplaced
      have hcut' : cut = some (prevIndex + 1 + j) := hcut
      have hkept : kept l.entries cut = l.entries.take (prevIndex + j) := by
        rw [hcut']
        show l.entries.take (prevIndex + 1 + j - 1) = _
        rw [show prevIndex + 1 + j - 1 = prevIndex + j by omega]
      obtain ⟨hsame, hplain⟩ := hl.cached_kept cut
      have htake : (cached l cut).entries = l.entries.take (prevIndex + j) := hsame.trans hkept
      have hlength : (l.entries.take (prevIndex + j)).length = prevIndex + j :=
        List.length_take_of_le (by omega)
      have hadd : added = reindex prevIndex j (incoming.drop j) := by
        show toAdd (cached l cut).lastIndex 0 incoming = _
        rw [hplain.lastIndex, htake, hlength]
        exact toAdd_numbered hn (by omega)
      refine ⟨?_, ?_, fun _ => ?_⟩
      · rw [hadd, htake, hcut', show prevIndex + 1 + j - l.firstIndex = prevIndex + j by omega]
        rfl
      · rw [hkept, htake, hadd, hlength, reindex_reindex, reindex_shift, Nat.add_zero]
      · rw [hkept, hlength, hadd, length_reindex, List.length_drop]
        omega

end RaftLog

/-- A log without snapshots that is on disk has a record for every entry, at the entry's index. -/
theorem plain_records {l : RaftLog} {disk : CommitLog} (hp : l.Plain) (h : Stored disk l.entries) :
    ∀ i e, l.get i = some e → e.index = i ∧ OnRecord disk e := fun _ _ he =>
  ⟨hp.contiguous.index_of_get he, h.onRecord (RaftLog.mem_of_get he)⟩

end Pylog.Raft
