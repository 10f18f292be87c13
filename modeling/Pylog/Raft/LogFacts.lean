import Mathlib.Data.List.Infix
import Pylog.Raft.Log

/-!
# Pylog.Raft.LogFacts — where the entries of a log come from, and what a merge leaves

A log that was never compacted is a list whose entry at position `k` has the index `k + 1`
(`RaftLog.Plain`).  On such a log a merge of a window of a leader's log either changes nothing
or leaves the leader's log up to the end of the window (`merge_window`).
-/

namespace Pylog.Raft.RaftLog

variable {l : RaftLog} {x : Entry} {prevIndex : ℕ} {prevTerm : ℤ} {incoming : List Entry}

/-! ### Entries of a log are old or were handed in -/

theorem findInsert_prefix (l : RaftLog) (prevIndex : ℕ) :
    ∀ k incoming, (l.findInsert prevIndex k incoming).1.entries <+: l.entries
  | _, [] => List.prefix_refl _
  | k, inc :: rest => by
    unfold findInsert
    dsimp only
    split_ifs
    · exact List.prefix_refl _
    · exact List.take_prefix _ _
    · exact findInsert_prefix l prevIndex (k + 1) rest

theorem mem_reindex : ∀ {k : ℕ} {incoming : List Entry}, x ∈ reindex prevIndex k incoming →
    ∃ y ∈ incoming, x.term = y.term ∧ x.payload = y.payload
  | _, [], h => by simp [reindex] at h
  | k, inc :: rest, h => by
    unfold reindex at h
    rcases List.mem_cons.mp h with rfl | h
    · exact ⟨inc, by simp, rfl, rfl⟩
    · obtain ⟨y, hy, he⟩ := mem_reindex h
      exact ⟨y, by simp [hy], he⟩

/-- An entry after a merge was there before, or came with the window. -/
theorem mem_merge (h : x ∈ (l.merge prevIndex prevTerm incoming).log.entries) :
    x ∈ l.entries ∨ ∃ y ∈ incoming, x.term = y.term ∧ x.payload = y.payload := by
  unfold merge at h
  split_ifs at h with h1 h2
  · exact .inl h
  · exact .inl h
  · have hp := findInsert_prefix l prevIndex 0 incoming
    split at h
    · rename_i l' heq
      rw [heq] at hp
      exact .inl (hp.subset h)
    · rename_i l' k heq
      rw [heq] at hp
      rcases List.mem_append.mp h with h | h
      · exact .inl (hp.subset h)
      · obtain ⟨y, hy, he⟩ := mem_reindex h
        exact .inr ⟨y, List.mem_of_mem_drop hy, he⟩

/-- What holds of every payload holds of every payload with one more entry. -/
theorem forall_appendEntry {ok : Bytes → Prop} (h : ∀ e ∈ l.entries, ok e.payload) {term : ℕ}
    {payload : Bytes} (hp : ok payload) : ∀ e ∈ (l.appendEntry term payload).entries, ok e.payload := by
  intro e he
  rcases List.mem_append.mp he with he | he
  · exact h e he
  · rw [List.mem_singleton.mp he]
    exact hp

/-- The same after a merge of a window of such payloads. -/
theorem forall_merge {ok : Bytes → Prop} (h : ∀ e ∈ l.entries, ok e.payload)
    (hin : ∀ e ∈ incoming, ok e.payload) :
    ∀ e ∈ (l.merge prevIndex prevTerm incoming).log.entries, ok e.payload := by
  intro e he
  rcases mem_merge he with he | ⟨y, hy, -, hp⟩
  · exact h e he
  · rw [hp]
    exact hin y hy

theorem mem_entriesFrom {index limit : ℕ} (h : x ∈ l.entriesFrom index limit) : x ∈ l.entries := by
  unfold entriesFrom at h
  dsimp only at h
  split_ifs at h
  · exact List.mem_of_mem_drop h
  · exact List.mem_of_mem_drop (List.mem_of_mem_take h)

theorem mem_compact {l' : RaftLog} {i : ℕ} {t : ℤ} (hc : l.compact i t = some l')
    (h : x ∈ l'.entries) : x ∈ l.entries := by
  unfold compact at hc
  split_ifs at hc
  cases hc
  exact List.mem_of_mem_filter h

theorem mem_of_get {index : ℕ} (h : l.get index = some x) : x ∈ l.entries := by
  unfold get at h
  split_ifs at h
  exact List.mem_of_getElem? h

/-! ### Logs without snapshots -/

/-- The entry at position `k` has the index `k + 1`. -/
def Indexed (es : List Entry) : Prop := ∀ k e, es[k]? = some e → e.index = k + 1

structure Plain (l : RaftLog) : Prop where
  first : l.firstIndex = 1
  snap : l.snapshotLastIndex = 0
  indexed : Indexed l.entries

theorem plain_empty : Plain {} := ⟨rfl, rfl, fun k e h => by simp at h⟩

theorem Plain.lastIndex (h : l.Plain) : l.lastIndex = l.entries.length := by
  unfold RaftLog.lastIndex
  rcases List.eq_nil_or_concat' l.entries with he | ⟨es, e, he⟩
  · rw [he]
    rfl
  · have hi := h.indexed es.length e (by rw [he]; simp)
    rw [he]
    simp [hi]

theorem Plain.get (h : l.Plain) (k : ℕ) : l.get (k + 1) = l.entries[k]? := by
  unfold RaftLog.get
  rw [h.first, if_pos (by omega), Nat.add_sub_cancel]

/-- The term before the entry at position `k`, and the term of the sentinel. -/
def termBefore (es : List Entry) : ℕ → ℤ
  | 0 => 0
  | k + 1 => match es[k]? with
    | some e => (e.term : ℤ)
    | none => -1

theorem Plain.termAt (h : l.Plain) (k : ℕ) : l.termAt k = termBefore l.entries k := by
  cases k with
  | zero => rfl
  | succ k =>
    unfold RaftLog.termAt
    rw [if_neg (Nat.succ_ne_zero k), h.get]
    rfl

theorem termBefore_add_one (es : List Entry) (k : ℕ) : termBefore es (k + 1) = match es[k]? with
    | some e => (e.term : ℤ)
    | none => -1 := rfl

theorem termBefore_succ {es : List Entry} {k : ℕ} {e : Entry} (h : es[k]? = some e) :
    termBefore es (k + 1) = (e.term : ℤ) := by
  rw [termBefore_add_one, h]

theorem termBefore_eq_neg {es : List Entry} {k : ℕ} (h : termBefore es k = -1) :
    es.length < k := by
  cases k with
  | zero => cases h
  | succ k =>
    cases he : es[k]? with
    | some e =>
      rw [termBefore_succ he] at h
      omega
    | none =>
      rw [List.getElem?_eq_none_iff] at he
      omega

theorem Plain.entriesFrom (h : l.Plain) (k limit : ℕ) :
    l.entriesFrom (k + 1) limit <+: l.entries.drop k := by
  unfold RaftLog.entriesFrom
  rw [h.first, Nat.add_sub_cancel]
  dsimp only
  split_ifs
  · exact List.prefix_refl _
  · exact List.take_prefix _ _

theorem indexed_take {es : List Entry} (h : Indexed es) (m : ℕ) : Indexed (es.take m) := by
  intro k e he
  rw [List.getElem?_take] at he
  split_ifs at he
  exact h k e he

/-! ### The merge of a window -/

/-- `entries` follow the position `prevIndex` of the list `src`. -/
structure Window (src : List Entry) (prevIndex : ℕ) (prevTerm : ℤ) (entries : List Entry) : Prop where
  le : prevIndex ≤ src.length
  term : prevTerm = termBefore src prevIndex
  entries : entries <+: src.drop prevIndex

theorem Window.mono {src src' : List Entry} (hw : Window src prevIndex prevTerm incoming)
    (h : src <+: src') : Window src' prevIndex prevTerm incoming := by
  obtain ⟨r, rfl⟩ := h
  refine ⟨?_, ?_, ?_⟩
  · rw [List.length_append]
    exact Nat.le_trans hw.le (Nat.le_add_right _ _)
  · rw [hw.term]
    cases prevIndex with
    | zero => rfl
    | succ k =>
      have hk : k < src.length := hw.le
      rw [termBefore_add_one, termBefore_add_one, List.getElem?_append_left hk]
  · rw [List.drop_append_of_le_length hw.le]
    exact hw.entries.trans (List.prefix_append _ _)

theorem Window.length_le {src : List Entry} (hw : Window src prevIndex prevTerm incoming) :
    prevIndex + incoming.length ≤ src.length := by
  have h1 := hw.entries.length_le
  have h2 := hw.le
  rw [List.length_drop] at h1
  omega

theorem Window.take {src : List Entry} (hw : Window src prevIndex prevTerm incoming) (k : ℕ)
    (hk : k ≤ incoming.length) :
    src.take (prevIndex + k) = src.take prevIndex ++ incoming.take k := by
  rw [List.take_add, List.prefix_iff_eq_take.mp hw.entries, List.take_take, Nat.min_eq_left hk]

theorem Window.get {src : List Entry} (hw : Window src prevIndex prevTerm incoming) {k : ℕ}
    {e : Entry} (he : incoming[k]? = some e) : src[prevIndex + k]? = some e := by
  obtain ⟨r, hr⟩ := hw.entries
  rw [← List.getElem?_drop, ← hr, List.getElem?_append_left (List.getElem?_eq_some_iff.mp he).1]
  exact he

theorem reindex_self {src : List Entry} (hi : Indexed src) :
    ∀ (k : ℕ) (incoming : List Entry), incoming <+: src.drop (prevIndex + k) →
      reindex prevIndex k incoming = incoming
  | _, [], _ => rfl
  | k, inc :: rest, h => by
    obtain ⟨r, hr⟩ := h
    have hk : src[prevIndex + k]? = some inc := by
      rw [← Nat.add_zero (prevIndex + k), ← List.getElem?_drop, ← hr]
      rfl
    unfold reindex
    rw [reindex_self hi (k + 1) rest]
    · have := hi _ _ hk
      rw [show prevIndex + 1 + k = inc.index by omega]
    · refine ⟨r, ?_⟩
      rw [show prevIndex + (k + 1) = prevIndex + k + 1 from rfl, ← List.tail_drop, ← hr]
      rfl

/-- Entries of one term at one position come with the same entries before them. -/
def Agrees (es src : List Entry) : Prop :=
  ∀ k e e', es[k]? = some e → src[k]? = some e' → e.term = e'.term → es.take (k + 1) = src.take (k + 1)

/-- The scan of a merge: what it leaves, and whether it inserts. -/
def Scanned (l : RaftLog) (src : List Entry) (prevIndex len : ℕ) : RaftLog × Option ℕ → Prop
  | (l', none) => l' = l ∧ src.take (prevIndex + len) <+: l.entries
  | (l', some j) => j < len ∧ l' = { l with entries := src.take (prevIndex + j) } ∧
      ¬src.take (prevIndex + len) <+: l.entries

theorem scan_window {src : List Entry} (hl : l.Plain) (hw : Window src prevIndex prevTerm incoming)
    (ha : Agrees l.entries src) : ∀ (rest : List Entry) (k : ℕ), incoming.drop k = rest →
      k ≤ incoming.length → prevIndex + k ≤ l.entries.length →
      l.entries.take (prevIndex + k) = src.take (prevIndex + k) →
      Scanned l src prevIndex incoming.length (l.findInsert prevIndex k rest)
  | [], k, hd, hk, hlen, htake => by
    have hke : k = incoming.length := by
      have := List.drop_eq_nil_iff.mp hd
      omega
    subst hke
    refine ⟨rfl, ?_⟩
    rw [← htake]
    exact List.take_prefix _ _
  | inc :: rest, k, hd, hk, hlen, htake => by
    have hinc : incoming[k]? = some inc := by
      rw [← Nat.add_zero k, ← List.getElem?_drop, hd]
      rfl
    have hsrc := hw.get hinc
    have hklt := (List.getElem?_eq_some_iff.mp hinc).1
    have hterm : l.termAt (prevIndex + 1 + k) = termBefore l.entries (prevIndex + k + 1) := by
      rw [hl.termAt, Nat.add_right_comm]
    have hwl := hw.length_le
    unfold findInsert
    dsimp only
    rw [hterm]
    split_ifs with h1 h2
    · -- the log ends before the window does
      have hend := termBefore_eq_neg h1
      have hlen' : prevIndex + k = l.entries.length := by omega
      refine ⟨hklt, ?_, fun hp => ?_⟩
      · rw [← htake, hlen', List.take_length]
      · have := hp.length_le
        rw [List.length_take] at this
        omega
    · -- the log holds an entry of another term
      refine ⟨hklt, ?_, fun hp => ?_⟩
      · rw [hl.first, ← htake]
        congr 2
        omega
      · obtain ⟨r, hr⟩ := hp
        have hget : l.entries[prevIndex + k]? = some inc := by
          rw [← hr, List.getElem?_append_left (by rw [List.length_take]; omega),
            List.getElem?_take_of_lt (by omega)]
          exact hsrc
        exact h2 (termBefore_succ hget)
    · -- the entries are the same
      have hlt : prevIndex + k < l.entries.length := by
        by_contra hge
        rw [termBefore_add_one, List.getElem?_eq_none (by omega)] at h1
        exact h1 rfl
      have hget : l.entries[prevIndex + k]? = some l.entries[prevIndex + k] :=
        List.getElem?_eq_getElem hlt
      have heq : l.entries[prevIndex + k].term = inc.term := by
        rw [not_not, termBefore_succ hget] at h2
        exact_mod_cast h2
      refine scan_window hl hw ha rest (k + 1) ?_ (by omega) (by omega)
        (ha _ _ _ hget hsrc heq)
      rw [← List.tail_drop, hd]
      rfl

/-- **A merge of a leader's window** leaves the log as it is when it holds the window, and the
leader's log up to the end of the window otherwise. -/
theorem merge_window {src : List Entry} (hl : l.Plain) (hi : Indexed src)
    (hw : Window src prevIndex prevTerm incoming) (ha : Agrees l.entries src)
    (hok : (l.merge prevIndex prevTerm incoming).ok = true) :
    (l.merge prevIndex prevTerm incoming).matchIndex = prevIndex + incoming.length ∧
    (l.merge prevIndex prevTerm incoming).log.Plain ∧
    (src.take (prevIndex + incoming.length) <+: l.entries ∧
        (l.merge prevIndex prevTerm incoming).log.entries = l.entries ∨
      ¬src.take (prevIndex + incoming.length) <+: l.entries ∧
        (l.merge prevIndex prevTerm incoming).log.entries =
          src.take (prevIndex + incoming.length)) := by
  unfold merge at hok ⊢
  split_ifs at hok ⊢ with h1 h2
  rw [not_not] at h2
  rw [hl.lastIndex] at h1
  -- the logs agree up to the position before the window
  have hstart : l.entries.take (prevIndex + 0) = src.take (prevIndex + 0) := by
    cases prevIndex with
    | zero => rfl
    | succ p =>
      have hs : p < src.length := hw.le
      have hp : p < l.entries.length := by omega
      have hgl : l.entries[p]? = some l.entries[p] := List.getElem?_eq_getElem hp
      have hgs : src[p]? = some src[p] := List.getElem?_eq_getElem hs
      refine ha p _ _ hgl hgs ?_
      rw [hl.termAt, hw.term, termBefore_succ hgl, termBefore_succ hgs] at h2
      exact_mod_cast h2
  have hscan := scan_window hl hw ha incoming 0 rfl (Nat.zero_le _) (by omega) hstart
  cases hf : l.findInsert prevIndex 0 incoming with
  | mk l' o =>
    rw [hf] at hscan
    cases o with
    | none =>
      obtain ⟨rfl, hp⟩ := hscan
      exact ⟨rfl, hl, .inl ⟨hp, rfl⟩⟩
    | some j =>
      obtain ⟨hj, rfl, hno⟩ := hscan
      have hre : reindex prevIndex j (incoming.drop j) = incoming.drop j := by
        refine reindex_self hi j _ ?_
        rw [← List.drop_drop]
        exact List.IsPrefix.drop hw.entries j
      have hentries : src.take (prevIndex + j) ++ incoming.drop j =
          src.take (prevIndex + incoming.length) := by
        rw [hw.take j (by omega), hw.take incoming.length (by omega), List.append_assoc,
          List.take_append_drop, List.take_length]
      dsimp only
      rw [hre, hentries]
      exact ⟨rfl, ⟨hl.first, hl.snap, indexed_take hi _⟩, .inr ⟨hno, rfl⟩⟩

/-- A merge that fails changes nothing. -/
theorem merge_fails (hok : (l.merge prevIndex prevTerm incoming).ok = false) :
    (l.merge prevIndex prevTerm incoming).log = l := by
  unfold merge at hok ⊢
  split_ifs at hok ⊢ with h1 h2
  · rfl
  · rfl
  · split at hok <;> cases hok

/-- No merge succeeds after a position outside the log. -/
theorem merge_nowhere (hl : l.Plain) (hok : (l.merge prevIndex (-1) incoming).ok = true) : False := by
  unfold merge at hok
  split_ifs at hok with h1 h2
  rw [not_not, hl.termAt] at h2
  rw [hl.lastIndex] at h1
  have := termBefore_eq_neg h2
  omega

/-! ### Contiguous logs -/

/-- The indexes of the entries run from `first_index`, and the log is no empty one that was
compacted. -/
def Contiguous (l : RaftLog) : Prop :=
  l.firstIndex = l.snapshotLastIndex + 1 ∧ (l.entries = [] → l.firstIndex = 1) ∧
    l.entries.map Entry.index = List.range' l.firstIndex l.entries.length

instance (l : RaftLog) : Decidable l.Contiguous := inferInstanceAs (Decidable (_ ∧ _ ∧ _))

theorem indexes_iff {es : List Entry} {first : ℕ} :
    es.map Entry.index = List.range' first es.length ↔
      ∀ k e, es[k]? = some e → e.index = first + k := by
  constructor
  · intro h k e he
    have hk := (List.getElem?_eq_some_iff.mp he).1
    have hidx : (es.map Entry.index)[k]? = some e.index := by rw [List.getElem?_map, he]; rfl
    rw [h, List.getElem?_range' hk] at hidx
    simp only [Option.some.injEq] at hidx
    omega
  · intro h
    refine List.ext_getElem (by simp) fun k h1 h2 => ?_
    rw [List.length_map] at h1
    rw [List.getElem_map, List.getElem_range', h k _ (List.getElem?_eq_getElem h1)]
    omega

theorem Contiguous.index (h : l.Contiguous) {k : ℕ} {e : Entry} (he : l.entries[k]? = some e) :
    e.index = l.firstIndex + k :=
  indexes_iff.mp h.2.2 k e he

theorem Contiguous.lastIndex (h : l.Contiguous) : l.lastIndex + 1 = l.firstIndex + l.entries.length := by
  unfold RaftLog.lastIndex
  rcases List.eq_nil_or_concat' l.entries with he | ⟨es, e, he⟩
  · rw [he, h.2.1 he]
    rfl
  · have hi := h.index (k := es.length) (e := e) (by rw [he]; simp)
    rw [he]
    simp [hi]
    omega

theorem Plain.contiguous (h : l.Plain) : l.Contiguous := by
  refine ⟨by rw [h.first, h.snap], fun _ => h.first, indexes_iff.mpr fun k e he => ?_⟩
  rw [h.first, h.indexed k e he]
  omega

theorem Contiguous.plain (h : l.Contiguous) (hf : l.firstIndex = 1) : l.Plain := by
  have hsnap := h.1
  refine ⟨hf, by omega, fun k e he => ?_⟩
  have hindex := h.index he
  omega

theorem get_of_le {index : ℕ} (h : l.firstIndex ≤ index) :
    l.get index = l.entries[index - l.firstIndex]? := if_pos h

theorem first_le_of_get {index : ℕ} (hx : l.get index = some x) : l.firstIndex ≤ index := by
  by_contra hlt
  rw [get, if_neg hlt] at hx
  cases hx

/-- The entry at an index carries it. -/
theorem Contiguous.index_of_get (h : l.Contiguous) {index : ℕ} (hx : l.get index = some x) :
    x.index = index := by
  have hge := first_le_of_get hx
  rw [get_of_le hge] at hx
  have hindex := h.index hx
  omega

theorem get_eq_none {index : ℕ} (h : l.firstIndex ≤ index) :
    l.get index = none ↔ l.firstIndex + l.entries.length ≤ index := by
  rw [get_of_le h, List.getElem?_eq_none_iff]
  omega

/-- A log with the same entries before the position of `index` has the same entry there. -/
theorem get_of_prefix {l' : RaftLog} {index : ℕ} (hx : l.get index = some x)
    (hf : l'.firstIndex = l.firstIndex)
    (hp : l.entries.take (index - l.firstIndex + 1) <+: l'.entries) : l'.get index = some x := by
  have hle := first_le_of_get hx
  rw [get_of_le hle] at hx
  have hlen := (List.getElem?_eq_some_iff.mp hx).1
  obtain ⟨r, hr⟩ := hp
  rw [get_of_le (hf.le.trans hle), hf, ← hr,
    List.getElem?_append_left (by rw [List.length_take]; omega), List.getElem?_take_of_lt (by omega)]
  exact hx

/-- A missing term is a missing entry. -/
theorem termAt_eq_neg {index : ℕ} (h0 : index ≠ 0) : l.termAt index = -1 ↔ l.get index = none := by
  unfold termAt
  rw [if_neg h0]
  cases l.get index with
  | none => simp
  | some e => simp only [reduceCtorEq]

theorem get_appendEntry {index term : ℕ} {payload : Bytes} (hx : l.get index = some x) :
    (l.appendEntry term payload).get index = some x :=
  get_of_prefix hx rfl ((List.take_prefix _ _).trans (List.prefix_append _ _))

theorem Contiguous.appendEntry (h : l.Contiguous) (term : ℕ) (payload : Bytes) :
    (l.appendEntry term payload).Contiguous ∧
      (l.appendEntry term payload).get (l.lastIndex + 1) = some ⟨l.lastIndex + 1, term, payload⟩ := by
  have hlast := h.lastIndex
  refine ⟨⟨h.1, fun he => by simp [RaftLog.appendEntry] at he, indexes_iff.mpr fun k e he => ?_⟩, ?_⟩
  · have he' : (l.entries ++ [⟨l.lastIndex + 1, term, payload⟩])[k]? = some e := he
    by_cases hk : k < l.entries.length
    · rw [List.getElem?_append_left hk] at he'
      exact h.index he'
    · rw [List.getElem?_append_right (by omega)] at he'
      obtain ⟨h1, h2⟩ := List.getElem?_eq_some_iff.mp he'
      simp only [List.length_singleton] at h1
      rw [← h2, List.getElem_singleton]
      show l.lastIndex + 1 = l.firstIndex + k
      omega
  · rw [get_of_le (show (l.appendEntry term payload).firstIndex ≤ _ from by
      show l.firstIndex ≤ _
      omega)]
    show (l.entries ++ [_])[l.lastIndex + 1 - l.firstIndex]? = _
    rw [List.getElem?_append_right (by omega), show l.lastIndex + 1 - l.firstIndex -
      l.entries.length = 0 by omega]
    rfl

theorem Plain.appendEntry (h : l.Plain) (term : ℕ) (payload : Bytes) :
    (l.appendEntry term payload).Plain :=
  (h.contiguous.appendEntry term payload).1.plain h.first

theorem filter_index {m : ℕ} : ∀ {es : List Entry} {first : ℕ},
    (∀ k e, es[k]? = some e → e.index = first + k) → first ≤ m + 1 →
    es.filter (fun e => m < e.index) = es.drop (m + 1 - first)
  | [], _, _, _ => by simp
  | e :: es, first, h, hm => by
    have he : e.index = first := h 0 e rfl
    have htail : ∀ k y, es[k]? = some y → y.index = first + 1 + k := by
      intro k y hy
      rw [h (k + 1) y (by simpa using hy)]
      omega
    by_cases hlt : m < first
    · rw [show m + 1 - first = 0 by omega, List.drop_zero, List.filter_eq_self]
      intro y hy
      obtain ⟨k, hk⟩ := List.mem_iff_getElem?.mp hy
      rw [h k y hk]
      exact decide_eq_true (by omega)
    · rw [List.filter_cons_of_neg (by rw [he]; simpa using hlt), filter_index htail (by omega),
        show m + 1 - first = (m + 1 - (first + 1)) + 1 by omega, List.drop_succ_cons]

/-- A contiguous log without its entries up to `m`, as `compact` and an installed snapshot leave
it. -/
theorem Contiguous.cut (hl : l.Contiguous) {m index : ℕ} (hm : l.firstIndex ≤ m + 1)
    (hx : l.get index = some x) (hlt : m < index) (term : ℤ) :
    Contiguous ⟨l.entries.filter (fun e => m < e.index), m + 1, m, term⟩ ∧
      RaftLog.get ⟨l.entries.filter (fun e => m < e.index), m + 1, m, term⟩ index = some x := by
  have hle := first_le_of_get hx
  rw [get_of_le hle] at hx
  rw [filter_index (fun k e he => hl.index he) hm]
  have hget : (l.entries.drop (m + 1 - l.firstIndex))[index - (m + 1)]? = some x := by
    rw [List.getElem?_drop, show m + 1 - l.firstIndex + (index - (m + 1)) = index - l.firstIndex by omega]
    exact hx
  refine ⟨⟨rfl, fun he => ?_, indexes_iff.mpr fun k e he => ?_⟩, ?_⟩
  · dsimp only at he
    rw [he] at hget
    simp at hget
  · rw [List.getElem?_drop] at he
    rw [hl.index he]
    dsimp only
    omega
  · rw [get_of_le (show m + 1 ≤ index from hlt)]
    exact hget

theorem compact_eq {l' : RaftLog} {m : ℕ} {t : ℤ} (hc : l.compact m t = some l') :
    l.firstIndex ≤ m + 1 ∧ l' = ⟨l.entries.filter (fun e => m < e.index), m + 1, m, t⟩ := by
  unfold compact at hc
  split_ifs at hc with h1 h2
  cases hc
  exact ⟨by omega, rfl⟩

/-! ### Merges of any window -/

/-- What the scan of a merge finds: every term of the window, or the place `j` at which the log ends
or holds another term. -/
def Placed (l : RaftLog) (prevIndex k : ℕ) (rest : List Entry) : RaftLog × Option ℕ → Prop
  | (l', none) => l' = l ∧
      ∀ j y, rest[j]? = some y → l.termAt (prevIndex + 1 + k + j) = (y.term : ℤ)
  | (l', some j) => k ≤ j ∧ j < k + rest.length ∧
      prevIndex + 1 + j ≤ l.firstIndex + l.entries.length ∧
      l' = { l with entries := l.entries.take (prevIndex + 1 + j - l.firstIndex) } ∧
      (l' = l ∨ ∃ y, rest[j - k]? = some y ∧ l.termAt (prevIndex + 1 + j) ≠ -1 ∧
        l.termAt (prevIndex + 1 + j) ≠ (y.term : ℤ))

theorem findInsert_placed (l : RaftLog) (prevIndex : ℕ) : ∀ (rest : List Entry) (k : ℕ),
    l.firstIndex ≤ prevIndex + 1 + k → prevIndex + 1 + k ≤ l.firstIndex + l.entries.length →
    Placed l prevIndex k rest (l.findInsert prevIndex k rest)
  | [], k, _, _ => ⟨rfl, fun j y hy => by simp at hy⟩
  | inc :: rest, k, hk, hlen => by
    have h0 : prevIndex + 1 + k ≠ 0 := by omega
    have hin : k < k + (inc :: rest).length := by simp
    unfold findInsert
    dsimp only
    split_ifs with h1 h2
    · -- the log ends here
      have hend := (get_eq_none hk).mp ((termAt_eq_neg h0).mp h1)
      have htake : l.entries.take (prevIndex + 1 + k - l.firstIndex) = l.entries :=
        List.take_of_length_le (by omega)
      refine ⟨le_rfl, hin, hlen, ?_, .inl rfl⟩
      rw [htake]
    · -- another term
      exact ⟨le_rfl, hin, hlen, rfl, .inr ⟨inc, by simp, h1, h2⟩⟩
    · rw [not_not] at h2
      have hhere : ¬l.firstIndex + l.entries.length ≤ prevIndex + 1 + k := by
        rw [← get_eq_none hk, ← termAt_eq_neg h0]
        exact h1
      have ih := findInsert_placed l prevIndex rest (k + 1) (by omega) (by omega)
      cases hf : l.findInsert prevIndex (k + 1) rest with
      | mk l' o =>
        rw [hf] at ih
        cases o with
        | none =>
          refine ⟨ih.1, fun j y hy => ?_⟩
          cases j with
          | zero =>
            simp only [List.getElem?_cons_zero, Option.some.injEq] at hy
            rw [← hy]
            exact h2
          | succ j =>
            rw [← ih.2 j y (by simpa using hy)]
            congr 1
            omega
        | some j =>
          obtain ⟨h3, h4, h5, h6, h7⟩ := ih
          refine ⟨by omega, by simp only [List.length_cons]; omega, h5, h6, h7.imp_right ?_⟩
          rintro ⟨y, hy, hrest⟩
          refine ⟨y, ?_, hrest⟩
          rw [show j - k = (j - (k + 1)) + 1 by omega, List.getElem?_cons_succ]
          exact hy

theorem length_reindex : ∀ (k : ℕ) (es : List Entry), (reindex prevIndex k es).length = es.length
  | _, [] => rfl
  | k, inc :: rest => by simp [reindex, length_reindex (k + 1) rest]

theorem merge_ok (hok : (l.merge prevIndex prevTerm incoming).ok = true) :
    prevIndex ≤ l.lastIndex ∧ l.termAt prevIndex = prevTerm ∧
      (l.merge prevIndex prevTerm incoming).matchIndex = prevIndex + incoming.length := by
  unfold merge at hok ⊢
  split_ifs at hok ⊢ with h1 h2
  refine ⟨not_lt.mp h1, not_not.mp h2, ?_⟩
  split <;> rfl

theorem getElem_reindex : ∀ (k : ℕ) (es : List Entry) (j : ℕ) (y : Entry),
    (reindex prevIndex k es)[j]? = some y → y.index = prevIndex + 1 + k + j
  | _, [], j, y, h => by simp [reindex] at h
  | k, inc :: rest, j, y, h => by
    unfold reindex at h
    cases j with
    | zero =>
      simp only [List.getElem?_cons_zero, Option.some.injEq] at h
      rw [← h]
      rfl
    | succ j =>
      rw [getElem_reindex (k + 1) rest j y (by simpa using h)]
      omega

/-- A merge leaves `first_index`. -/
theorem merge_first (l : RaftLog) (prevIndex : ℕ) (prevTerm : ℤ) (incoming : List Entry) :
    (l.merge prevIndex prevTerm incoming).log.firstIndex = l.firstIndex := by
  have hscan : ∀ (rest : List Entry) (k : ℕ),
      (l.findInsert prevIndex k rest).1.firstIndex = l.firstIndex := by
    intro rest
    induction rest with
    | nil => exact fun _ => rfl
    | cons inc rest ih =>
      intro k
      unfold findInsert
      dsimp only
      split_ifs
      · rfl
      · rfl
      · exact ih (k + 1)
  unfold merge
  split_ifs
  · rfl
  · rfl
  · have h := hscan incoming 0
    split <;> rename_i heq <;> rw [heq] at h <;> exact h

/-- **A merge on a contiguous log**, of a window that does not start below it: the log stays
contiguous; it is unchanged, with all terms of the window, or ends with the window; and it keeps
the entries before the first conflict. -/
theorem merge_contiguous (hl : l.Contiguous) (hfirst : l.firstIndex ≤ prevIndex + 1)
    (hok : (l.merge prevIndex prevTerm incoming).ok = true) :
    (l.merge prevIndex prevTerm incoming).log.Contiguous ∧
    ((l.merge prevIndex prevTerm incoming).log = l ∧
        (∀ j y, incoming[j]? = some y → l.termAt (prevIndex + 1 + j) = (y.term : ℤ)) ∨
      (l.merge prevIndex prevTerm incoming).log.lastIndex = prevIndex + incoming.length) ∧
    ∀ index y, l.get index = some y →
      (∀ j z, incoming[j]? = some z → prevIndex + 1 + j ≤ index →
        l.termAt (prevIndex + 1 + j) = -1 ∨ l.termAt (prevIndex + 1 + j) = (z.term : ℤ)) →
      (l.merge prevIndex prevTerm incoming).log.get index = some y := by
  have hprev := (merge_ok hok).1
  have hlast := hl.lastIndex
  have hplaced := findInsert_placed l prevIndex incoming 0 (by omega) (by omega)
  unfold merge at hok ⊢
  split_ifs at hok ⊢ with h1 h2
  cases hf : l.findInsert prevIndex 0 incoming with
  | mk l' o =>
    rw [hf] at hplaced
    cases o with
    | none =>
      obtain ⟨rfl, hterms⟩ := hplaced
      exact ⟨hl, .inl ⟨rfl, hterms⟩, fun _ _ hy _ => hy⟩
    | some j =>
      obtain ⟨-, hj, hlen, rfl, hcut⟩ := hplaced
      dsimp only
      have hp : (l.entries.take (prevIndex + 1 + j - l.firstIndex)).length =
          prevIndex + 1 + j - l.firstIndex := List.length_take_of_le (by omega)
      have hcont : Contiguous { l with
          entries := l.entries.take (prevIndex + 1 + j - l.firstIndex) ++
            reindex prevIndex j (incoming.drop j) } := by
        refine ⟨hl.1, fun he => ?_, indexes_iff.mpr fun k e he => ?_⟩
        · have hlen' := congrArg List.length he
          simp only [List.length_append, length_reindex, List.length_drop, List.length_nil] at hlen'
          omega
        · by_cases hk : k < prevIndex + 1 + j - l.firstIndex
          · rw [List.getElem?_append_left (by omega), List.getElem?_take_of_lt hk] at he
            exact hl.index he
          · rw [List.getElem?_append_right (by omega), hp] at he
            rw [getElem_reindex _ _ _ _ he]
            dsimp only
            omega
      refine ⟨hcont, .inr ?_, fun index y hy hno => ?_⟩
      · have hlast' := hcont.lastIndex
        simp only [List.length_append, length_reindex, List.length_drop, hp] at hlast'
        omega
      · refine get_of_prefix hy rfl (List.IsPrefix.trans ?_ (List.prefix_append _ _))
        rcases hcut with hcut | ⟨z, hz, hne, hne'⟩
        · have heq : l.entries.take (prevIndex + 1 + j - l.firstIndex) = l.entries :=
            congrArg RaftLog.entries hcut
          rw [heq]
          exact List.take_prefix _ _
        · have hge := first_le_of_get hy
          have hlt : index < prevIndex + 1 + j := by
            by_contra hge
            rcases hno j z hz (by omega) with h | h
            · exact hne h
            · exact hne' h
          exact List.take_prefix_take_left (by omega)

/-- A merge that leaves entries past the window changed nothing: the log held the window. -/
theorem merge_long (hl : l.Plain) (hok : (l.merge prevIndex prevTerm incoming).ok = true)
    (hlong : prevIndex + incoming.length <
      (l.merge prevIndex prevTerm incoming).log.entries.length) :
    (l.merge prevIndex prevTerm incoming).log = l ∧
      ∀ j y, incoming[j]? = some y → l.termAt (prevIndex + 1 + j) = (y.term : ℤ) := by
  obtain ⟨hc, hsame | hlast, -⟩ := merge_contiguous hl.contiguous (by rw [hl.first]; omega) hok
  · exact hsame
  · have hlast' := hc.lastIndex
    have hfirst := merge_first l prevIndex prevTerm incoming
    rw [hl.first] at hfirst
    omega

end Pylog.Raft.RaftLog
