import Pylog.Raft.CatchUp

/-!
# Pylog.Raft.Windows — windows of a leader's log, merged in any order

A window that was sent long ago can arrive late, twice, or behind a newer one.  `RaftLog.Copies`
is what every merge of a window keeps (`Copies.merge`): the logs match, and the follower holds what
it acknowledged.  Runs of merges are then folds (`merges_in_any_order`).
-/

namespace Pylog.Raft

namespace RaftLog

/-- `prev_index`, `prev_term` and `entries` of an append request. -/
structure Cut where
  prevIndex : ℕ
  prevTerm : ℤ
  entries : List Entry
  deriving DecidableEq, Repr

/-- What `_send_append` takes from the log for a peer. -/
def cutAt (l : RaftLog) (nextIndex maxBatch : ℕ) : Cut :=
  ⟨nextIndex - 1, l.termAt (nextIndex - 1), l.entriesFrom nextIndex maxBatch⟩

def mergeCut (l : RaftLog) (w : Cut) : Merged := l.merge w.prevIndex w.prevTerm w.entries

/-- The match a successful merge returns. -/
def Merged.acked (m : Merged) : ℕ := if m.ok then m.matchIndex else 0

/-- The window is cut from a prefix of the log. -/
def CutFrom (l : RaftLog) (w : Cut) : Prop :=
  ∃ es, es <+: l.entries ∧ Window es w.prevIndex w.prevTerm w.entries

variable {l : RaftLog} {src : List Entry} {w : Cut} {m : ℕ}

/-! ### What every merge keeps -/

/-- The log matches the list `src`, and holds its first `m` entries. -/
structure Copies (src : List Entry) (m : ℕ) (l : RaftLog) : Prop where
  plain : l.Plain
  agrees : Agrees l.entries src
  le : m ≤ src.length
  holds : src.take m <+: l.entries

theorem agrees_take (src : List Entry) (n : ℕ) : Agrees (src.take n) src := by
  intro k e e' he he' _
  have hk : k < n := by
    have := (List.getElem?_eq_some_iff.mp he).1
    rw [List.length_take] at this
    omega
  rw [List.take_take, Nat.min_eq_left (by omega)]

theorem termBefore_of_take {es : List Entry} (hm : m ≤ src.length) (h : src.take m <+: es) :
    termBefore es m = termBefore src m := by
  cases m with
  | zero => rfl
  | succ k =>
    obtain ⟨r, rfl⟩ := h
    rw [termBefore_add_one, termBefore_add_one,
      List.getElem?_append_left (by rw [List.length_take]; omega), List.getElem?_take_of_lt (by omega)]

theorem Copies.le_length (h : Copies src m l) : m ≤ l.entries.length := by
  have := h.holds.length_le
  rwa [List.length_take, Nat.min_eq_left h.le] at this

/-- A window behind entries that are copied is accepted. -/
theorem Copies.accepts (h : Copies src m l) (hw : Window src w.prevIndex w.prevTerm w.entries)
    (hle : w.prevIndex ≤ m) : (l.mergeCut w).ok = true := by
  have hlen := h.le_length
  refine (merge_ok_iff ..).mpr ⟨?_, ?_⟩
  · rw [h.plain.lastIndex]
    omega
  · rw [h.plain.termAt, hw.term]
    refine termBefore_of_take hw.le (List.IsPrefix.trans ?_ h.holds)
    exact List.take_prefix_take_left hle

/-- **A merge of a window** keeps the log matching and what was copied; what it acknowledges is
copied. -/
theorem Copies.merge (hi : Indexed src) (h : Copies src m l)
    (hw : Window src w.prevIndex w.prevTerm w.entries) :
    Copies src (max m (l.mergeCut w).acked) (l.mergeCut w).log := by
  unfold Merged.acked
  cases hok : (l.mergeCut w).ok with
  | false =>
    rw [show (l.mergeCut w).log = l from merge_fails hok]
    simpa using h
  | true =>
    obtain ⟨hmatch, hplain, hcase⟩ := merge_window h.plain hi hw h.agrees hok
    rw [if_pos rfl, show (l.mergeCut w).matchIndex = _ from hmatch]
    have hle : max m (w.prevIndex + w.entries.length) ≤ src.length := max_le h.le hw.length_le
    rcases hcase with ⟨hheld, hsame⟩ | ⟨hnot, hnew⟩
    · refine ⟨hplain, ?_, hle, ?_⟩
      · exact hsame ▸ h.agrees
      · rw [show (l.mergeCut w).log.entries = l.entries from hsame]
        rcases max_choice m (w.prevIndex + w.entries.length) with hmax | hmax <;> rw [hmax]
        · exact h.holds
        · exact hheld
    · -- a window that ends below what was copied changes nothing
      have hlt : m ≤ w.prevIndex + w.entries.length := by
        by_contra hgt
        exact hnot ((List.take_prefix_take_left (by omega)).trans h.holds)
      rw [Nat.max_eq_right hlt] at hle ⊢
      have hentries : (l.mergeCut w).log.entries = src.take (w.prevIndex + w.entries.length) := hnew
      refine ⟨hplain, ?_, hle, ?_⟩
      · rw [hentries]
        exact agrees_take src _
      · rw [hentries]

/-- The copied entries are those of the leader. -/
theorem Copies.get {l' : RaftLog} (hl' : l'.Plain) (h : Copies l'.entries m l) {i : ℕ} (h1 : 1 ≤ i)
    (hi : i ≤ m) : l.get i = l'.get i := by
  obtain ⟨k, rfl⟩ := Nat.exists_eq_add_of_le' h1
  obtain ⟨r, hr⟩ := h.holds
  have hle := h.le
  rw [h.plain.get, hl'.get, ← hr, List.getElem?_append_left (by rw [List.length_take]; omega),
    List.getElem?_take_of_lt (by omega)]

theorem copies_of_get {l' : RaftLog} (hl' : l'.Plain) (hl : l.Plain)
    (ha : Agrees l.entries l'.entries) (hm : m ≤ l'.lastIndex)
    (h : ∀ i, 1 ≤ i → i ≤ m → l.get i = l'.get i) : Copies l'.entries m l := by
  rw [hl'.lastIndex] at hm
  refine ⟨hl, ha, hm, List.prefix_iff_getElem?.mpr ?_⟩
  intro k hk
  rw [List.length_take] at hk
  rw [List.getElem_take, ← hl.get, h (k + 1) (by omega) (by omega), hl'.get]
  exact List.getElem?_eq_getElem (by omega)

/-! ### The same window twice -/

/-- A merge changes the entries only. -/
theorem merge_log (l : RaftLog) (prevIndex : ℕ) (prevTerm : ℤ) (incoming : List Entry) :
    (l.merge prevIndex prevTerm incoming).log =
      { l with entries := (l.merge prevIndex prevTerm incoming).log.entries } := by
  have hscan : ∀ (rest : List Entry) (k : ℕ), (l.findInsert prevIndex k rest).1 =
      { l with entries := (l.findInsert prevIndex k rest).1.entries } := by
    intro rest
    induction rest with
    | nil => exact fun _ => rfl
    | cons inc rest ih =>
      intro k
      unfold findInsert
      dsimp only
      split_ifs
      · rfl
      · rfl
      · exact ih (k + 1)
  unfold RaftLog.merge
  split_ifs
  · rfl
  · rfl
  · have h := hscan incoming 0
    split <;> rename_i heq <;> rw [heq] at h <;> dsimp only at h ⊢ <;> rw [h]

theorem merge_answer {prevIndex : ℕ} {prevTerm : ℤ} {incoming : List Entry}
    (hok : (l.merge prevIndex prevTerm incoming).ok = true) :
    l.merge prevIndex prevTerm incoming =
      ⟨(l.merge prevIndex prevTerm incoming).log, true, prevIndex + incoming.length, 0⟩ := by
  unfold RaftLog.merge at hok ⊢
  split_ifs at hok ⊢
  split <;> rfl

/-- A window merged into a log it was just merged into changes nothing, and has the same answer. -/
theorem Copies.merge_twice (hi : Indexed src) (h : Copies src m l)
    (hw : Window src w.prevIndex w.prevTerm w.entries) :
    (l.mergeCut w).log.mergeCut w = l.mergeCut w := by
  cases hok : (l.mergeCut w).ok with
  | false => rw [show (l.mergeCut w).log = l from merge_fails hok]
  | true =>
    have h' := h.merge hi hw
    have hanswer : l.mergeCut w = ⟨_, true, _, 0⟩ := merge_answer hok
    have hacked : (l.mergeCut w).acked = w.prevIndex + w.entries.length := by rw [hanswer]; rfl
    rw [hacked] at h'
    have hok' := h'.accepts hw (by omega)
    have hanswer' : (l.mergeCut w).log.mergeCut w = ⟨_, true, _, 0⟩ := merge_answer hok'
    have hheld : src.take (w.prevIndex + w.entries.length) <+: (l.mergeCut w).log.entries :=
      (List.take_prefix_take_left (le_max_right ..)).trans h'.holds
    obtain ⟨-, -, ⟨-, hsame⟩ | ⟨hnot, -⟩⟩ := merge_window h'.plain hi hw h'.agrees hok'
    · have hlog : ((l.mergeCut w).log.mergeCut w).log = (l.mergeCut w).log := by
        refine (merge_log _ _ _ _).trans ?_
        rw [show ((l.mergeCut w).log.merge _ _ _).log.entries = _ from hsame]
      rw [hanswer']
      conv_rhs => rw [hanswer]
      rw [show (RaftLog.merge (l.mergeCut w).log _ _ _).log = _ from hlog]
      rfl
    · exact absurd hheld hnot

/-! ### Windows in any order -/

/-- The log after merging the windows one after the other. -/
def mergeAll (l : RaftLog) (ws : List Cut) : RaftLog := ws.foldl (fun l w => (l.mergeCut w).log) l

/-- The largest match that a successful merge returned. -/
def topMatch : RaftLog → List Cut → ℕ
  | _, [] => 0
  | l, w :: ws => max (l.mergeCut w).acked (topMatch (l.mergeCut w).log ws)

theorem mergeAll_append (l : RaftLog) (xs ys : List Cut) :
    l.mergeAll (xs ++ ys) = (l.mergeAll xs).mergeAll ys := List.foldl_append ..

theorem CutFrom.window {l' : RaftLog} (h : l'.CutFrom w) :
    Window l'.entries w.prevIndex w.prevTerm w.entries := by
  obtain ⟨es, hes, hw⟩ := h
  exact hw.mono hes

theorem Copies.mergeAll (hi : Indexed src) : ∀ {ws : List Cut} {l : RaftLog} {m : ℕ},
    Copies src m l → (∀ w ∈ ws, Window src w.prevIndex w.prevTerm w.entries) →
    Copies src (max m (l.topMatch ws)) (l.mergeAll ws)
  | [], l, m, h, _ => by simpa [topMatch, RaftLog.mergeAll] using h
  | w :: ws, l, m, h, hws => by
    have h' := Copies.mergeAll hi (h.merge hi (hws w List.mem_cons_self)) fun x hx =>
      hws x (List.mem_cons_of_mem w hx)
    rwa [Nat.max_assoc] at h'

end RaftLog

/-- **Appends in any order**: windows cut from prefixes of the leader's log, merged one after the
other.  The logs still match; the follower's agrees with the leader's up to the largest match
returned; no later merge shortens it below; and a window merged twice in a row is merged once. -/
theorem merges_in_any_order {leader follower : RaftLog} (hl : leader.Plain) (hf : follower.Plain)
    (ha : RaftLog.Agrees follower.entries leader.entries) {ws : List RaftLog.Cut}
    (hws : ∀ w ∈ ws, leader.CutFrom w) :
    RaftLog.Agrees (follower.mergeAll ws).entries leader.entries ∧
    (∀ i, 1 ≤ i → i ≤ follower.topMatch ws → (leader.get i).isSome ∧
      (follower.mergeAll ws).get i = leader.get i) ∧
    (∀ xs ys zs, ws = xs ++ ys ++ zs →
      follower.topMatch xs ≤ (follower.mergeAll (xs ++ ys)).lastIndex) ∧
    ∀ xs w ys, ws = xs ++ w :: ys →
      follower.mergeAll (xs ++ w :: w :: ys) = follower.mergeAll ws := by
  have hstart : RaftLog.Copies leader.entries 0 follower := ⟨hf, ha, Nat.zero_le _, List.nil_prefix⟩
  have hall : ∀ us : List RaftLog.Cut, us <+: ws →
      RaftLog.Copies leader.entries (follower.topMatch us) (follower.mergeAll us) := by
    intro us hus
    have h := hstart.mergeAll hl.indexed fun w hw => (hws w (hus.subset hw)).window
    rwa [Nat.zero_max] at h
  have hcopies := hall ws (List.prefix_refl _)
  refine ⟨hcopies.agrees, fun i h1 hi => ⟨?_, hcopies.get hl h1 hi⟩, ?_, ?_⟩
  · obtain ⟨k, rfl⟩ := Nat.exists_eq_add_of_le' h1
    have hle := hcopies.le
    rw [hl.get, List.getElem?_eq_getElem (by omega)]
    rfl
  · rintro xs ys zs rfl
    have hxs := hall xs (by rw [List.append_assoc]; exact List.prefix_append _ _)
    have h := hxs.mergeAll hl.indexed fun w (hw : w ∈ ys) => (hws w (by simp [hw])).window
    rw [RaftLog.mergeAll_append, h.plain.lastIndex]
    exact (le_max_left _ _).trans h.le_length
  · rintro xs w ys rfl
    have hxs := hall xs (List.prefix_append _ _)
    have htwice := hxs.merge_twice hl.indexed (hws w (by simp)).window
    rw [RaftLog.mergeAll_append, RaftLog.mergeAll_append]
    show RaftLog.mergeAll (((follower.mergeAll xs).mergeCut w).log.mergeCut w).log ys = _
    rw [htwice]
    rfl

/-- A leader's log, and a follower's that has left it behind the first entry. -/
def leading : RaftLog := { entries := [⟨1, 1, [97]⟩, ⟨2, 1, [98]⟩, ⟨3, 3, [99]⟩] }

def strayed : RaftLog :=
  { entries := [⟨1, 1, [97]⟩, ⟨2, 2, [120]⟩, ⟨3, 2, [121]⟩, ⟨4, 2, [122]⟩] }

theorem leading_plain : leading.Plain := RaftLog.Contiguous.plain (by decide) rfl

theorem strayed_plain : strayed.Plain := RaftLog.Contiguous.plain (by decide) rfl

theorem strayed_agrees : RaftLog.Agrees strayed.entries leading.entries := by
  rintro (_ | _ | _ | k) e e' he he' ht
  · rfl
  · cases he
    cases he'
    cases ht
  · cases he
    cases he'
    cases ht
  · simp [leading] at he'

theorem merges_in_any_order_stale :
    RaftLog.Agrees (strayed.mergeAll [leading.cutAt 1 0, leading.cutAt 2 1]).entries
        leading.entries ∧
      (strayed.mergeAll [leading.cutAt 1 0, leading.cutAt 2 1]).get 3 = leading.get 3 := by
  have hcut : ∀ w ∈ [leading.cutAt 1 0, leading.cutAt 2 1], leading.CutFrom w := by
    intro w hw
    refine ⟨leading.entries, List.prefix_refl _, ?_⟩
    rcases List.mem_cons.mp hw with rfl | hw
    · exact ⟨by decide, by decide, by decide⟩
    · rw [List.mem_singleton.mp hw]
      exact ⟨by decide, by decide, by decide⟩
  obtain ⟨hagrees, hget, -, -⟩ :=
    merges_in_any_order leading_plain strayed_plain strayed_agrees hcut
  exact ⟨hagrees, (hget 3 (by decide) (by decide)).2⟩

end Pylog.Raft
