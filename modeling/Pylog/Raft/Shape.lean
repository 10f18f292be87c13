import Mathlib.Order.Bounds.Basic
import Pylog.Raft.Commands

/-!
# Pylog.Raft.Shape — the terms along a log

Terms never decrease along a log, and none is above the term in the node's vote file
(`logs_in_shape`): whatever windows arrive in whatever order, since a merge joins the window to an
entry of its own `prev_term`.  On such a log, compacted or not, the conflict hint is the first index
of its term (`conflict_hint_first`).
-/

namespace Pylog.Raft

open Effect Transition Trace

namespace RaftLog

variable {l : RaftLog} {prevIndex t : ℕ} {prevTerm : ℤ} {incoming : List Entry}

/-- The terms never decrease. -/
def Ascending (es : List Entry) : Prop := (es.map Entry.term).Pairwise (· ≤ ·)

instance (es : List Entry) : Decidable (Ascending es) := inferInstanceAs (Decidable (List.Pairwise _ _))

theorem ascending_nil : Ascending [] := List.Pairwise.nil

theorem Ascending.le {es : List Entry} (h : Ascending es) {j k : ℕ} (hjk : j ≤ k) {x y : Entry}
    (hx : es[j]? = some x) (hy : es[k]? = some y) : x.term ≤ y.term := by
  rcases Nat.eq_or_lt_of_le hjk with rfl | hlt
  · rw [hx] at hy
    cases hy
    exact le_rfl
  · obtain ⟨hj, rfl⟩ := List.getElem?_eq_some_iff.mp hx
    obtain ⟨hk, rfl⟩ := List.getElem?_eq_some_iff.mp hy
    have := List.pairwise_iff_getElem.mp h j k (by simpa using hj) (by simpa using hk) hlt
    simpa using this

theorem Ascending.sublist {es es' : List Entry} (h : Ascending es) (hs : es'.Sublist es) :
    Ascending es' :=
  List.Pairwise.sublist (hs.map _) h

theorem ascending_append {es es' : List Entry} :
    Ascending (es ++ es') ↔ Ascending es ∧ Ascending es' ∧ ∀ x ∈ es, ∀ y ∈ es', x.term ≤ y.term := by
  unfold Ascending
  rw [List.map_append, List.pairwise_append]
  simp

theorem ascending_cons {e : Entry} {es : List Entry} :
    Ascending (e :: es) ↔ (∀ y ∈ es, e.term ≤ y.term) ∧ Ascending es := by
  unfold Ascending
  rw [List.map_cons, List.pairwise_cons]
  simp

/-! ### The conflict hint -/

/-- The first loop stays where it is on an index of the term. -/
theorem seekTerm_self {i : ℕ} : l.seekTerm (l.termAt i) i = i := by
  cases i with
  | zero => rfl
  | succ i => exact if_neg fun h => h.2 rfl

/-- The second loop goes down through indexes of the term, and stops above one of another term. -/
theorem seekFirst_spec {t : ℤ} : ∀ {i : ℕ}, 0 < i → l.termAt i = t →
    0 < l.seekFirst t i ∧ l.seekFirst t i ≤ i ∧
      (∀ j, l.seekFirst t i ≤ j → j ≤ i → l.termAt j = t) ∧
      (1 < l.seekFirst t i → l.termAt (l.seekFirst t i - 1) ≠ t)
  | i + 1, _, hi => by
    unfold seekFirst
    split_ifs with hdown
    · obtain ⟨hpos, hterm⟩ := hdown
      obtain ⟨h1, h2, h3, h4⟩ := seekFirst_spec (i := i) (by omega) hterm
      refine ⟨h1, by omega, fun j hj hji => ?_, h4⟩
      rcases Nat.eq_or_lt_of_le hji with rfl | hlt
      · exact hi
      · exact h3 j hj (by omega)
    · refine ⟨by omega, le_rfl, fun j hj hji => ?_, fun hlt hterm => hdown ⟨hlt, hterm⟩⟩
      rw [le_antisymm hji hj]
      exact hi

/-- The terms of entries are those `term_at` finds, when they are positive. -/
theorem termAt_eq_iff {index t : ℕ} (ht : 0 < t) :
    l.termAt index = (t : ℤ) ↔ 0 < index ∧ (l.get index).map Entry.term = some t := by
  unfold termAt
  cases index with
  | zero => simp; omega
  | succ index =>
    rw [if_neg (Nat.succ_ne_zero index)]
    cases l.get (index + 1) with
    | none => simp
    | some e => simp

/-- The log holds an entry at every index up to the last. -/
theorem get_of_range (hindex : l.entries.map Entry.index = List.range' l.firstIndex l.entries.length)
    (h0 : 0 < l.firstIndex) {p : ℕ} (hp : l.firstIndex ≤ p) (hlast : p ≤ l.lastIndex) :
    ∃ e, l.entries[p - l.firstIndex]? = some e ∧ l.get p = some e := by
  rw [get_of_le hp]
  have hlt : p - l.firstIndex < l.entries.length := by
    unfold lastIndex at hlast
    rcases List.eq_nil_or_concat' l.entries with he | ⟨es, e, he⟩
    · rw [he] at hlast
      exact absurd hlast (by simp; omega)
    · have hlen : l.entries[es.length]? = some e := by rw [he]; simp
      have hi := indexes_iff.mp hindex es.length e hlen
      rw [he] at hlast ⊢
      simp only [List.getLast?_concat, List.length_append, List.length_singleton] at hlast ⊢
      omega
  exact ⟨_, List.getElem?_eq_getElem hlt, List.getElem?_eq_getElem hlt⟩

/-- **The hint is the first index of the conflicting term**, and all entries from there to the
conflict are of that term. -/
theorem conflict_hint_first (h0 : 0 < l.firstIndex)
    (hindex : l.entries.map Entry.index = List.range' l.firstIndex l.entries.length)
    (hasc : Ascending l.entries) (hpos : ∀ e ∈ l.entries, 0 < e.term) {p : ℕ}
    (hp : l.firstIndex ≤ p) (hlast : p ≤ l.lastIndex) :
    ∃ e, l.get p = some e ∧
      IsLeast {i | l.firstIndex ≤ i ∧ i ≤ p ∧ (l.get i).map Entry.term = some e.term}
        (l.conflictTermFirstIndex (l.termAt p) p) ∧
      ∀ j, l.conflictTermFirstIndex (l.termAt p) p ≤ j → j ≤ p →
        (l.get j).map Entry.term = some e.term := by
  obtain ⟨e, hep, he⟩ := get_of_range hindex h0 hp hlast
  have ht : 0 < e.term := hpos e (mem_of_get he)
  have hterm : l.termAt p = (e.term : ℤ) :=
    (termAt_eq_iff ht).mpr ⟨by omega, by rw [he]; rfl⟩
  obtain ⟨h1, h2, h3, h4⟩ := seekFirst_spec (l := l) (i := p) (by omega) hterm
  have hhint : l.conflictTermFirstIndex (l.termAt p) p = l.seekFirst e.term p := by
    unfold conflictTermFirstIndex
    rw [seekTerm_self, hterm]
    exact max_eq_right h1
  rw [hhint]
  generalize l.seekFirst e.term p = r at *
  have hall : ∀ j, r ≤ j → j ≤ p → (l.get j).map Entry.term = some e.term :=
    fun j hj hjp => ((termAt_eq_iff ht).mp (h3 j hj hjp)).2
  refine ⟨e, he, ⟨⟨?_, h2, hall r le_rfl h2⟩, ?_⟩, hall⟩
  · -- nothing is found below a compaction point
    by_contra hlt
    have hr := hall r le_rfl h2
    unfold get at hr
    rw [if_neg hlt] at hr
    cases hr
  · rintro i ⟨hi, hip, hti⟩
    by_contra hlt
    -- the entry below the hint lies between two entries of the term
    obtain ⟨y, hyi, hy⟩ := get_of_range hindex h0 hi (hip.trans hlast)
    obtain ⟨x, hxr, hx⟩ := get_of_range hindex h0 (p := r - 1) (by omega) (by omega)
    rw [hy] at hti
    have hyt : y.term = e.term := Option.some.inj hti
    have hyx : y.term ≤ x.term := hasc.le (by omega) hyi hxr
    have hxe : x.term ≤ e.term := hasc.le (by omega) hxr hep
    refine h4 (by omega) ((termAt_eq_iff ht).mpr ⟨by omega, ?_⟩)
    rw [hx, Option.map_some, le_antisymm hxe (hyt ▸ hyx)]

/-- Terms 1, 2, 2, 2, 3 at the indexes 4 to 8 of a compacted log: the hint for 7 is 5. -/
theorem conflict_hint_first_compacted :
    let l : RaftLog := ⟨[⟨4, 1, []⟩, ⟨5, 2, []⟩, ⟨6, 2, []⟩, ⟨7, 2, []⟩, ⟨8, 3, []⟩], 4, 3, 1⟩
    l.conflictTermFirstIndex (l.termAt 7) 7 = 5 ∧
      IsLeast {i | 4 ≤ i ∧ i ≤ 7 ∧ (l.get i).map Entry.term = some 2} 5 := by
  intro l
  obtain ⟨e, he, hleast, -⟩ := conflict_hint_first (l := l) (by decide) (by decide) (by decide)
    (by decide) (p := 7) (by decide) (by decide)
  have hhint : l.conflictTermFirstIndex (l.termAt 7) 7 = 5 := by decide
  obtain rfl : ⟨7, 2, []⟩ = e := Option.some.inj (Eq.trans (by decide) he)
  rw [hhint] at hleast
  exact ⟨hhint, hleast⟩

/-! ### Windows in shape -/

/-- The entries have the indexes after `prevIndex`, and terms that never decrease, from `prevTerm` up
to `t`.  A whole log is a window after the sentinel. -/
structure InShape (t prevIndex : ℕ) (prevTerm : ℤ) (es : List Entry) : Prop where
  index : ∀ k e, es[k]? = some e → e.index = prevIndex + 1 + k
  ascending : Ascending es
  above : ∀ e ∈ es, prevTerm ≤ e.term
  below : ∀ e ∈ es, e.term ≤ t

theorem inShape_nil : InShape t prevIndex prevTerm [] :=
  ⟨fun k e h => by simp at h, ascending_nil, by simp, by simp⟩

theorem InShape.mono {es : List Entry} (h : InShape t prevIndex prevTerm es) {t' : ℕ} (ht : t ≤ t') :
    InShape t' prevIndex prevTerm es :=
  ⟨h.index, h.ascending, h.above, fun e he => (h.below e he).trans ht⟩

/-- No entry is above the term in front of a later place. -/
theorem Ascending.le_termAt (hasc : Ascending l.entries) (hl : l.Plain) {k : ℕ}
    (hk : k ≤ l.entries.length) : ∀ x ∈ l.entries.take k, (x.term : ℤ) ≤ l.termAt k := by
  intro x hx
  obtain ⟨j, hj⟩ := List.mem_iff_getElem?.mp hx
  rw [List.getElem?_take] at hj
  split_ifs at hj with hjk
  obtain ⟨k, rfl⟩ : ∃ m, k = m + 1 := ⟨k - 1, by omega⟩
  have hlast : l.entries[k]? = some l.entries[k] := List.getElem?_eq_getElem hk
  rw [hl.termAt, termBefore_succ hlast]
  exact_mod_cast hasc.le (by omega) hj hlast

/-- No entry from a place on is below the term in front of it. -/
theorem Ascending.termAt_le (hasc : Ascending l.entries) (hl : l.Plain) {k : ℕ} :
    ∀ x ∈ l.entries.drop k, l.termAt k ≤ (x.term : ℤ) := by
  intro x hx
  obtain ⟨j, hj⟩ := List.mem_iff_getElem?.mp hx
  rw [List.getElem?_drop] at hj
  cases k with
  | zero => exact Int.natCast_nonneg _
  | succ k =>
    have hlt := (List.getElem?_eq_some_iff.mp hj).1
    have hprev : l.entries[k]? = some l.entries[k] := List.getElem?_eq_getElem (by omega)
    rw [hl.termAt, termBefore_succ hprev]
    exact_mod_cast hasc.le (by omega) hprev hj

theorem InShape.appendEntry (h : InShape t 0 0 l.entries) (hl : l.Plain) (payload : Bytes) :
    InShape t 0 0 (l.appendEntry t payload).entries := by
  refine ⟨fun k e he => ?_, ?_, fun e _ => Int.natCast_nonneg _, fun e he => ?_⟩
  · rw [(hl.appendEntry t payload).indexed k e he]
    omega
  · refine ascending_append.mpr ⟨h.ascending, List.pairwise_singleton _ _, fun x hx y hy => ?_⟩
    rw [List.mem_singleton.mp hy]
    exact h.below x hx
  · rcases List.mem_append.mp he with he | he
    · exact h.below e he
    · rw [List.mem_singleton.mp he]

/-- The window that starts after `prevIndex`. -/
theorem InShape.entriesFrom (h : InShape t 0 0 l.entries) (hl : l.Plain) (prevIndex limit : ℕ) :
    InShape t prevIndex (l.termAt prevIndex) (l.entriesFrom (prevIndex + 1) limit) := by
  have hp := hl.entriesFrom prevIndex limit
  refine ⟨fun k e he => ?_, h.ascending.sublist (hp.sublist.trans (List.drop_sublist _ _)),
    fun e he => h.ascending.termAt_le hl e (hp.subset he),
    fun e he => h.below e (List.mem_of_mem_drop (hp.subset he))⟩
  obtain ⟨r, hr⟩ := hp
  have hk := (List.getElem?_eq_some_iff.mp he).1
  have hget : (l.entries.drop prevIndex)[k]? = some e := by
    rw [← hr, List.getElem?_append_left hk]
    exact he
  rw [List.getElem?_drop] at hget
  rw [hl.indexed _ e hget]
  omega

theorem ascending_reindex : ∀ {k : ℕ} {es : List Entry}, Ascending es →
    Ascending (reindex prevIndex k es)
  | _, [], _ => ascending_nil
  | k, inc :: rest, h => by
    obtain ⟨hle, hrest⟩ := ascending_cons.mp h
    unfold reindex
    refine ascending_cons.mpr ⟨fun x hx => ?_, ascending_reindex hrest⟩
    obtain ⟨y, hy, hterm, -⟩ := mem_reindex hx
    rw [hterm]
    exact hle y hy

/-- Where the scan of a merge stops, it keeps nothing above the entries it inserts. -/
theorem findInsert_le (hl : l.Plain) (hin : Ascending incoming) :
    ∀ (rest : List Entry) (k : ℕ), incoming.drop k = rest → prevIndex + k ≤ l.entries.length →
      (∀ x ∈ l.entries.take (prevIndex + k), ∀ y ∈ rest, x.term ≤ y.term) →
      ∀ l' j, l.findInsert prevIndex k rest = (l', some j) →
        ∀ x ∈ l'.entries, ∀ y ∈ incoming.drop j, x.term ≤ y.term
  | [], _, _, _, _, l', j, hf => by cases hf
  | inc :: rest, k, hd, hlen, hle, l', j, hf => by
    unfold findInsert at hf
    dsimp only at hf
    rw [hl.termAt, Nat.add_right_comm] at hf
    split_ifs at hf with h1 h2
    · -- the log ends here
      cases hf
      rw [hd, ← List.take_of_length_le (Nat.lt_add_one_iff.mp (termBefore_eq_neg h1))]
      exact hle
    · -- the entry here has another term
      cases hf
      rw [hd, hl.first, Nat.add_sub_cancel]
      exact hle
    · -- the entry here has the term of the window's
      rw [not_not] at h2
      have hlt : prevIndex + k < l.entries.length := by
        by_contra hge
        rw [termBefore_add_one, List.getElem?_eq_none (by omega)] at h1
        exact h1 rfl
      have hget : l.entries[prevIndex + k]? = some l.entries[prevIndex + k] :=
        List.getElem?_eq_getElem hlt
      have hterm : l.entries[prevIndex + k].term = inc.term := by
        rw [termBefore_succ hget] at h2
        exact_mod_cast h2
      have hrest : incoming.drop (k + 1) = rest := by
        rw [← List.tail_drop, hd]
        rfl
      refine findInsert_le hl hin rest (k + 1) hrest hlt (fun x hx y hy => ?_) l' j hf
      rw [← Nat.add_assoc, List.take_succ_eq_append_getElem hlt] at hx
      rcases List.mem_append.mp hx with hx | hx
      · exact hle x hx y (List.mem_cons_of_mem _ hy)
      · rw [List.mem_singleton.mp hx, hterm]
        have hasc : Ascending (inc :: rest) := hd ▸ hin.sublist (List.drop_sublist _ _)
        exact (ascending_cons.mp hasc).1 y hy

/-- **A merge of a window in shape keeps the log in shape**, however stale the window is. -/
theorem InShape.merge (h : InShape t 0 0 l.entries) (hl : l.Plain)
    (hin : InShape t prevIndex prevTerm incoming) :
    InShape t 0 0 (l.merge prevIndex prevTerm incoming).log.entries := by
  refine ⟨fun k e he => ?_, ?_, fun e _ => Int.natCast_nonneg _, fun e he => ?_⟩
  · rw [(hl.merge prevIndex prevTerm incoming).indexed k e he]
    omega
  · unfold RaftLog.merge
    split_ifs with h1 h2
    · exact h.ascending
    · exact h.ascending
    · have hprev : prevIndex ≤ l.entries.length := by
        rw [← hl.lastIndex]
        exact not_lt.mp h1
      have hscan := findInsert_le (l := l) hl hin.ascending incoming 0 rfl hprev fun x hx y hy => by
        have hx' := h.ascending.le_termAt hl hprev x hx
        rw [not_not.mp h2] at hx'
        exact_mod_cast hx'.trans (hin.above y hy)
      have hp := findInsert_prefix l prevIndex 0 incoming
      split
      · rename_i l' heq
        rw [heq] at hp
        exact h.ascending.sublist hp.sublist
      · rename_i l' j heq
        rw [heq] at hp
        refine ascending_append.mpr ⟨h.ascending.sublist hp.sublist,
          ascending_reindex (hin.ascending.sublist (List.drop_sublist _ _)), fun x hx y hy => ?_⟩
        obtain ⟨z, hz, hterm, -⟩ := mem_reindex hy
        rw [hterm]
        exact hscan l' j heq x hx z hz
  · rcases mem_merge he with he | ⟨y, hy, hterm, -⟩
    · exact h.below e he
    · rw [hterm]
      exact hin.below y hy

end RaftLog

/-! ### Runs without snapshots -/

section Runs

open RaftLog

variable {ι σ δ : Type} [LinearOrder ι] {S : Setup ι σ δ} {c : Cluster ι σ δ} {e : Event ι δ}
  {i : ι} {n₀ : Node ι σ δ} {h : History ι σ δ} {self : Self ι σ δ} {k : Call ι δ}

/-- A stored log is in shape up to the term in the vote file, an append message up to its own. -/
def Formed (h : History ι σ δ) : ι × Out ι σ δ → Prop
  | (i, .store l) => InShape (fileOf i h).1 0 0 l.entries
  | (_, .send _ (.append t _ prevIndex prevTerm entries _)) => InShape t prevIndex prevTerm entries
  | _ => True

/-- The log of the node is in shape up to its term. -/
def LogFormed (n : Node ι σ δ) : Prop := InShape n.currentTerm 0 0 n.log.entries

theorem LogFormed.appendMsg {n : Node ι σ δ} (hn : LogFormed n) (hs : Snapless i n h) (p : ι) :
    Formed h (i, .send p (self.appendMsg n p)) := by
  have hpos : 0 < (n.nextIndex p).getD (n.log.lastIndex + 1) := by
    cases hp : n.nextIndex p with
    | none => exact Nat.succ_pos _
    | some ni => exact hs.next p ni hp
  unfold Self.appendMsg
  generalize (n.nextIndex p).getD (n.log.lastIndex + 1) = ni at hpos
  dsimp only
  split_ifs with hlt
  · trivial
  · obtain ⟨pi, rfl⟩ : ∃ m, ni = m + 1 := ⟨ni - 1, by omega⟩
    exact hn.entriesFrom hs.log pi self.maxBatch

/-- The window of a message in flight is in shape up to the term of the message. -/
theorem formed_arrived (hc : Causal Formed h) {t : ℕ} {leader : ι} {pi : ℕ} {pt : ℤ}
    {es : List Entry} {ci : ℕ} (ha : Arrived h i (.handle (.append t leader pi pt es ci))) :
    InShape t pi pt es := by
  obtain ⟨j, hj⟩ := ha _ rfl
  obtain ⟨h₁, h₂, -, hf⟩ := hc.mem hj
  exact hf

theorem micro_formed {p q : Node ι σ δ × History ι σ δ} (hm : Micro self n₀ k p q)
    (hauto : self.autoSnapshotEvery = 0) (hk : k.noSnapshot = true) (ha : Arrived p.2 self.id k)
    (hb : Causal Bare p.2) (hs : Snapless self.id p.1 p.2) (hv : Voter self.id p.1 p.2)
    (hc : Causal Formed p.2) (hn : LogFormed p.1) : Causal Formed q.2 ∧ LogFormed q.1 := by
  cases hm with
  | raise n h t _ ht => exact ⟨causal_concat₂.mpr ⟨hc, trivial, trivial⟩, hn.mono ht.le⟩
  | campaign n n' h d hr h0 hel hn' =>
    subst hn'
    exact ⟨causal_concat₃.mpr ⟨hc, trivial, trivial, trivial⟩, hn.mono (Nat.le_succ _)⟩
  | grant => exact ⟨causal_concat₃.mpr ⟨hc, trivial, trivial, trivial⟩, hn⟩
  | win n n' h hr hq hn' =>
    subst hn'
    exact ⟨causal_concat.mpr ⟨hc, trivial⟩, hn⟩
  | sendAppend n h p hr => exact ⟨causal_concat.mpr ⟨hc, hn.appendMsg hs p⟩, hn⟩
  | append n h payload hr hp =>
    have hlog := InShape.appendEntry hn hs.log payload
    refine ⟨causal_concat.mpr ⟨hc, ?_⟩, hlog⟩
    show InShape (fileOf self.id h).1 0 0 _
    rw [hv.file]
    exact hlog
  | reconfig n n' h new hr hch hn' =>
    subst hn'
    have hlog := InShape.appendEntry hn hs.log (cfgTag ++ self.json.dumps (sortedIds new))
    refine ⟨causal_concat₂.mpr ⟨hc, trivial, ?_⟩, hlog⟩
    show InShape (fileOf self.id (h ++ [_])).1 0 0 _
    rw [fileOf_concat, show fileStep self.id (fileOf self.id h) _ = fileOf self.id h from rfl, hv.file]
    exact hlog
  | adopt n n' h x servers hlt hx hcf hr hn' =>
    subst hn'
    exact ⟨causal_concat.mpr ⟨hc, trivial⟩, hn⟩
  | merge n h l pi pt es ci r hk' hr hlog hci ht hj hm =>
    subst hm
    have hmerged : InShape n.currentTerm 0 0 (n.log.merge pi pt es).log.entries :=
      InShape.merge hn hs.log (formed_arrived hc (hk' ▸ ha))
    have hstored : Formed h (self.id, .store (n.log.merge pi pt es).log) := by
      show InShape (fileOf self.id h).1 0 0 _
      rw [hv.file]
      exact hmerged
    dsimp only
    split_ifs
    · exact ⟨causal_concat₂.mpr ⟨hc, hstored, trivial⟩, hmerged⟩
    · exact ⟨causal_concat.mpr ⟨hc, hstored⟩, hmerged⟩
  | compact n h s l hk' hs' hcm => exact absurd (.inl ⟨hs', hk'⟩) (Bare.no_snapshot hauto hk hb ha)
  | install n h l s l' machine hk' => exact absurd hk' (Bare.no_install hb ha)
  | _ =>
    first
    | exact ⟨hc, hn⟩
    | exact ⟨causal_concat.mpr ⟨hc, trivial⟩, hn⟩

/-- A restart reads a log that was in shape up to an older term of the vote file. -/
theorem boot_formed {P : Params ι σ δ} {now draw : ℚ} {n : Node ι σ δ} {out : History ι σ δ}
    (hown : ∀ o ∈ out, o.1 = i) (hj : Causal Justified (h ++ out)) (hc : Causal Formed (h ++ out))
    (hv : Voter i n h) (hn : LogFormed n)
    (hfiles : (out.foldl (fun d o => d.write o.2) n.durable).snapshotFiles = [])
    (hboot : Voter i (P.boot i now draw (out.foldl (fun d o => d.write o.2) n.durable)) (h ++ out)) :
    LogFormed (P.boot i now draw (out.foldl (fun d o => d.write o.2) n.durable)) := by
  have hterm : (fileOf i (h ++ out)).1 =
      (P.boot i now draw (out.foldl (fun d o => d.write o.2) n.durable)).currentTerm :=
    congrArg Prod.fst hboot.file
  unfold LogFormed
  rw [(boot_bare P i now draw hfiles).1, ← hterm]
  rcases write_log out n.durable with hlog | ⟨j, hlog⟩
  · rw [hlog]
    refine hn.mono ?_
    have hle := (fileOf_forward (i := i) hj).le
    rwa [hv.file] at hle
  · obtain rfl : j = i := hown _ hlog
    obtain ⟨h₁, h₂, hsplit, hf⟩ := hc.mem (List.mem_append_right _ hlog)
    refine InShape.mono hf ?_
    rw [hsplit] at hj ⊢
    exact (fileOf_forward hj).le

/-- The logs and windows of a cluster are in shape, with what that rests on. -/
def ShapeKept (c : Cluster ι σ δ) : Prop :=
  Local (fun h o => Bare h o ∧ Justified h o ∧ Formed h o)
    (fun i n h => Snapless i n h ∧ Voter i n h ∧ LogFormed n) c

theorem shapeKept_step (hauto : S.NoAutoSnapshot) (hI : ShapeKept c) (he : S.Enabled c e)
    (hnosnap : ∀ k ∈ e.action.made, k.noSnapshot = true) : ShapeKept (S.step c e) := by
  refine local_step (hI.2 e.node).2.1.calm ?_ ?_ ?_ hI
  · rintro i n h h' hi ⟨out, rfl, hown⟩ ⟨hs, hv, hn⟩
    exact ⟨⟨hs.log, hs.files, hs.next⟩, hv.mono (fileOf_other hown hi), hn⟩
  · rintro k hk p q hm hg hc ⟨hs, hv, hn⟩
    have ha := (arrived_of_enabled he hk).mono hg.isPrefix
    obtain ⟨hb, hc⟩ := causal_and.mp hc
    obtain ⟨hj, hf⟩ := causal_and.mp hc
    obtain ⟨hb', hs'⟩ := micro_bare hm (hauto e.node he.1) (hnosnap k hk) ha hb hs
    obtain ⟨hj', hv'⟩ := micro_voter hm ha hj hv
    obtain ⟨hf', hn'⟩ := micro_formed hm (hauto e.node he.1) (hnosnap k hk) ha hb hs hv hf hn
    exact ⟨causal_and.mpr ⟨hb', causal_and.mpr ⟨hj', hf'⟩⟩, hs', hv', hn'⟩
  · rintro out hown hc ⟨hs, hv, hn⟩
    obtain ⟨hb, hc⟩ := causal_and.mp hc
    obtain ⟨hj, hf⟩ := causal_and.mp hc
    obtain ⟨hfiles, hlog⟩ := hs.written hb
    have hboot : Voter e.node ((S.params e.node).boot e.node e.now e.draw
        (out.foldl (fun d o => d.write o.2) (c.node e.node).durable)) (c.history ++ out) := by
      refine voter_boot ?_
      rw [write_file hown, fileOf_append, hv.file]
      rfl
    exact ⟨boot_snapless _ _ _ _ hfiles hlog, hboot, boot_formed hown hj hf hv hn hfiles hboot⟩

theorem shapeKept_init : ShapeKept S.init := by
  refine ⟨causal_nil, fun i => ⟨boot_snapless _ i 0 0 rfl plain_empty, voter_boot rfl, ?_⟩⟩
  show InShape _ 0 0 ((S.params i).boot i 0 0 {}).log.entries
  rw [(boot_bare (S.params i) i 0 0 rfl).1]
  exact inShape_nil

/-- **The shape of the logs, in every mode.**  In every run without snapshots, with lost, repeated and
reordered messages and crashes after any effect: the log of every node has the indexes `1, …, n`,
terms that never decrease, and none above the term in its vote file; and the entries of every append
message ever sent follow its `prev_index` and `prev_term` in the same way, up to its term. -/
theorem logs_in_shape (hauto : S.NoAutoSnapshot)
    (hr : Reach S.step (fun c e => S.Enabled c e ∧ ∀ k ∈ e.action.made, k.noSnapshot = true)
      S.init c) :
    (∀ i, (c.node i).log.Plain ∧ (c.node i).currentTerm = (fileOf i c.history).1 ∧
      InShape (fileOf i c.history).1 0 0 (c.node i).log.entries) ∧
    ∀ i p t leader pi pt es ci, (i, .send p (.append t leader pi pt es ci)) ∈ c.history →
      InShape t pi pt es := by
  have hI : ShapeKept c := hr.inv ShapeKept shapeKept_init fun c e _ hI he =>
    shapeKept_step hauto hI he.1 he.2
  refine ⟨fun i => ?_, fun i p t leader pi pt es ci hm => ?_⟩
  · obtain ⟨hs, hv, hn⟩ := hI.2 i
    rw [hv.file]
    exact ⟨hs.log, rfl, hn⟩
  · obtain ⟨h₁, h₂, -, -, -, hf⟩ := hI.1.mem hm
    exact hf

/-- Server 0 wins term 1 after a pre-vote round and crashes with a proposal stored and not sent. -/
theorem logs_in_shape_crash :
    let S := lab 3 true 256
    let es : List (Event ℕ Unit) :=
      [callAt 1000 0 .tick, callAt 1001 1 (.handle (.prevote 1 0 0 0)),
       callAt 1002 0 (.handle (.prevoteResp 1 1 true)), callAt 1003 1 (.handle (.vote 1 0 0 0)),
       callAt 1004 0 (.handle (.voteResp 1 1 true)), ⟨0, 1005, 0, .crash (.propose [97]) 1⟩]
    let c := S.replay es
    (c.node 0).log.entries = [⟨1, 1, noop⟩, ⟨2, 1, [97]⟩] ∧
      InShape (fileOf 0 c.history).1 0 0 (c.node 0).log.entries := by
  intro S es c
  refine ⟨by decide +kernel,
    ((logs_in_shape (lab_noAutoSnapshot 3 true 256) (reach_replay es ?_)).1 0).2.2⟩
  decide +kernel

end Runs

end Pylog.Raft
