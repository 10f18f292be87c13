import Pylog.Raft.KVStore
import Pylog.Raft.Tracking

/-!
# Pylog.Raft.Commands — what a node hands to its state machine

Without snapshots, a node that accepts all its payloads has fed its state machine the commands of its
log up to `applied_index`, each once and in order (`Served`), as long as no merge cuts the log at or
below `applied_index`.  For a `KVStore` the payloads it accepts are UTF-8; a payload that is empty or
has a reserved prefix is no command and never gets there (`commands_applied_once`).
-/

namespace Pylog.Raft

open Effect Effect.Handler Transition Trace

variable {ι σ δ : Type} [LinearOrder ι]

/-! ### The commands of a log -/

namespace RaftLog

variable {l l' : RaftLog} {m : ℕ}

/-- The payloads of the commands at the indexes `1, …, m`, in order. -/
def commands (l : RaftLog) (m : ℕ) : List Bytes :=
  ((List.range m).filterMap fun j => (l.get (j + 1)).map Entry.payload).filter (isCommand ·)

theorem commands_succ {e : Entry} (he : l.get (m + 1) = some e) :
    l.commands (m + 1) = l.commands m ++ if isCommand e.payload then [e.payload] else [] := by
  unfold commands
  rw [List.range_succ, List.filterMap_append, List.filter_append]
  congr 1
  simp only [List.filterMap_cons, List.filterMap_nil, he, Option.map_some]
  by_cases hc : isCommand e.payload = true <;> simp [hc]

/-- Logs with the same entries up to `m`. -/
theorem commands_congr (h : ∀ index ≤ m, ∀ e, l.get index = some e → l'.get index = some e)
    (hl : ∀ index, 1 ≤ index → index ≤ m → (l.get index).isSome = true) :
    l'.commands m = l.commands m := by
  unfold commands
  congr 1
  refine List.filterMap_congr fun j hj => ?_
  have hjm : j + 1 ≤ m := List.mem_range.mp hj
  obtain ⟨e, he⟩ := Option.isSome_iff_exists.mp (hl (j + 1) (by omega) hjm)
  rw [he, h (j + 1) hjm e he]

theorem Plain.get_isSome (h : l.Plain) {index : ℕ} (h1 : 1 ≤ index) (hle : index ≤ l.lastIndex) :
    (l.get index).isSome = true := by
  obtain ⟨x, hx⟩ := Raft.get_isSome h h1 (by rwa [← h.lastIndex])
  rw [hx]
  rfl

theorem Plain.merge (h : l.Plain) (prevIndex : ℕ) (prevTerm : ℤ) (entries : List Entry) :
    (l.merge prevIndex prevTerm entries).log.Plain := by
  cases hok : (l.merge prevIndex prevTerm entries).ok with
  | true =>
    refine (merge_contiguous h.contiguous (by rw [h.first]; omega) hok).1.plain ?_
    rw [merge_first, h.first]
  | false =>
    rw [merge_fails hok]
    exact h

/-- The window has the terms of the log up to `m`. -/
def Concurs (l : RaftLog) (prevIndex : ℕ) (entries : List Entry) (m : ℕ) : Prop :=
  ∀ y ∈ entries.zipIdx (prevIndex + 1), y.2 ≤ m → l.termAt y.2 = (y.1.term : ℤ)

instance (l : RaftLog) (prevIndex : ℕ) (entries : List Entry) (m : ℕ) :
    Decidable (l.Concurs prevIndex entries m) :=
  inferInstanceAs (Decidable (∀ y ∈ entries.zipIdx (prevIndex + 1), y.2 ≤ m →
    l.termAt y.2 = (y.1.term : ℤ)))

/-- A merge that conflicts with no entry up to `m` keeps these entries. -/
theorem Plain.merge_get (h : l.Plain) {prevIndex : ℕ} {prevTerm : ℤ} {entries : List Entry}
    (hno : prevIndex ≤ l.lastIndex → l.termAt prevIndex = prevTerm → l.Concurs prevIndex entries m) :
    ∀ index ≤ m, ∀ e, l.get index = some e →
      (l.merge prevIndex prevTerm entries).log.get index = some e := by
  intro index hi e he
  cases hok : (l.merge prevIndex prevTerm entries).ok with
  | false =>
    rw [merge_fails hok]
    exact he
  | true =>
    obtain ⟨hle, hterm, -⟩ := merge_ok hok
    have hkeeps := (merge_contiguous h.contiguous (by rw [h.first]; omega) hok).2.2
    refine hkeeps index e he fun j z hz hj => .inr ?_
    have hmem : (z, prevIndex + 1 + j) ∈ entries.zipIdx (prevIndex + 1) := by
      rw [List.mem_zipIdx_iff_le_and_getElem?_sub]
      exact ⟨by omega, by rw [Nat.add_sub_cancel_left]; exact hz⟩
    exact hno hle hterm (z, prevIndex + 1 + j) hmem (hj.trans hi)

end RaftLog

/-! ### A node and its state machine -/

section Served

variable {self : Self ι σ δ} {n n' n₀ : Node ι σ δ} {sm : StateMachine σ δ} {k : Call ι δ}

/-- The state machine was handed the commands up to `applied_index`, and the log holds everything
committed. -/
structure Served (sm : StateMachine σ δ) (n : Node ι σ δ) : Prop where
  log : n.log.Plain
  applied : n.appliedIndex ≤ n.commitIndex
  bound : n.commitIndex ≤ n.log.lastIndex
  machine : n.machine = some (sm.fed (n.log.commands n.appliedIndex))

/-- Everything committed is applied as well. -/
structure Current (sm : StateMachine σ δ) (n : Node ι σ δ) : Prop extends Served sm n where
  equal : n.appliedIndex = n.commitIndex

omit [LinearOrder ι] in
theorem feed_fed (hsm : self.stateMachine = some sm) (h : Served sm n) {e : Entry}
    (he : n.log.get (n.appliedIndex + 1) = some e) (hcfg : isCfg e.payload = false)
    (ha : self.Accepts e.payload) :
    self.feed n e.payload = (some (sm.fed (n.log.commands (n.appliedIndex + 1))), true) := by
  unfold Self.feed
  rw [hsm, h.machine, RaftLog.commands_succ he]
  dsimp only
  by_cases hp : e.payload ≠ [] ∧ noop.isPrefixOf e.payload = false
  · have hcommand : isCommand e.payload = true := by simp [isCommand, hcfg, hp]
    rw [if_pos hp, if_pos hcommand, StateMachine.fed_concat, ha hcommand sm hsm]
  · have hcommand : isCommand e.payload = false := by simp [isCommand, hp]
    rw [if_neg hp, hcommand, if_neg (by decide), List.append_nil]

theorem Served.step {p q : Node ι σ δ × History ι σ δ} (hsm : self.stateMachine = some sm)
    (hs : LoopStep self p q) (ha : self.AcceptsLog p.1.log) (h : Served sm p.1) : Served sm q.1 := by
  obtain ⟨n, hist⟩ := p
  obtain ⟨n', hist'⟩ := q
  obtain ⟨hs, hlog⟩ := hs
  dsimp only at *
  -- a config entry is no command
  have hskip : ∀ e, n.log.get (n.appliedIndex + 1) = some e → isCfg e.payload = true →
      n.log.commands (n.appliedIndex + 1) = n.log.commands n.appliedIndex := by
    intro e he hcfg
    rw [RaftLog.commands_succ he]
    simp [isCommand, hcfg]
  cases hs with
  | ignored e hlt he hcfg hc =>
    exact ⟨h.log, hlt, h.bound, by rw [hskip e he hcfg]; exact h.machine⟩
  | adopted e servers hlt he hc =>
    have hcfg : isCfg e.payload = true := by
      by_contra hno
      unfold Params.configOf at hc
      rw [if_neg hno] at hc
      cases hc
    refine ⟨h.log, hlt, h.bound, ?_⟩
    show n.machine = some (sm.fed (n.log.commands (n.appliedIndex + 1)))
    rw [hskip e he hcfg]
    exact h.machine
  | fed e machine hlt he hcfg hm =>
    have hfed := feed_fed hsm h he hcfg (ha e (RaftLog.mem_of_get he))
    rw [hm] at hfed
    exact ⟨h.log, hlt, h.bound, (Prod.mk.inj hfed).1⟩
  | raised e machine hlt he hcfg hm =>
    have hfed := feed_fed hsm h he hcfg (ha e (RaftLog.mem_of_get he))
    rw [hm] at hfed
    cases (Prod.mk.inj hfed).2
  | skipped hlt he hm =>
    rw [h.machine] at hm
    cases hm
  | file s hs hd => exact ⟨h.log, h.applied, h.bound, h.machine⟩
  | mark s hs => exact ⟨h.log, h.applied, h.bound, h.machine⟩
  | compacted s l hs hc hf =>
    dsimp only at hlog
    subst hlog
    exact ⟨h.log, h.applied, h.bound, h.machine⟩

/-- `_apply_committed` hands over all that is committed. -/
theorem applyCommitted_current (hsm : self.stateMachine = some sm) (hauto : self.autoSnapshotEvery = 0)
    (ha : self.AcceptsLog n.log) (h : Served sm n) : Current sm (self.applyCommitted n).state := by
  have hloops : Follows (LoopStep self) self.applyCommitted n [] _ := applyCommitted_loops hauto
  obtain ⟨hserved, -⟩ := hloops.inv (fun n' _ => Served sm n' ∧ n'.log = n.log)
    (fun p q hs ⟨hp, hlog⟩ => ⟨hp.step hsm hs (hlog ▸ ha), hs.2.trans hlog⟩) ⟨h, rfl⟩
  obtain ⟨n', o, hrun⟩ := applyCommitted_returns ha
  obtain ⟨hlog, hc, hend⟩ := hloops.2 () (by rw [hrun])
  refine ⟨hserved, le_antisymm hserved.applied ?_⟩
  rw [hc]
  rcases hend with hle | hnone
  · exact hle
  · by_contra hlt
    have hsome : (n.log.get ((self.applyCommitted n).state.appliedIndex + 1)).isSome = true :=
      h.log.get_isSome (Nat.succ_pos _) (by have := h.bound; omega)
    rw [hnone] at hsome
    cases hsome

omit [LinearOrder ι] in
/-- A node with the same indexes and state machine, whose log keeps what was applied. -/
theorem Current.relog (h : Current sm n) (hl : n'.log.Plain)
    (hget : ∀ index ≤ n.appliedIndex, ∀ e, n.log.get index = some e → n'.log.get index = some e)
    (hc : n'.commitIndex = n.commitIndex) (ha : n'.appliedIndex = n.appliedIndex)
    (hm : n'.machine = n.machine) : Current sm n' := by
  have hbound := h.bound
  have hequal := h.equal
  have hsome : ∀ index, 1 ≤ index → index ≤ n.appliedIndex → (n.log.get index).isSome = true :=
    fun index h1 hle => h.log.get_isSome h1 (by omega)
  refine ⟨⟨hl, by omega, ?_, ?_⟩, by omega⟩
  · rw [hc, ← hequal]
    rcases Nat.eq_zero_or_pos n.appliedIndex with h0 | hpos
    · omega
    · obtain ⟨e, he⟩ := Option.isSome_iff_exists.mp (hsome _ hpos le_rfl)
      obtain ⟨-, hlen, -⟩ := length_of_get hl (hget _ le_rfl e he)
      rwa [hl.lastIndex]
  · rw [hm, ha, RaftLog.commands_congr hget hsome]
    exact h.machine

omit [LinearOrder ι] in
/-- Only these fields count. -/
theorem Current.same (h : Current sm n) (hlog : n'.log = n.log) (hc : n'.commitIndex = n.commitIndex)
    (ha : n'.appliedIndex = n.appliedIndex) (hm : n'.machine = n.machine) : Current sm n' := by
  refine h.relog (hlog ▸ h.log) (fun index _ e he => ?_) hc ha hm
  rw [hlog]
  exact he

omit [LinearOrder ι] in
theorem Current.congr (h : Current sm n) (hn : n'.core = n.core) : Current sm n' :=
  h.same (congrArg Node.log hn :) (congrArg Node.commitIndex hn :) (congrArg Node.appliedIndex hn :)
    (congrArg Node.machine hn :)

/-! ### Calls -/

/-- An accepted window has no conflict with an entry the node has applied. -/
def Node.keepsApplied (n : Node ι σ δ) : Call ι δ → Bool
  | .handle (.append term _ prevIndex prevTerm entries _) => decide (
      n.currentTerm ≤ term → prevIndex ≤ n.log.lastIndex → n.log.termAt prevIndex = prevTerm →
        n.log.Concurs prevIndex entries n.appliedIndex)
  | _ => true

/-- The call neither takes a snapshot nor brings one. -/
def Call.snapless : Call ι δ → Bool
  | .takeSnapshot | .handle (.installSnapshot _ _ _) => false
  | _ => true

theorem advanceCommit_current (hsm : self.stateMachine = some sm) (hauto : self.autoSnapshotEvery = 0)
    (ha : self.AcceptsLog n.log) (h : Current sm n) : Current sm (self.advanceCommit n).state := by
  rw [advanceCommit_state]
  cases hf : n.findCommit self.id with
  | none => exact h
  | some index =>
    obtain ⟨hlt, hle⟩ := findCommit_bounds hf
    exact applyCommitted_current hsm hauto ha ⟨h.log, h.applied.trans hlt.le, hle, h.machine⟩

omit [LinearOrder ι] in
theorem Current.appendEntry (h : Current sm n) (t : ℕ) (payload : Bytes) :
    Current sm { n with log := n.log.appendEntry t payload } :=
  h.relog (h.log.appendEntry t payload) (fun _ _ _ he => RaftLog.get_appendEntry he) rfl rfl rfl

theorem record_current (hsm : self.stateMachine = some sm) (hauto : self.autoSnapshotEvery = 0)
    (ha : self.AcceptsLog n.log) {payload : Bytes} (hp : self.Accepts payload) (h : Current sm n) :
    Current sm (self.record payload n).state := by
  rw [record_state]
  exact advanceCommit_current hsm hauto (ha.appendEntry hp) (h.appendEntry _ payload)

theorem answered_current (hsm : self.stateMachine = some sm) (hauto : self.autoSnapshotEvery = 0)
    (ha : self.AcceptsLog n.log) (h : Current sm n) (sender : ι) (success : Bool) (matchIndex : ℕ)
    (conflict : Option ℕ) :
    Current sm (self.answered sender success matchIndex conflict n).state := by
  have hheard : Current sm (self.heard n sender) := h.same rfl rfl rfl rfl
  rw [answered_state]
  split_ifs
  · rw [onAck_state]
    split
    · exact hheard
    · exact advanceCommit_current hsm hauto ha (h.same rfl rfl rfl rfl)
  · obtain ⟨next, hstate, -⟩ := onNack_state self (self.heard n sender) sender conflict
    rw [hstate]
    exact h.same rfl rfl rfl rfl

/-- A merge that conflicts with nothing applied. -/
theorem receive_current (hsm : self.stateMachine = some sm) (hauto : self.autoSnapshotEvery = 0)
    {prevIndex : ℕ} {prevTerm : ℤ} {entries : List Entry}
    (ha : self.AcceptsLog (n.log.merge prevIndex prevTerm entries).log) (h : Current sm n)
    (hno : prevIndex ≤ n.log.lastIndex → n.log.termAt prevIndex = prevTerm →
      n.log.Concurs prevIndex entries n.appliedIndex)
    (commit : ℕ) : Current sm (self.receive prevIndex prevTerm entries commit n).state := by
  generalize hr : n.log.merge prevIndex prevTerm entries = r at ha
  have hmerged : Current sm { n with log := r.log } := by
    subst hr
    exact h.relog (h.log.merge _ _ _) (h.log.merge_get hno) rfl rfl rfl
  rw [receive_state self n hr]
  split_ifs with hc
  · refine applyCommitted_current hsm hauto ha ⟨hmerged.log, ?_, min_le_right _ _, hmerged.machine⟩
    have happlied : n.appliedIndex ≤ n.commitIndex := h.applied
    have hbound : n.commitIndex ≤ r.log.lastIndex := hmerged.bound
    exact le_min (happlied.trans hc.2.le) (happlied.trans hbound)
  · exact hmerged

/-- **A turn leaves nothing committed unapplied.** -/
theorem turn_current {x : Act ι σ δ Unit} (ht : Turn self n₀ k x n) (hsm : self.stateMachine = some sm)
    (hauto : self.autoSnapshotEvery = 0) (ha : self.AcceptsLog n₀.log) (hk : self.AcceptsCall n₀ k)
    (hsnap : k.snapless = true) (hkeeps : n₀.keepsApplied k = true) (h : Current sm n₀) :
    Current sm (x n).state := by
  cases ht with
  | still _ _ hn => exact h.congr hn
  | propose payload hr htarget => exact record_current hsm hauto ha (hk ⟨hr, htarget⟩) h
  | elected _ _ hn hw =>
    have hlog : n.log = n₀.log := (congrArg Node.log hn :)
    have htake : Current sm (self.takeOffice n).state := (h.congr hn).same rfl rfl rfl rfl
    have halog : self.AcceptsLog (self.takeOffice n).state.log := hlog ▸ ha
    rw [office_state]
    split_ifs
    · exact record_current hsm hauto halog (accepts_noop _) htake
    · exact htake
  | answered sender success matchIndex conflict hr =>
    exact answered_current hsm hauto ha h sender success matchIndex conflict
  | receive _ term leader prevIndex prevTerm entries commit hn hterm =>
    have hlog : n.log = n₀.log := (congrArg Node.log hn :)
    have happlied : n.appliedIndex = n₀.appliedIndex := (congrArg Node.appliedIndex hn :)
    refine receive_current hsm hauto (hlog ▸ ha.merge hk) (h.congr hn) ?_ commit
    rw [hlog, happlied]
    exact of_decide_eq_true hkeeps hterm
  | cover => cases hsnap
  | snapshot => cases hsnap
  | change _ new hr hc =>
    obtain ⟨o, hopen⟩ := openJoint_run self n new hc.1
    have hjoint : Current sm (self.joint n new) := h.same rfl rfl rfl rfl
    unfold Self.change
    rw [bind_eq hopen]
    exact advanceCommit_current hsm hauto (ha.appendEntry (accepts_config _ _))
      (hjoint.appendEntry n.currentTerm _)

end Served

/-! ### Runs without snapshots -/

/-- Stored logs hold all entries; no snapshot is written or sent. -/
def Bare (_ : History ι σ δ) : ι × Out ι σ δ → Prop
  | (_, .store l) => l.Plain
  | (_, .snapshotFile _) => False
  | (_, .send _ (.installSnapshot _ _ _)) => False
  | _ => True

/-- The node has all its entries and no snapshot file, and starts no window below its log. -/
structure Snapless (_ : ι) (n : Node ι σ δ) (_ : History ι σ δ) : Prop where
  log : n.log.Plain
  files : n.snapshotFiles = []
  next : ∀ p ni, n.nextIndex p = some ni → 0 < ni

section Bare

variable {S : Setup ι σ δ} {c : Cluster ι σ δ} {e : Event ι δ} {i : ι} {n n₀ : Node ι σ δ}
  {h : History ι σ δ} {self : Self ι σ δ} {k : Call ι δ}

omit [LinearOrder ι] in
theorem Bare.no_install (hc : Causal Bare h) (ha : Arrived h i k) {t : ℕ} {l : ι} {s : Snapshot δ} :
    k ≠ .handle (.installSnapshot t l s) := by
  intro hk
  obtain ⟨j, hj⟩ := ha _ hk
  obtain ⟨h₁, h₂, -, hbare⟩ := hc.mem hj
  exact hbare

omit [LinearOrder ι] in
theorem Bare.no_snapshot (hauto : self.autoSnapshotEvery = 0) (hk : k.noSnapshot = true)
    (hc : Causal Bare h) (ha : Arrived h i k) {s : Snapshot δ} : ¬SnapshotAt self n k s := by
  rintro (⟨-, rfl | hne⟩ | ⟨l, hinstall⟩)
  · cases hk
  · exact hne hauto
  · exact Bare.no_install hc ha hinstall

omit [LinearOrder ι] in
theorem Snapless.appendMsg (hs : Snapless i n h) (p : ι) :
    Bare h (i, .send p (self.appendMsg n p)) := by
  unfold Self.appendMsg
  dsimp only
  split_ifs with hlt
  · rw [hs.log.first] at hlt
    cases hp : n.nextIndex p with
    | none =>
      rw [hp, Option.getD_none] at hlt
      omega
    | some ni =>
      have hpos := hs.next p ni hp
      rw [hp, Option.getD_some] at hlt
      omega
  · trivial

theorem micro_bare {p q : Node ι σ δ × History ι σ δ} (hm : Micro self n₀ k p q)
    (hauto : self.autoSnapshotEvery = 0) (hk : k.noSnapshot = true) (ha : Arrived p.2 self.id k)
    (hc : Causal Bare p.2) (hs : Snapless self.id p.1 p.2) :
    Causal Bare q.2 ∧ Snapless self.id q.1 q.2 := by
  -- a key that is new or as before
  have hpos : ∀ {x y : Option ℕ} {b : Prop} [Decidable b] {v ni : ℕ}, (if b then some (v + 1) else x) = y →
      (∀ ni, x = some ni → 0 < ni) → y = some ni → 0 < ni := by
    intro x y b _ v ni hxy hx hy
    subst hxy
    split_ifs at hy with hb
    · cases hy
      omega
    · exact hx ni hy
  cases hm with
  | raise => exact ⟨causal_concat₂.mpr ⟨hc, trivial, trivial⟩, hs.log, hs.files, hs.next⟩
  | grant => exact ⟨causal_concat₃.mpr ⟨hc, trivial, trivial, trivial⟩, hs.log, hs.files, hs.next⟩
  | campaign n n' h d hr h0 hel hn =>
    subst hn
    exact ⟨causal_concat₃.mpr ⟨hc, trivial, trivial, trivial⟩, hs.log, hs.files, hs.next⟩
  | win n n' h hr hq hn =>
    subst hn
    refine ⟨causal_concat.mpr ⟨hc, trivial⟩, hs.log, hs.files, fun p ni hp => ?_⟩
    exact hpos rfl (by simp) hp
  | sendAppend n h p hr =>
    exact ⟨causal_concat.mpr ⟨hc, hs.appendMsg p⟩, hs.log, hs.files, hs.next⟩
  | append n h payload hr hp =>
    have hplain := hs.log.appendEntry n.currentTerm payload
    exact ⟨causal_concat.mpr ⟨hc, hplain⟩, hplain, hs.files, hs.next⟩
  | reconfig n n' h new hr hch hn =>
    subst hn
    have hplain := hs.log.appendEntry n.currentTerm (cfgTag ++ self.json.dumps (sortedIds new))
    refine ⟨causal_concat₂.mpr ⟨hc, trivial, hplain⟩, hplain, hs.files, fun p ni hp => ?_⟩
    exact hpos rfl (hs.next p) hp
  | adopt n n' h x servers hlt hx hcf hr hn =>
    subst hn
    refine ⟨causal_concat.mpr ⟨hc, trivial⟩, hs.log, hs.files, fun p ni hp => ?_⟩
    unfold Node.adoptConfig at hp
    dsimp only at hp
    split_ifs at hp with hgone hfresh
    · cases hp
      omega
    · exact hs.next p ni hp
  | merge n h l pi pt es ci r hk' hr hlog hci ht hj hm =>
    subst hm
    have hplain := hs.log.merge pi pt es
    dsimp only
    split_ifs
    · exact ⟨causal_concat₂.mpr ⟨hc, hplain, trivial⟩, hplain, hs.files, hs.next⟩
    · exact ⟨causal_concat.mpr ⟨hc, hplain⟩, hplain, hs.files, hs.next⟩
  | matched n h p mi' mi cf hk' hr hmi =>
    refine ⟨hc, hs.log, hs.files, fun q ni hq => ?_⟩
    dsimp only at hq
    rw [Function.update_apply] at hq
    exact hpos rfl (hs.next q) hq
  | backOff n h p ni hint hr hni =>
    refine ⟨hc, hs.log, hs.files, fun q ni' hq => ?_⟩
    dsimp only at hq
    rw [Function.update_apply] at hq
    split_ifs at hq
    · cases hq
      omega
    · exact hs.next q ni' hq
  | snapFile n h s hs' hd => exact absurd hs' (Bare.no_snapshot hauto hk hc ha)
  | compact n h s l hk' hs' hcm => exact absurd (.inl ⟨hs', hk'⟩) (Bare.no_snapshot hauto hk hc ha)
  | install n h l s l' machine hk' => exact absurd hk' (Bare.no_install hc ha)
  | _ =>
    first
    | exact ⟨hc, hs.log, hs.files, hs.next⟩
    | exact ⟨causal_concat.mpr ⟨hc, trivial⟩, hs.log, hs.files, hs.next⟩

omit [LinearOrder ι] in
/-- Effects without a snapshot file leave the files. -/
theorem write_files (out : History ι σ δ) (d : Durable ι δ) (ho : ∀ o ∈ out, ∀ s, o.2 ≠ .snapshotFile s) :
    (out.foldl (fun d o => d.write o.2) d).snapshotFiles = d.snapshotFiles := by
  induction out using List.reverseRecOn with
  | nil => rfl
  | append_singleton out o ih =>
    rw [List.foldl_append]
    have hfiles := ih fun o ho' => ho o (List.mem_append_left _ ho')
    have hlast := ho o (by simp)
    obtain ⟨i, o⟩ := o
    cases o with
    | snapshotFile s => exact absurd rfl (hlast s)
    | _ => exact hfiles

omit [LinearOrder ι] in
/-- What some effects of a call leave on disk. -/
theorem Snapless.written (hs : Snapless i n h) {out : History ι σ δ} (hc : Causal Bare (h ++ out)) :
    (out.foldl (fun d o => d.write o.2) n.durable).snapshotFiles = [] ∧
      (out.foldl (fun d o => d.write o.2) n.durable).log.Plain := by
  constructor
  · rw [write_files]
    · exact hs.files
    · rintro ⟨j, o⟩ ho s hsnap
      obtain ⟨h₁, h₂, -, hbare⟩ := hc.mem (List.mem_append_right _ ho)
      dsimp only at hsnap
      rw [hsnap] at hbare
      exact hbare
  · rcases write_log out n.durable with hlog | ⟨j, hlog⟩
    · rw [hlog]
      exact hs.log
    · obtain ⟨h₁, h₂, -, hbare⟩ := hc.mem (List.mem_append_right _ hlog)
      exact hbare

/-- What a node without snapshot files boots to. -/
theorem boot_bare (P : Params ι σ δ) (i : ι) (now draw : ℚ) {d : Durable ι δ}
    (hd : d.snapshotFiles = []) : (P.boot i now draw d).log = d.log ∧
      (P.boot i now draw d).snapshotFiles = [] ∧ (∀ p, (P.boot i now draw d).nextIndex p = none) ∧
      (P.boot i now draw d).commitIndex = 0 ∧ (P.boot i now draw d).appliedIndex = 0 ∧
      (P.boot i now draw d).machine = P.stateMachine.map StateMachine.init := by
  unfold Params.boot Params.loadSnapshotFile
  dsimp only
  rw [hd]
  unfold latestFile
  cases P.stateMachine <;> split_ifs <;> exact ⟨rfl, rfl, fun _ => rfl, rfl, rfl, rfl⟩

theorem boot_snapless (P : Params ι σ δ) (i : ι) (now draw : ℚ) {d : Durable ι δ}
    (hd : d.snapshotFiles = []) (hl : d.log.Plain) : Snapless i (P.boot i now draw d) h := by
  obtain ⟨hlog, hfiles, hnext, -⟩ := boot_bare P i now draw hd
  refine ⟨hlog ▸ hl, hfiles, fun p ni hp => ?_⟩
  rw [hnext p] at hp
  cases hp

/-- In every run without `take_snapshot`, crashes included. -/
theorem bare_reach (hauto : S.NoAutoSnapshot) (hr : Reach S.step (fun c e => S.Enabled c e ∧
      ∀ k ∈ e.action.made, k.noSnapshot = true) S.init c) : Local Bare Snapless c := by
  refine hr.inv _ ⟨causal_nil, fun i => ?_⟩ fun c e hs hI he => ?_
  · exact boot_snapless (S.params i) i 0 0 rfl RaftLog.plain_empty
  · have hcalm := ((votesKept_reach (hs.mono fun c e h => h.1)).2 e.node).calm
    refine local_step hcalm (fun i n h h' _ _ hs => ⟨hs.log, hs.files, hs.next⟩) ?_ ?_ hI
    · intro k hmade p q hm hg hc hs
      exact micro_bare hm (hauto e.node he.1.1) (he.2 k hmade)
        ((arrived_of_enabled he.1 hmade).mono hg.isPrefix) hc hs
    · intro out hown hc hs
      obtain ⟨hfiles, hlog⟩ := hs.written hc
      exact boot_snapless _ _ _ _ hfiles hlog

end Bare

/-! ### Runs -/

/-- The condition on an event: no snapshot is taken, no window conflicts with an applied entry, and a
payload that `propose` accepts is one of `client`. -/
def Serves (client : Bytes → Prop) (c : Cluster ι σ δ) (e : Event ι δ) : Prop :=
  (∀ k ∈ e.action.made, k.noSnapshot = true) ∧
  (∀ k, e.action = .call k → (c.node e.node).keepsApplied k = true) ∧
  ∀ payload, e.action.made = some (.propose payload) → (c.node e.node).Admits → client payload

section Runs

variable {S : Setup ι σ δ} {c : Cluster ι σ δ} {e : Event ι δ} {i : ι} {sm : StateMachine σ δ}
  {client : Bytes → Prop}

theorem isCommand_noop : isCommand noop = false := by decide

theorem isCommand_config (rest : Bytes) : isCommand (cfgTag ++ rest) = false := by
  simp [isCommand, isCfg_tag]

/-- A command in a log or a window is a payload of a client. -/
theorem commands_client (hr : Reach S.step (fun c e => S.Enabled c e ∧ Serves client c e) S.init c) :
    Local (Carries fun payload => isCommand payload = true → client payload)
      (Holding fun payload => isCommand payload = true → client payload) c := by
  refine payloads_reach (fun c e he => ⟨he.1, fun k hk => ⟨fun h => ?_, fun i l h => ?_, ?_⟩⟩) hr
  · rw [isCommand_noop] at h
    cases h
  · rw [isCommand_config] at h
    cases h
  · rintro payload rfl hadmits -
    exact he.2.2.2 payload hk hadmits

theorem boot_current {P : Params ι σ δ} {now draw : ℚ} {d : Durable ι δ} {h : History ι σ δ}
    (hsm : P.stateMachine = some sm) (hs : Snapless i (P.boot i now draw d) h) :
    Current sm (P.boot i now draw d) := by
  have hd : d.snapshotFiles = [] := by
    obtain ⟨l, ci, ai, m, s, hb, -⟩ := boot_eq P i now draw d
    have hfiles := hs.files
    rw [hb] at hfiles
    exact hfiles
  obtain ⟨-, -, -, hc, ha, hm⟩ := boot_bare P i now draw hd
  refine ⟨⟨hs.log, by omega, by omega, ?_⟩, by omega⟩
  rw [hm, ha, hsm]
  rfl

/-- **Everything committed has been handed over**, when the state machine accepts what clients send. -/
theorem current_reach (hauto : S.NoAutoSnapshot) (hi : i ∈ S.servers)
    (hsm : (S.params i).stateMachine = some sm)
    (haccept : ∀ payload, client payload → ∀ s, (sm.apply s payload).2 = true)
    (hr : Reach S.step (fun c e => S.Enabled c e ∧ Serves client c e) S.init c) :
    Current sm (c.node i) := by
  have hbare {c : Cluster ι σ δ}
      (hs : Reach S.step (fun c e => S.Enabled c e ∧ Serves client c e) S.init c) :
      Local Bare Snapless c := bare_reach hauto (hs.mono fun c e he => ⟨he.1, he.2.1⟩)
  refine node_inv (Current sm) ?_ ?_ (fun c now draw d hs hnode => ?_) hr
  · exact boot_current (h := []) hsm (boot_snapless _ i 0 0 rfl RaftLog.plain_empty)
  · rintro c e k hs ⟨he, hnosnap, hkeeps, hoffered⟩ rfl ha h
    have hmade := made_of_call ha
    have hpayloads := commands_client hs
    have harrived := arrived_of_enabled he hmade
    have haccepts : ∀ payload, (isCommand payload = true → client payload) →
        (S.self e).Accepts payload := by
      intro payload hp hcommand sm' hsm' s
      obtain rfl : sm = sm' := Option.some.inj (hsm.symm.trans hsm')
      exact haccept payload (hp hcommand) s
    have hk : (S.self e).AcceptsCall (c.node e.node) k := by
      unfold Params.AcceptsCall
      split
      · exact fun hadmits => haccepts _ fun _ => hoffered _ hmade hadmits
      · exact fun y hy => haccepts _ (carried_window hpayloads.1 (harrived _ rfl) y hy)
      · trivial
    have hsnap : k.snapless = true := by
      unfold Call.snapless
      split
      · exact hnosnap _ hmade
      · exact absurd rfl (Bare.no_install (hbare hs).1 harrived)
      · rfl
    obtain ⟨x, n₁, ht, hends⟩ := call_turn (S.self e) (c.node e.node) k
    have hcurrent := turn_current ht hsm (hauto e.node hi)
      (fun y hy => haccepts _ (hpayloads.2 e.node y hy)) hk hsnap (hkeeps k ha) h
    exact hcurrent.congr hends.view
  · have hnode' := (hbare hs).2 i
    rw [hnode] at hnode' ⊢
    exact boot_current hsm hnode'

omit [LinearOrder ι] in
theorem setApplied_members (self : Self ι σ δ) (n₀ : Node ι σ δ) (e : Entry) :
    Keeps (SameMembers n₀) (self.setApplied e) :=
  keeps_read fun _ => keeps_bind (keeps_update fun _ h => h) fun _ => keeps_emit _

/-- A command changes no membership, whether it is accepted or raises. -/
theorem applyEntry_members (self : Self ι σ δ) (n₀ : Node ι σ δ) {e : Entry}
    (he : isCommand e.payload = true) : Keeps (SameMembers n₀) (self.applyEntry e) := by
  have hcfg : ¬isCfg e.payload = true := by
    intro hcfg
    simp [isCommand, hcfg] at he
  refine keeps_read fun n => ?_
  rw [if_neg hcfg]
  cases self.stateMachine with
  | none => exact setApplied_members self n₀ e
  | some sm =>
    cases n.machine with
    | none => exact setApplied_members self n₀ e
    | some s =>
      refine keeps_bind (keeps_when ?_) fun _ => setApplied_members self n₀ e
      exact keeps_bind (keeps_update fun _ h => h) fun _ => keeps_when fun _ h => h

end Runs

/-- **Commands are applied once, in order.**  In every run without snapshots in which `propose` accepts
only UTF-8 payloads that are not empty and have no reserved prefix, and no window overwrites what a
node has applied: a node with a `KVStore` has applied everything committed; `apply` was called, since
the last restart, for the client entries up to `applied_index`, in order and once each; and a client
entry changes no membership. -/
theorem commands_applied_once {S : Setup ι (KVStore × List Bytes) KVStore} {client : Bytes → Prop}
    {c : Cluster ι (KVStore × List Bytes) KVStore} {i : ι} (hauto : S.NoAutoSnapshot)
    (hi : i ∈ S.servers) (hkv : (S.params i).stateMachine = some kvStore.recorded)
    (hclient : ∀ payload, client payload →
      isCommand payload = true ∧ (decodeUtf8 payload).isSome = true)
    (hr : Reach S.step (fun c e => S.Enabled c e ∧ Serves client c e) S.init c) :
    (c.node i).appliedIndex = (c.node i).commitIndex ∧
    (c.node i).commitIndex ≤ (c.node i).log.lastIndex ∧
    (∃ kv, (c.node i).machine = some (kv, (c.node i).log.commands (c.node i).appliedIndex) ∧
      kv.ops = ((c.node i).log.commands (c.node i).appliedIndex).length) ∧
    ∀ e ∈ (c.node i).log.entries, (isCommand e.payload = true ↔ client e.payload) ∧
      (client e.payload → ∀ (self : Self ι (KVStore × List Bytes) KVStore) n,
        SameMembers n (self.applyEntry e n).state) := by
  have haccept : ∀ payload, client payload → ∀ s, (kvStore.recorded.apply s payload).2 = true := by
    intro payload hp s
    exact (KVStore.apply_accepts s.1 payload).trans (hclient payload hp).2
  have hcurrent := current_reach hauto hi hkv haccept hr
  refine ⟨hcurrent.equal, hcurrent.bound, ⟨_, ?_, kvStore_ops _⟩, fun e he => ⟨⟨?_, ?_⟩, ?_⟩⟩
  · rw [hcurrent.machine, StateMachine.recorded_fed]
  · exact (commands_client hr).2 i e he
  · exact fun hp => (hclient _ hp).1
  · intro hp self n
    exact applyEntry_members self n (hclient _ hp).1 n ⟨rfl, rfl, rfl⟩

/-! ### A server on its own -/

/-- One server with a `KVStore`. -/
def kvLab : Setup ℕ (KVStore × List Bytes) KVStore where
  servers := {0}
  params _ :=
    { peers := []
      usePrevote := false
      stateMachine := some kvStore.recorded
      emptyData := {}
      json := letters }

/-- The server becomes leader and is offered payloads. -/
def offers (payloads : List Bytes) : List (Event ℕ KVStore) :=
  callAt 1000 0 .tick :: payloads.map fun payload => callAt 1001 0 (.propose payload)

theorem offers_reach (client : Bytes → Prop) (payloads : List Bytes)
    (h : ∀ payload ∈ payloads, client payload) :
    Reach kvLab.step (fun c e => kvLab.Enabled c e ∧ Serves client c e) kvLab.init
      (kvLab.replay (offers payloads)) := by
  refine reach_foldl _ _ fun e he c => ?_
  obtain ⟨now, k, rfl, hk⟩ : ∃ now k, e = callAt now 0 k ∧
      (k = .tick ∨ ∃ payload ∈ payloads, k = .propose payload) := by
    rcases List.mem_cons.mp he with rfl | he
    · exact ⟨_, _, rfl, .inl rfl⟩
    · obtain ⟨payload, hp, rfl⟩ := List.mem_map.mp he
      exact ⟨_, _, rfl, .inr ⟨payload, hp, rfl⟩⟩
  refine ⟨⟨Finset.mem_singleton_self 0, ⟨le_rfl, zero_lt_one⟩, fun m hm => ?_⟩, ?_, ?_, ?_⟩
  · rcases hk with rfl | ⟨payload, -, rfl⟩ <;> cases hm
  · intro k' hk'
    cases hk'
    rcases hk with rfl | ⟨payload, -, rfl⟩ <;> rfl
  · intro k' hk'
    cases hk'
    rcases hk with rfl | ⟨payload, -, rfl⟩ <;> rfl
  · intro payload hp _
    cases hp
    rcases hk with hk | ⟨payload', hp', hk⟩
    · cases hk
    · cases hk
      exact h _ hp'

/-- `a=b` and `a` reach the store, in order. -/
theorem commands_applied_once_pair :
    let c := kvLab.replay (offers [[97, 61, 98], [97]])
    (c.node 0).appliedIndex = 3 ∧ (c.node 0).appliedIndex = (c.node 0).commitIndex ∧
      ∃ kv, (c.node 0).machine = some (kv, [[97, 61, 98], [97]]) ∧ kv.ops = 2 := by
  intro c
  have hr := offers_reach (fun payload => payload = [97, 61, 98] ∨ payload = [97])
    [[97, 61, 98], [97]] (by simp)
  have hclient : ∀ payload : Bytes, payload = [97, 61, 98] ∨ payload = [97] →
      isCommand payload = true ∧ (decodeUtf8 payload).isSome = true := by
    rintro payload (rfl | rfl) <;> decide +kernel
  obtain ⟨happlied, -, ⟨kv, hm, hops⟩, -⟩ := commands_applied_once (fun _ _ => rfl)
    (Finset.mem_singleton_self 0) rfl hclient hr
  have hcalls : (c.node 0).log.commands (c.node 0).appliedIndex = [[97, 61, 98], [97]] := by
    decide +kernel
  rw [hcalls] at hm hops
  exact ⟨by decide +kernel, happlied, kv, hm, hops⟩

/-- A payload that is no UTF-8 is handed over again with every later proposal, and blocks them; an
empty payload and one that starts like a no-op are never handed over; one that starts like a config
entry changes the configuration. -/
theorem command_applied_twice :
    (∃ c, Reach kvLab.step (fun c e => kvLab.Enabled c e ∧ Serves (fun _ => True) c e) kvLab.init c ∧
      (c.node 0).log.get 2 = some ⟨2, 1, [255]⟩ ∧ (c.node 0).commitIndex = 3 ∧
      (c.node 0).appliedIndex = 1 ∧
      (c.node 0).machine.map Prod.snd = some [[255], [255]] ∧
      (c.node 0).machine.map (KVStore.ops ∘ Prod.fst) = some 2) ∧
    (∃ c, Reach kvLab.step (fun c e => kvLab.Enabled c e ∧ Serves (fun _ => True) c e) kvLab.init c ∧
      (c.node 0).log.get 2 = some ⟨2, 1, []⟩ ∧ (c.node 0).log.get 3 = some ⟨3, 1, noop ++ [97]⟩ ∧
      (c.node 0).appliedIndex = 3 ∧ (c.node 0).machine.map Prod.snd = some []) ∧
    (∃ c, Reach kvLab.step (fun c e => kvLab.Enabled c e ∧ Serves (fun _ => True) c e) kvLab.init c ∧
      (c.node 0).log.get 2 = some ⟨2, 1, cfgTag ++ letters.dumps [0, 1]⟩ ∧
      (c.node 0).appliedIndex = 2 ∧ (c.node 0).machine.map Prod.snd = some [] ∧
      (kvLab.init.node 0).config = {0} ∧ (c.node 0).config = {0, 1}) := by
  refine ⟨⟨_, offers_reach _ [[255], [97]] fun _ _ => trivial, ?_⟩,
    ⟨_, offers_reach _ [[], noop ++ [97]] fun _ _ => trivial, ?_⟩,
    ⟨_, offers_reach _ [cfgTag ++ letters.dumps [0, 1]] fun _ _ => trivial, ?_⟩⟩
  · decide +kernel
  · decide +kernel
  · decide +kernel

end Pylog.Raft
