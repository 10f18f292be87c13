import Pylog.Raft.Core

/-!
# Pylog.Raft.Apply — what `_apply_committed` and `take_snapshot` do

`ApplyStep` lists the steps of the two: an entry is applied, or its payload raises, or the state
machine is written to a snapshot and the log compacted.  What every step keeps is kept by the code;
a normal end has applied everything committed, or has met an index the log does not hold.
-/

namespace Pylog.Raft

open Effect Effect.Handler

variable {ι σ δ : Type} [LinearOrder ι]

theorem latestFile_eq_none {fs : List (Snapshot δ)} : latestFile fs = none ↔ fs = [] := by
  cases fs with
  | nil => simp [latestFile]
  | cons s rest =>
    simp only [latestFile, reduceCtorEq, iff_false]
    cases latestFile rest with
    | none => simp
    | some t =>
      dsimp only
      split_ifs <;> simp

/-- The state machine after a payload, and whether it returned; empty payloads and no-ops do not
reach it. -/
def Self.feed (self : Self ι σ δ) (n : Node ι σ δ) (payload : Bytes) : Option σ × Bool :=
  match self.stateMachine, n.machine with
  | some sm, some s =>
    if payload ≠ [] ∧ noop.isPrefixOf payload = false then
      (some (sm.apply s payload).1, (sm.apply s payload).2)
    else (n.machine, true)
  | _, _ => (n.machine, true)

inductive ApplyStep (self : Self ι σ δ) : Node ι σ δ → Node ι σ δ → Prop
  /-- A config entry that cannot be read. -/
  | ignored (n) (e : Entry) (hlt : n.appliedIndex < n.commitIndex)
      (he : n.log.get (n.appliedIndex + 1) = some e) (hcfg : isCfg e.payload = true)
      (hc : self.configOf e.payload = none) :
      ApplyStep self n { n with appliedIndex := n.appliedIndex + 1 }
  | adopted (n) (e : Entry) (servers : Finset ι) (hlt : n.appliedIndex < n.commitIndex)
      (he : n.log.get (n.appliedIndex + 1) = some e)
      (hc : self.configOf e.payload = some servers) :
      ApplyStep self n
        { n.adoptConfig self.id self.now servers with appliedIndex := n.appliedIndex + 1 }
  | fed (n) (e : Entry) (machine : Option σ) (hlt : n.appliedIndex < n.commitIndex)
      (he : n.log.get (n.appliedIndex + 1) = some e) (hcfg : isCfg e.payload = false)
      (hm : self.feed n e.payload = (machine, true)) :
      ApplyStep self n { n with machine := machine, appliedIndex := n.appliedIndex + 1 }
  | raised (n) (e : Entry) (machine : Option σ) (hlt : n.appliedIndex < n.commitIndex)
      (he : n.log.get (n.appliedIndex + 1) = some e) (hcfg : isCfg e.payload = false)
      (hm : self.feed n e.payload = (machine, false)) :
      ApplyStep self n { n with machine := machine }
  /-- Without a state machine, missing entries are skipped. -/
  | skipped (n) (hlt : n.appliedIndex < n.commitIndex)
      (he : n.log.get (n.appliedIndex + 1) = none) (hm : n.machine = none) :
      ApplyStep self n { n with appliedIndex := n.commitIndex }
  | file (n) (s : Snapshot δ) (hs : self.snapshotOf n = some s) (hd : self.snapshotDir = true) :
      ApplyStep self n { n with
        snapshotFiles :=
          s :: n.snapshotFiles.filter (fun f => f.lastIncludedIndex ≠ s.lastIncludedIndex) }
  | mark (n) (s : Snapshot δ) (hs : self.snapshotOf n = some s) :
      ApplyStep self n { n with lastSnapshot := some s }
  | compacted (n) (s : Snapshot δ) (l : RaftLog) (hs : self.snapshotOf n = some s)
      (hc : n.log.compact s.lastIncludedIndex s.lastIncludedTerm = some l)
      (hf : self.snapshotDir = true →
        ∃ f ∈ n.snapshotFiles, f.lastIncludedIndex = s.lastIncludedIndex) :
      ApplyStep self n { n with log := l }

section

variable {self : Self ι σ δ} {n : Node ι σ δ} {h : History ι σ δ}

/-- The code takes such steps, and a normal end satisfies `Q`. -/
abbrev ApplySteps (self : Self ι σ δ) {α : Type} (x : Act ι σ δ α) (n : Node ι σ δ)
    (h : History ι σ δ) (Q : α → Node ι σ δ → History ι σ δ → Prop) : Prop :=
  Follows (fun p q => ApplyStep self p.1 q.1) x n h Q

/-- A step that leaves the log alone, as the loop takes them. -/
def LoopStep (self : Self ι σ δ) (p q : Node ι σ δ × History ι σ δ) : Prop :=
  ApplyStep self p.1 q.1 ∧ q.1.log = p.1.log

/-- Such a step with what it emits: the mark of the entry it passes, or nothing. -/
def MarkStep (self : Self ι σ δ) (p q : Node ι σ δ × History ι σ δ) : Prop :=
  LoopStep self p q ∧ (q.2 = p.2 ∨ ∃ e, p.1.appliedIndex < p.1.commitIndex ∧
    p.1.log.get (p.1.appliedIndex + 1) = some e ∧
    q.2 = p.2 ++ [(self.id, .apply (p.1.appliedIndex + 1) e)])

omit [LinearOrder ι] in
theorem snapshotOf_index {s : Snapshot δ} (hs : self.snapshotOf n = some s) :
    s.lastIncludedIndex = n.appliedIndex := by
  unfold Self.snapshotOf at hs
  split at hs
  · split_ifs at hs
    cases hs
    rfl
  · cases hs

/-- `take_snapshot` keeps the indexes. -/
theorem takeSnapshot_steps : ApplySteps self self.takeSnapshot n h fun _ n' _ =>
    n'.commitIndex = n.commitIndex ∧ n'.appliedIndex = n.appliedIndex := by
  refine follows_read ?_
  cases hs : self.snapshotOf n with
  | none => exact follows_pure ⟨rfl, rfl⟩
  | some s =>
    have hwrite : ApplySteps self (self.writeSnapshotFile s) n h fun _ n' _ =>
        ∃ files, n' = { n with snapshotFiles := files } ∧ (self.snapshotDir = true →
          ∃ f ∈ files, f.lastIncludedIndex = s.lastIncludedIndex) := by
      refine follows_when (fun hd => ?_) fun hd => ⟨_, rfl, fun hd' => absurd hd' hd⟩
      exact follows_of_eq rfl (.file n s hs hd) ⟨_, rfl, fun _ => ⟨s, by simp, rfl⟩⟩
    refine follows_bind hwrite ?_
    rintro _ n' h' ⟨files, rfl, hf⟩
    refine follows_bind (Q := fun _ n' _ => n' = { n with
      snapshotFiles := files, lastSnapshot := some s }) (follows_update (.mark _ s hs) rfl) ?_
    rintro _ n' h' rfl
    refine follows_bind (Q := fun _ n' _ => n'.commitIndex = n.commitIndex ∧
      n'.appliedIndex = n.appliedIndex) (follows_read ?_) fun _ _ _ hn => follows_pure hn
    cases hc : n.log.compact s.lastIncludedIndex s.lastIncludedTerm with
    | none => exact follows_pure ⟨rfl, rfl⟩
    | some l => exact follows_of_eq rfl (.compacted _ s l hs hc hf) ⟨rfl, rfl⟩

/-- An entry moves `applied_index` by one, unless the state machine raises. -/
theorem applyEntry_steps {e : Entry} (hlt : n.appliedIndex < n.commitIndex)
    (he : n.log.get (n.appliedIndex + 1) = some e) :
    Follows (MarkStep self) (self.applyEntry e) n h fun _ n' _ =>
      n'.log = n.log ∧ n'.commitIndex = n.commitIndex ∧ n'.appliedIndex = n.appliedIndex + 1 := by
  refine follows_read ?_
  have hmark : h ++ [(self.id, .apply (n.appliedIndex + 1) e)] = h ∨ ∃ e',
      n.appliedIndex < n.commitIndex ∧ n.log.get (n.appliedIndex + 1) = some e' ∧
      h ++ [(self.id, .apply (n.appliedIndex + 1) e)] =
        h ++ [(self.id, .apply (n.appliedIndex + 1) e')] := .inr ⟨e, hlt, he, rfl⟩
  by_cases hcfg : isCfg e.payload = true
  · rw [if_pos hcfg]
    cases hc : self.configOf e.payload with
    | some servers =>
      exact follows_of_eq rfl ⟨⟨.adopted n e servers hlt he hc, rfl⟩, hmark⟩ ⟨rfl, rfl, rfl⟩
    | none => exact follows_of_eq rfl ⟨⟨.ignored n e hlt he hcfg hc, rfl⟩, hmark⟩ ⟨rfl, rfl, rfl⟩
  · rw [if_neg hcfg]
    rw [Bool.not_eq_true] at hcfg
    have hskip : self.feed n e.payload = (n.machine, true) →
        Follows (MarkStep self) (self.setApplied e) n h fun _ n' _ =>
          n'.log = n.log ∧ n'.commitIndex = n.commitIndex ∧ n'.appliedIndex = n.appliedIndex + 1 :=
      fun hm => follows_of_eq rfl ⟨⟨.fed n e n.machine hlt he hcfg hm, rfl⟩, hmark⟩ ⟨rfl, rfl, rfl⟩
    cases hsm : self.stateMachine with
    | none => exact hskip (by rw [Self.feed, hsm])
    | some sm =>
      cases hs : n.machine with
      | none => exact hskip (by rw [Self.feed, hsm, hs])
      | some s =>
        dsimp only
        by_cases hp : e.payload ≠ [] ∧ noop.isPrefixOf e.payload = false
        · have hw : Self.applyPayload (ι := ι) sm s e.payload = (do
              update fun n => { n with machine := some (sm.apply s e.payload).1 }
              when ((sm.apply s e.payload).2 = false) (raise .applyError)) := if_pos hp
          have hfeed : self.feed n e.payload =
              (some (sm.apply s e.payload).1, (sm.apply s e.payload).2) := by
            rw [Self.feed, hsm, hs]
            exact if_pos hp
          rw [hw]
          cases ha : (sm.apply s e.payload).2 with
          | true =>
            rw [ha] at hfeed
            exact follows_of_eq rfl ⟨⟨.fed n e _ hlt he hcfg hfeed, rfl⟩, hmark⟩ ⟨rfl, rfl, rfl⟩
          | false =>
            rw [ha] at hfeed
            exact follows_step ⟨⟨.raised n e _ hlt he hcfg hfeed, rfl⟩, .inl (List.append_nil h)⟩
              (fun a hr => by cases hr)
        · have hw : Self.applyPayload (ι := ι) sm s e.payload = pure () := if_neg hp
          rw [hw]
          refine hskip ?_
          rw [Self.feed, hsm, hs]
          exact if_neg hp

/-- The loop ends with everything applied, or at an index the log does not hold. -/
theorem applyLoop_steps : ∀ (i : ℕ) {n : Node ι σ δ} {h : History ι σ δ},
    n.commitIndex ≤ n.appliedIndex + i → Follows (MarkStep self) (self.applyLoop i) n h fun _ n' _ =>
      n'.log = n.log ∧ n'.commitIndex = n.commitIndex ∧
        (n.commitIndex ≤ n'.appliedIndex ∨ n.log.get (n'.appliedIndex + 1) = none)
  | 0, _, _, hi => follows_pure ⟨rfl, rfl, .inl hi⟩
  | i + 1, n, h, hi => by
    refine follows_read (follows_ite (fun hlt => ?_) fun hge => follows_pure ⟨rfl, rfl, .inl ?_⟩)
    · cases he : n.log.get (n.appliedIndex + 1) with
      | some e =>
        refine follows_bind (applyEntry_steps hlt he) ?_
        rintro _ n' h' ⟨hl, hc, ha⟩
        have hi' : n'.commitIndex ≤ n'.appliedIndex + i := by omega
        refine (applyLoop_steps i hi').mono ?_
        rintro _ n'' h'' ⟨hl', hc', hend⟩
        refine ⟨hl'.trans hl, hc'.trans hc, ?_⟩
        rwa [← hc, ← hl]
      | none =>
        refine follows_ite (fun hm => ?_) fun _ => follows_pure ⟨rfl, rfl, .inr he⟩
        have hm' : n.machine = none := by simpa using hm
        refine follows_bind (Q := fun _ n' _ => n' = { n with appliedIndex := n.commitIndex })
          (follows_update ⟨⟨.skipped n hlt he hm', rfl⟩, .inl rfl⟩ rfl) ?_
        rintro _ n' h' rfl
        exact follows_pure ⟨rfl, rfl, .inl le_rfl⟩
    · omega

theorem applyCommitted_steps : ApplySteps self self.applyCommitted n h fun _ n' _ =>
    n'.commitIndex = n.commitIndex ∧
      (n.commitIndex ≤ n'.appliedIndex ∨ n.log.get (n'.appliedIndex + 1) = none) := by
  have hloop : ApplySteps self (self.applyLoop (n.commitIndex - n.appliedIndex)) n h _ :=
    (applyLoop_steps _ (by omega)).weaken fun _ _ hs => hs.1.1
  refine follows_read (follows_bind hloop ?_)
  rintro done n' h' ⟨-, hc, hend⟩
  refine follows_when (fun _ => follows_read (follows_when (fun _ => ?_) fun _ => ⟨hc, hend⟩))
    fun _ => ⟨hc, hend⟩
  refine follows_bind takeSnapshot_steps ?_
  rintro _ n'' h'' ⟨hc', ha'⟩
  refine follows_pure ⟨hc'.trans hc, ?_⟩
  rw [ha']
  exact hend

/-- Without automatic snapshots only the loop runs. -/
theorem applyCommitted_marks (ha : self.autoSnapshotEvery = 0) :
    Follows (MarkStep self) self.applyCommitted n h fun _ n' _ =>
      n'.log = n.log ∧ n'.commitIndex = n.commitIndex ∧
        (n.commitIndex ≤ n'.appliedIndex ∨ n.log.get (n'.appliedIndex + 1) = none) := by
  refine follows_read (follows_bind (applyLoop_steps _ (by omega)) ?_)
  intro done n' h' hend
  refine follows_when (fun _ => follows_read (follows_when (fun hc => ?_) fun _ => hend)) fun _ => hend
  exact absurd ha hc.1

theorem applyCommitted_loops (ha : self.autoSnapshotEvery = 0) :
    Follows (LoopStep self) self.applyCommitted n h fun _ n' _ =>
      n'.log = n.log ∧ n'.commitIndex = n.commitIndex ∧
        (n.commitIndex ≤ n'.appliedIndex ∨ n.log.get (n'.appliedIndex + 1) = none) :=
  (applyCommitted_marks ha).weaken fun _ _ hs => hs.1

/-- The payload is handed to the state machine: not a config entry, not a no-op and not empty. -/
def isCommand (payload : Bytes) : Bool :=
  !isCfg payload && decide (payload ≠ [] ∧ noop.isPrefixOf payload = false)

/-- The state machine accepts the payload, whatever its state, or never gets it. -/
def Params.Accepts (P : Params ι σ δ) (payload : Bytes) : Prop :=
  isCommand payload = true → ∀ sm, P.stateMachine = some sm → ∀ s, (sm.apply s payload).2 = true

/-- A state machine that accepts every payload. -/
def Params.NeverRaises (P : Params ι σ δ) : Prop :=
  ∀ sm, P.stateMachine = some sm → ∀ s payload, (sm.apply s payload).2 = true

omit [LinearOrder ι] in
theorem Params.NeverRaises.accepts {P : Params ι σ δ} (h : P.NeverRaises) (payload : Bytes) :
    P.Accepts payload := fun _ sm hsm s => h sm hsm s payload

/-- The code returns normally. -/
abbrev Returns {α : Type} (x : Act ι σ δ α) : Prop := Calm (fun _ => ()) x

omit [LinearOrder ι] in
theorem takeSnapshot_returns : Returns self.takeSnapshot := by
  refine calm_read fun n => ?_
  cases self.snapshotOf n with
  | none => exact calm_pure _
  | some s =>
    refine calm_bind (calm_when (calm_bind (calm_update fun _ => rfl) fun _ => calm_emit _)) fun _ => ?_
    refine calm_bind (calm_update fun _ => rfl) fun _ => calm_bind ?_ fun _ => calm_pure _
    refine calm_read fun n => ?_
    cases n.log.compact s.lastIncludedIndex s.lastIncludedTerm with
    | none => exact calm_pure _
    | some l => exact calm_bind (calm_update fun _ => rfl) fun _ => calm_emit _

omit [LinearOrder ι] in
theorem setApplied_calm (e : Entry) : Calm Node.log (self.setApplied e) :=
  calm_read fun _ => calm_bind (calm_update fun _ => rfl) fun _ => calm_emit _

/-- An entry with an accepted payload is applied without an exception. -/
theorem applyEntry_calm {e : Entry} (ha : self.Accepts e.payload) :
    Calm Node.log (self.applyEntry e) := by
  refine calm_read fun n => ?_
  by_cases hcfg : isCfg e.payload = true
  · rw [if_pos hcfg]
    cases self.configOf e.payload with
    | some servers => exact calm_bind (calm_update fun _ => rfl) fun _ => setApplied_calm e
    | none => exact setApplied_calm e
  · rw [if_neg hcfg]
    cases hs : self.stateMachine with
    | none => exact setApplied_calm e
    | some sm =>
      cases n.machine with
      | none => exact setApplied_calm e
      | some s =>
        refine calm_bind ?_ fun _ => setApplied_calm e
        unfold Self.applyPayload
        by_cases hp : e.payload ≠ [] ∧ noop.isPrefixOf e.payload = false
        · have hcommand : isCommand e.payload = true := by simp [isCommand, hcfg, hp]
          rw [when, if_pos hp]
          refine calm_bind (calm_update fun _ => rfl) fun _ => ?_
          rw [when, ha hcommand sm hs s, if_neg (by decide)]
          exact calm_pure _
        · rw [when, if_neg hp]
          exact calm_pure _

theorem applyLoop_returns : ∀ (i : ℕ) (n : Node ι σ δ), (∀ e ∈ n.log.entries, self.Accepts e.payload) →
    ∃ n' o done, self.applyLoop i n = ⟨n', o, .ok done⟩
  | 0, n, _ => ⟨n, [], true, rfl⟩
  | i + 1, n, ha => by
    unfold Self.applyLoop
    rw [read_bind]
    by_cases hlt : n.appliedIndex < n.commitIndex
    · rw [if_pos hlt]
      cases he : n.log.get (n.appliedIndex + 1) with
      | some e =>
        obtain ⟨n', o, ⟨⟩, hrun, hlog⟩ := applyEntry_calm (ha e (RaftLog.mem_of_get he)) n
        obtain ⟨n'', o', done, hloop⟩ := applyLoop_returns i n' (hlog ▸ ha)
        exact ⟨n'', o ++ o', done, bind_run hrun hloop⟩
      | none =>
        cases n.machine.isNone with
        | true => exact ⟨_, _, _, rfl⟩
        | false => exact ⟨_, _, _, rfl⟩
    · rw [if_neg hlt]
      exact ⟨_, _, _, rfl⟩

/-- `_apply_committed` returns normally when the log holds accepted payloads. -/
theorem applyCommitted_returns (ha : ∀ e ∈ n.log.entries, self.Accepts e.payload) :
    ∃ n' o, self.applyCommitted n = ⟨n', o, .ok ()⟩ := by
  obtain ⟨n', o, done, hloop⟩ := applyLoop_returns (n.commitIndex - n.appliedIndex) n ha
  have hauto : Returns (when (done = true) self.autoSnapshot) := calm_when <| calm_read fun _ =>
    calm_when <| calm_bind takeSnapshot_returns fun _ => calm_pure _
  obtain ⟨n'', o', ⟨⟩, hrun, -⟩ := hauto n'
  refine ⟨n'', o ++ o', ?_⟩
  unfold Self.applyCommitted
  rw [read_bind]
  exact bind_run hloop hrun

/-- `_on_append` may take over a commit index and apply up to it, lines 481–483. -/
theorem takeOver_returns (ha : ∀ e ∈ n.log.entries, self.Accepts e.payload) (c : Prop) [Decidable c]
    (commit : ℕ) : ∃ n' o, when c (do
      update fun n => { n with commitIndex := min commit n.log.lastIndex }
      self.applyCommitted) n = ⟨n', o, .ok ()⟩ := by
  unfold when
  split_ifs
  · obtain ⟨n', o, hrun⟩ := applyCommitted_returns
      (n := { n with commitIndex := min commit n.log.lastIndex }) ha
    exact ⟨n', o, update_run hrun⟩
  · exact ⟨_, _, rfl⟩

/-- What the steps keep is kept by the code, also when it raises. -/
theorem ApplySteps.keeps {α : Type} {x : Act ι σ δ α} {Q : α → Node ι σ δ → History ι σ δ → Prop}
    (hx : ApplySteps self x n [] Q) (I : Node ι σ δ → Prop)
    (hI : ∀ n n', ApplyStep self n n' → I n → I n') (h0 : I n) : I (x n).state :=
  Follows.inv hx (fun n _ => I n) (fun p q hpq hp => hI p.1 q.1 hpq hp) h0

end

end Pylog.Raft
