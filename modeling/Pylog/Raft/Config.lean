import Pylog.Raft.Apply
import Pylog.Raft.Commit
import Pylog.Raft.Joint

/-!
# Pylog.Raft.Config — the configuration of a node and its log

`config`, `old_config` and `joint_index` change only where a leader proposes and where a config entry
is applied.  Snapshots, restarts and truncations change what the log says and leave them alone:
`Params.legible` and `Setup.Legible` name the steps that break the correspondence, and along all
other runs the configuration follows the log (`Configured`).
-/

namespace Pylog.Raft

open Effect Transition Trace

variable {ι σ δ : Type} [LinearOrder ι] {S : Setup ι σ δ} {c : Cluster ι σ δ} {e : Event ι δ}
  {i : ι} {n n' n₀ : Node ι σ δ} {h h' : History ι σ δ} {self : Self ι σ δ} {k : Call ι δ}
  {P : Params ι σ δ} {H : ℕ → Option Entry} {old new : Finset ι}

/-! ### The replicated history -/

/-- Every entry a node applied is the one of `H`. -/
def Replicates (H : ℕ → Option Entry) (h : History ι σ δ) : Prop :=
  ∀ j index x, Applied h j index x → H index = some x

instance (H : ℕ → Option Entry) (h : History ι σ δ) : Decidable (Replicates H h) :=
  decidable_of_iff (h.all fun o => match o.2 with
    | .apply m x => decide (H m = some x)
    | _ => true) <| by
    rw [List.all_eq_true]
    constructor
    · intro hall j index x hx
      exact of_decide_eq_true (hall _ hx)
    · rintro hH ⟨j, o⟩ ho
      cases o with
      | apply m x => exact decide_eq_true (hH j m x ho)
      | _ => rfl

/-- The server set that the entry at `index` carries. -/
def Params.changeOf (P : Params ι σ δ) (H : ℕ → Option Entry) (index : ℕ) : Option (Finset ι) :=
  (H index).bind fun x => P.configOf x.payload

/-- The server set of the last config entry up to an index; without one, the initial peers and the
node itself. -/
def Params.configAt (P : Params ι σ δ) (i : ι) (H : ℕ → Option Entry) : ℕ → Finset ι
  | 0 => insert i (P.peers.filter (· ≠ i)).toFinset
  | m + 1 => (P.changeOf H (m + 1)).getD (P.configAt i H m)

theorem configAt_succ {m : ℕ} {x : Entry} (hx : H (m + 1) = some x) :
    P.configAt i H (m + 1) = (P.configOf x.payload).getD (P.configAt i H m) := by
  show (P.changeOf H (m + 1)).getD _ = _
  unfold Params.changeOf
  rw [hx]
  rfl

/-- Indexes without config entries leave the configuration. -/
theorem configAt_skip {m m' : ℕ} (hm : m ≤ m')
    (hno : ∀ index ≤ m', m < index → P.changeOf H index = none) :
    P.configAt i H m' = P.configAt i H m := by
  induction m', hm using Nat.le_induction with
  | base => rfl
  | succ m' hm ih =>
    show (P.changeOf H (m' + 1)).getD _ = _
    rw [hno (m' + 1) le_rfl (by omega)]
    exact ih fun index hi hlt => hno index (by omega) hlt

/-! ### Steps that keep the correspondence -/

/-- A window that does not start below the log and has no conflict with it up to `joint_index`. -/
def Node.Spared (n : Node ι σ δ) (prevIndex : ℕ) (entries : List Entry) : Prop :=
  n.log.firstIndex ≤ prevIndex + 1 ∧ ∀ y ∈ entries.zipIdx (prevIndex + 1), y.2 ≤ n.jointIndex →
    n.log.termAt y.2 = -1 ∨ n.log.termAt y.2 = (y.1.term : ℤ)

instance (n : Node ι σ δ) (prevIndex : ℕ) (entries : List Entry) :
    Decidable (n.Spared prevIndex entries) :=
  inferInstanceAs (Decidable (_ ∧ ∀ y ∈ entries.zipIdx (prevIndex + 1), y.2 ≤ n.jointIndex →
    n.log.termAt y.2 = -1 ∨ n.log.termAt y.2 = (y.1.term : ℤ)))

/-- The call neither cuts the config entry of a joint phase out of the log, nor moves the commit index
over it from outside, nor skips a config entry of `H`; and a leader that proposes a change has a
contiguous log with all it applied. -/
def Params.legible (P : Params ι σ δ) (H : ℕ → Option Entry) (n : Node ι σ δ) : Call ι δ → Bool
  | .handle (.append term _ prevIndex prevTerm entries _) => decide (
      n.oldConfig ≠ none ∧ n.currentTerm ≤ term ∧ n.log.termAt prevIndex = prevTerm →
        n.Spared prevIndex entries)
  | .handle (.installSnapshot term _ s) => decide (
      n.currentTerm ≤ term → (n.oldConfig ≠ none → s.lastIncludedIndex < n.jointIndex) ∧
        (alreadyHave n s = false → ∀ index ≤ s.lastIncludedIndex, n.appliedIndex < index →
          P.changeOf H index = none))
  | .proposeAddServer _ | .proposeRemoveServer _ => decide (
      n.role = .leader ∧ n.oldConfig = none →
        n.log.Contiguous ∧ n.appliedIndex ≤ n.log.lastIndex)
  | _ => true

/-- The event is a legible call, or a restart from files that cover no config entry of `H`. -/
def Setup.Legible (S : Setup ι σ δ) (H : ℕ → Option Entry) (c : Cluster ι σ δ) (e : Event ι δ) : Prop :=
  e.action.whole = true ∧
  (∀ k ∈ e.action.made, (S.params e.node).legible H (c.node e.node) k = true) ∧
  (e.action.made = none → (S.params e.node).snapshotDir = true →
    ∀ s ∈ latestFile (c.node e.node).snapshotFiles, ∀ index ≤ s.lastIncludedIndex,
      (S.params e.node).changeOf H index = none)

instance (S : Setup ι σ δ) (H : ℕ → Option Entry) (c : Cluster ι σ δ) (e : Event ι δ) :
    Decidable (S.Legible H c e) :=
  inferInstanceAs (Decidable (_ ∧ (∀ k ∈ e.action.made,
    (S.params e.node).legible H (c.node e.node) k = true) ∧ (_ → _ →
      ∀ s ∈ latestFile (c.node e.node).snapshotFiles, _)))

/-! ### The invariant -/

/-- The log holds the config entry of `new` at `joint_index`, not applied yet. -/
def Params.Pending (P : Params ι σ δ) (n : Node ι σ δ) (new : Finset ι) : Prop :=
  new.Nonempty ∧ n.log.Contiguous ∧ n.appliedIndex < n.jointIndex ∧
    ∃ x, n.log.get n.jointIndex = some x ∧ x.payload = cfgTag ++ P.json.dumps (sortedIds new)

structure Configured (P : Params ι σ δ) (H : ℕ → Option Entry) (i : ι) (n : Node ι σ δ)
    (h : History ι σ δ) : Prop where
  machine : n.machine ≠ none
  config : n.oldConfig = none → n.config = P.configAt i H n.appliedIndex
  joint : ∀ old, n.oldConfig = some old →
    ∃ t new, Reconfigured h i t n.jointIndex old new ∧ P.Pending n new

/-- JSON reads back what it wrote. -/
def CfgCodec.Faithful (json : CfgCodec ι) : Prop := ∀ l, json.loads (json.dumps l) = some l

theorem configOf_dumps (hjson : P.json.Faithful) (hne : new.Nonempty) :
    P.configOf (cfgTag ++ P.json.dumps (sortedIds new)) = some new := by
  unfold Params.configOf
  have htag : isCfg (cfgTag ++ P.json.dumps (sortedIds new)) = true := by
    unfold isCfg
    simp
  have hdrop : (cfgTag ++ P.json.dumps (sortedIds new)).drop 6 = P.json.dumps (sortedIds new) :=
    List.drop_left' rfl
  have hset : (sortedIds new).toFinset = new := by
    ext p
    rw [List.mem_toFinset, mem_sortedIds]
  rw [if_pos htag, hdrop, hjson]
  cases hl : sortedIds new with
  | nil =>
    obtain ⟨p, hp⟩ := hne
    rw [← mem_sortedIds, hl] at hp
    cases hp
  | cons p ps =>
    rw [hl] at hset
    rw [← hset]

/-- A change a leader accepts leaves servers. -/
theorem change_nonempty (hc : Change i n k new) : new.Nonempty := by
  rcases hc.2 with ⟨x, -, -, rfl⟩ | ⟨x, -, hx, -, hcard, rfl⟩
  · exact ⟨x, by simp⟩
  · rw [← Finset.card_pos, Finset.sdiff_singleton_eq_erase, Finset.card_erase_of_mem hx]
    omega

/-! ### Small steps -/

theorem Configured.grow (hc : Configured P H i n h) (hh : h <+: h') : Configured P H i n h' := by
  refine ⟨hc.machine, hc.config, fun old ho => ?_⟩
  obtain ⟨t, new, hre, hp⟩ := hc.joint old ho
  exact ⟨t, new, hh.subset hre, hp⟩

/-- A step that changes the log of a node and nothing its configuration depends on. -/
theorem Configured.relog (hc : Configured P H i n h) (hh : h <+: h') (hm : n'.machine ≠ none)
    (hcfg : n'.oldConfig = n.oldConfig ∧ n'.config = n.config ∧ n'.appliedIndex = n.appliedIndex ∧
      n'.jointIndex = n.jointIndex)
    (hlog : n.oldConfig ≠ none → n.log.Contiguous → ∀ x, n.log.get n.jointIndex = some x →
      n.appliedIndex < n.jointIndex → n'.log.Contiguous ∧ n'.log.get n.jointIndex = some x) :
    Configured P H i n' h' := by
  obtain ⟨h1, h2, h3, h4⟩ := hcfg
  refine ⟨hm, fun ho => ?_, fun old ho => ?_⟩
  · rw [h2, h3]
    exact hc.config (h1 ▸ ho)
  · rw [h1] at ho
    obtain ⟨t, new, hre, hne, hcont, hlt, x, hx, hpay⟩ := hc.joint old ho
    obtain ⟨hcont', hx'⟩ := hlog (by rw [ho]; simp) hcont x hx hlt
    rw [h4]
    refine ⟨t, new, hh.subset hre, hne, hcont', ?_, x, ?_, hpay⟩
    · rw [h3, h4]
      exact hlt
    · rw [h4]
      exact hx'

/-- The entry at `joint_index` is a config entry, so what is applied before lies below it. -/
theorem Params.Pending.below (hjson : P.json.Faithful) (hp : P.Pending n new) {x : Entry}
    (hx : n.log.get (n.appliedIndex + 1) = some x) (hcf : P.configOf x.payload = none) :
    n.appliedIndex + 1 < n.jointIndex := by
  obtain ⟨hne, -, hlt, y, hy, hpay⟩ := hp
  rcases Nat.lt_or_ge (n.appliedIndex + 1) n.jointIndex with h1 | h1
  · exact h1
  · have heq : n.jointIndex = n.appliedIndex + 1 := by omega
    rw [heq, hx, Option.some.injEq] at hy
    rw [hy, hpay, configOf_dumps hjson hne] at hcf
    cases hcf

omit [LinearOrder ι] in
theorem applies_machine {x : Entry} {m : Option σ} (ha : Applies self n x m) (hm : n.machine ≠ none) :
    m ≠ none := by
  rcases ha with rfl | ⟨sm, s, -, -, rfl, -⟩
  · exact hm
  · simp

/-- **Every small step of a legible call keeps the correspondence.** -/
theorem configured_micro (hjson : self.json.Faithful) (hm : Micro self n₀ k (n, h) (n', h'))
    (hk : self.legible H n₀ k = true) (hc : Configured self.toParams H self.id n h)
    (hH : Replicates H h') : Configured self.toParams H self.id n' h' := by
  have hh : h <+: h' := (micro_own hm).isPrefix
  cases hm with
  | append _ _ payload hr hp =>
    exact hc.relog hh hc.machine ⟨rfl, rfl, rfl, rfl⟩ fun _ hcont x hx _ =>
      ⟨(hcont.appendEntry _ _).1, RaftLog.get_appendEntry hx⟩
  | reconfig _ _ _ newServers hr hch hn h0 =>
    subst hn h0
    have hready : n.log.Contiguous ∧ n.appliedIndex ≤ n.log.lastIndex := by
      rcases hch.2 with ⟨x, rfl, -⟩ | ⟨x, rfl, -⟩
      · exact of_decide_eq_true hk ⟨hr, hch.1⟩
      · exact of_decide_eq_true hk ⟨hr, hch.1⟩
    obtain ⟨hcont, hget⟩ := hready.1.appendEntry n.currentTerm
      (cfgTag ++ self.json.dumps (sortedIds newServers))
    refine ⟨hc.machine, fun ho => by simp [Self.joint] at ho, fun old ho => ?_⟩
    obtain rfl : n.config = old := Option.some.inj ho
    exact ⟨n.currentTerm, newServers, List.mem_append_right _ (by simp [Self.joint]),
      change_nonempty hch, hcont, Nat.lt_succ_of_le hready.2, _, hget, rfl⟩
  | apply _ _ x machine hlt hx hcf hap =>
    have hHx : H (n.appliedIndex + 1) = some x := hH self.id _ _ (by simp [Applied])
    refine ⟨applies_machine hap hc.machine, fun ho => ?_, fun old ho => ?_⟩
    · rw [configAt_succ hHx, hcf]
      exact hc.config ho
    · obtain ⟨t, new, hre, hp⟩ := hc.joint old ho
      exact ⟨t, new, hh.subset hre, hp.1, hp.2.1, hp.below hjson hx hcf, hp.2.2.2⟩
  | adopt _ _ _ x servers hlt hx hcf hr hn =>
    subst hn
    have hHx : H (n.appliedIndex + 1) = some x := hH self.id _ _ (by simp [Applied])
    refine ⟨hc.machine, fun _ => ?_, fun old ho => by cases ho⟩
    rw [configAt_succ hHx, hcf]
    rfl
  | applyRaise _ _ x sm s hlt hx hsm hs hf =>
    exact hc.relog hh (by simp) ⟨rfl, rfl, rfl, rfl⟩ fun _ hcont x hx _ => ⟨hcont, hx⟩
  | skipHole _ _ hlt hx hmach => exact absurd hmach hc.machine
  | merge _ _ l pi pt es ci r hk' hr hlog hci hle hj hr' =>
    subst hr'
    refine hc.relog hh hc.machine ⟨rfl, rfl, rfl, rfl⟩ fun ho hcont x hx _ => ?_
    cases hok : (n.log.merge pi pt es).ok with
    | false =>
      rw [RaftLog.merge_fails hok]
      exact ⟨hcont, hx⟩
    | true =>
      rw [hk'] at hk
      have hspared : n₀.Spared pi es :=
        of_decide_eq_true hk ⟨hj.1 ▸ ho, hle, hlog ▸ (RaftLog.merge_ok hok).2.1⟩
      unfold Node.Spared at hspared
      rw [← hlog, ← hj.2] at hspared
      obtain ⟨hcont', -, hget⟩ := RaftLog.merge_contiguous hcont hspared.1 hok
      refine ⟨hcont', hget _ x hx fun q z hz hqj => hspared.2 (z, pi + 1 + q) ?_ hqj⟩
      exact List.mk_add_mem_zipIdx_iff_getElem?.mpr hz
  | compact _ _ s l hk' hs hcomp =>
    obtain ⟨hfirst, rfl⟩ := RaftLog.compact_eq hcomp
    refine hc.relog hh hc.machine ⟨rfl, rfl, rfl, rfl⟩ fun _ hcont x hx hlt => ?_
    rw [← snapshotOf_index hs] at hlt
    exact hcont.cut hfirst hx hlt _
  | install _ _ l s lg m hk' hr hlog hle ha hm hl hj =>
    subst hl hk'
    refine hc.relog hh ?_ ⟨rfl, rfl, rfl, rfl⟩ fun ho hcont x hx hlt => ?_
    · rw [hm]
      split
      · simp
      · exact hc.machine
    · have hlast := (of_decide_eq_true hk hle).1 (hj.1 ▸ ho)
      rw [← hj.2] at hlast
      refine hcont.cut ?_ hx hlast _
      have hnot := of_decide_eq_false ha
      rw [hcont.1]
      omega
  | installIndex _ _ l s b hk' hr hle ha hal hj =>
    subst hk' hal
    have hleg := of_decide_eq_true hk hle
    refine ⟨hc.machine, fun ho => ?_, fun old ho => ?_⟩
    · cases hal : alreadyHave n₀ s with
      | true => exact hc.config ho
      | false =>
        refine (hc.config ho).trans (configAt_skip (le_max_left _ _) fun index hi hlt => ?_).symm
        exact hleg.2 hal index (by omega) (by omega)
    · obtain ⟨t, new, hre, hne, hcont, hlt, hx⟩ := hc.joint old ho
      refine ⟨t, new, hh.subset hre, hne, hcont, ?_, hx⟩
      have hlast := hleg.1 (by rw [← hj.1, show n.oldConfig = some old from ho]; simp)
      rw [← hj.2] at hlast
      show (if alreadyHave n₀ s = true then n.appliedIndex else max n.appliedIndex s.lastIncludedIndex) <
        n.jointIndex
      split_ifs
      · exact hlt
      · exact max_lt hlt hlast
  | campaign _ _ _ d hr h0 hel hn =>
    subst hn
    exact hc.relog hh hc.machine ⟨rfl, rfl, rfl, rfl⟩ fun _ hcont x hx _ => ⟨hcont, hx⟩
  | win _ _ _ hr hq hn =>
    subst hn
    exact hc.relog hh hc.machine ⟨rfl, rfl, rfl, rfl⟩ fun _ hcont x hx _ => ⟨hcont, hx⟩
  | _ => exact hc.relog hh hc.machine ⟨rfl, rfl, rfl, rfl⟩ fun _ hcont x hx _ => ⟨hcont, hx⟩

/-! ### Runs -/

theorem boot_machine (hsm : P.stateMachine ≠ none) (now draw : ℚ) (d : Durable ι δ) :
    (P.boot i now draw d).machine ≠ none := by
  obtain ⟨sm, hsm⟩ := Option.ne_none_iff_exists'.mp hsm
  unfold Params.boot
  dsimp only
  rw [hsm]
  split_ifs
  · unfold Params.loadSnapshotFile
    split
    · simp
    · simp
  · simp

/-- A restart has applied what its newest snapshot file covers. -/
theorem boot_applied (now draw : ℚ) (d : Durable ι δ) : (P.boot i now draw d).appliedIndex = 0 ∨
    P.snapshotDir = true ∧ ∃ s ∈ latestFile d.snapshotFiles,
      (P.boot i now draw d).appliedIndex = s.lastIncludedIndex := by
  unfold Params.boot
  dsimp only
  split_ifs with hd
  · unfold Params.loadSnapshotFile
    split
    · rename_i sm s hsm hs
      exact .inr ⟨hd, s, hs, Nat.zero_max _⟩
    · exact .inl rfl
  · exact .inl rfl

theorem configured_boot (hsm : P.stateMachine ≠ none) (now draw : ℚ) (d : Durable ι δ)
    (hno : P.snapshotDir = true → ∀ s ∈ latestFile d.snapshotFiles,
      ∀ index ≤ s.lastIncludedIndex, P.changeOf H index = none) :
    Configured P H i (P.boot i now draw d) h := by
  have happ := boot_applied (P := P) (i := i) now draw d
  obtain ⟨l, ci, ai, m, s, hb, -⟩ := boot_eq P i now draw d
  refine ⟨boot_machine hsm now draw d, fun _ => ?_, fun old ho => ?_⟩
  · have hskip : P.configAt i H (P.boot i now draw d).appliedIndex = P.configAt i H 0 := by
      rcases happ with happ | ⟨hd, s, hs, happ⟩
      · rw [happ]
      · rw [happ]
        exact configAt_skip (Nat.zero_le _) fun index hi _ => hno hd s hs index hi
    rw [hskip, hb]
    rfl
  · rw [hb] at ho
    cases ho

theorem configured_reach (hsm : ∀ j ∈ S.servers, (S.params j).stateMachine ≠ none)
    (hjson : ∀ j ∈ S.servers, (S.params j).json.Faithful)
    (hr : Reach S.step (fun c e => S.Enabled c e ∧ S.Legible H c e) S.init c) :
    ∀ j ∈ S.servers, Replicates H c.history → Configured (S.params j) H j (c.node j) c.history := by
  refine (hr.inv (fun c => VotesKept c ∧ ∀ j ∈ S.servers, Replicates H c.history →
    Configured (S.params j) H j (c.node j) c.history) ⟨votesKept_init, fun j hj _ => ?_⟩ ?_).2
  · exact configured_boot (hsm j hj) 0 0 {} fun _ s hs => by cases hs
  rintro c e - ⟨hv, hI⟩ ⟨he, hw, hk, hboot⟩
  refine ⟨votesKept_step hv he, ?_⟩
  refine whole_step (fun c => ∀ j ∈ S.servers, Replicates H c.history →
    Configured (S.params j) H j (c.node j) c.history) hw (hv.2 e.node).calm hI ?_ ?_
  · rintro k hmade ⟨n, h⟩ ⟨n', h'⟩ hm - hI j hj hH
    have hh : h <+: h' := (micro_own hm).isPrefix
    have hc := hI j hj fun i index x hx => hH i index x (hh.subset hx)
    by_cases hje : j = e.node
    · subst hje
      rw [Cluster.at_node_self] at hc ⊢
      exact configured_micro (hjson _ hj) hm (hk k hmade) hc hH
    · rw [Cluster.at_node_of_ne hje] at hc ⊢
      exact hc.grow hh
  · intro hnone j hj hH
    by_cases hje : j = e.node
    · subst hje
      rw [Cluster.at_node_self]
      exact configured_boot (hsm _ hj) _ _ _ (hboot hnone)
    · rw [Cluster.at_node_of_ne hje]
      exact hI j hj hH

/-- **The configuration of a node follows its log**, in runs of legible steps: outside a joint phase
it is the one of the last config entry applied, and a joint phase of a node that applied all it
committed is the one of an uncommitted config entry in its log. -/
theorem config_follows_log (hsm : ∀ j ∈ S.servers, (S.params j).stateMachine ≠ none)
    (hjson : ∀ j ∈ S.servers, (S.params j).json.Faithful)
    (hr : Reach S.step (fun c e => S.Enabled c e ∧ S.Legible H c e) S.init c)
    (hH : Replicates H c.history) (hi : i ∈ S.servers) :
    ((c.node i).oldConfig = none →
      (c.node i).config = (S.params i).configAt i H (c.node i).appliedIndex) ∧
    ∀ old, (c.node i).oldConfig = some old → (c.node i).appliedIndex = (c.node i).commitIndex →
      ∃ t new x, Reconfigured c.history i t (c.node i).jointIndex old new ∧
        (c.node i).log.get (c.node i).jointIndex = some x ∧
        x.payload = cfgTag ++ (S.params i).json.dumps (sortedIds new) ∧
        (c.node i).commitIndex < (c.node i).jointIndex := by
  have hc := configured_reach hsm hjson hr i hi hH
  refine ⟨hc.config, fun old ho happ => ?_⟩
  obtain ⟨t, new, hre, -, -, hlt, x, hx, hpay⟩ := hc.joint old ho
  exact ⟨t, new, x, hre, hx, hpay, happ ▸ hlt⟩

theorem config_follows_log_removal :
    let c := (lab 3 false 256).replay (removal 1)
    let H : ℕ → Option Entry := fun index =>
      if index = 1 then some ⟨1, 1, noop⟩
      else if index = 2 then some ⟨2, 1, cfgTag ++ letters.dumps [0, 1]⟩ else none
    (c.node 0).oldConfig = none ∧ (c.node 0).appliedIndex = 2 ∧
      (c.node 0).config = ((lab 3 false 256).params 0).configAt 0 H 2 := by
  intro c H
  have ho : (c.node 0).oldConfig = none := by decide +kernel
  have ha : (c.node 0).appliedIndex = 2 := by decide +kernel
  have key := config_follows_log (S := lab 3 false 256) (H := H) (i := 0) (fun _ _ => by simp [lab])
    (fun _ _ => letters_loads) (reach_replay (removal 1) (by decide +kernel)) (by decide +kernel)
    (by decide)
  exact ⟨ho, ha, ha ▸ key.1 ho⟩

/-- Server 0 leads term 1 and proposes to remove server 2; server 1 leads term 2 and replaces the log
of server 0. -/
def cutChange : List (Event ℕ Unit) :=
  [callAt 1000 0 .tick, callAt 1001 1 (.handle (.vote 1 0 0 0)),
   callAt 1002 0 (.handle (.voteResp 1 1 true)), callAt 1003 0 (.proposeRemoveServer 2),
   callAt 2000 1 .tick, callAt 2001 2 (.handle (.vote 2 1 0 0)),
   callAt 2002 1 (.handle (.voteResp 2 2 true)),
   callAt 2003 0 (.handle (.append 2 1 0 0 [⟨1, 2, noop⟩] 0))]

/-- Server 0 stays in the joint phase of a config entry that its log no longer holds. -/
theorem joint_phase_outlives_entry :
    ∃ c, Reach (lab 3 false 256).step (lab 3 false 256).Enabled (lab 3 false 256).init c ∧
      (c.node 0).oldConfig = some {0, 1, 2} ∧ (c.node 0).appliedIndex = (c.node 0).commitIndex ∧
      ∀ x ∈ (c.node 0).log.entries, isCfg x.payload = false :=
  ⟨(lab 3 false 256).replay cutChange, reach_replay cutChange (by decide +kernel), by decide +kernel,
    by decide +kernel, by decide +kernel⟩

end Pylog.Raft
