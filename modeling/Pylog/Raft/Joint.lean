import Pylog.Raft.Logs

/-!
# Pylog.Raft.Joint — the majorities of a membership change

During the joint phase `config` is `C_old ∪ C_new`, so `_advance_commit` asks for a majority of
`C_old` and of the union.  A change that adds a server has `C_old ∪ C_new = C_new`.  For one that
removes a server the union is `C_old`, and the majority of `C_new` is left to chance: it is missing
exactly when `C_old` is odd and a bare majority of it, the removed server included, holds the entry.
-/

namespace Pylog.Raft

open Effect Transition Trace

variable {ι σ δ : Type} [LinearOrder ι] {S : Setup ι σ δ} {c : Cluster ι σ δ} {e : Event ι δ}
  {i : ι} {n n' n₀ : Node ι σ δ} {h h' : History ι σ δ} {self : Self ι σ δ} {k : Call ι δ}
  {C old new : Finset ι} {index m : ℕ}

/-- The leader `i` counts `p` as holding the entry at `index`: itself, and what it matched. -/
def Node.counts (i : ι) (n : Node ι σ δ) (index : ℕ) (p : ι) : Bool :=
  decide (p = i) || n.holds index p

/-- The nodes counted as holding the entry include a majority of `C`. -/
def Node.HeldBy (i : ι) (n : Node ι σ δ) (index : ℕ) (C : Finset ι) : Prop :=
  C.card / 2 + 1 ≤ (C.filter (n.counts i index ·)).card

instance : Decidable (n.HeldBy i index C) := inferInstanceAs (Decidable (_ ≤ _))

/-- A server is removed from an odd `C_old` of which a bare majority, the removed server included,
holds the entry. -/
def Node.BareRemoval (i : ι) (n : Node ι σ δ) (index : ℕ) (old new : Finset ι) : Prop :=
  ∃ x ∈ old, new = old \ {x} ∧ n.holds index x = true ∧ old.card % 2 = 1 ∧
    (old.filter (n.counts i index ·)).card = old.card / 2 + 1

instance : Decidable (n.BareRemoval i index old new) :=
  inferInstanceAs (Decidable (∃ x ∈ old, _ ∧ _ ∧ _ ∧ _))

/-- Node `i` as leader of term `t` proposed the change from `old` to `new`, with its config entry at
`index`. -/
def Reconfigured (h : History ι σ δ) (i : ι) (t index : ℕ) (old new : Finset ι) : Prop :=
  (i, .reconfig t index old new) ∈ h

instance (h : History ι σ δ) (i : ι) (t index : ℕ) (old new : Finset ι) :
    Decidable (Reconfigured h i t index old new) :=
  decidable_of_iff (h.any fun o => match o.2 with
    | .reconfig t' m o' n' => decide (o.1 = i ∧ t' = t ∧ m = index ∧ o' = old ∧ n' = new)
    | _ => false) <| by
    rw [List.any_eq_true]
    constructor
    · rintro ⟨⟨j, o⟩, ho, hm⟩
      cases o with
      | reconfig t' m o' n' =>
        obtain ⟨rfl, rfl, rfl, rfl, rfl⟩ := of_decide_eq_true hm
        exact ho
      | _ => cases hm
    · intro hx
      exact ⟨_, hx, decide_eq_true ⟨rfl, rfl, rfl, rfl, rfl⟩⟩

/-! ### Counting -/

omit [LinearOrder ι] in
theorem holds_mono {p : ι} (hm : index ≤ m) (hh : n.holds m p = true) : n.holds index p = true := by
  unfold Node.holds at hh ⊢
  split at hh
  · exact decide_eq_true (hm.trans (of_decide_eq_true hh))
  · cases hh

/-- What `_advance_commit` counts, itself and its peers, holds the entry. -/
theorem heldBy_of_count (hself : n.matchIndex i = none) (hi : i ∈ C) (hm : index ≤ m)
    (hc : C.card / 2 + 1 ≤ 1 + (C.filter (n.holds m ·)).card) : n.HeldBy i index C := by
  have hnot : i ∉ C.filter (n.holds m ·) := by
    rw [Finset.mem_filter]
    simp [Node.holds, hself]
  have hsub : insert i (C.filter (n.holds m ·)) ⊆ C.filter (n.counts i index ·) := by
    intro p hp
    rw [Finset.mem_filter]
    rcases Finset.mem_insert.mp hp with rfl | hp
    · exact ⟨hi, by simp [Node.counts]⟩
    · obtain ⟨hpC, hh⟩ := Finset.mem_filter.mp hp
      exact ⟨hpC, by simp [Node.counts, holds_mono hm hh]⟩
  have hcard := Finset.card_le_card hsub
  rw [Finset.card_insert_of_notMem hnot] at hcard
  unfold Node.HeldBy
  omega

/-- The count of `C_new` when a server other than the leader is removed. -/
theorem count_removed (n : Node ι σ δ) (index : ℕ) {x : ι} (hx : x ∈ old) (hxi : x ≠ i) :
    ((old \ {x}).filter (n.counts i index ·)).card + (if n.holds index x = true then 1 else 0) =
      (old.filter (n.counts i index ·)).card := by
  have heq : (old \ {x}).filter (n.counts i index ·) = (old.filter (n.counts i index ·)).erase x := by
    ext p
    simp only [Finset.mem_filter, Finset.mem_sdiff, Finset.mem_singleton, Finset.mem_erase]
    tauto
  have hcx : n.counts i index x = n.holds index x := by simp [Node.counts, hxi]
  rw [heq]
  split_ifs with hh
  · have hmem : x ∈ old.filter (n.counts i index ·) := Finset.mem_filter.mpr ⟨hx, hcx.trans hh⟩
    rw [Finset.card_erase_of_mem hmem]
    have := Finset.card_pos.mpr ⟨x, hmem⟩
    omega
  · rw [Finset.erase_eq_of_notMem]
    · rfl
    · rw [Finset.mem_filter, hcx]
      exact fun hmem => hh hmem.2

/-- The majority of `C_new` after a removal. -/
theorem heldBy_removed {x : ι} (hx : x ∈ old) (hxi : x ≠ i) (hold : n.HeldBy i index old) :
    n.HeldBy i index (old \ {x}) ↔ ¬n.BareRemoval i index old (old \ {x}) := by
  have hcount := count_removed n index hx hxi
  have hcard : (old \ {x}).card + 1 = old.card := by
    rw [Finset.sdiff_singleton_eq_erase, Finset.card_erase_add_one hx]
  unfold Node.HeldBy at hold ⊢
  constructor
  · rintro hnew ⟨y, hy, heq, hh, hodd, hbare⟩
    obtain rfl : x = y := by
      by_contra hne
      have : y ∈ old \ {x} := Finset.mem_sdiff.mpr ⟨hy, by simpa using Ne.symm hne⟩
      rw [heq] at this
      simp at this
    rw [if_pos hh] at hcount
    omega
  · intro hno
    by_cases hh : n.holds index x = true
    · rw [if_pos hh] at hcount
      by_contra hlt
      exact hno ⟨x, hx, rfl, hh, by omega, by omega⟩
    · rw [if_neg hh] at hcount
      omega

/-! ### What the leader records -/

/-- The change of a `reconfig`, and what a commit rested on. -/
def Recorded (_ : History ι σ δ) : ι × Out ι σ δ → Prop
  | (i, .reconfig _ _ old new) => ∃ x, x ∉ old ∧ new = old ∪ {x} ∨ x ∈ old ∧ x ≠ i ∧ new = old \ {x}
  | (i, .commit m n) => n.matchIndex i = none ∧ n.canCommit i m = true
  | _ => True

/-- A node does not track itself. -/
def Untracked (i : ι) (n : Node ι σ δ) (_ : History ι σ δ) : Prop := n.matchIndex i = none ∧ i ∉ n.peers

theorem mem_sortedIds {s : Finset ι} {p : ι} : p ∈ sortedIds s ↔ p ∈ s := by
  obtain ⟨⟨l⟩, hl⟩ := s
  exact (List.perm_insertionSort (· ≤ ·) l).mem_iff

theorem recorded_micro (hm : Micro self n₀ k (n, h) (n', h')) (hc : Causal Recorded h)
    (hn : Untracked self.id n h) : Causal Recorded h' ∧ Untracked self.id n' h' := by
  have hone : ∀ (n' : Node ι σ δ) o, Untracked self.id n' h → Recorded h (self.id, o) →
      Causal Recorded (h ++ [(self.id, o)]) ∧ Untracked self.id n' (h ++ [(self.id, o)]) :=
    fun n' o hn' ho => ⟨causal_concat.mpr ⟨hc, ho⟩, hn'⟩
  cases hm with
  | win _ _ _ hr hq hn' =>
    subst hn'
    exact hone _ _ ⟨if_neg hn.2, hn.2⟩ trivial
  | reconfig _ _ _ newServers hr hch hn' =>
    subst hn'
    refine ⟨causal_concat₂.mpr ⟨hc, ?_, trivial⟩, ?_, ?_⟩
    · rcases hch.2 with ⟨x, -, hx, hx'⟩ | ⟨x, -, hx, hxi, -, hx'⟩
      · exact ⟨x, .inl ⟨hx, hx'⟩⟩
      · exact ⟨x, .inr ⟨hx, hxi, hx'⟩⟩
    · simpa [Self.joint] using hn.1
    · simp [Self.joint, mem_sortedIds]
  | commit _ _ index hr hci => exact hone _ _ hn ⟨hn.1, (List.find?_some hci)⟩
  | adopt _ _ _ x servers hlt hx hcf hr hn' =>
    subst hn'
    refine hone _ _ ⟨?_, ?_⟩ trivial
    · simp only [Node.adoptConfig]
      split_ifs <;> simp_all [Untracked]
    · simp [Node.adoptConfig, mem_sortedIds]
  | matched _ _ p matchIndex mi cf hk hr hmi =>
    refine ⟨hc, ?_, hn.2⟩
    have hne : self.id ≠ p := by
      rintro rfl
      rw [hn.1] at hmi
      cases hmi
    exact (Function.update_of_ne hne ..).trans hn.1
  | campaign _ _ _ d hr h0 hel hn' =>
    subst hn'
    exact ⟨causal_concat₃.mpr ⟨hc, trivial, trivial, trivial⟩, hn⟩
  | merge _ _ x pi pt es ci r hk' hr hlog hci hle hj hr' =>
    refine ⟨?_, hn⟩
    split_ifs
    · exact causal_concat₂.mpr ⟨hc, trivial, trivial⟩
    · exact causal_concat.mpr ⟨hc, trivial⟩
  | _ =>
    first
    | exact ⟨hc, hn⟩
    | exact hone _ _ hn trivial
    | exact ⟨causal_concat₂.mpr ⟨hc, trivial, trivial⟩, hn⟩
    | exact ⟨causal_concat₃.mpr ⟨hc, trivial, trivial, trivial⟩, hn⟩

theorem untracked_boot (P : Params ι σ δ) (i : ι) (now draw : ℚ) (d : Durable ι δ) :
    Untracked i (P.boot i now draw d) h := by
  obtain ⟨l, ci, ai, m, s, hb, -⟩ := boot_eq P i now draw d
  rw [hb]
  exact ⟨rfl, by simp⟩

theorem recorded_reach (hr : Reach S.step S.Enabled S.init c) : Local Recorded Untracked c := by
  refine (hr.inv (fun c => VotesKept c ∧ Local Recorded Untracked c)
    ⟨votesKept_init, causal_nil, fun _ => untracked_boot _ _ _ _ _⟩ ?_).2
  rintro c e - ⟨hv, hI⟩ he
  refine ⟨votesKept_step hv he, local_step (hv.2 e.node).calm ?_ ?_ ?_ hI⟩
  · exact fun i n h h' _ _ hn => hn
  · exact fun k _ p q hm _ hc hn => recorded_micro hm hc hn
  · exact fun out _ _ _ => untracked_boot _ _ _ _ _

/-! ### Both majorities -/

/-- **Joint consensus**, for a leader of `C_old` that is still in the joint phase of its change when it
commits past the config entry: the nodes it counts as holding the entry include a majority of
`C_old` and of `C_new` unless a bare majority of an odd `C_old` holds it with the removed server. -/
theorem joint_both_majorities (hr : Reach S.step S.Enabled S.init c) {t : ℕ}
    (hre : Reconfigured c.history i t index old new) (hco : (i, .commit m n) ∈ c.history)
    (hm : index ≤ m) (hphase : n.oldConfig = some old ∧ n.config = old ∪ new) (hi : i ∈ old) :
    n.HeldBy i index old ∧ n.HeldBy i index new ↔ ¬n.BareRemoval i index old new := by
  have hI := (recorded_reach hr).1
  obtain ⟨-, -, -, x, hx⟩ := hI.mem hre
  obtain ⟨-, -, -, hself, hcan⟩ := hI.mem hco
  unfold Node.canCommit at hcan
  rw [hphase.1, hphase.2, Bool.and_eq_true] at hcan
  have hcount := of_decide_eq_true hcan.2
  rw [if_pos hi] at hcount
  have hold : n.HeldBy i index old := heldBy_of_count hself hi hm hcount.1
  rcases hx with ⟨hx, rfl⟩ | ⟨hx, hxi, rfl⟩
  · -- an added server: the union is `C_new`
    have hunion : old ∪ (old ∪ {x}) = old ∪ {x} := by rw [← Finset.union_assoc, Finset.union_self]
    rw [hunion] at hcount
    have hnew := heldBy_of_count hself (Finset.mem_union_left _ hi) hm hcount.2
    refine ⟨fun _ => ?_, fun _ => ⟨hold, hnew⟩⟩
    rintro ⟨y, hy, heq, -⟩
    have : y ∈ old \ {y} := heq ▸ Finset.mem_union_left _ hy
    simp at this
  · exact ⟨fun hb => (heldBy_removed hx hxi hold).mp hb.2,
      fun hno => ⟨hold, (heldBy_removed hx hxi hold).mpr hno⟩⟩

/-- Server 0 leads term 1, removes server 2 and gets the acknowledgement of server `acker`. -/
def removal (acker : ℕ) : List (Event ℕ Unit) :=
  let e1 : Entry := ⟨1, 1, noop⟩
  let e2 : Entry := ⟨2, 1, cfgTag ++ letters.dumps [0, 1]⟩
  [callAt 1000 0 .tick, callAt 1001 1 (.handle (.vote 1 0 0 0)),
   callAt 1002 0 (.handle (.voteResp 1 1 true)), callAt 1003 0 (.proposeRemoveServer 2),
   callAt 1004 acker (.handle (.append 1 0 0 0 [e1, e2] 0)),
   callAt 1005 0 (.handle (.appendResp 1 acker true 2 (some 0)))]

theorem joint_both_majorities_removal :
    let c := (lab 3 false 256).replay (removal 1)
    ∃ n, (0, .commit 2 n) ∈ c.history ∧ n.HeldBy 0 2 {0, 1, 2} ∧ n.HeldBy 0 2 {0, 1} := by
  intro c
  have hr : Reach (lab 3 false 256).step (lab 3 false 256).Enabled (lab 3 false 256).init c :=
    reach_replay (removal 1) (by decide +kernel)
  have hre : Reconfigured c.history 0 1 2 {0, 1, 2} {0, 1} := by decide +kernel
  obtain ⟨n, hn, hphase, hno⟩ : ∃ n, (0, .commit 2 n) ∈ c.history ∧
      (n.oldConfig = some {0, 1, 2} ∧ n.config = {0, 1, 2} ∪ {0, 1}) ∧
      ¬n.BareRemoval 0 2 {0, 1, 2} {0, 1} := by decide +kernel
  exact ⟨n, hn, (joint_both_majorities hr hre hn le_rfl hphase (by decide)).mpr hno⟩

/-- The removed server's acknowledgement is enough: servers 0 and 2 are no majority of `{0, 1}`. -/
theorem joint_majority_missed :
    ∃ c, Reach (lab 3 false 256).step (lab 3 false 256).Enabled (lab 3 false 256).init c ∧
      Reconfigured c.history 0 1 2 {0, 1, 2} {0, 1} ∧
      ∃ n, (0, .commit 2 n) ∈ c.history ∧ n.commitIndex < 2 ∧ n.currentTerm = 1 ∧
        ¬n.HeldBy 0 2 {0, 1} :=
  ⟨(lab 3 false 256).replay (removal 2), reach_replay (removal 2) (by decide +kernel),
    by decide +kernel, by decide +kernel⟩

end Pylog.Raft
