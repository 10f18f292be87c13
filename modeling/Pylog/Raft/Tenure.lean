import Pylog.Raft.LogFacts
import Pylog.Raft.Votes

/-!
# Pylog.Raft.Tenure — a leader in its term

In every mode (pre-vote on or off, membership changes, transfers, snapshots, crashes after any
effect): the terms in which a node takes office increase, and as long as it holds office its log only
grows at the end, less what its own snapshots compact away (`leader_only_appends`).
-/

namespace Pylog.Raft

open Effect Effect.Handler Transition Trace

variable {ι σ δ : Type} [LinearOrder ι] {S : Setup ι σ δ} {c c' : Cluster ι σ δ} {e : Event ι δ}
  {i : ι} {n n' n₀ : Node ι σ δ} {h h' : History ι σ δ} {self : Self ι σ δ} {k : Call ι δ}

/-! ### The invariant -/

/-- A node takes office in a term it saved, after all it took office in before. -/
def Inaugurated (h : History ι σ δ) : ι × Out ι σ δ → Prop
  | (i, .lead n) => (i, .replace n.currentTerm (some i)) ∈ h ∧
      ∀ n', (i, .lead n') ∈ h → n'.currentTerm < n.currentTerm
  | _ => True

/-- The terms in which the node took office; a candidate has yet to take it in its own. -/
def PastTerms (i : ι) (n : Node ι σ δ) (h : History ι σ δ) : Prop :=
  ∀ n', (i, .lead n') ∈ h →
    n'.currentTerm ≤ n.currentTerm ∧ (n.role = .candidate → n'.currentTerm < n.currentTerm)

/-- The entries from an index on. -/
def entriesAbove (first : ℕ) (l : List Entry) : List Entry := l.filter fun x => first ≤ x.index

/-- The node is past term `t`, or a follower in it, or leads it on a log that extends `l`, but for
what was compacted. -/
def Tenure (t : ℕ) (l : List Entry) (n : Node ι σ δ) : Prop :=
  t < n.currentTerm ∨ n.currentTerm = t ∧ (n.role = .follower ∨ n.role = .leader ∧
    entriesAbove n.log.firstIndex l <+: entriesAbove n.log.firstIndex n.log.entries)

theorem entriesAbove_above {first m : ℕ} (h : first ≤ m) (l : List Entry) :
    entriesAbove m (entriesAbove first l) = entriesAbove m l := by
  unfold entriesAbove
  rw [List.filter_filter]
  refine List.filter_congr fun x _ => ?_
  rw [← Bool.decide_and]
  exact decide_eq_decide.mpr ⟨fun hx => hx.1, fun hx => ⟨hx, h.trans hx⟩⟩

omit [LinearOrder ι] in
theorem PastTerms.mono {out : History ι σ δ} (hp : PastTerms i n h)
    (hout : ∀ n', (i, .lead n') ∉ out) : PastTerms i n (h ++ out) := by
  intro n' hn'
  rcases List.mem_append.mp hn' with hn' | hn'
  · exact hp n' hn'
  · exact absurd hn' (hout n')

omit [LinearOrder ι] in
/-- The term of a node whose role is no candidate's can go up. -/
theorem PastTerms.raise (hp : PastTerms i n h) (ht : n.currentTerm ≤ n'.currentTerm)
    (hr : n'.role = .candidate → n.currentTerm < n'.currentTerm) : PastTerms i n' h := by
  intro m hm
  obtain ⟨hle, -⟩ := hp m hm
  exact ⟨hle.trans ht, fun hc => hle.trans_lt (hr hc)⟩

omit [LinearOrder ι] in
theorem Tenure.later {t : ℕ} {l : List Entry} (hn : Tenure t l n) (ht : n.currentTerm < n'.currentTerm) :
    Tenure t l n' := by
  rcases hn with hlt | ⟨rfl, -⟩
  · exact .inl (hlt.trans ht)
  · exact .inl ht

omit [LinearOrder ι] in
/-- A step that leaves seat and log alone. -/
theorem Tenure.same {t : ℕ} {l : List Entry} (hn : Tenure t l n) (ht : n'.currentTerm = n.currentTerm)
    (hr : n'.role = n.role) (hlog : n'.log = n.log) : Tenure t l n' := by
  unfold Tenure at hn ⊢
  rwa [ht, hr, hlog]

omit [LinearOrder ι] in
/-- A follower of a term is none of its leaders any more. -/
theorem Tenure.retire {t : ℕ} {l : List Entry} (hn : Tenure t l n)
    (ht : n.currentTerm ≤ n'.currentTerm) (hr : n'.role = .follower) : Tenure t l n' := by
  rcases hn with hlt | ⟨rfl, -⟩
  · exact .inl (hlt.trans_le ht)
  · rcases ht.lt_or_eq with hlt | heq
    · exact .inl hlt
    · exact .inr ⟨heq.symm, .inl hr⟩

omit [LinearOrder ι] in
/-- A leader adds an entry. -/
theorem Tenure.append {t : ℕ} {l : List Entry} (hn : Tenure t l n) (ht : n'.currentTerm = n.currentTerm)
    (hr : n'.role = n.role) (hf : n'.log.firstIndex = n.log.firstIndex)
    (hlog : n.log.entries <+: n'.log.entries) : Tenure t l n' := by
  rcases hn with hlt | ⟨heq, hr' | ⟨hr', hp⟩⟩
  · exact .inl (ht ▸ hlt)
  · exact .inr ⟨ht.trans heq, .inl (hr.trans hr')⟩
  · refine .inr ⟨ht.trans heq, .inr ⟨hr.trans hr', ?_⟩⟩
    rw [hf]
    exact hp.trans (hlog.filter _)

omit [LinearOrder ι] in
/-- A leader compacts its log. -/
theorem Tenure.compact {t m : ℕ} {tm : ℤ} {l : List Entry} {l' : RaftLog} (hn : Tenure t l n)
    (hc : n.log.compact m tm = some l') : Tenure t l { n with log := l' } := by
  obtain ⟨hle, rfl⟩ := RaftLog.compact_eq hc
  rcases hn with hlt | ⟨heq, hr | ⟨hr, hp⟩⟩
  · exact .inl hlt
  · exact .inr ⟨heq, .inl hr⟩
  · refine .inr ⟨heq, .inr ⟨hr, ?_⟩⟩
    show entriesAbove (m + 1) l <+: entriesAbove (m + 1) (entriesAbove (m + 1) n.log.entries)
    rw [entriesAbove_above le_rfl, ← entriesAbove_above hle, ← entriesAbove_above hle n.log.entries]
    exact hp.filter _

/-! ### Small steps -/

/-- **Small steps take office in later terms only.** -/
theorem micro_inaugurated (hm : Micro self n₀ k (n, h) (n', h')) (hj : Causal Justified h)
    (hv : Voter self.id n h) (hc : Causal Inaugurated h) (hp : PastTerms self.id n h) :
    Causal Inaugurated h' ∧ PastTerms self.id n' h' := by
  -- effects that are no inauguration
  have hother : ∀ out : History ι σ δ, (∀ o ∈ out, ∀ m, o.2 ≠ .lead m) →
      n.currentTerm ≤ n'.currentTerm → (n'.role = .candidate → n.role = .candidate ∨
        n.currentTerm < n'.currentTerm) → h' = h ++ out →
      Causal Inaugurated h' ∧ PastTerms self.id n' h' := by
    rintro out hout ht hr rfl
    refine ⟨hc.extend fun o ho h'' _ => ?_, PastTerms.mono (fun m hm' => ?_) fun m hm' => hout _ hm' m rfl⟩
    · obtain ⟨j, o⟩ := o
      cases o with
      | lead m => exact absurd rfl (hout _ ho m)
      | _ => trivial
    · obtain ⟨hle, hlt⟩ := hp m hm'
      refine ⟨hle.trans ht, fun hr' => ?_⟩
      rcases hr hr' with hr | hr
      · exact (hlt hr).trans_le ht
      · exact hle.trans_lt hr
  cases hm with
  | win _ _ _ hr hq he =>
    subst he
    have hpast : ∀ m, (self.id, Out.lead m) ∈ h → m.currentTerm < n.currentTerm :=
      fun m hm' => (hp m hm').2 hr
    obtain ⟨nc, hnc, hs⟩ := hv.ran hr
    have hsaved : (self.id, Out.replace n.currentTerm (some self.id)) ∈ h := by
      rw [hs.1]
      exact campaign_saved hj hnc
    refine ⟨causal_concat.mpr ⟨hc, hsaved, hpast⟩, fun m hm' => ⟨?_, fun hr' => by cases hr'⟩⟩
    rcases List.mem_append.mp hm' with hm' | hm'
    · exact (hpast m hm').le
    · obtain rfl := Out.lead.inj (Prod.mk.inj (List.mem_singleton.mp hm')).2
      exact le_rfl
  | raise _ _ t _ ht =>
    exact hother _ (by simp) ht.le (fun hr => by cases hr) rfl
  | retreat =>
    exact hother [] (by simp) le_rfl (fun hr => by cases hr) (List.append_nil _).symm
  | campaign _ _ _ d hr h0 hel he =>
    subst he
    exact hother _ (by simp) (Nat.le_succ _) (fun _ => .inr (Nat.lt_succ_self _)) rfl
  | reconfig _ _ _ new hr hch he =>
    subst he
    exact hother _ (by simp) le_rfl (fun hr' => .inl hr') rfl
  | adopt _ _ _ x servers hlt hx hcf hr he =>
    subst he
    exact hother _ (by simp) le_rfl (fun hr' => .inl hr') rfl
  | merge _ _ x pi pt es ci r hk hr hlog hci hle _ hr' =>
    refine hother _ ?_ le_rfl (fun hr' => .inl hr') rfl
    split_ifs <;> simp
  | _ =>
    first
    | exact hother _ (by simp) le_rfl (fun hr' => .inl hr') rfl
    | exact hother [] (by simp) le_rfl (fun hr' => .inl hr') (List.append_nil _).symm

/-- **Small steps of a leader only append to its log**, or compact it. -/
theorem micro_tenure {t : ℕ} {l : List Entry} (hm : Micro self n₀ k (n, h) (n', h'))
    (hn : Tenure t l n) : Tenure t l n' := by
  -- a log that a follower rewrites
  have hfollower : n.role = .follower → n'.currentTerm = n.currentTerm → n'.role = n.role →
      Tenure t l n' := fun hr ht hr' => hn.retire ht.ge (hr'.trans hr)
  cases hm with
  | retreat => exact hn.retire le_rfl rfl
  | raise _ _ t' _ ht => exact hn.later ht
  | campaign _ _ _ d hr h0 hel he =>
    subst he
    exact hn.later (Nat.lt_succ_self _)
  | win _ _ _ hr hq he =>
    subst he
    rcases hn with hlt | ⟨-, hr' | ⟨hr', -⟩⟩
    · exact .inl hlt
    · rw [hr] at hr'
      cases hr'
    · rw [hr] at hr'
      cases hr'
  | append _ _ payload hr hp => exact hn.append rfl rfl rfl (List.prefix_append _ _)
  | reconfig _ _ _ new hr hch he =>
    subst he
    exact hn.append rfl rfl rfl (List.prefix_append _ _)
  | adopt _ _ _ x servers hlt hx hcf hr he =>
    subst he
    exact hn.same rfl rfl rfl
  | merge _ _ x pi pt es ci r hk hr => exact hfollower hr rfl rfl
  | install _ _ x s l' m hk hr => exact hfollower hr rfl rfl
  | compact _ _ s l' hk hs hc => exact hn.compact hc
  | _ => exact hn.same rfl rfl rfl

/-! ### Runs -/

/-- The file of a node that crashes after some effects of a call. -/
theorem fileOf_crash {out : History ι σ δ} (hv : Voter i n h) (hown : ∀ o ∈ out, o.1 = i) :
    fileOf i (h ++ out) = ((out.foldl (fun d o => d.write o.2) n.durable).currentTerm,
      (out.foldl (fun d o => d.write o.2) n.durable).votedFor) := by
  rw [write_file hown, fileOf_append, hv.file]
  rfl

/-- A node comes back from a crash with the term of its file. -/
theorem crash_term {out : History ι σ δ} (hv : Voter i n h) (hown : ∀ o ∈ out, o.1 = i)
    (P : Params ι σ δ) (now draw : ℚ) :
    (P.boot i now draw (out.foldl (fun d o => d.write o.2) n.durable)).currentTerm =
      (fileOf i (h ++ out)).1 := by
  obtain ⟨l, ci, ai, m, s, hb, -⟩ := boot_eq P i now draw (out.foldl (fun d o => d.write o.2) n.durable)
  rw [hb, fileOf_crash hv hown]

/-- The facts about elections and inaugurations of a cluster. -/
def Inaugurations (c : Cluster ι σ δ) : Prop :=
  Local (fun h o => Justified h o ∧ Inaugurated h o) (fun i n h => Voter i n h ∧ PastTerms i n h) c

theorem inaugurations_step (hI : Inaugurations c) (he : S.Enabled c e) :
    Inaugurations (S.step c e) := by
  refine local_step (hI.2 e.node).1.calm ?_ ?_ ?_ hI
  · rintro i n h h' hi ⟨out, rfl, hown⟩ ⟨hv, hp⟩
    exact ⟨hv.mono (fileOf_other hown hi), hp.mono fun m hm => hi (hown _ hm)⟩
  · rintro k hk p q hm hg hc ⟨hv, hp⟩
    obtain ⟨hj, ht⟩ := causal_and.mp hc
    obtain ⟨hj', hv'⟩ := micro_voter hm ((arrived_of_enabled he hk).mono hg.isPrefix) hj hv
    obtain ⟨ht', hp'⟩ := micro_inaugurated hm hj hv ht hp
    exact ⟨causal_and.mpr ⟨hj', ht'⟩, hv', hp'⟩
  · rintro out hown hc ⟨hv, -⟩
    obtain ⟨hj, ht⟩ := causal_and.mp hc
    refine ⟨voter_boot (fileOf_crash hv hown), fun m hm => ⟨?_, fun hr => ?_⟩⟩
    · obtain ⟨h₁, h₂, hh, hsaved, -⟩ := ht.mem hm
      rw [crash_term hv hown]
      exact (forward_of_mem hj (hh ▸ List.mem_append_left _ hsaved)).le
    · rw [boot_role] at hr
      cases hr

theorem inaugurations_reach (hr : Reach S.step S.Enabled S.init c) : Inaugurations c := by
  refine hr.inv Inaugurations ⟨causal_nil, fun _ => ⟨voter_boot rfl, fun m hm => by cases hm⟩⟩ ?_
  exact fun _ _ _ hI he => inaugurations_step hI he

/-- The tenure of a node goes on along every run. -/
theorem tenure_reach (hr : Reach S.step S.Enabled S.init c) (hr' : Reach S.step S.Enabled c c')
    {t : ℕ} {l : List Entry} (hn : Tenure t l (c.node i)) : Tenure t l (c'.node i) := by
  have hI : Local Justified (fun j n h => Voter j n h ∧ (j = i → Tenure t l n)) c :=
    ⟨(votesKept_reach hr).1, fun j => ⟨(votesKept_reach hr).2 j, fun hj => hj ▸ hn⟩⟩
  refine ((hr'.inv _ hI fun c e _ hI he => ?_).2 i).2 rfl
  refine local_step (hI.2 e.node).1.calm ?_ ?_ ?_ hI
  · rintro j n h h' hj ⟨out, rfl, hown⟩ ⟨hv, ht⟩
    exact ⟨hv.mono (fileOf_other hown hj), ht⟩
  · rintro k hk p q hm hg hc ⟨hv, ht⟩
    obtain ⟨hj', hv'⟩ := micro_voter hm ((arrived_of_enabled he hk).mono hg.isPrefix) hc hv
    exact ⟨hj', hv', fun hj => micro_tenure hm (ht hj)⟩
  · rintro out hown hc ⟨hv, ht⟩
    refine ⟨voter_boot (fileOf_crash hv hown), fun hj => (ht hj).retire ?_ (boot_role ..)⟩
    rw [crash_term hv hown]
    have hle := (fileOf_forward (i := e.node) hc).le
    rwa [hv.file] at hle

end Pylog.Raft
