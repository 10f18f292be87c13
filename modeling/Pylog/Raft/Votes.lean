import Pylog.Raft.Runs

/-!
# Pylog.Raft.Votes — the vote file of a node, across crashes (raft.py:115–143, 292–311, 430–451)

`fileOf i h` is what the file of node `i` holds after the history `h`: the last `os.replace`.
Every event of a run is justified by the history before it (`Justified`): a save only moves the
file forward, a granted vote and a campaign come after their save, a vote request after its
campaign.  The statement is closed under prefixes of the history, so it covers a crash after any
effect of a call, and it holds in every mode.
-/

namespace Pylog.Raft

open Effect Transition Trace

variable {ι σ δ : Type} [LinearOrder ι] {S : Setup ι σ δ} {c c' : Cluster ι σ δ} {e : Event ι δ}
  {i : ι} {h h' : History ι σ δ}

/-! ### The file -/

/-- One event as the vote file of node `i` sees it. -/
def fileStep (i : ι) (f : ℕ × Option ι) : ι × Out ι σ δ → ℕ × Option ι
  | (j, .replace term votedFor) => if j = i then (term, votedFor) else f
  | _ => f

/-- Term and vote in the file of node `i`; a missing file is `(0, None)`. -/
def fileOf (i : ι) (h : History ι σ δ) : ℕ × Option ι := h.foldl (fileStep i) (0, none)

theorem fileOf_append : fileOf i (h ++ h') = h'.foldl (fileStep i) (fileOf i h) :=
  List.foldl_append ..

theorem fileOf_concat (o : ι × Out ι σ δ) : fileOf i (h ++ [o]) = fileStep i (fileOf i h) o := by
  rw [fileOf_append]
  rfl

/-- A file may move to a newer term, or record the first vote of its term. -/
def Forward (f g : ℕ × Option ι) : Prop := f.1 < g.1 ∨ f.1 = g.1 ∧ (f.2 = none ∨ f.2 = g.2)

omit [LinearOrder ι] in
theorem Forward.refl (f : ℕ × Option ι) : Forward f f := .inr ⟨rfl, .inr rfl⟩

omit [LinearOrder ι] in
theorem Forward.trans {f g k : ℕ × Option ι} (h1 : Forward f g) (h2 : Forward g k) :
    Forward f k := by
  rcases h1 with h1 | ⟨h1, v1⟩ <;> rcases h2 with h2 | ⟨h2, v2⟩
  · exact .inl (h1.trans h2)
  · exact .inl (h2 ▸ h1)
  · exact .inl (h1 ▸ h2)
  · refine .inr ⟨h1.trans h2, ?_⟩
    rcases v1 with v1 | v1
    · exact .inl v1
    · rw [v1]; exact v2

omit [LinearOrder ι] in
theorem Forward.le {f g : ℕ × Option ι} (h : Forward f g) : f.1 ≤ g.1 := by
  rcases h with hlt | ⟨heq, -⟩
  · exact hlt.le
  · exact heq.le

/-! ### Justified events -/

/-- What the history before it says about an event of the election code. -/
def Justified (h : History ι σ δ) : ι × Out ι σ δ → Prop
  | (i, .replace term votedFor) => Forward (fileOf i h) (term, votedFor)
  | (i, .campaign n) => (i, .replace n.currentTerm (some i)) ∈ h ∧
      ∀ n', (i, .campaign n') ∈ h → n'.currentTerm < n.currentTerm
  | (i, .send p (.vote term candidate lastIndex lastTerm)) => candidate = i ∧
      ∃ n, (i, .campaign n) ∈ h ∧ n.currentTerm = term ∧ p ∈ n.peers ∧
        (lastTerm, lastIndex) = n.progress
  | (i, .send candidate (.voteResp term sender true)) => sender = i ∧
      (i, .replace term (some candidate)) ∈ h ∧
      ∃ lastIndex lastTerm, (candidate, .send i (.vote term candidate lastIndex lastTerm)) ∈ h
  | _ => True

/-- Every save in the history is at or before the file. -/
theorem forward_of_mem (hc : Causal Justified h) {t : ℕ} {v : Option ι}
    (hm : (i, .replace t v) ∈ h) : Forward (t, v) (fileOf i h) := by
  induction h using List.reverseRecOn with
  | nil => simp at hm
  | append_singleton h o ih =>
    obtain ⟨hc, hj⟩ := causal_concat.mp hc
    rw [fileOf_concat]
    rcases List.mem_append.mp hm with hm | hm
    · refine (ih hc hm).trans ?_
      obtain ⟨j, o⟩ := o
      cases o with
      | replace t' v' =>
        unfold fileStep
        dsimp only
        split_ifs with hji
        · subst hji; exact hj
        · exact .refl _
      | _ => exact .refl _
    · rw [List.mem_singleton] at hm
      subst hm
      unfold fileStep
      dsimp only
      rw [if_pos rfl]
      exact .refl _

/-- Along a run the file only moves forward. -/
theorem fileOf_forward (hc : Causal Justified (h ++ h')) : Forward (fileOf i h) (fileOf i (h ++ h')) := by
  induction h' using List.reverseRecOn with
  | nil => rw [List.append_nil]; exact .refl _
  | append_singleton h' o ih =>
    rw [← List.append_assoc] at hc ⊢
    obtain ⟨hc, hj⟩ := causal_concat.mp hc
    rw [fileOf_concat]
    refine (ih hc).trans ?_
    obtain ⟨j, o⟩ := o
    cases o with
    | replace t' v' =>
      unfold fileStep
      dsimp only
      split_ifs with hji
      · subst hji; exact hj
      · exact .refl _
    | _ => exact .refl _

/-- A node that campaigned had saved its vote for itself. -/
theorem campaign_saved (hc : Causal Justified h) {n : Node ι σ δ} (hm : (i, .campaign n) ∈ h) :
    (i, .replace n.currentTerm (some i)) ∈ h := by
  obtain ⟨h₁, h₂, rfl, hj⟩ := hc.mem hm
  exact List.mem_append_left _ hj.1

/-- A node that granted a vote had saved it. -/
theorem granted_saved (hc : Causal Justified h) {x s : ι} {t : ℕ}
    (hm : (i, .send x (.voteResp t s true)) ∈ h) : (i, .replace t (some x)) ∈ h := by
  obtain ⟨h₁, h₂, rfl, hj⟩ := hc.mem hm
  exact List.mem_append_left _ hj.2.1

/-- **A node saves at most one vote per term.** -/
theorem saved_unique (hc : Causal Justified h) {t : ℕ} {x y : ι}
    (hx : (i, .replace t (some x)) ∈ h) (hy : (i, .replace t (some y)) ∈ h) : x = y := by
  induction h using List.reverseRecOn with
  | nil => simp at hx
  | append_singleton h o ih =>
    obtain ⟨hc, hj⟩ := causal_concat.mp hc
    -- a save already in the history pins the vote of a later one of the same term
    have key : ∀ u w, (i, Out.replace t (some u)) ∈ h → Justified h (i, Out.replace t (some w)) →
        u = w := by
      intro u w hu hw
      have hfw := (forward_of_mem hc hu).trans hw
      rcases hfw with hlt | ⟨-, hv⟩
      · exact absurd hlt (lt_irrefl t)
      · rcases hv with hv | hv <;> cases hv
        rfl
    rcases List.mem_append.mp hx with hx' | hx' <;> rcases List.mem_append.mp hy with hy' | hy'
    · exact ih hc hx' hy'
    · rw [List.mem_singleton] at hy'
      subst hy'
      exact key x y hx' hj
    · rw [List.mem_singleton] at hx'
      subst hx'
      exact (key y x hy' hj).symm
    · rw [List.mem_singleton] at hx' hy'
      rw [← hx'] at hy'
      cases hy'
      rfl

/-! ### What a node and its history agree on -/

structure Voter (i : ι) (n : Node ι σ δ) (h : History ι σ δ) : Prop where
  file : fileOf i h = (n.currentTerm, n.votedFor)
  calm : n.role = .leader → n.preCandidate = false
  ran : n.role = .candidate → ∃ nc, (i, .campaign nc) ∈ h ∧ SameView nc n

theorem Voter.mono {n : Node ι σ δ} (hv : Voter i n h) (hf : fileOf i (h ++ h') = fileOf i h) :
    Voter i n (h ++ h') := by
  refine ⟨hf.trans hv.file, hv.calm, fun hr => ?_⟩
  obtain ⟨nc, hm, hs⟩ := hv.ran hr
  exact ⟨nc, List.mem_append_left _ hm, hs⟩

/-- The effects of another node leave the file alone. -/
theorem fileOf_other {j : ι} (hj : ∀ o ∈ h', o.1 = j) (hij : i ≠ j) :
    fileOf i (h ++ h') = fileOf i h := by
  rw [fileOf_append]
  induction h' using List.reverseRecOn with
  | nil => rfl
  | append_singleton h' o ih =>
    rw [List.foldl_append, ih fun o ho => hj o (List.mem_append_left _ ho)]
    obtain ⟨j', o⟩ := o
    have hne : j' ≠ i := fun hh => hij (hh ▸ hj (j', o) (by simp))
    cases o with
    | replace t v => exact if_neg hne
    | _ => rfl

section Step

variable {self : Self ι σ δ} {n₀ n n' : Node ι σ δ} {k : Call ι δ}

/-- No append or snapshot message is of interest to an election. -/
theorem justified_appendMsg (p : ι) : Justified h (i, .send p (self.appendMsg n p)) := by
  unfold Self.appendMsg
  dsimp only
  split_ifs <;> trivial

/-- `DurableState.save`, as the history records it. -/
def saved (i : ι) (t : ℕ) (v : Option ι) : History ι σ δ := [(i, .writeTmp t v), (i, .replace t v)]

omit [LinearOrder ι] in
theorem saved_concat (t : ℕ) (v : Option ι) (o : ι × Out ι σ δ) :
    h ++ [(i, .writeTmp t v), (i, .replace t v), o] = h ++ saved i t v ++ [o] := by
  simp [saved]

theorem causal_saved {t : ℕ} {v : Option ι} (hc : Causal Justified h)
    (hf : Forward (fileOf i h) (t, v)) : Causal Justified (h ++ saved i t v) := by
  refine causal_concat₂.mpr ⟨hc, trivial, ?_⟩
  show Forward (fileOf i (h ++ [(i, .writeTmp t v)])) (t, v)
  rw [fileOf_concat]
  exact hf

theorem fileOf_saved (t : ℕ) (v : Option ι) : fileOf i (h ++ saved i t v) = (t, v) := by
  rw [fileOf_append]
  exact if_pos rfl

/-- The candidate of a vote request in flight is its sender. -/
theorem vote_sender (hc : Causal Justified h) {t : ℕ} {x : ι} {li : ℕ} {lt : ℤ}
    (hm : InFlight h i (.vote t x li lt)) : (x, .send i (.vote t x li lt)) ∈ h := by
  obtain ⟨j, hj⟩ := hm
  obtain ⟨h₁, h₂, -, hjust⟩ := hc.mem hj
  obtain rfl : x = j := hjust.1
  exact hj

/-- A small step keeps the node and its file together, and what it does is justified. -/
theorem micro_voter {p q : Node ι σ δ × History ι σ δ} (hm : Micro self n₀ k p q)
    (ha : Arrived p.2 self.id k) (hc : Causal Justified p.2) (hv : Voter self.id p.1 p.2) :
    Causal Justified q.2 ∧ Voter self.id q.1 q.2 := by
  -- most steps keep term, vote, role and membership, and do nothing an election depends on
  have keep : ∀ (n' : Node ι σ δ) o, Justified p.2 (self.id, o) →
      (∀ f, fileStep self.id f (self.id, o) = f) → Voter self.id n' p.2 →
      Causal Justified (p.2 ++ [(self.id, o)]) ∧ Voter self.id n' (p.2 ++ [(self.id, o)]) := by
    intro n' o hj hf hv'
    exact ⟨causal_concat.mpr ⟨hc, hj⟩, hv'.mono ((fileOf_concat _).trans (hf _))⟩
  cases hm with
  | retreat n h => exact ⟨hc, hv.file, (fun hr => by cases hr), (fun hr => by cases hr)⟩
  | raise n h t _ ht =>
    refine ⟨causal_saved hc ?_, fileOf_saved .., (fun hr => by cases hr), fun hr => by cases hr⟩
    rw [hv.file]
    exact .inl ht
  | prevote n h _ _ hr => exact ⟨hc, hv.file, fun h' => absurd h' hr, hv.ran⟩
  | clearPre n h => exact ⟨hc, hv.file, fun _ => rfl, hv.ran⟩
  | campaign n n' h d hr h0 hk hn =>
    rw [saved_concat]
    have hcs : Causal Justified (h ++ saved self.id (n.currentTerm + 1) (some self.id)) := by
      refine causal_saved hc ?_
      rw [hv.file]
      exact .inl (Nat.lt_succ_self _)
    subst hn
    refine ⟨causal_concat.mpr ⟨hcs, by simp [saved], ?_⟩, ?_, (fun hr => by cases hr), fun _ => ?_⟩
    · -- earlier campaigns were saved, and the file is behind this one
      intro n' hn'
      have hn' : (self.id, Out.campaign n') ∈ h := by simpa [saved] using hn'
      have hfw := forward_of_mem hc (campaign_saved hc hn')
      rw [hv.file] at hfw
      show n'.currentTerm < n.currentTerm + 1
      rcases hfw with hlt | ⟨he, -⟩
      · exact Nat.lt_succ_of_lt hlt
      · exact Nat.lt_succ_of_le (le_of_eq he)
    · rw [fileOf_concat, fileOf_saved]
      rfl
    · exact ⟨_, by simp, rfl, rfl, rfl, rfl⟩
  | sendVote n h p hcm hp =>
    exact keep _ _ ⟨rfl, n, hcm, rfl, hp, rfl⟩ (fun _ => rfl) hv
  | win n n' h hr hq hn =>
    subst hn
    exact keep _ _ trivial (fun _ => rfl) ⟨hv.file, fun _ => rfl, fun h' => by cases h'⟩
  | sendAppend n h p hr =>
    exact keep _ _ (justified_appendMsg p) (fun _ => rfl) hv
  | reconfig n n' h new hr hch hn =>
    subst hn
    refine ⟨causal_concat₂.mpr ⟨hc, trivial, trivial⟩, ?_⟩
    refine Voter.mono (n := { self.joint n new with log := _ })
      ⟨hv.file, hv.calm, fun h' => ?_⟩ ?_
    · rw [show n.role = .candidate from h'] at hr; cases hr
    · rw [fileOf_append]
      rfl
  | adopt n n' h e servers hlt he hcf hr hn =>
    subst hn
    exact keep _ _ trivial (fun _ => rfl) ⟨hv.file, hv.calm, fun h' => absurd h' hr⟩
  | grant n h x li lt d hk hvf hu =>
    rw [saved_concat]
    have hcs : Causal Justified (h ++ saved self.id n.currentTerm (some x)) := by
      refine causal_saved hc ?_
      rw [hv.file]
      exact .inr ⟨rfl, hvf⟩
    refine ⟨causal_concat.mpr ⟨hcs, rfl, by simp [saved], li, lt, ?_⟩, ?_, hv.calm, fun hr => ?_⟩
    · exact List.mem_append_left _ (vote_sender hc (ha _ hk))
    · rw [fileOf_concat, fileOf_saved]
      rfl
    · obtain ⟨nc, hmem, hs⟩ := hv.ran hr
      exact ⟨nc, by simp [hmem], hs⟩
  | merge n h l pi pt es ci r hk hr hlog hci ht hj hm =>
    have hv' : Voter self.id { n with log := r.log } h := ⟨hv.file, hv.calm, hv.ran⟩
    dsimp only
    split_ifs
    · refine ⟨causal_concat₂.mpr ⟨hc, trivial, trivial⟩, hv'.mono ?_⟩
      rw [fileOf_append]
      rfl
    · exact keep _ _ trivial (fun _ => rfl) hv'
  | _ => 
    first
    | exact ⟨hc, hv.file, hv.calm, hv.ran⟩
    | exact keep _ _ trivial (fun _ => rfl) ⟨hv.file, hv.calm, hv.ran⟩

end Step

/-! ### Runs -/

/-- The election facts of a cluster. -/
abbrev VotesKept (c : Cluster ι σ δ) : Prop := Local Justified Voter c

/-- The file of a node, as its restart reads it back after some effects of a call. -/
theorem write_file {out : History ι σ δ} (hown : ∀ o ∈ out, o.1 = i) (d : Durable ι δ) :
    ((out.foldl (fun d o => d.write o.2) d).currentTerm,
      (out.foldl (fun d o => d.write o.2) d).votedFor) =
    out.foldl (fileStep i) (d.currentTerm, d.votedFor) := by
  induction out generalizing d with
  | nil => rfl
  | cons o out ih =>
    obtain ⟨j, o⟩ := o
    obtain rfl : j = i := hown (j, o) (by simp)
    rw [List.foldl_cons, List.foldl_cons, ih fun o ho => hown o (by simp [ho])]
    congr 1
    cases o with
    | replace t v => exact (if_pos rfl).symm
    | _ => rfl

theorem voter_boot {P : Params ι σ δ} {now draw : ℚ} {d : Durable ι δ}
    (hf : fileOf i h = (d.currentTerm, d.votedFor)) : Voter i (P.boot i now draw d) h := by
  obtain ⟨l, ci, ai, m, s, hb, -⟩ := boot_eq P i now draw d
  rw [hb]
  exact ⟨hf, (fun hr => by cases hr), fun hr => by cases hr⟩

/-- **Every step keeps the election facts**, a crash after any effect included. -/
theorem votesKept_step (hI : VotesKept c) (he : S.Enabled c e) : VotesKept (S.step c e) := by
  refine local_step (hI.2 e.node).calm ?_ ?_ ?_ hI
  · rintro i n h h' hi ⟨out, rfl, hown⟩ hv
    exact hv.mono (fileOf_other hown hi)
  · intro k hk p q hm hg hc hv
    exact micro_voter hm ((arrived_of_enabled he hk).mono hg.isPrefix) hc hv
  · intro out hown _ hv
    refine voter_boot ?_
    rw [write_file hown, fileOf_append, hv.file]
    rfl

theorem votesKept_init : VotesKept S.init :=
  ⟨causal_nil, fun _ => voter_boot rfl⟩

theorem votesKept_reach (h : Reach S.step S.Enabled S.init c) : VotesKept c :=
  h.inv VotesKept votesKept_init fun _ _ _ hI he => votesKept_step hI he

/-! ### One vote per term -/

/-- Node `i` stood behind candidate `x` in term `t`: it saved the vote, sent it, or is `x` and
campaigned. -/
def Backs (h : History ι σ δ) (i : ι) (t : ℕ) (x : ι) : Prop :=
  (i, .replace t (some x)) ∈ h ∨ (∃ s, (i, .send x (.voteResp t s true)) ∈ h) ∨
    x = i ∧ ∃ n, (i, .campaign n) ∈ h ∧ n.currentTerm = t

theorem Backs.saved (hc : Causal Justified h) {t : ℕ} {x : ι} (hb : Backs h i t x) :
    (i, .replace t (some x)) ∈ h := by
  rcases hb with hb | ⟨s, hb⟩ | ⟨rfl, n, hb, rfl⟩
  · exact hb
  · exact granted_saved hc hb
  · exact campaign_saved hc hb

theorem history_grows (h : Reach S.step S.Enabled c c') : c.history <+: c'.history := by
  induction h with
  | refl => exact List.prefix_refl _
  | step _ _ ih =>
    refine ih.trans ?_
    unfold Setup.step Cluster.put
    split <;> exact List.prefix_append _ _

/-- **One vote per term, across crashes at any effect, in every mode.**  Terms never decrease, a
vote given in a term stays, and whoever a node stood behind in a term is one candidate. -/
theorem one_vote_per_term (hr : Reach S.step S.Enabled S.init c) (hr' : Reach S.step S.Enabled c c')
    (i : ι) :
    (c.node i).currentTerm ≤ (c'.node i).currentTerm ∧
    ((c'.node i).currentTerm = (c.node i).currentTerm → ∀ x, (c.node i).votedFor = some x →
      (c'.node i).votedFor = some x) ∧
    ∀ t x y, Backs c'.history i t x → Backs c'.history i t y → x = y := by
  have hI := votesKept_reach hr
  have hI' := votesKept_reach (hr.trans hr')
  obtain ⟨out, ho⟩ := history_grows hr'
  have hfw : Forward (fileOf i c.history) (fileOf i c'.history) := by
    rw [← ho]
    exact fileOf_forward (ho ▸ hI'.1)
  rw [(hI.2 i).file, (hI'.2 i).file] at hfw
  refine ⟨hfw.le, fun ht x hx => ?_,
    fun t x y hx hy => saved_unique hI'.1 (hx.saved hI'.1) (hy.saved hI'.1)⟩
  rcases hfw with hlt | ⟨-, hv | hv⟩
  · exact absurd ht (ne_of_gt hlt)
  · rw [hx] at hv
    cases hv
  · rw [← hx]
    exact hv.symm

/-- Server 0 crashes with only the tmp file written and campaigns after the restart; server 1
crashes between the save and the answer and answers the second copy of the request. -/
theorem one_vote_per_term_crash :
    let S := lab 3 true 256
    let es : List (Event ℕ Unit) :=
      [callAt 1000 0 .tick, ⟨0, 1200, 0, .crash .tick 1⟩, callAt 1400 0 .tick, callAt 1600 0 .tick,
       ⟨1, 1650, 0, .crash (.handle (.vote 1 0 0 0)) 4⟩]
    let c := S.replay es
    let c' := S.replay (es ++ [callAt 1660 1 (.handle (.vote 1 0 0 0))])
    ((c.node 1).votedFor = some 0 ∧ InFlight c'.history 0 (.voteResp 1 1 true)) ∧
      (c.node 1).currentTerm ≤ (c'.node 1).currentTerm ∧
      ((c'.node 1).currentTerm = (c.node 1).currentTerm → ∀ x, (c.node 1).votedFor = some x →
        (c'.node 1).votedFor = some x) ∧
      ∀ t x y, Backs c'.history 1 t x → Backs c'.history 1 t y → x = y := by
  intro S es c c'
  refine ⟨by decide +kernel, one_vote_per_term (S := S) (reach_replay es ?_)
    (reach_replay_append es _ ?_) 1⟩
  · decide +kernel
  · decide +kernel

end Pylog.Raft
