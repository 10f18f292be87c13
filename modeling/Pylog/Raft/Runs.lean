import Pylog.Base.Causal
import Pylog.Raft.LogFacts
import Pylog.Raft.Micro

/-!
# Pylog.Raft.Runs — from small steps to runs

`step_call`: what the small steps of a call keep is kept by the call.  The invariants of this
development relate each node to the history and are kept small step by small step.
-/

namespace Pylog.Raft

open Effect Transition Trace

variable {ι σ δ : Type} [LinearOrder ι] {S : Setup ι σ δ} {c : Cluster ι σ δ} {e : Event ι δ}

/-- The cluster with the node `i` at `n` and the history `h`. -/
def Cluster.at (c : Cluster ι σ δ) (i : ι) (n : Node ι σ δ) (h : History ι σ δ) : Cluster ι σ δ :=
  ⟨Function.update c.node i n, h⟩

@[simp] theorem Cluster.at_node_self (i : ι) (n : Node ι σ δ) (h : History ι σ δ) :
    (c.at i n h).node i = n := Function.update_self ..

@[simp] theorem Cluster.at_node_of_ne {i j : ι} (hij : j ≠ i) (n : Node ι σ δ) (h : History ι σ δ) :
    (c.at i n h).node j = c.node j := Function.update_of_ne hij ..

@[simp] theorem Cluster.at_history (i : ι) (n : Node ι σ δ) (h : History ι σ δ) :
    (c.at i n h).history = h := rfl

@[simp] theorem Cluster.at_at (i : ι) (n n' : Node ι σ δ) (h h' : History ι σ δ) :
    (c.at i n h).at i n' h' = c.at i n' h' := by
  unfold Cluster.at
  rw [Function.update_idem]

theorem Cluster.put_eq (i : ι) (n : Node ι σ δ) (out : History ι σ δ) :
    c.put i n out = c.at i n (c.history ++ out) := rfl

theorem Cluster.at_self (i : ι) : c.at i (c.node i) c.history = c := by
  unfold Cluster.at
  rw [Function.update_eq_self]

/-! ### Clusters small enough to run -/

/-- The quoted names of a text; a name of `d` letters stands for `d`. -/
def quotedNames : Option ℕ → Bytes → List ℕ
  | _, [] => []
  | none, b :: rest => if b = 34 then quotedNames (some 0) rest else quotedNames none rest
  | some d, b :: rest =>
    if b = 34 then d :: quotedNames none rest else quotedNames (some (d + 1)) rest

/-- `json` on `{"servers": ["", "x", "xx"]}`: server `d` is named by `d` letters. -/
def letters : CfgCodec ℕ :=
  let dumps : List ℕ → Bytes := fun l =>
    [123, 34, 115, 101, 114, 118, 101, 114, 115, 34, 58, 32, 91] ++
      ([44, 32].intercalate (l.map fun d => 34 :: (List.replicate d 120 ++ [34])) ++ [93, 125])
  { dumps := dumps
    loads := fun b =>
      let l := quotedNames none (b.drop 13)
      if dumps l = b then some l else none }

theorem quotedNames_name (d e : ℕ) (rest : Bytes) :
    quotedNames (some e) (List.replicate d 120 ++ 34 :: rest) = (e + d) :: quotedNames none rest := by
  induction d generalizing e with
  | zero => simp [quotedNames]
  | succ d ih =>
    rw [List.replicate_succ, List.cons_append, quotedNames, if_neg (by decide), ih]
    congr 1
    omega

theorem quotedNames_list (l : List ℕ) :
    quotedNames none
      ([44, 32].intercalate (l.map fun d => 34 :: (List.replicate d 120 ++ [34])) ++ [93, 125]) = l := by
  induction l with
  | nil => rfl
  | cons d l ih =>
    cases l with
    | nil => simp [List.intercalate, quotedNames, quotedNames_name]
    | cons d' l =>
      simp only [List.map_cons, List.intercalate, List.intersperse_cons_cons, List.flatten_cons] at ih ⊢
      simp [quotedNames, quotedNames_name, ih]

theorem letters_loads (l : List ℕ) : letters.loads (letters.dumps l) = some l := by
  show (if _ = _ then _ else _) = _
  have h : quotedNames none ((letters.dumps l).drop 13) = l := quotedNames_list l
  rw [h]
  exact if_pos rfl

/-- Servers `0, …, size - 1` with the default timing and a state machine that never fails. -/
def lab (size : ℕ) (prevote : Bool) (maxBatch : ℕ) : Setup ℕ Unit Unit where
  servers := Finset.range size
  params _ :=
    { peers := List.range size
      maxBatch := maxBatch
      usePrevote := prevote
      stateMachine := some ⟨(), fun s _ => (s, true), fun s => s, fun s => s⟩
      emptyData := ()
      json := letters }

theorem lab_fullMesh (size : ℕ) (prevote : Bool) (maxBatch : ℕ) :
    (lab size prevote maxBatch).FullMesh := by
  intro i hi p
  rw [show (lab size prevote maxBatch).servers = Finset.range size from rfl] at hi ⊢
  rw [show ((lab size prevote maxBatch).params i).peers = List.range size from rfl]
  simp only [Finset.mem_range, List.mem_range] at hi ⊢
  omega

theorem lab_prevoteOff (size maxBatch : ℕ) : (lab size false maxBatch).PrevoteOff := fun _ _ => rfl

theorem lab_noAutoSnapshot (size : ℕ) (prevote : Bool) (maxBatch : ℕ) :
    (lab size prevote maxBatch).NoAutoSnapshot := fun _ _ => rfl

/-- The cluster after a list of events. -/
def Setup.replay (S : Setup ι σ δ) (es : List (Event ι δ)) : Cluster ι σ δ := es.foldl S.step S.init

/-- Every event meets the condition when its turn comes. -/
def Setup.Allows (S : Setup ι σ δ) (ok : Cluster ι σ δ → Event ι δ → Prop)
    [∀ c e, Decidable (ok c e)] (c : Cluster ι σ δ) (es : List (Event ι δ)) : Prop :=
  meets S.step (fun c e => decide (ok c e)) c es = true

instance (ok : Cluster ι σ δ → Event ι δ → Prop) [∀ c e, Decidable (ok c e)]
    (es : List (Event ι δ)) : Decidable (S.Allows ok c es) :=
  inferInstanceAs (Decidable (_ = true))

theorem reach_replay {ok : Cluster ι σ δ → Event ι δ → Prop} [∀ c e, Decidable (ok c e)]
    (es : List (Event ι δ)) (h : S.Allows ok S.init es) : Reach S.step ok S.init (S.replay es) :=
  reach_of_meets (fun _ _ => of_decide_eq_true) es _ h

theorem reach_replay_append {ok : Cluster ι σ δ → Event ι δ → Prop} [∀ c e, Decidable (ok c e)]
    (es es' : List (Event ι δ)) (h : S.Allows ok (S.replay es) es') :
    Reach S.step ok (S.replay es) (S.replay (es ++ es')) := by
  unfold Setup.replay
  rw [List.foldl_append]
  exact reach_of_meets (fun _ _ => of_decide_eq_true) es' _ h

/-- A call at a node at a time, with the draw `0`. -/
def callAt (now : ℚ) (node : ι) (k : Call ι δ) : Event ι δ := ⟨node, now, 0, .call k⟩

/-! ### From small steps to calls -/

/-- The message a call handles was sent before the call. -/
def Arrived (h : History ι σ δ) (i : ι) (k : Call ι δ) : Prop :=
  ∀ m, k = .handle m → InFlight h i m

omit [LinearOrder ι] in
theorem Arrived.mono {h h' : History ι σ δ} {i : ι} {k : Call ι δ} (ha : Arrived h i k)
    (hh : h <+: h') : Arrived h' i k := by
  intro m hm
  obtain ⟨j, hj⟩ := ha m hm
  exact ⟨j, hh.subset hj⟩

omit [LinearOrder ι] in
theorem arrived_of_enabled {k : Call ι δ} (he : S.Enabled c e) (hk : k ∈ e.action.made) :
    Arrived c.history e.node k := by
  rintro m rfl
  refine he.2.2 m ?_
  unfold Action.message
  rw [Option.mem_def.mp hk]
  rfl

/-- The history grew by effects of node `i` only. -/
def Grown (i : ι) (h h' : History ι σ δ) : Prop := ∃ out, h' = h ++ out ∧ ∀ o ∈ out, o.1 = i

omit [LinearOrder ι] in
theorem Grown.refl {i : ι} {h : History ι σ δ} : Grown i h h := ⟨[], by simp, by simp⟩

omit [LinearOrder ι] in
theorem Grown.trans {i : ι} {h h' h'' : History ι σ δ} (h1 : Grown i h h') (h2 : Grown i h' h'') :
    Grown i h h'' := by
  obtain ⟨out, rfl, hown⟩ := h1
  obtain ⟨out', rfl, hown'⟩ := h2
  refine ⟨out ++ out', by rw [List.append_assoc], fun o ho => ?_⟩
  rcases List.mem_append.mp ho with ho | ho
  · exact hown o ho
  · exact hown' o ho

omit [LinearOrder ι] in
theorem Grown.isPrefix {i : ι} {h h' : History ι σ δ} (hg : Grown i h h') : h <+: h' := by
  obtain ⟨out, rfl, -⟩ := hg
  exact List.prefix_append _ _

omit [LinearOrder ι] in
/-- Effects of other nodes are not new. -/
theorem Grown.mem_of_ne {i : ι} {h h' : History ι σ δ} {o : ι × Out ι σ δ} (hg : Grown i h h')
    (ho : o ∈ h') (hi : o.1 ≠ i) : o ∈ h := by
  obtain ⟨out, rfl, hown⟩ := hg
  rcases List.mem_append.mp ho with ho | ho
  · exact ho
  · exact absurd (hown o ho) hi

/-- Every effect of a small step is the node's own. -/
theorem micro_own {self : Self ι σ δ} {n₀ : Node ι σ δ} {k : Call ι δ}
    {p q : Node ι σ δ × History ι σ δ} (hm : Micro self n₀ k p q) : Grown self.id p.2 q.2 := by
  cases hm <;>
    first
    | exact ⟨[], (List.append_nil _).symm, by simp⟩
    | exact ⟨_, rfl, by simp⟩

/-- The cluster after a call that ran to its end or raised. -/
def Setup.after (S : Setup ι σ δ) (c : Cluster ι σ δ) (e : Event ι δ) (k : Call ι δ) :
    Cluster ι σ δ :=
  c.at e.node (S.outcome c e k).state (c.history ++ (S.outcome c e k).out)

theorem step_call_eq {k : Call ι δ} (hk : e.action = .call k) : S.step c e = S.after c e k := by
  unfold Setup.step
  rw [hk]
  rfl

theorem step_restart_eq (hk : e.action.made = none) : S.step c e = c.at e.node
    ((S.params e.node).boot e.node e.now e.draw (c.node e.node).durable) c.history := by
  cases ha : e.action with
  | restart =>
    unfold Setup.step
    rw [ha]
    show c.put _ _ _ = _
    rw [Cluster.put_eq, List.append_nil]
  | _ =>
    rw [ha] at hk
    cases hk

/-- **What the small steps of a call keep is kept by the call.** -/
theorem after_inv {k : Call ι δ} (I : Cluster ι σ δ → Prop)
    (hpre : (c.node e.node).role = .leader → (c.node e.node).preCandidate = false) (h0 : I c)
    (hR : ∀ p q, Micro (S.self e) (c.node e.node) k p q → Grown e.node c.history p.2 →
      I (c.at e.node p.1 p.2) → I (c.at e.node q.1 q.2)) : I (S.after c e k) := by
  have hf : Does (S.self e) (c.node e.node) k _ _ c.history _ := call_follows hpre
  have key := hf.inv (fun n h => Grown e.node c.history h ∧ I (c.at e.node n h)) ?_ ?_
  · exact key.2
  · rintro p q hpq ⟨hg, hI⟩
    exact ⟨hg.trans (micro_own hpq), hR p q hpq hg hI⟩
  · exact ⟨.refl, by rw [Cluster.at_self]; exact h0⟩

/-- What the small steps of a call and a restart keep is kept by every event without a crash inside a
call. -/
theorem whole_step (I : Cluster ι σ δ → Prop) (hw : e.action.whole = true)
    (hpre : (c.node e.node).role = .leader → (c.node e.node).preCandidate = false) (h0 : I c)
    (hR : ∀ k ∈ e.action.made, ∀ p q, Micro (S.self e) (c.node e.node) k p q →
      Grown e.node c.history p.2 → I (c.at e.node p.1 p.2) → I (c.at e.node q.1 q.2))
    (hboot : e.action.made = none → I (c.at e.node
      ((S.params e.node).boot e.node e.now e.draw (c.node e.node).durable) c.history)) :
    I (S.step c e) := by
  cases hk : e.action with
  | call k =>
    rw [step_call_eq hk]
    exact after_inv I hpre h0 (hR k (by rw [hk]; rfl))
  | restart =>
    have hnone : e.action.made = none := by
      rw [hk]
      rfl
    rw [step_restart_eq hnone]
    exact hboot hnone
  | crash k m =>
    rw [hk] at hw
    cases hw

/-- Every effect of a call is the node's own. -/
theorem outcome_own {k : Call ι δ}
    (hpre : (c.node e.node).role = .leader → (c.node e.node).preCandidate = false) :
    ∀ o ∈ (S.outcome c e k).out, o.1 = e.node := by
  have key := after_inv (S := S) (k := k) (fun c' => Grown e.node c.history c'.history) hpre
    .refl fun p q hm _ hg => hg.trans (micro_own hm)
  obtain ⟨out, ho, hown⟩ := key
  rw [List.append_cancel_left ho]
  exact hown

/-! ### Restarts -/

/-- A restart keeps term and vote and is a follower with the membership of the constructor.  Its log
is the stored one, less what a snapshot file covers. -/
theorem boot_eq (P : Params ι σ δ) (i : ι) (now draw : ℚ) (d : Durable ι δ) : ∃ l c a m s,
    P.boot i now draw d =
      { currentTerm := d.currentTerm, votedFor := d.votedFor, log := l
        snapshotFiles := d.snapshotFiles, peers := P.peers.filter (· ≠ i)
        config := insert i (P.peers.filter (· ≠ i)).toFinset, machine := m, lastSnapshot := s
        commitIndex := c, appliedIndex := a
        electionDeadline :=
          now + (P.electionMin + (P.electionMax - P.electionMin) * draw) + 50 * draw } ∧
    (∀ x ∈ l.entries, x ∈ d.log.entries) ∧
    (d.snapshotFiles = [] → l = d.log ∧ c = 0 ∧ a = 0 ∧ s = none) := by
  unfold Params.boot
  dsimp only
  split_ifs
  · unfold Params.loadSnapshotFile
    split
    · rename_i sm s hsm hs
      refine ⟨_, _, _, _, _, rfl, ?_, ?_⟩
      · intro x hx
        cases hc : d.log.compact s.lastIncludedIndex s.lastIncludedTerm with
        | none => simpa [hc] using hx
        | some l =>
          dsimp only at hx
          rw [hc] at hx
          exact RaftLog.mem_compact hc hx
      · intro hf
        rw [show latestFile d.snapshotFiles = none by rw [hf]; rfl] at hs
        cases hs
    · exact ⟨_, _, _, _, _, rfl, fun _ hx => hx, fun _ => ⟨rfl, rfl, rfl, rfl⟩⟩
  · exact ⟨_, _, _, _, _, rfl, fun _ hx => hx, fun _ => ⟨rfl, rfl, rfl, rfl⟩⟩

theorem boot_role (P : Params ι σ δ) (i : ι) (now draw : ℚ) (d : Durable ι δ) :
    (P.boot i now draw d).role = .follower := by
  obtain ⟨l, ci, ai, m, s, hb, -⟩ := boot_eq P i now draw d
  rw [hb]

omit [LinearOrder ι] in
/-- The log a restart finds: the one before the call, or one the call stored. -/
theorem write_log (out : History ι σ δ) (d : Durable ι δ) :
    (out.foldl (fun d o => d.write o.2) d).log = d.log ∨
      ∃ i, (i, .store (out.foldl (fun d o => d.write o.2) d).log) ∈ out := by
  induction out using List.reverseRecOn with
  | nil => exact .inl rfl
  | append_singleton out o ih =>
    rw [List.foldl_append]
    have hkeep : (out.foldl (fun d o => d.write o.2) d).log = d.log ∨
        ∃ i, (i, .store (out.foldl (fun d o => d.write o.2) d).log) ∈ out ++ [o] := by
      refine ih.imp_right ?_
      rintro ⟨i, hi⟩
      exact ⟨i, List.mem_append_left _ hi⟩
    obtain ⟨i, o⟩ := o
    cases o with
    | store l => exact .inr ⟨i, by simp [Durable.write]⟩
    | _ => exact hkeep

/-! ### Facts of single nodes and of single effects -/

/-- `N` holds of every node and `J` of every effect, each against the history. -/
def Local (J : History ι σ δ → ι × Out ι σ δ → Prop) (N : ι → Node ι σ δ → History ι σ δ → Prop)
    (c : Cluster ι σ δ) : Prop :=
  Causal J c.history ∧ ∀ i, N i (c.node i) c.history

variable {J : History ι σ δ → ι × Out ι σ δ → Prop} {N : ι → Node ι σ δ → History ι σ δ → Prop}

theorem Local.put (hI : Local J N c) {i : ι} {n : Node ι σ δ} {h : History ι σ δ} (hc : Causal J h)
    (hn : N i n h) (ho : ∀ j, j ≠ i → N j (c.node j) c.history → N j (c.node j) h) :
    Local J N (c.at i n h) := by
  refine ⟨hc, fun j => ?_⟩
  by_cases hj : j = i
  · subst hj
    rw [Cluster.at_node_self]
    exact hn
  · rw [Cluster.at_node_of_ne hj]
    exact ho j hj (hI.2 j)

/-- **What every small step and every restart keeps is kept by every event**, a crash after any
effect of a call included. -/
theorem local_step
    (hpre : (c.node e.node).role = .leader → (c.node e.node).preCandidate = false)
    (hmono : ∀ i n h h', i ≠ e.node → Grown e.node h h' → N i n h → N i n h')
    (hmicro : ∀ k ∈ e.action.made, ∀ p q, Micro (S.self e) (c.node e.node) k p q →
      Grown e.node c.history p.2 → Causal J p.2 → N e.node p.1 p.2 → Causal J q.2 ∧ N e.node q.1 q.2)
    (hboot : ∀ out, (∀ o ∈ out, o.1 = e.node) → Causal J (c.history ++ out) →
      N e.node (c.node e.node) c.history →
      N e.node ((S.params e.node).boot e.node e.now e.draw
        (out.foldl (fun d o => d.write o.2) (c.node e.node).durable)) (c.history ++ out))
    (hI : Local J N c) : Local J N (S.step c e) := by
  have hothers : ∀ out : History ι σ δ, (∀ o ∈ out, o.1 = e.node) →
      Causal J (c.history ++ out) → ∀ n, N e.node n (c.history ++ out) →
      Local J N (c.put e.node n out) :=
    fun out hown hc n hn => hI.put hc hn fun j hj hNj => hmono j _ _ _ hj ⟨out, rfl, hown⟩ hNj
  have hcall : ∀ k ∈ e.action.made, Local J N (S.after c e k) := by
    intro k hk
    refine after_inv (Local J N) hpre hI ?_
    rintro ⟨n, h⟩ ⟨n', h'⟩ hm hle hL
    have hn := hL.2 e.node
    rw [Cluster.at_node_self] at hn
    obtain ⟨hc', hn'⟩ := hmicro k hk _ _ hm hle hL.1 hn
    have hput := hL.put hc' hn' fun j hj hNj => hmono j _ _ _ hj (micro_own hm) hNj
    rwa [Cluster.at_at] at hput
  cases hk : e.action with
  | call k =>
    rw [step_call_eq hk]
    exact hcall k (by rw [hk]; rfl)
  | restart =>
    unfold Setup.step
    rw [hk]
    have hc : Causal J (c.history ++ []) := by
      rw [List.append_nil]
      exact hI.1
    exact hothers [] (by simp) hc _ (hboot [] (by simp) hc (hI.2 e.node))
  | crash k m =>
    have hown' : ∀ o ∈ (S.outcome c e k).out.take m, o.1 = e.node :=
      fun o ho => outcome_own hpre o (List.mem_of_mem_take ho)
    have hc : Causal J (c.history ++ (S.outcome c e k).out) := (hcall k (by rw [hk]; rfl)).1
    rw [← List.take_append_drop m (S.outcome c e k).out, ← List.append_assoc] at hc
    unfold Setup.step
    rw [hk]
    exact hothers _ hown' hc.take _ (hboot _ hown' hc.take (hI.2 e.node))

end Pylog.Raft
