import Pylog.Raft.Votes

/-!
# Pylog.Raft.Payloads — what the logs and the messages of a run carry

Payloads come into a cluster by `propose`, as the no-op of a new leader and as the config entry of a
membership change.  What holds of all of these holds of every payload in every log and every append
in flight (`payloads_reach`).
-/

namespace Pylog.Raft

open Effect Transition Trace

variable {ι σ δ : Type} [LinearOrder ι] {S : Setup ι σ δ} {c : Cluster ι σ δ} {e : Event ι δ}
  {n₀ : Node ι σ δ} {h : History ι σ δ} {self : Self ι σ δ} {k : Call ι δ} {ok : Bytes → Prop}

/-- Stored logs and sent windows carry such payloads only. -/
def Carries (ok : Bytes → Prop) (_ : History ι σ δ) : ι × Out ι σ δ → Prop
  | (_, .store l) => ∀ x ∈ l.entries, ok x.payload
  | (_, .send _ (.append _ _ _ _ entries _)) => ∀ x ∈ entries, ok x.payload
  | _ => True

/-- The log holds such payloads only. -/
def Holding (ok : Bytes → Prop) (_ : ι) (n : Node ι σ δ) (_ : History ι σ δ) : Prop :=
  ∀ x ∈ n.log.entries, ok x.payload

/-- The no-op, config entries and what the call proposes, when the node accepts it. -/
structure Sources (S : Setup ι σ δ) (ok : Bytes → Prop) (n₀ : Node ι σ δ) (k : Call ι δ) : Prop where
  noop : ok noop
  config : ∀ i l, ok (cfgTag ++ (S.params i).json.dumps l)
  propose : ∀ payload, k = .propose payload → n₀.Admits → ok payload

omit [LinearOrder ι] in
/-- Windows in flight carry such payloads. -/
theorem carried_window (hc : Causal (Carries ok) h) {i : ι} {t : ℕ} {l : ι} {pi : ℕ} {pt : ℤ}
    {es : List Entry} {ci : ℕ} (hm : InFlight h i (.append t l pi pt es ci)) :
    ∀ x ∈ es, ok x.payload := by
  obtain ⟨s, hs⟩ := hm
  obtain ⟨h₁, h₂, -, hj⟩ := hc.mem hs
  exact hj

theorem micro_carries {p q : Node ι σ δ × History ι σ δ} (hm : Micro self n₀ k p q)
    (hjson : self.json = (S.params self.id).json) (hk : Sources S ok n₀ k) (ha : Arrived p.2 self.id k)
    (hc : Causal (Carries ok) p.2) (hs : Holding ok self.id p.1 p.2) :
    Causal (Carries ok) q.2 ∧ Holding ok self.id q.1 q.2 := by
  cases hm with
  | raise => exact ⟨causal_concat₂.mpr ⟨hc, trivial, trivial⟩, hs⟩
  | grant => exact ⟨causal_concat₃.mpr ⟨hc, trivial, trivial, trivial⟩, hs⟩
  | campaign n n' h d hr h0 hel hn =>
    subst hn
    exact ⟨causal_concat₃.mpr ⟨hc, trivial, trivial, trivial⟩, hs⟩
  | win n n' h hr hq hn =>
    subst hn
    exact ⟨causal_concat.mpr ⟨hc, trivial⟩, hs⟩
  | sendAppend n h p hr =>
    refine ⟨causal_concat.mpr ⟨hc, ?_⟩, hs⟩
    unfold Self.appendMsg
    dsimp only
    split_ifs
    · exact trivial
    · exact fun x hx => hs x (RaftLog.mem_entriesFrom hx)
  | append n h payload hr hp =>
    have hok : ok payload := hp.elim (fun h => h ▸ hk.noop) fun h => hk.propose payload h.1 h.2
    have hnew : ∀ x ∈ (n.log.appendEntry n.currentTerm payload).entries, ok x.payload :=
      RaftLog.forall_appendEntry hs hok
    exact ⟨causal_concat.mpr ⟨hc, hnew⟩, hnew⟩
  | reconfig n n' h new hr hch hn =>
    subst hn
    have hok : ok (cfgTag ++ self.json.dumps (sortedIds new)) :=
      hjson ▸ hk.config self.id (sortedIds new)
    have hnew : ∀ x ∈ (n.log.appendEntry n.currentTerm
        (cfgTag ++ self.json.dumps (sortedIds new))).entries, ok x.payload :=
      RaftLog.forall_appendEntry hs hok
    exact ⟨causal_concat₂.mpr ⟨hc, trivial, hnew⟩, hnew⟩
  | adopt n n' h x servers hlt hx hcf hr hn =>
    subst hn
    exact ⟨causal_concat.mpr ⟨hc, trivial⟩, hs⟩
  | merge n h l pi pt es ci r hk' hr hlog hci ht hj hm =>
    subst hm
    have hent : ∀ x ∈ (n.log.merge pi pt es).log.entries, ok x.payload :=
      RaftLog.forall_merge hs (carried_window hc (ha _ hk'))
    dsimp only
    split_ifs
    · exact ⟨causal_concat₂.mpr ⟨hc, hent, trivial⟩, hent⟩
    · exact ⟨causal_concat.mpr ⟨hc, hent⟩, hent⟩
  | compact n h s l hk' hs' hcm =>
    have hent : ∀ x ∈ l.entries, ok x.payload := fun x hx => hs x (RaftLog.mem_compact hcm hx)
    exact ⟨causal_concat.mpr ⟨hc, hent⟩, hent⟩
  | install n h l s l' machine hk' hr hlog ht ha' hm hl =>
    subst hl
    have hent : ∀ x ∈ n.log.entries.filter (fun e => s.lastIncludedIndex < e.index), ok x.payload :=
      fun x hx => hs x (List.mem_of_mem_filter hx)
    exact ⟨causal_concat.mpr ⟨hc, hent⟩, hent⟩
  | _ =>
    first
    | exact ⟨hc, hs⟩
    | exact ⟨causal_concat.mpr ⟨hc, trivial⟩, hs⟩

/-- Every step whose call brings in such payloads only, crashes included, keeps them. -/
theorem payloads_step (hpre : (c.node e.node).role = .leader → (c.node e.node).preCandidate = false)
    (he : S.Enabled c e) (hk : ∀ k ∈ e.action.made, Sources S ok (c.node e.node) k)
    (hI : Local (Carries ok) (Holding ok) c) : Local (Carries ok) (Holding ok) (S.step c e) := by
  refine local_step hpre (fun i n h h' _ _ hs => hs) ?_ ?_ hI
  · intro k hmade p q hm hg hc hs
    exact micro_carries hm rfl (hk k hmade) ((arrived_of_enabled he hmade).mono hg.isPrefix) hc hs
  · intro out hown hc hs x hx
    obtain ⟨l, ci, ai, m, s, hb, hl, -⟩ := boot_eq (S.params e.node) e.node e.now e.draw
      (out.foldl (fun d o => d.write o.2) (c.node e.node).durable)
    rw [hb] at hx
    have hx' := hl x hx
    rcases write_log out (c.node e.node).durable with hlog | ⟨i, hlog⟩
    · rw [hlog] at hx'
      exact hs x hx'
    · obtain ⟨h₁, h₂, -, hj⟩ := hc.mem (List.mem_append_right _ hlog)
      exact hj x hx'

theorem payloads_init : Local (Carries ok) (Holding ok) S.init := by
  refine ⟨causal_nil, fun i x hx => ?_⟩
  obtain ⟨l, ci, ai, m, s, hb, hl, -⟩ := boot_eq (S.params i) i 0 0 {}
  have hx' : x ∈ ((S.params i).boot i 0 0 {}).log.entries := hx
  rw [hb] at hx'
  cases hl x hx'

/-- **What the sources bring is all there is.** -/
theorem payloads_reach {ok' : Cluster ι σ δ → Event ι δ → Prop}
    (hok : ∀ c e, ok' c e → S.Enabled c e ∧
      ∀ k ∈ e.action.made, Sources S ok (c.node e.node) k)
    (hr : Reach S.step ok' S.init c) : Local (Carries ok) (Holding ok) c := by
  refine hr.inv _ payloads_init fun c e hs hI he => ?_
  have hcalm := ((votesKept_reach (hs.mono fun c e h => (hok c e h).1)).2 e.node).calm
  exact payloads_step hcalm (hok c e he).1 (hok c e he).2 hI

end Pylog.Raft
