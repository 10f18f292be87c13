import Mathlib.Data.Finset.Basic
import Mathlib.Data.List.Basic
import Mathlib.Logic.Function.Basic
import Mathlib.Tactic.Common

/-!
# Replication — logs that leaders of numbered terms copy to their followers

Nodes `N` with a term and a log of entries `E`; `tm` is the term an entry was made in.  A quorum of
ballots makes a node the leader of its term if no log of the quorum is ahead of its own; only the
leader of a term adds entries of that term; a node copies a part of the log of the leader of its
term and acknowledges it.  Who may vote how often is left open: the one demand is that a term gets
one leader.

`Inv` is kept by every step (`Step.inv`).  From it: logs that share an entry's term and position
share everything before (`log_matching`), and what a quorum acknowledged in a term is in the log of
every later leader (`leader_completeness`).
-/

namespace Replication

variable {N E : Type}

structure State (N E : Type) where
  term : N → ℕ
  log : N → List E
  /-- The leader of a term, once elected. -/
  leader : ℕ → Option N
  /-- The log with which the leader of a term was elected. -/
  base : ℕ → List E
  /-- The log of the leader of a term, as far as it got. -/
  llog : ℕ → List E
  /-- The node voted in the term, with this log. -/
  ballot : N → ℕ → List E → Prop
  /-- How much of the leader's log the node acknowledged in the term. -/
  acked : N → ℕ → ℕ

/-- The term of the last entry. -/
def lastTm (tm : E → ℕ) (l : List E) : ℕ :=
  match l.getLast? with
  | some e => tm e
  | none => 0

/-- The first log is not ahead of the second. -/
def Behind (tm : E → ℕ) (l l' : List E) : Prop :=
  lastTm tm l < lastTm tm l' ∨ lastTm tm l = lastTm tm l' ∧ l.length ≤ l'.length

section System

variable [DecidableEq N] (tm : E → ℕ) (quorum : Finset N → Prop)

/-- Node `n` has acknowledged `m` entries in its term. -/
def State.ack (s : State N E) (n : N) (m : ℕ) : N → ℕ → ℕ :=
  fun v t => if v = n ∧ t = s.term n then max (s.acked v t) m else s.acked v t

/-- The steps of node `n`. -/
inductive Step (n : N) (s : State N E) : State N E → Prop
  | bump (t : ℕ) (ht : s.term n ≤ t) : Step n s { s with term := Function.update s.term n t }
  | cast :
      Step n s { s with
        ballot := fun v t l => s.ballot v t l ∨ v = n ∧ t = s.term n ∧ l = s.log n }
  | elect (Q : Finset N) (h0 : s.leader (s.term n) = none) (hQ : quorum Q)
      (hb : ∀ v ∈ Q, ∃ l, s.ballot v (s.term n) l ∧ Behind tm l (s.log n)) :
      Step n s { s with
        leader := Function.update s.leader (s.term n) (some n)
        base := Function.update s.base (s.term n) (s.log n)
        llog := Function.update s.llog (s.term n) (s.log n)
        acked := s.ack n (s.log n).length }
  | append (e : E) (hl : s.leader (s.term n) = some n)
      (hlog : s.llog (s.term n) = s.log n) (he : tm e = s.term n) :
      Step n s { s with
        log := Function.update s.log n (s.log n ++ [e])
        llog := Function.update s.llog (s.term n) (s.log n ++ [e])
        acked := s.ack n ((s.log n).length + 1) }
  | accept (m : ℕ) (l : List E) (hl : s.leader (s.term n) ≠ none)
      (hm : m ≤ (s.llog (s.term n)).length)
      (hlog : (s.llog (s.term n)).take m <+: s.log n ∧ l = s.log n ∨
        ¬(s.llog (s.term n)).take m <+: s.log n ∧ l = (s.llog (s.term n)).take m) :
      Step n s { s with log := Function.update s.log n l, acked := s.ack n m }

/-! ### The invariant -/

/-- Every entry of the log was copied, with all before it, from the leader of its term. -/
def Matches (s : State N E) (l : List E) : Prop :=
  ∀ k e, l[k]? = some e → s.leader (tm e) ≠ none ∧ l.take (k + 1) <+: s.llog (tm e)

/-- Some leader of a term after `T` and before `b` was elected without the first `m` entries of the
leader of `T`. -/
def Lost (s : State N E) (T m b : ℕ) : Prop :=
  ∃ T', T < T' ∧ T' < b ∧ s.leader T' ≠ none ∧ ¬(s.llog T).take m <+: s.base T'

structure Inv (s : State N E) : Prop where
  matches_log : ∀ n, Matches tm s (s.log n)
  matches_ballot : ∀ v t l, s.ballot v t l → Matches tm s l
  matches_llog : ∀ t, s.leader t ≠ none → Matches tm s (s.llog t)
  log_term : ∀ n, ∀ e ∈ s.log n, tm e ≤ s.term n
  base_lt : ∀ t, s.leader t ≠ none → ∀ e ∈ s.base t, tm e < t
  llog_eq : ∀ t, s.leader t ≠ none → ∃ own, s.llog t = s.base t ++ own ∧ ∀ e ∈ own, tm e = t
  leader_term : ∀ t n, s.leader t = some n → t ≤ s.term n
  ballot_term : ∀ v t l, s.ballot v t l → t ≤ s.term v
  acked_ok : ∀ n T, s.acked n T ≠ 0 →
    T ≤ s.term n ∧ s.leader T ≠ none ∧ s.acked n T ≤ (s.llog T).length
  own_ack : ∀ t n, s.leader t = some n → (s.llog t).length ≤ s.acked n t
  hold : ∀ n T m, 0 < m → m ≤ s.acked n T →
    (s.llog T).take m <+: s.log n ∨ Lost s T m (s.term n + 1)
  hold_ballot : ∀ v t l, s.ballot v t l → ∀ T m, T < t → 0 < m → m ≤ s.acked v T →
    (s.llog T).take m <+: l ∨ Lost s T m (t + 1)
  elected : ∀ t, s.leader t ≠ none → ∃ Q, quorum Q ∧ ∀ v ∈ Q, ∃ l, s.ballot v t l ∧
    Behind tm l (s.base t) ∧ ∀ T m, T < t → 0 < m → m ≤ s.acked v T →
      (s.llog T).take m <+: l ∨ Lost s T m t

omit [DecidableEq N] in
/-- Nothing has happened. -/
theorem inv_init (s : State N E) (hlog : ∀ n, s.log n = []) (hl : ∀ t, s.leader t = none)
    (hb : ∀ v t l, ¬s.ballot v t l) (ha : ∀ n t, s.acked n t = 0) : Inv tm quorum s where
  matches_log n k e h := by simp [hlog] at h
  matches_ballot v t l h := absurd h (hb v t l)
  matches_llog t h := absurd (hl t) h
  log_term n e h := by simp [hlog] at h
  base_lt t h := absurd (hl t) h
  llog_eq t h := absurd (hl t) h
  leader_term t n h := by rw [hl] at h; cases h
  ballot_term v t l h := absurd h (hb v t l)
  acked_ok n T h := absurd (ha n T) h
  own_ack t n h := by rw [hl] at h; cases h
  hold n T m h0 h := by rw [ha] at h; omega
  hold_ballot v t l h := absurd h (hb v t l)
  elected t h := absurd (hl t) h

end System

/-! ### What only grows -/

variable {tm : E → ℕ} {quorum : Finset N → Prop} {s s' : State N E}

/-- Elections stand and leaders only add to their logs. -/
structure Grows (s s' : State N E) : Prop where
  leader : ∀ t, s.leader t ≠ none → s'.leader t = s.leader t
  base : ∀ t, s.leader t ≠ none → s'.base t = s.base t
  llog : ∀ t, s.leader t ≠ none → s.llog t <+: s'.llog t

theorem Grows.led (hg : Grows s s') {t : ℕ} (h : s.leader t ≠ none) : s'.leader t ≠ none := by
  rw [hg.leader t h]
  exact h

theorem Grows.take (hg : Grows s s') {t m : ℕ} (h : s.leader t ≠ none)
    (hm : m ≤ (s.llog t).length) : (s'.llog t).take m = (s.llog t).take m := by
  obtain ⟨l, hl⟩ := hg.llog t h
  rw [← hl, List.take_append_of_le_length hm]

theorem Matches.mono {l : List E} (hg : Grows s s') (h : Matches tm s l) : Matches tm s' l := by
  intro k e he
  obtain ⟨hled, hp⟩ := h k e he
  exact ⟨hg.led hled, hp.trans (hg.llog _ hled)⟩

theorem Lost.mono {T m b b' : ℕ} (hg : Grows s s') (hT : s.leader T ≠ none)
    (hm : m ≤ (s.llog T).length) (hb : b ≤ b') (h : Lost s T m b) : Lost s' T m b' := by
  obtain ⟨T', hlt, hle, hled, hno⟩ := h
  refine ⟨T', hlt, by omega, hg.led hled, ?_⟩
  rw [hg.take hT hm, hg.base T' hled]
  exact hno

/-- An acknowledged part is of a led term and inside the leader's log. -/
theorem Inv.acked_le (hI : Inv tm quorum s) {n : N} {T m : ℕ} (h0 : 0 < m) (hm : m ≤ s.acked n T) :
    T ≤ s.term n ∧ s.leader T ≠ none ∧ m ≤ (s.llog T).length := by
  obtain ⟨h1, h2, h3⟩ := hI.acked_ok n T (by omega)
  exact ⟨h1, h2, by omega⟩

/-- What was kept or lost stays so, for a log that kept its acknowledged part. -/
theorem Inv.kept_or_lost (hI : Inv tm quorum s) (hg : Grows s s') {n : N} {T m b b' : ℕ}
    {l l' : List E} (h0 : 0 < m) (hm : m ≤ s.acked n T) (hb : b ≤ b')
    (hl : (s.llog T).take m <+: l → (s.llog T).take m <+: l' ∨ Lost s' T m b')
    (h : (s.llog T).take m <+: l ∨ Lost s T m b) :
    (s'.llog T).take m <+: l' ∨ Lost s' T m b' := by
  obtain ⟨-, hT, hlen⟩ := hI.acked_le h0 hm
  rw [hg.take hT hlen]
  rcases h with h | h
  · exact hl h
  · exact .inr (h.mono hg hT hlen hb)

/-! ### Every step keeps the invariant -/

/-- Terms in the log of a leader. -/
theorem Inv.llog_le (hI : Inv tm quorum s) {t : ℕ} (ht : s.leader t ≠ none) {e : E}
    (he : e ∈ s.llog t) : tm e ≤ t := by
  obtain ⟨own, hown, hterm⟩ := hI.llog_eq t ht
  rw [hown] at he
  rcases List.mem_append.mp he with he | he
  · exact (hI.base_lt t ht e he).le
  · exact (hterm e he).le

/-- The log of the leader of a term extends the one it was elected with. -/
theorem Inv.base_prefix (hI : Inv tm quorum s) {t : ℕ} (ht : s.leader t ≠ none) :
    s.base t <+: s.llog t := by
  obtain ⟨own, hown, -⟩ := hI.llog_eq t ht
  rw [hown]
  exact List.prefix_append _ _

/-- A copy from the leader keeps every common part of the node's log and the leader's. -/
theorem copy_keeps {src old new q : List E} {m : ℕ}
    (h : src.take m <+: old ∧ new = old ∨ ¬src.take m <+: old ∧ new = src.take m)
    (h1 : q <+: old) (h2 : q <+: src) : q <+: new := by
  rcases h with ⟨-, rfl⟩ | ⟨hno, rfl⟩
  · exact h1
  · rcases le_total q.length (src.take m).length with hle | hle
    · exact List.prefix_of_prefix_length_le h2 (List.take_prefix _ _) hle
    · have hback := List.prefix_of_prefix_length_le (List.take_prefix m src) h2 hle
      exact absurd (hback.trans h1) hno

theorem copy_holds {src old new : List E} {m : ℕ}
    (h : src.take m <+: old ∧ new = old ∨ ¬src.take m <+: old ∧ new = src.take m) :
    src.take m <+: new := by
  rcases h with ⟨hp, rfl⟩ | ⟨-, rfl⟩
  · exact hp
  · exact List.prefix_refl _

theorem Matches.take {l : List E} (h : Matches tm s l) (m : ℕ) : Matches tm s (l.take m) := by
  intro k e he
  rw [List.getElem?_take] at he
  split_ifs at he with hk
  rw [List.take_take, min_eq_left (by omega)]
  exact h k e he

section Steps

variable [DecidableEq N]

theorem inv_bump (hI : Inv tm quorum s) {n : N} {t : ℕ} (ht : s.term n ≤ t) :
    Inv tm quorum { s with term := Function.update s.term n t } := by
  have hle : ∀ v, s.term v ≤ Function.update s.term n t v := by
    intro v
    by_cases hv : v = n
    · subst hv
      rw [Function.update_self]
      exact ht
    · rw [Function.update_of_ne hv]
  refine ⟨hI.matches_log, hI.matches_ballot, hI.matches_llog, ?_, hI.base_lt, hI.llog_eq, ?_, ?_,
    ?_, hI.own_ack, ?_, hI.hold_ballot, hI.elected⟩
  · exact fun v e he => (hI.log_term v e he).trans (hle v)
  · exact fun t' v hv => (hI.leader_term t' v hv).trans (hle v)
  · exact fun v t' l hb => (hI.ballot_term v t' l hb).trans (hle v)
  · intro v T hv
    obtain ⟨h1, h2⟩ := hI.acked_ok v T hv
    exact ⟨h1.trans (hle v), h2⟩
  · intro v T m h0 hm
    have hg : Grows s { s with term := Function.update s.term n t } :=
      ⟨fun _ _ => rfl, fun _ _ => rfl, fun _ _ => List.prefix_refl _⟩
    exact hI.kept_or_lost hg h0 hm (Nat.succ_le_succ (hle v)) .inl (hI.hold v T m h0 hm)

omit [DecidableEq N] in
theorem inv_cast (hI : Inv tm quorum s) (n : N) :
    Inv tm quorum { s with
      ballot := fun v t l => s.ballot v t l ∨ v = n ∧ t = s.term n ∧ l = s.log n } := by
  refine ⟨hI.matches_log, ?_, hI.matches_llog, hI.log_term, hI.base_lt, hI.llog_eq, hI.leader_term,
    ?_, hI.acked_ok, hI.own_ack, hI.hold, ?_, ?_⟩
  · rintro v t l (hb | ⟨rfl, rfl, rfl⟩)
    · exact hI.matches_ballot v t l hb
    · exact hI.matches_log v
  · rintro v t l (hb | ⟨rfl, rfl, rfl⟩)
    · exact hI.ballot_term v t l hb
    · exact le_rfl
  · rintro v t l (hb | ⟨rfl, rfl, rfl⟩) T m hT h0 hm
    · exact hI.hold_ballot v t l hb T m hT h0 hm
    · exact hI.hold v T m h0 hm
  · intro t ht
    obtain ⟨Q, hQ, hv⟩ := hI.elected t ht
    refine ⟨Q, hQ, fun v hvQ => ?_⟩
    obtain ⟨l, hb, hrest⟩ := hv v hvQ
    exact ⟨l, .inl hb, hrest⟩

/-- Acknowledging in its own term leaves what a node acknowledged before alone. -/
theorem ack_of_lt {n v : N} {m T : ℕ} (h : v = n → T ≠ s.term n) : s.ack n m v T = s.acked v T := by
  unfold State.ack
  rw [if_neg]
  rintro ⟨rfl, hT⟩
  exact h rfl hT

theorem ack_self (s : State N E) (n : N) (m : ℕ) :
    s.ack n m n (s.term n) = max (s.acked n (s.term n)) m := if_pos ⟨rfl, rfl⟩

/-- A node has acknowledged what it acknowledges in its term. -/
theorem le_ack_own (s : State N E) (n : N) {m t : ℕ} (ht : t = s.term n) : m ≤ s.ack n m n t := by
  rw [ht, ack_self]
  exact le_max_right _ _

theorem acked_le_ack (s : State N E) (n v : N) (m T : ℕ) : s.acked v T ≤ s.ack n m v T := by
  unfold State.ack
  split_ifs
  · exact le_max_left _ _
  · exact le_rfl

/-- What is acknowledged is new, or was acknowledged before. -/
theorem le_ack (s : State N E) (n v : N) (m T : ℕ) {m' : ℕ} (h : m' ≤ s.ack n m v T) :
    (T = s.term n ∧ v = n ∧ m' ≤ m) ∨ m' ≤ s.acked v T := by
  by_cases hv : v = n ∧ T = s.term n
  · obtain ⟨rfl, rfl⟩ := hv
    rw [ack_self] at h
    rcases le_max_iff.mp h with h | h
    · exact .inr h
    · exact .inl ⟨rfl, rfl, h⟩
  · rw [ack_of_lt fun h1 h2 => hv ⟨h1, h2⟩] at h
    exact .inr h

/-- Acknowledging in its own term says nothing about ballots a node cast before. -/
theorem ack_of_ballot (hI : Inv tm quorum s) {n v : N} {m t T : ℕ} {l : List E}
    (hb : s.ballot v t l) (hT : T < t) : s.ack n m v T = s.acked v T := by
  refine ack_of_lt ?_
  rintro rfl
  have := hI.ballot_term v t l hb
  omega

/-- Old ballots and elections after a step in which `n` acknowledges something. -/
theorem Inv.ballots_of_ack (hI : Inv tm quorum s) (hg : Grows s s') {n : N} {m : ℕ}
    (hb : s'.ballot = s.ballot) (ha : s'.acked = s.ack n m) :
    (∀ v t l, s'.ballot v t l → ∀ T m, T < t → 0 < m → m ≤ s'.acked v T →
      (s'.llog T).take m <+: l ∨ Lost s' T m (t + 1)) ∧
    ∀ t, s.leader t ≠ none → ∃ Q, quorum Q ∧ ∀ v ∈ Q, ∃ l, s'.ballot v t l ∧
      Behind tm l (s'.base t) ∧ ∀ T m, T < t → 0 < m → m ≤ s'.acked v T →
        (s'.llog T).take m <+: l ∨ Lost s' T m t := by
  rw [hb, ha]
  refine ⟨fun v t l hbl T m' hT hm0 hm => ?_, fun t ht => ?_⟩
  · rw [ack_of_ballot hI hbl hT] at hm
    exact hI.kept_or_lost hg hm0 hm le_rfl .inl (hI.hold_ballot v t l hbl T m' hT hm0 hm)
  · obtain ⟨Q, hQ, hv⟩ := hI.elected t ht
    refine ⟨Q, hQ, fun v hvQ => ?_⟩
    obtain ⟨l, hbl, hbeh, hkeep⟩ := hv v hvQ
    refine ⟨l, hbl, by rw [hg.base t ht]; exact hbeh, fun T m' hT hm0 hm => ?_⟩
    rw [ack_of_ballot hI hbl hT] at hm
    exact hI.kept_or_lost hg hm0 hm le_rfl .inl (hkeep T m' hT hm0 hm)

theorem inv_elect (hI : Inv tm quorum s) {n : N} {Q : Finset N} (h0 : s.leader (s.term n) = none)
    (hQ : quorum Q) (hb : ∀ v ∈ Q, ∃ l, s.ballot v (s.term n) l ∧ Behind tm l (s.log n)) :
    Inv tm quorum { s with
      leader := Function.update s.leader (s.term n) (some n)
      base := Function.update s.base (s.term n) (s.log n)
      llog := Function.update s.llog (s.term n) (s.log n)
      acked := s.ack n (s.log n).length } := by
  set s' : State N E := { s with
    leader := Function.update s.leader (s.term n) (some n)
    base := Function.update s.base (s.term n) (s.log n)
    llog := Function.update s.llog (s.term n) (s.log n)
    acked := s.ack n (s.log n).length } with hs'
  have hne : ∀ t, s.leader t ≠ none → t ≠ s.term n := by
    rintro t ht rfl
    exact ht h0
  have hlog : s'.llog (s.term n) = s.log n := Function.update_self ..
  have hbase : s'.base (s.term n) = s.log n := Function.update_self ..
  have hold : ∀ t, t ≠ s.term n → s'.leader t = s.leader t ∧ s'.base t = s.base t ∧
      s'.llog t = s.llog t := fun t ht =>
    ⟨Function.update_of_ne ht .., Function.update_of_ne ht .., Function.update_of_ne ht ..⟩
  have hg : Grows s s' := by
    refine ⟨fun t ht => (hold t (hne t ht)).1, fun t ht => (hold t (hne t ht)).2.1, fun t ht => ?_⟩
    rw [(hold t (hne t ht)).2.2]
  obtain ⟨hballots, helected⟩ := hI.ballots_of_ack (n := n) (m := (s.log n).length) hg rfl rfl
  -- nobody acknowledged anything in a term without a leader
  have hack : ∀ v T m, 0 < m → m ≤ s'.acked v T → T = s.term n ∧ v = n ∨
      T ≠ s.term n ∧ m ≤ s.acked v T := by
    intro v T m hm0 hm
    by_cases hT : T = s.term n
    · by_cases hv : v = n
      · exact .inl ⟨hT, hv⟩
      · rw [show s'.acked v T = s.acked v T from ack_of_lt fun h => absurd h hv] at hm
        exact absurd hT (hne T (hI.acked_le hm0 hm).2.1)
    · rw [show s'.acked v T = s.acked v T from ack_of_lt fun _ => hT] at hm
      exact .inr ⟨hT, hm⟩
  refine {
    matches_log := fun v => (hI.matches_log v).mono hg
    matches_ballot := fun v t l h => (hI.matches_ballot v t l h).mono hg
    matches_llog := ?matches_llog
    log_term := hI.log_term
    base_lt := ?base_lt
    llog_eq := ?llog_eq
    leader_term := ?leader_term
    ballot_term := hI.ballot_term
    acked_ok := ?acked_ok
    own_ack := ?own_ack
    hold := ?hold
    hold_ballot := hballots
    elected := ?elected }
  case matches_llog =>
    intro t ht
    by_cases htn : t = s.term n
    · rw [htn, hlog]
      exact (hI.matches_log n).mono hg
    · rw [(hold t htn).1] at ht
      rw [(hold t htn).2.2]
      exact (hI.matches_llog t ht).mono hg
  case base_lt =>
    -- an entry of this term would have a leader already
    intro t ht e he
    by_cases htn : t = s.term n
    · rw [htn, hbase] at he
      rw [htn]
      obtain ⟨k, hk⟩ := List.mem_iff_getElem?.mp he
      have hterm := hI.log_term n e he
      have := hne _ (hI.matches_log n k e hk).1
      omega
    · rw [(hold t htn).1] at ht
      rw [(hold t htn).2.1] at he
      exact hI.base_lt t ht e he
  case llog_eq =>
    intro t ht
    by_cases htn : t = s.term n
    · rw [htn, hbase, hlog]
      exact ⟨[], by simp, by simp⟩
    · rw [(hold t htn).1] at ht
      rw [(hold t htn).2.1, (hold t htn).2.2]
      exact hI.llog_eq t ht
  case leader_term =>
    intro t v hv
    by_cases htn : t = s.term n
    · rw [htn, show s'.leader (s.term n) = some n from Function.update_self ..] at hv
      cases hv
      exact htn.le
    · rw [(hold t htn).1] at hv
      exact hI.leader_term t v hv
  case acked_ok =>
    intro v T hv
    rcases hack v T _ (Nat.pos_of_ne_zero hv) le_rfl with ⟨rfl, rfl⟩ | ⟨hT, hle⟩
    · refine ⟨le_rfl, by rw [show s'.leader (s.term v) = some v from Function.update_self ..]; simp, ?_⟩
      rw [hlog]
      have hz : s.acked v (s.term v) = 0 := by
        by_contra hz
        exact (hI.acked_ok v _ hz).2.1 h0
      refine (ack_self s v _).le.trans ?_
      rw [hz]
      simp
    · rw [show s'.acked v T = s.acked v T from ack_of_lt fun _ => hT] at hv ⊢
      rw [(hold T hT).1, (hold T hT).2.2]
      exact hI.acked_ok v T hv
  case own_ack =>
    intro t v hv
    by_cases htn : t = s.term n
    · rw [htn, show s'.leader (s.term n) = some n from Function.update_self ..] at hv
      cases hv
      rw [htn, hlog]
      exact le_ack_own s n rfl
    · rw [(hold t htn).1] at hv
      rw [(hold t htn).2.2, show s'.acked v t = s.acked v t from ack_of_lt fun _ => htn]
      exact hI.own_ack t v hv
  case hold =>
    intro v T m hm0 hm
    rcases hack v T m hm0 hm with ⟨rfl, rfl⟩ | ⟨-, hm⟩
    · rw [hlog]
      exact .inl (List.take_prefix _ _)
    · exact hI.kept_or_lost hg hm0 hm le_rfl .inl (hI.hold v T m hm0 hm)
  case elected =>
    intro t ht
    by_cases htn : t = s.term n
    · subst htn
      refine ⟨Q, hQ, fun v hv => ?_⟩
      obtain ⟨l, hbl, hbeh⟩ := hb v hv
      refine ⟨l, hbl, by rw [hbase]; exact hbeh, fun T m hT hm0 hm => ?_⟩
      rw [show s'.acked v T = s.acked v T from ack_of_ballot hI hbl hT] at hm
      refine hI.kept_or_lost hg hm0 hm (le_refl (s.term n)) .inl ?_
      -- the term itself had no leader, so what was lost was lost before it
      rcases hI.hold_ballot v _ l hbl T m hT hm0 hm with hk | ⟨T', h1, h2, h3, h4⟩
      · exact .inl hk
      · have := hne T' h3
        exact .inr ⟨T', h1, by omega, h3, h4⟩
    · rw [(hold t htn).1] at ht
      exact helected t ht

omit [DecidableEq N] in
/-- A list with an entry more matches when the leader of its term has it all. -/
theorem Matches.concat {l : List E} {e : E} (hl : Matches tm s l) (hled : s.leader (tm e) ≠ none)
    (hpre : l ++ [e] <+: s.llog (tm e)) : Matches tm s (l ++ [e]) := by
  intro k x hx
  by_cases hk : k < l.length
  · rw [List.getElem?_append_left hk] at hx
    rw [List.take_append_of_le_length (by omega)]
    exact hl k x hx
  · rw [List.getElem?_append_right (by omega)] at hx
    obtain ⟨h1, h2⟩ := List.getElem?_eq_some_iff.mp hx
    rw [List.getElem_singleton] at h2
    subst h2
    exact ⟨hled, (List.take_prefix _ _).trans hpre⟩

theorem inv_append (hI : Inv tm quorum s) {n : N} {e : E} (hl : s.leader (s.term n) = some n)
    (hlog : s.llog (s.term n) = s.log n) (he : tm e = s.term n) :
    Inv tm quorum { s with
      log := Function.update s.log n (s.log n ++ [e])
      llog := Function.update s.llog (s.term n) (s.log n ++ [e])
      acked := s.ack n ((s.log n).length + 1) } := by
  set s' : State N E := { s with
    log := Function.update s.log n (s.log n ++ [e])
    llog := Function.update s.llog (s.term n) (s.log n ++ [e])
    acked := s.ack n ((s.log n).length + 1) } with hs'
  have hled : s.leader (s.term n) ≠ none := by rw [hl]; simp
  have hllog : s'.llog (s.term n) = s.log n ++ [e] := Function.update_self ..
  have hother : ∀ t, t ≠ s.term n → s'.llog t = s.llog t := fun t ht => Function.update_of_ne ht ..
  have hlogn : s'.log n = s.log n ++ [e] := Function.update_self ..
  have hlogv : ∀ v, v ≠ n → s'.log v = s.log v := fun v hv => Function.update_of_ne hv ..
  have hg : Grows s s' := by
    refine ⟨fun _ _ => rfl, fun _ _ => rfl, fun t ht => ?_⟩
    by_cases htn : t = s.term n
    · rw [htn, hllog, hlog]
      exact List.prefix_append _ _
    · rw [hother t htn]
  have hmatch : Matches tm s' (s.log n ++ [e]) := by
    refine ((hI.matches_log n).mono hg).concat (he ▸ hled) ?_
    rw [he, hllog]
  obtain ⟨hballots, helected⟩ := hI.ballots_of_ack (n := n) (m := (s.log n).length + 1) hg rfl rfl
  refine {
    matches_log := ?matches_log
    matches_ballot := fun v t l h => (hI.matches_ballot v t l h).mono hg
    matches_llog := ?matches_llog
    log_term := ?log_term
    base_lt := hI.base_lt
    llog_eq := ?llog_eq
    leader_term := hI.leader_term
    ballot_term := hI.ballot_term
    acked_ok := ?acked_ok
    own_ack := ?own_ack
    hold := ?hold
    hold_ballot := hballots
    elected := helected }
  case matches_log =>
    intro v
    by_cases hv : v = n
    · rw [hv, hlogn]
      exact hmatch
    · rw [hlogv v hv]
      exact (hI.matches_log v).mono hg
  case matches_llog =>
    intro t ht
    by_cases htn : t = s.term n
    · rw [htn, hllog]
      exact hmatch
    · rw [hother t htn]
      exact (hI.matches_llog t ht).mono hg
  case log_term =>
    intro v x hx
    by_cases hv : v = n
    · rw [hv, hlogn] at hx
      rw [hv]
      rcases List.mem_append.mp hx with hx | hx
      · exact hI.log_term n x hx
      · rw [List.mem_singleton] at hx
        rw [hx, he]
    · rw [hlogv v hv] at hx
      exact hI.log_term v x hx
  case llog_eq =>
    intro t ht
    obtain ⟨own, hown, hterm⟩ := hI.llog_eq t ht
    by_cases htn : t = s.term n
    · refine ⟨own ++ [e], ?_, ?_⟩
      · rw [htn, hllog, ← List.append_assoc, ← hlog, ← htn, hown]
      · intro x hx
        rcases List.mem_append.mp hx with hx | hx
        · exact hterm x hx
        · rw [List.mem_singleton] at hx
          rw [hx, he, htn]
    · rw [hother t htn]
      exact ⟨own, hown, hterm⟩
  case acked_ok =>
    intro v T hv
    rcases le_ack s n v _ T (le_refl (s'.acked v T)) with ⟨rfl, rfl, -⟩ | hle
    · refine ⟨le_rfl, hled, ?_⟩
      rw [hllog, List.length_append, List.length_singleton]
      refine (ack_self s v _).le.trans ?_
      have : s.acked v (s.term v) ≤ (s.log v).length := by
        by_cases hz : s.acked v (s.term v) = 0
        · omega
        · rw [← hlog]
          exact (hI.acked_ok v _ hz).2.2
      omega
    · obtain ⟨h1, h2, h3⟩ := hI.acked_le (Nat.pos_of_ne_zero hv) hle
      exact ⟨h1, h2, h3.trans (hg.llog T h2).length_le⟩
  case own_ack =>
    intro t v hv
    have hv' : s.leader t = some v := hv
    by_cases htn : t = s.term n
    · subst htn
      rw [hl] at hv'
      cases hv'
      rw [hllog, List.length_append, List.length_singleton]
      exact le_ack_own s n rfl
    · rw [hother t htn, show s'.acked v t = s.acked v t from ack_of_lt fun _ => htn]
      exact hI.own_ack t v hv'
  case hold =>
    intro v T m hm0 hm
    rcases le_ack s n v _ T hm with ⟨rfl, rfl, -⟩ | hm
    · rw [hllog, hlogn]
      exact .inl (List.take_prefix _ _)
    · refine hI.kept_or_lost hg hm0 hm le_rfl (fun hk => .inl ?_) (hI.hold v T m hm0 hm)
      by_cases hv : v = n
      · subst hv
        rw [hlogn]
        exact hk.trans (List.prefix_append _ _)
      · rw [hlogv v hv]
        exact hk

theorem inv_accept (hI : Inv tm quorum s) {n : N} {m : ℕ} {l : List E}
    (hl : s.leader (s.term n) ≠ none) (hm : m ≤ (s.llog (s.term n)).length)
    (hlog : (s.llog (s.term n)).take m <+: s.log n ∧ l = s.log n ∨
      ¬(s.llog (s.term n)).take m <+: s.log n ∧ l = (s.llog (s.term n)).take m) :
    Inv tm quorum { s with log := Function.update s.log n l, acked := s.ack n m } := by
  set s' : State N E := { s with log := Function.update s.log n l, acked := s.ack n m } with hs'
  have hlogn : s'.log n = l := Function.update_self ..
  have hlogv : ∀ v, v ≠ n → s'.log v = s.log v := fun v hv => Function.update_of_ne hv ..
  have hg : Grows s s' := ⟨fun _ _ => rfl, fun _ _ => rfl, fun _ _ => List.prefix_refl _⟩
  obtain ⟨hballots, helected⟩ := hI.ballots_of_ack (n := n) (m := m) hg rfl rfl
  refine {
    matches_log := ?matches_log
    matches_ballot := hI.matches_ballot
    matches_llog := hI.matches_llog
    log_term := ?log_term
    base_lt := hI.base_lt
    llog_eq := hI.llog_eq
    leader_term := hI.leader_term
    ballot_term := hI.ballot_term
    acked_ok := ?acked_ok
    own_ack := ?own_ack
    hold := ?hold
    hold_ballot := hballots
    elected := helected }
  case matches_log =>
    intro v
    by_cases hv : v = n
    · rw [hv, hlogn]
      rcases hlog with ⟨-, rfl⟩ | ⟨-, rfl⟩
      · exact hI.matches_log n
      · exact (hI.matches_llog _ hl).take m
    · rw [hlogv v hv]
      exact hI.matches_log v
  case log_term =>
    intro v x hx
    by_cases hv : v = n
    · rw [hv, hlogn] at hx
      rw [hv]
      rcases hlog with ⟨-, rfl⟩ | ⟨-, rfl⟩
      · exact hI.log_term n x hx
      · exact hI.llog_le hl (List.mem_of_mem_take hx)
    · rw [hlogv v hv] at hx
      exact hI.log_term v x hx
  case acked_ok =>
    intro v T hv
    rcases le_ack s n v _ T (le_refl (s'.acked v T)) with ⟨rfl, rfl, hle⟩ | hle
    · exact ⟨le_rfl, hl, hle.trans hm⟩
    · obtain ⟨h1, h2, h3⟩ := hI.acked_le (Nat.pos_of_ne_zero hv) hle
      exact ⟨h1, h2, h3⟩
  case own_ack =>
    intro t v hv
    exact (hI.own_ack t v hv).trans (acked_le_ack s n v m t)
  case hold =>
    intro v T m' hm0 hm'
    rcases le_ack s n v _ T hm' with ⟨rfl, rfl, hle⟩ | hmo
    · rw [hlogn]
      refine .inl (List.IsPrefix.trans ?_ (copy_holds hlog))
      exact List.take_prefix_take_left hle
    · by_cases hv : v = n
      · subst hv
        rw [hlogn]
        obtain ⟨hT, -⟩ := hI.acked_le hm0 hmo
        refine hI.kept_or_lost hg hm0 hmo le_rfl (fun hk => ?_) (hI.hold v T m' hm0 hmo)
        -- a leader of a later term may lack the part; one of the same term has it
        rcases Nat.lt_or_ge T (s.term v) with hlt | hge
        · by_cases hbase : (s.llog T).take m' <+: s.base (s.term v)
          · exact .inl (copy_keeps hlog hk (hbase.trans (hI.base_prefix hl)))
          · exact .inr ⟨s.term v, hlt, Nat.lt_succ_self _, hl, hbase⟩
        · obtain rfl : T = s.term v := le_antisymm hT hge
          exact .inl (copy_keeps hlog hk (List.take_prefix _ _))
      · rw [hlogv v hv]
        exact hI.kept_or_lost hg hm0 hmo le_rfl .inl (hI.hold v T m' hm0 hmo)

/-- **Every step keeps the invariant.** -/
theorem Step.inv {n : N} (hs : Step tm quorum n s s') (hI : Inv tm quorum s) :
    Inv tm quorum s' := by
  cases hs with
  | bump t ht => exact inv_bump hI ht
  | cast => exact inv_cast hI n
  | elect Q h0 hQ hb => exact inv_elect hI h0 hQ hb
  | append e hl hlog he => exact inv_append hI hl hlog he
  | accept m l hl hm hlog => exact inv_accept hI hl hm hlog

/-- What steps of node `n` leave alone: elections, acknowledgements and ballots stand, other nodes
and the logs of other leaders stay. -/
structure Moved (n : N) (s s' : State N E) : Prop where
  grows : Grows s s'
  acked : ∀ v T, s.acked v T ≤ s'.acked v T
  ballot : ∀ v t l, s.ballot v t l → s'.ballot v t l
  term : ∀ v, s.term v ≤ s'.term v
  others : ∀ v, v ≠ n → s'.term v = s.term v ∧ s'.log v = s.log v
  llog : ∀ v t, v ≠ n → s.leader t = some v → s'.llog t = s.llog t
  leader : ∀ v t, v ≠ n → s'.leader t = some v → s.leader t = some v

omit [DecidableEq N] in
theorem Moved.refl (n : N) (s : State N E) : Moved n s s :=
  ⟨⟨fun _ _ => rfl, fun _ _ => rfl, fun _ _ => List.prefix_refl _⟩, fun _ _ => le_rfl,
    fun _ _ _ h => h, fun _ => le_rfl, fun _ _ => ⟨rfl, rfl⟩, fun _ _ _ _ => rfl, fun _ _ _ h => h⟩

omit [DecidableEq N] in
theorem Moved.trans {n : N} {s₁ s₂ s₃ : State N E} (h : Moved n s₁ s₂) (h' : Moved n s₂ s₃) :
    Moved n s₁ s₃ := by
  refine ⟨⟨fun t ht => ?_, fun t ht => ?_, fun t ht => ?_⟩, fun v T => (h.acked v T).trans (h'.acked v T),
    fun v t l hb => h'.ballot v t l (h.ballot v t l hb), fun v => (h.term v).trans (h'.term v),
    fun v hv => ?_, fun v t hv hl => ?_, fun v t hv hl => h.leader v t hv (h'.leader v t hv hl)⟩
  · rw [h'.grows.leader t (h.grows.led ht), h.grows.leader t ht]
  · rw [h'.grows.base t (h.grows.led ht), h.grows.base t ht]
  · exact (h.grows.llog t ht).trans (h'.grows.llog t (h.grows.led ht))
  · obtain ⟨h1, h2⟩ := h.others v hv
    obtain ⟨h3, h4⟩ := h'.others v hv
    exact ⟨h3.trans h1, h4.trans h2⟩
  · have hled : s₁.leader t ≠ none := by rw [hl]; simp
    rw [h'.llog v t hv (by rw [h.grows.leader t hled, hl]), h.llog v t hv hl]

theorem Step.moved {n : N} (hs : Step tm quorum n s s') : Moved n s s' := by
  have hack : ∀ m v T, s.acked v T ≤ s.ack n m v T := fun m v T => acked_le_ack s n v m T
  have hsame : ∀ s' : State N E, s'.leader = s.leader → s'.base = s.base → s'.llog = s.llog →
      Grows s s' ∧ (∀ v t, v ≠ n → s.leader t = some v → s'.llog t = s.llog t) ∧
        ∀ v t, v ≠ n → s'.leader t = some v → s.leader t = some v := by
    intro s' h1 h2 h3
    rw [h1, h3]
    exact ⟨⟨fun t _ => by rw [h1], fun t _ => by rw [h2], fun t _ => by rw [h3]⟩,
      fun _ _ _ _ => rfl, fun _ _ _ h => h⟩
  cases hs with
  | bump t ht =>
    obtain ⟨h1, h2, h3⟩ := hsame { s with term := Function.update s.term n t } rfl rfl rfl
    refine ⟨h1, fun _ _ => le_rfl, fun _ _ _ h => h, fun v => ?_, fun v hv => ?_, h2, h3⟩
    · show s.term v ≤ Function.update s.term n t v
      by_cases hv : v = n
      · rw [hv, Function.update_self]
        exact ht
      · rw [Function.update_of_ne hv]
    · exact ⟨Function.update_of_ne hv .., rfl⟩
  | cast =>
    obtain ⟨h1, h2, h3⟩ := hsame { s with
      ballot := fun v t l => s.ballot v t l ∨ v = n ∧ t = s.term n ∧ l = s.log n } rfl rfl rfl
    exact ⟨h1, fun _ _ => le_rfl, fun _ _ _ h => .inl h, fun _ => le_rfl, fun _ _ => ⟨rfl, rfl⟩,
      h2, h3⟩
  | elect Q h0 hQ hb =>
    have hne : ∀ t, s.leader t ≠ none → t ≠ s.term n := by
      rintro t ht rfl
      exact ht h0
    refine ⟨⟨fun t ht => Function.update_of_ne (hne t ht) .., fun t ht =>
      Function.update_of_ne (hne t ht) .., fun t ht => ?_⟩, hack _, fun _ _ _ h => h,
      fun _ => le_rfl, fun _ _ => ⟨rfl, rfl⟩, fun v t hv hl => ?_, fun v t hv hl => ?_⟩
    · show s.llog t <+: Function.update s.llog (s.term n) (s.log n) t
      rw [Function.update_of_ne (hne t ht)]
    · exact Function.update_of_ne (hne t (by rw [hl]; simp)) ..
    · have hl' : Function.update s.leader (s.term n) (some n) t = some v := hl
      by_cases htn : t = s.term n
      · rw [htn, Function.update_self] at hl'
        cases hl'
        exact absurd rfl hv
      · rwa [Function.update_of_ne htn] at hl'
  | append e hl hlog he =>
    refine ⟨⟨fun _ _ => rfl, fun _ _ => rfl, fun t ht => ?_⟩, hack _, fun _ _ _ h => h,
      fun _ => le_rfl, fun v hv => ⟨rfl, Function.update_of_ne hv ..⟩, fun v t hv hlv => ?_,
      fun _ _ _ h => h⟩
    · show s.llog t <+: Function.update s.llog (s.term n) (s.log n ++ [e]) t
      by_cases htn : t = s.term n
      · rw [htn, Function.update_self, hlog]
        exact List.prefix_append _ _
      · rw [Function.update_of_ne htn]
    · refine Function.update_of_ne ?_ ..
      rintro rfl
      rw [hl] at hlv
      cases hlv
      exact hv rfl
  | accept m l hl hm hlog =>
    obtain ⟨h1, h2, h3⟩ := hsame { s with
      log := Function.update s.log n l, acked := s.ack n m } rfl rfl rfl
    exact ⟨h1, hack _, fun _ _ _ h => h, fun _ => le_rfl,
      fun v hv => ⟨rfl, Function.update_of_ne hv ..⟩, h2, h3⟩

end Steps

/-! ### Log matching and leader completeness -/

/-- **Log matching.** -/
theorem log_matching {l l' : List E} (h : Matches tm s l) (h' : Matches tm s l') {k : ℕ} {e e' : E}
    (he : l[k]? = some e) (he' : l'[k]? = some e') (ht : tm e = tm e') :
    l.take (k + 1) = l'.take (k + 1) := by
  obtain ⟨-, hp⟩ := h k e he
  obtain ⟨-, hp'⟩ := h' k e' he'
  rw [← ht] at hp'
  have hk := (List.getElem?_eq_some_iff.mp he).1
  have hk' := (List.getElem?_eq_some_iff.mp he').1
  refine List.IsPrefix.eq_of_length (List.prefix_of_prefix_length_le hp hp' ?_) ?_ <;>
    · rw [List.length_take, List.length_take]
      omega

/-- The first `m` entries of the leader of `T` are committed by an entry of its own term. -/
def Committed (tm : E → ℕ) (quorum : Finset N → Prop) (s : State N E) (T m : ℕ) : Prop :=
  0 < m ∧ (∃ e, (s.llog T)[m - 1]? = some e ∧ tm e = T) ∧
    ∃ Q, quorum Q ∧ ∀ v ∈ Q, m ≤ s.acked v T

theorem Committed.length_le {T m : ℕ} (hc : Committed tm quorum s T m) :
    m ≤ (s.llog T).length := by
  obtain ⟨h0, ⟨e, he, -⟩, -⟩ := hc
  have := (List.getElem?_eq_some_iff.mp he).1
  omega

theorem matches_whole {l : List E} {x : E} (h : Matches tm s (l ++ [x])) :
    s.leader (tm x) ≠ none ∧ l ++ [x] <+: s.llog (tm x) := by
  have := h l.length x (by simp)
  rwa [List.take_of_length_le (by simp)] at this

theorem lastTm_concat (l : List E) (x : E) : lastTm tm (l ++ [x]) = tm x := by
  simp [lastTm]

/-- A log that is not behind a log with an entry has an entry. -/
theorem Behind.concat {l b : List E} {x : E} (h : Behind tm (l ++ [x]) b) :
    ∃ b₀ y, b = b₀ ++ [y] ∧
      (tm x < tm y ∨ tm x = tm y ∧ (l ++ [x]).length ≤ (b₀ ++ [y]).length) := by
  rcases List.eq_nil_or_concat' b with rfl | ⟨b₀, y, rfl⟩
  · rcases h with h | ⟨-, h⟩
    · exact absurd h (Nat.not_lt_zero _)
    · simp at h
  · unfold Behind at h
    rw [lastTm_concat, lastTm_concat] at h
    exact ⟨b₀, y, rfl, h⟩

section Quorums

variable (hmeet : ∀ Q Q', quorum Q → quorum Q' → ∃ v, v ∈ Q ∧ v ∈ Q')

include hmeet

theorem Committed.led (hI : Inv tm quorum s) {T m : ℕ} (hc : Committed tm quorum s T m) :
    s.leader T ≠ none := by
  obtain ⟨h0, -, Q, hQ, hv⟩ := hc
  obtain ⟨v, hvQ, -⟩ := hmeet Q Q hQ hQ
  exact (hI.acked_le h0 (hv v hvQ)).2.1

/-- A log that is not behind one with the committed part has the committed part too, if the
leaders of the terms between do. -/
theorem committed_carried (hI : Inv tm quorum s) {T m T' : ℕ} (hc : Committed tm quorum s T m)
    {l b : List E} (hl : Matches tm s l) (hb : Matches tm s b) (hbt : ∀ e ∈ b, tm e < T')
    (hbeh : Behind tm l b) (hp : (s.llog T).take m <+: l)
    (ih : ∀ t, T < t → t < T' → s.leader t ≠ none → (s.llog T).take m <+: s.base t) :
    (s.llog T).take m <+: b := by
  have hled := hc.led hmeet hI
  obtain ⟨h0, ⟨e, he, hte⟩, -⟩ := hc
  have hmem : e ∈ (s.llog T).take m := by
    refine List.mem_iff_getElem?.mpr ⟨m - 1, ?_⟩
    rw [List.getElem?_take_of_lt (by omega)]
    exact he
  rcases List.eq_nil_or_concat' l with rfl | ⟨l₀, x, rfl⟩
  · rw [List.prefix_nil.mp hp] at hmem
    cases hmem
  obtain ⟨hxled, hxp⟩ := matches_whole hl
  have hTx : T ≤ tm x := by
    rw [← hte]
    exact hI.llog_le hxled (hxp.subset (hp.subset hmem))
  obtain ⟨b₀, y, rfl, hcmp⟩ := hbeh.concat
  obtain ⟨hyled, hyp⟩ := matches_whole hb
  rcases hcmp with hlt | ⟨heq, hlen⟩
  · -- the last entry of `b` is of a term whose leader has the committed part
    have hbase := ih (tm y) (by omega) (hbt y (by simp)) hyled
    rcases le_total ((s.llog T).take m).length (b₀ ++ [y]).length with hle | hle
    · exact List.prefix_of_prefix_length_le (hbase.trans (hI.base_prefix hyled)) hyp hle
    · have hback := List.prefix_of_prefix_length_le hyp (hbase.trans (hI.base_prefix hyled)) hle
      have hy := hI.llog_le hled (List.mem_of_mem_take (hback.subset (by simp : y ∈ b₀ ++ [y])))
      omega
  · -- both logs end in the block of one leader
    rw [← heq] at hyp
    exact hp.trans (List.prefix_of_prefix_length_le hxp hyp hlen)

/-- **Leader completeness.**  What is committed in a term is in the log with which every leader of a
later term was elected. -/
theorem leader_completeness (hI : Inv tm quorum s) {T m : ℕ} (hc : Committed tm quorum s T m) :
    ∀ T', T < T' → s.leader T' ≠ none → (s.llog T).take m <+: s.base T' := by
  intro T'
  induction T' using Nat.strong_induction_on with
  | _ T' ih =>
    intro hlt hled'
    -- some node acknowledged the committed part and voted for the later leader
    obtain ⟨Q', hQ', hvotes⟩ := hI.elected T' hled'
    obtain ⟨h0, -, Q, hQ, hacks⟩ := id hc
    obtain ⟨v, hvQ, hvQ'⟩ := hmeet Q Q' hQ hQ'
    obtain ⟨l, hballot, hbeh, hkeep⟩ := hvotes v hvQ'
    have hp : (s.llog T).take m <+: l := by
      rcases hkeep T m hlt h0 (hacks v hvQ) with hp | ⟨t, h1, h2, h3, h4⟩
      · exact hp
      · exact absurd (ih t h2 h1 h3) h4
    have hbm : Matches tm s (s.base T') := by
      have := (hI.matches_llog T' hled').take (s.base T').length
      rwa [← (List.prefix_iff_eq_take.mp (hI.base_prefix hled'))] at this
    exact committed_carried hmeet hI hc (hI.matches_ballot v T' l hballot) hbm
      (hI.base_lt T' hled') hbeh hp fun t h1 h2 h3 => ih t h2 h1 h3

/-- What is committed in a term is in the log of the leader of that term and of every later one. -/
theorem Committed.in_llog (hI : Inv tm quorum s) {T m T' : ℕ} (hc : Committed tm quorum s T m)
    (hle : T ≤ T') (hled : s.leader T' ≠ none) : (s.llog T).take m <+: s.llog T' := by
  rcases Nat.lt_or_ge T T' with hlt | hge
  · exact (leader_completeness hmeet hI hc T' hlt hled).trans (hI.base_prefix hled)
  · obtain rfl : T = T' := le_antisymm hle hge
    exact List.take_prefix _ _

/-- **Committed parts agree.** -/
theorem committed_agree (hI : Inv tm quorum s) {T m T' m' : ℕ} (hc : Committed tm quorum s T m)
    (hc' : Committed tm quorum s T' m') {k : ℕ} (hk : k < m) (hk' : k < m') :
    (s.llog T)[k]? = (s.llog T')[k]? := by
  have key : ∀ {T m T' m' : ℕ}, Committed tm quorum s T m → Committed tm quorum s T' m' →
      k < m → T ≤ T' → (s.llog T)[k]? = (s.llog T')[k]? := by
    intro T m T' m' hc hc' hk hle
    obtain ⟨r, hr⟩ := hc.in_llog hmeet hI hle (hc'.led hmeet hI)
    have hlen : k < ((s.llog T).take m).length := by
      have := hc.length_le
      rw [List.length_take]
      omega
    rw [← hr, List.getElem?_append_left hlen, List.getElem?_take_of_lt hk]
  rcases le_total T T' with hle | hle
  · exact key hc hc' hk hle
  · exact (key hc' hc hk' hle).symm

end Quorums

theorem Committed.mono (hg : Grows s s') (ha : ∀ v T, s.acked v T ≤ s'.acked v T) {T m : ℕ}
    (hled : s.leader T ≠ none) (hc : Committed tm quorum s T m) : Committed tm quorum s' T m := by
  obtain ⟨h0, ⟨e, he, hte⟩, Q, hQ, hv⟩ := hc
  refine ⟨h0, ⟨e, ?_, hte⟩, Q, hQ, fun v hvQ => (hv v hvQ).trans (ha v T)⟩
  obtain ⟨r, hr⟩ := hg.llog T hled
  rw [← hr, List.getElem?_append_left (List.getElem?_eq_some_iff.mp he).1]
  exact he

/-! ### Logs with a committed part -/

/-- The first `m` entries of the log are committed, in a term up to `t`. -/
def Secured (tm : E → ℕ) (quorum : Finset N → Prop) (s : State N E) (t m : ℕ) (l : List E) : Prop :=
  m = 0 ∨ ∃ T M, T ≤ t ∧ m ≤ M ∧ Committed tm quorum s T M ∧ (s.llog T).take m <+: l

theorem Secured.length_le {t m : ℕ} {l : List E} (h : Secured tm quorum s t m l) : m ≤ l.length := by
  rcases h with rfl | ⟨T, M, -, hm, hc, hp⟩
  · exact Nat.zero_le _
  · have hlen := hp.length_le
    have hM := hc.length_le
    rw [List.length_take] at hlen
    omega

theorem Secured.take {t m k : ℕ} {l : List E} (h : Secured tm quorum s t m l) (hk : k ≤ m) :
    Secured tm quorum s t k l := by
  rcases h with rfl | ⟨T, M, hT, hm, hc, hp⟩
  · exact .inl (Nat.le_zero.mp hk)
  · exact .inr ⟨T, M, hT, hk.trans hm, hc, (List.take_prefix_take_left hk).trans hp⟩

/-- A committed part moves with what extends the log. -/
theorem Secured.extend {t t' m : ℕ} {l l' : List E} (h : Secured tm quorum s t m l) (ht : t ≤ t')
    (hl : l <+: l') : Secured tm quorum s t' m l' := by
  rcases h with rfl | ⟨T, M, hT, hm, hc, hp⟩
  · exact .inl rfl
  · exact .inr ⟨T, M, hT.trans ht, hm, hc, hp.trans hl⟩

/-- An entry of the committed part. -/
theorem Secured.get {t m k : ℕ} {l : List E} (h : Secured tm quorum s t m l) (hk : k < m) :
    ∃ T M, Committed tm quorum s T M ∧ k < M ∧ (s.llog T)[k]? = l[k]? := by
  rcases h with rfl | ⟨T, M, -, hm, hc, r, hr⟩
  · exact absurd hk (Nat.not_lt_zero _)
  · have hM := hc.length_le
    refine ⟨T, M, hc, by omega, ?_⟩
    rw [← hr, List.getElem?_append_left (by rw [List.length_take]; omega),
      List.getElem?_take_of_lt hk]

section Quorums

variable (hmeet : ∀ Q Q', quorum Q → quorum Q' → ∃ v, v ∈ Q ∧ v ∈ Q')

include hmeet

theorem Secured.mono (hI : Inv tm quorum s) (hg : Grows s s')
    (ha : ∀ v T, s.acked v T ≤ s'.acked v T) {t m : ℕ} {l : List E}
    (h : Secured tm quorum s t m l) : Secured tm quorum s' t m l := by
  rcases h with rfl | ⟨T, M, hT, hm, hc, hp⟩
  · exact .inl rfl
  · have hled := hc.led hmeet hI
    refine .inr ⟨T, M, hT, hm, hc.mono hg ha hled, ?_⟩
    rw [hg.take hled (hm.trans hc.length_le)]
    exact hp

/-- A copy from the leader of the term keeps the committed part. -/
theorem Secured.copy (hI : Inv tm quorum s) {t m k : ℕ} {old new : List E}
    (h : Secured tm quorum s t m old) (hled : s.leader t ≠ none)
    (hcopy : (s.llog t).take k <+: old ∧ new = old ∨
      ¬(s.llog t).take k <+: old ∧ new = (s.llog t).take k) : Secured tm quorum s t m new := by
  rcases h with rfl | ⟨T, M, hT, hm, hc, hp⟩
  · exact .inl rfl
  · exact .inr ⟨T, M, hT, hm, hc, copy_keeps hcopy hp
      ((List.take_prefix_take_left hm).trans (hc.in_llog hmeet hI hT hled))⟩

/-- A committed part is in the log of the leader of the term. -/
theorem Secured.in_llog (hI : Inv tm quorum s) {t m : ℕ} {l : List E} (h : Secured tm quorum s t m l)
    (hled : s.leader t ≠ none) : l.take m <+: s.llog t := by
  rcases h with rfl | ⟨T, M, hT, hm, hc, hp⟩
  · exact List.nil_prefix
  · have hlen : ((s.llog T).take m).length = m := by
      rw [List.length_take, min_eq_left (hm.trans hc.length_le)]
    have heq := List.prefix_iff_eq_take.mp hp
    rw [hlen] at heq
    rw [← heq]
    exact (List.take_prefix_take_left hm).trans (hc.in_llog hmeet hI hT hled)

/-- **Committed parts of two logs agree.** -/
theorem Secured.agree (hI : Inv tm quorum s) {t t' m : ℕ} {l l' : List E}
    (h : Secured tm quorum s t m l) (h' : Secured tm quorum s t' m l') : l.take m = l'.take m := by
  refine List.ext_getElem? fun k => ?_
  rw [List.getElem?_take, List.getElem?_take]
  split_ifs with hk
  · obtain ⟨T, M, hc, hM, hx⟩ := h.get hk
    obtain ⟨T', M', hc', hM', hx'⟩ := h'.get hk
    rw [← hx, ← hx', committed_agree hmeet hI hc hc' hM hM']
  · rfl

/-- A committed part of a leader's log is still in the log of every node that acknowledged it. -/
theorem Secured.kept (hI : Inv tm quorum s) {t m : ℕ} (h : Secured tm quorum s t m (s.llog t)) {n : N}
    (hm : m ≤ s.acked n t) : (s.llog t).take m <+: s.log n := by
  rcases h with rfl | ⟨T, M, hT, hmM, hc, hp⟩
  · exact List.nil_prefix
  · rcases Nat.eq_zero_or_pos m with rfl | h0
    · exact List.nil_prefix
    rcases hI.hold n t m h0 hm with hold | ⟨T', hlt, -, hled, hno⟩
    · exact hold
    · -- a later leader was elected with everything committed
      have hlen : ((s.llog T).take m).length = m := by
        rw [List.length_take, min_eq_left (hmM.trans hc.length_le)]
      have heq := List.prefix_iff_eq_take.mp hp
      rw [hlen] at heq
      refine absurd ?_ hno
      rw [← heq]
      exact (List.take_prefix_take_left hmM).trans
        (leader_completeness hmeet hI hc T' (by omega) hled)

end Quorums

end Replication
