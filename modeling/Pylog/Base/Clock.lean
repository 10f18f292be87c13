import Mathlib.Algebra.Order.Archimedean.Basic

/-!
# Runs that pass every time

A system with a clock is paced if, up to a fixed time ahead of its clock, it has only finitely much
to do: a step that stays before such a time leaves less work before it.  The clock of a paced system
passes every time, or the run halts (`Paced.passes`).
-/

namespace Clocked

variable {S E K : Type} {next : S → E → S} {ok halts : S → E → Prop} {clock : S → K}

/-- The state after `k` steps. -/
def after (next : S → E → S) : S → (ℕ → E) → ℕ → S
  | s, _, 0 => s
  | s, es, k + 1 => after next (next s (es 0)) (fun j => es (j + 1)) k

/-- The clock is at `T` or later after `k` steps, or the step after them halts. -/
def Passed [LE K] (next : S → E → S) (halts : S → E → Prop) (clock : S → K) (T : K) (s : S)
    (es : ℕ → E) (k : ℕ) : Prop :=
  T ≤ clock (after next s es k) ∨ halts (after next s es k) (es k)

/-- What is passed from the state after `j` steps is passed from the start. -/
theorem Passed.from_start [LE K] {T : K} {k : ℕ} : ∀ (j : ℕ) (s : S) (es : ℕ → E),
    Passed next halts clock T (after next s es j) (fun i => es (i + j)) k →
      Passed next halts clock T s es (k + j)
  | 0, _, _, h => h
  | j + 1, s, es, h => Passed.from_start j (next s (es 0)) (fun i => es (i + 1)) h

variable [AddCommGroup K] [LinearOrder K] [IsOrderedAddMonoid K] {δ : K} {work : K → S → ℕ}

/-- No step turns the clock back, and the steps that stay before `B` use up the work before `B`. -/
structure Paced (next : S → E → S) (ok halts : S → E → Prop) (clock : S → K) (δ : K)
    (work : K → S → ℕ) : Prop where
  forward : ∀ s e, ok s e → clock s ≤ clock (next s e)
  finite : ∀ s e B, ok s e → ¬ halts s e → B ≤ clock s + δ → clock (next s e) < B →
    work B (next s e) < work B s

/-- A time in reach is passed. -/
theorem Paced.reaches (h : Paced next ok halts clock δ work) {B : K} : ∀ (s : S) (es : ℕ → E),
    (∀ s k, ok s (es k)) → B ≤ clock s + δ → ∃ k, Passed next halts clock B s es k := by
  intro s
  induction hw : work B s using Nat.strong_induction_on generalizing s with
  | _ w ih =>
    intro es hes hB
    by_cases hh : halts s (es 0)
    · exact ⟨0, .inr hh⟩
    by_cases hc : clock (next s (es 0)) < B
    · have hless : work B (next s (es 0)) < w := hw ▸ h.finite s (es 0) B (hes s 0) hh hB hc
      have hB' : B ≤ clock (next s (es 0)) + δ :=
        hB.trans (add_le_add_left (h.forward s (es 0) (hes s 0)) δ)
      obtain ⟨k, hk⟩ := ih _ hless _ rfl (fun j => es (j + 1)) (fun s k => hes s (k + 1)) hB'
      exact ⟨k + 1, hk⟩
    · exact ⟨1, .inl (not_lt.mp hc)⟩

/-- The clock of a paced system passes every time. -/
theorem Paced.passes [Archimedean K] (h : Paced next ok halts clock δ work) (hδ : 0 < δ) (s : S)
    (es : ℕ → E) (hes : ∀ s k, ok s (es k)) (T : K) : ∃ k, Passed next halts clock T s es k := by
  have hwindows : ∀ n : ℕ, ∃ k, Passed next halts clock (clock s + n • δ) s es k := by
    intro n
    induction n with
    | zero => exact ⟨0, .inl (by rw [zero_nsmul, add_zero]; rfl)⟩
    | succ n ih =>
      obtain ⟨j, hj | hj⟩ := ih
      · have hB : clock s + (n + 1) • δ ≤ clock (after next s es j) + δ := by
          rw [succ_nsmul, ← add_assoc]
          exact add_le_add_left hj δ
        obtain ⟨k, hk⟩ := h.reaches _ (fun i => es (i + j)) (fun s k => hes s (k + j)) hB
        exact ⟨k + j, hk.from_start j s es⟩
      · exact ⟨j, .inr hj⟩
  obtain ⟨n, hn⟩ := Archimedean.arch (T - clock s) hδ
  obtain ⟨k, hk | hk⟩ := hwindows n
  · exact ⟨k, .inl ((sub_le_iff_le_add'.mp hn).trans hk)⟩
  · exact ⟨k, .inr hk⟩

/-! ### Loops over the steps -/

/-- The first events. -/
def firsts (es : ℕ → E) (n : ℕ) : List E := (List.range n).map es

theorem firsts_succ (es : ℕ → E) (n : ℕ) :
    firsts es (n + 1) = es 0 :: firsts (fun j => es (j + 1)) n := by
  unfold firsts
  rw [List.range_succ_eq_map, List.map_cons, List.map_map]
  rfl

omit [AddCommGroup K] [IsOrderedAddMonoid K] in
/-- A loop that ends from `T` on, and where the run halts, and else goes on with the next state. -/
theorem loop_ends {R : Type} {loop : S → List E → Option R} {T : K}
    (hstop : ∀ s e es, T ≤ clock s ∨ halts s e → (loop s (e :: es)).isSome)
    (hgo : ∀ s e es, (loop s (e :: es)).isSome ∨ loop s (e :: es) = loop (next s e) es) :
    ∀ (k : ℕ) (s : S) (es : ℕ → E), Passed next halts clock T s es k →
      (loop s (firsts es (k + 1))).isSome
  | 0, s, es, h => by
    rw [firsts_succ]
    exact hstop s (es 0) _ h
  | k + 1, s, es, h => by
    rw [firsts_succ]
    rcases hgo s (es 0) (firsts (fun j => es (j + 1)) (k + 1)) with hend | hnext
    · exact hend
    · rw [hnext]
      exact loop_ends hstop hgo k (next s (es 0)) (fun j => es (j + 1)) h

end Clocked
