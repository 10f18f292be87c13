import Mathlib.Algebra.BigOperators.Group.Finset.Basic
import Mathlib.Algebra.Order.BigOperators.Group.Finset

/-!
# Rounds — sequences that serve the elements of a set in turn

A sequence over a finite set `s` is `Balanced` when any two elements of `s` occur equally often, give
or take one.  It stays balanced all along exactly when no element occurs twice in a round of `s.card`
successive places (`balanced_iff_spread`).
-/

namespace Rounds

variable {α : Type} [DecidableEq α] {s : Finset α} {xs : List α}

/-- Any two elements of `s` occur equally often, give or take one. -/
def Balanced (s : Finset α) (xs : List α) : Prop := ∀ a ∈ s, ∀ b ∈ s, xs.count a ≤ xs.count b + 1

/-- No element occurs twice in a round of `n` successive places. -/
def Spread (n : ℕ) (xs : List α) : Prop :=
  ∀ j k, j < k → j / n = k / n → ∀ a, xs[j]? = some a → xs[k]? ≠ some a

/-- Every place holds an element of `s`. -/
theorem sum_count (hx : ∀ x ∈ xs, x ∈ s) : ∑ a ∈ s, xs.count a = xs.length := by
  have hsum := Multiset.sum_count_eq_card (s := s) (m := (xs : Multiset α)) (by simpa using hx)
  simpa using hsum

/-- After whole rounds a balanced sequence has served all elements equally often. -/
theorem Balanced.even (h : Balanced s xs) (hx : ∀ x ∈ xs, x ∈ s) {q : ℕ}
    (hlen : xs.length = q * s.card) {a : α} (ha : a ∈ s) : xs.count a = q := by
  have hsum : ∑ b ∈ s, xs.count b = ∑ _b ∈ s, q := by
    rw [sum_count hx, hlen, Finset.sum_const_nat fun _ _ => rfl, Nat.mul_comm]
  rcases Nat.lt_trichotomy (xs.count a) q with hlt | heq | hgt
  · refine absurd hsum (ne_of_lt (Finset.sum_lt_sum (fun b hb => ?_) ⟨a, ha, hlt⟩))
    have := h b hb a ha
    omega
  · exact heq
  · refine absurd hsum (ne_of_gt (Finset.sum_lt_sum (fun b hb => ?_) ⟨a, ha, hgt⟩))
    have := h a ha b hb
    omega

omit [DecidableEq α] in
/-- Within a round a spread sequence serves no element twice. -/
theorem Spread.nodup {n : ℕ} (h : Spread n xs) (q : ℕ) {r : ℕ} (hr : r ≤ n) :
    ((xs.drop (q * n)).take r).Nodup := by
  rw [List.nodup_iff_getElem?_ne_getElem?]
  intro j k hjk hk heq
  rw [List.length_take, List.length_drop] at hk
  have hkr : k < r := by omega
  have hround : ∀ i < r, (q * n + i) / n = q := by
    intro i hi
    rw [Nat.add_comm, Nat.add_mul_div_right _ _ (by omega), Nat.div_eq_of_lt (by omega), Nat.zero_add]
  rw [List.getElem?_take_of_lt (by omega), List.getElem?_take_of_lt hkr, List.getElem?_drop,
    List.getElem?_drop] at heq
  have hget : xs[q * n + k]? = some xs[q * n + k] := List.getElem?_eq_getElem (by omega)
  refine h (q * n + j) (q * n + k) (by omega) ?_ _ (heq.trans hget) hget
  rw [hround j (by omega), hround k hkr]

/-- Whole rounds of a spread sequence serve every element once each. -/
theorem Spread.count_rounds (h : Spread s.card xs) (hx : ∀ x ∈ xs, x ∈ s) {a : α} (ha : a ∈ s) :
    ∀ q, q * s.card ≤ xs.length → (xs.take (q * s.card)).count a = q
  | 0, _ => by simp
  | q + 1, hq => by
    rw [Nat.succ_mul] at hq ⊢
    rw [List.take_add, List.count_append, h.count_rounds hx ha q (by omega)]
    congr 1
    have hnd := h.nodup q le_rfl
    refine List.count_eq_one_of_mem hnd ?_
    -- a round has as many places as there are elements
    have hsub : ((xs.drop (q * s.card)).take s.card).toFinset ⊆ s := by
      intro x hxm
      rw [List.mem_toFinset] at hxm
      exact hx x (List.mem_of_mem_drop (List.mem_of_mem_take hxm))
    have hcard : ((xs.drop (q * s.card)).take s.card).toFinset.card = s.card := by
      rw [List.toFinset_card_of_nodup hnd, List.length_take, List.length_drop]
      omega
    rw [← List.mem_toFinset, Finset.eq_of_subset_of_card_le hsub hcard.ge]
    exact ha

theorem count_take_succ {j : ℕ} {a : α} (h : xs[j]? = some a) :
    (xs.take (j + 1)).count a = (xs.take j).count a + 1 := by
  rw [List.take_add_one, h, List.count_append]
  simp

theorem count_take_mono (xs : List α) {m m' : ℕ} (h : m ≤ m') (a : α) :
    (xs.take m).count a ≤ (xs.take m').count a :=
  (List.take_prefix_take_left h).sublist.count_le a

/-- A sequence that is balanced at all times serves no element twice in a round. -/
theorem spread_of_balanced (hx : ∀ x ∈ xs, x ∈ s) (h : ∀ m, Balanced s (xs.take m)) :
    Spread s.card xs := by
  intro j k hjk hround a hj hk
  have hklt := (List.getElem?_eq_some_iff.mp hk).1
  have ha : a ∈ s := hx a (List.mem_of_getElem? hk)
  have hpos : 0 < s.card := Finset.card_pos.mpr ⟨a, ha⟩
  have hjq := Nat.div_mul_le_self j s.card
  have hkq : k < (k / s.card + 1) * s.card := Nat.lt_mul_of_div_lt (Nat.lt_succ_self _) hpos
  rw [hround] at hjq
  generalize k / s.card = q at *
  have hmem : ∀ m, ∀ x ∈ xs.take m, x ∈ s := fun m x hxm => hx x (List.mem_of_mem_take hxm)
  -- `a` was served `q` times before the round, and twice in it
  have hstart : (xs.take (q * s.card)).count a = q :=
    (h _).even (hmem _) (by rw [List.length_take]; omega) ha
  have hfirst := count_take_mono xs hjq a
  have hsecond := count_take_mono xs (Nat.succ_le_of_lt hjk) a
  rw [count_take_succ hj] at hsecond
  have htwice := count_take_succ hk
  -- so the others were served in it as well, and the round is too long
  have hsum : ∑ _b ∈ s, (q + 1) < ∑ b ∈ s, (xs.take (k + 1)).count b := by
    refine Finset.sum_lt_sum (fun b hb => ?_) ⟨a, ha, by omega⟩
    have := h (k + 1) a ha b hb
    omega
  rw [sum_count (hmem _), List.length_take, Finset.sum_const_nat fun _ _ => rfl, Nat.mul_comm] at hsum
  omega

/-- **A sequence stays balanced exactly when it serves no element twice in a round.** -/
theorem balanced_iff_spread (hx : ∀ x ∈ xs, x ∈ s) :
    (∀ m, Balanced s (xs.take m)) ↔ Spread s.card xs := by
  refine ⟨spread_of_balanced hx, fun h m => ?_⟩
  intro a ha b hb
  have hpos : 0 < s.card := Finset.card_pos.mpr ⟨a, ha⟩
  -- whole rounds, and a part of the next
  obtain ⟨q, r, hr, hq, hm⟩ : ∃ q r, r < s.card ∧ q * s.card ≤ xs.length ∧
      xs.take m = xs.take (q * s.card) ++ (xs.drop (q * s.card)).take r := by
    have hdiv := Nat.div_mul_le_self (min m xs.length) s.card
    refine ⟨min m xs.length / s.card, min m xs.length % s.card, Nat.mod_lt _ hpos, by omega, ?_⟩
    rw [← List.take_add, Nat.div_add_mod', List.take_eq_take_min]
  have hpart := List.nodup_iff_count_le_one.mp (h.nodup q hr.le) a
  rw [hm, List.count_append, List.count_append, h.count_rounds hx ha q hq, h.count_rounds hx hb q hq]
  omega

end Rounds
