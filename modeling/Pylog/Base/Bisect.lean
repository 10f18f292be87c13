import Mathlib.Data.List.Basic
import Mathlib.Order.Lattice
import Mathlib.Tactic.Common

/-!
# Bisection

The binary search both the standard library and hand-written loops use: it narrows `[lo, hi)` to the
point where `before` turns false.  `bisect_eq`: if `before` holds exactly below `c`, the search ends
at `c`.
-/

namespace Bisect

/-- `while lo < hi: mid = (lo + hi) // 2; …`, with fuel for the rounds. -/
def bisect (before : ℕ → Bool) : ℕ → ℕ → ℕ → ℕ
  | 0, lo, _ => lo
  | fuel + 1, lo, hi =>
    if lo < hi then
      let mid := (lo + hi) / 2
      if before mid then bisect before fuel (mid + 1) hi else bisect before fuel lo mid
    else lo

theorem bisect_eq {before : ℕ → Bool} {c : ℕ} : ∀ {fuel lo hi : ℕ},
    (∀ i, lo ≤ i → i < hi → (before i = true ↔ i < c)) → lo ≤ c → c ≤ hi → hi ≤ lo + fuel →
    bisect before fuel lo hi = c
  | 0, lo, hi, _, h1, h2, h3 => by
    unfold bisect
    omega
  | fuel + 1, lo, hi, hb, h1, h2, h3 => by
    unfold bisect
    by_cases hlt : lo < hi
    · have hm := hb ((lo + hi) / 2) (by omega) (by omega)
      rw [if_pos hlt]
      dsimp only
      by_cases hc : (lo + hi) / 2 < c
      · rw [if_pos (hm.mpr hc)]
        exact bisect_eq (fun i hi1 hi2 => hb i (by omega) hi2) (by omega) h2 (by omega)
      · rw [if_neg (fun h => hc (hm.mp h))]
        exact bisect_eq (fun i hi1 hi2 => hb i hi1 (by omega)) h1 (by omega) (by omega)
    · rw [if_neg hlt]
      omega

variable {α : Type} [LinearOrder α]

/-- `bisect_right(xs, x)`: the number of elements `≤ x` of an ascending list. -/
def bisectRight (xs : List α) (x : α) : ℕ :=
  bisect (fun i => match xs[i]? with | some y => decide (y ≤ x) | none => false) xs.length 0
    xs.length

/-- The search ends between the elements at most `x` and those above it. -/
theorem bisectRight_append {xs ys : List α} {x : α} (h1 : ∀ y ∈ xs, y ≤ x) (h2 : ∀ y ∈ ys, x < y) :
    bisectRight (xs ++ ys) x = xs.length := by
  unfold bisectRight
  refine bisect_eq (fun i _ hi => ?_) (by omega) (by simp) (by omega)
  rcases Nat.lt_or_ge i xs.length with h | h
  · have he : (xs ++ ys)[i]? = some xs[i] := by
      rw [List.getElem?_append_left h, List.getElem?_eq_getElem h]
    simp [he, h, h1 _ (List.getElem_mem h)]
  · have hy : i - xs.length < ys.length := by
      rw [List.length_append] at hi
      omega
    have he : (xs ++ ys)[i]? = some ys[i - xs.length] := by
      rw [List.getElem?_append_right h, List.getElem?_eq_getElem hy]
    have hgt := h2 _ (List.getElem_mem hy)
    simp [he, h, not_le_of_gt hgt]

/-- An ascending list splits at every point. -/
theorem exists_split : ∀ {l : List α} (x : α), l.Pairwise (· < ·) →
    ∃ xs ys, l = xs ++ ys ∧ (∀ y ∈ xs, y ≤ x) ∧ ∀ y ∈ ys, x < y
  | [], _, _ => ⟨[], [], rfl, by simp, by simp⟩
  | a :: l, x, h => by
    rw [List.pairwise_cons] at h
    rcases le_or_gt a x with ha | ha
    · obtain ⟨xs, ys, rfl, h1, h2⟩ := exists_split x h.2
      refine ⟨a :: xs, ys, rfl, ?_, h2⟩
      intro y hy
      rcases List.mem_cons.mp hy with rfl | hy
      · exact ha
      · exact h1 y hy
    · refine ⟨[], a :: l, rfl, by simp, ?_⟩
      intro y hy
      rcases List.mem_cons.mp hy with rfl | hy
      · exact ha
      · exact ha.trans (h.1 y hy)

end Bisect
