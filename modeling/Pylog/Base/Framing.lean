import Mathlib.Algebra.Order.Group.Int
import Mathlib.Algebra.Order.Ring.Int
import Mathlib.Data.List.Basic
import Mathlib.Data.List.Flatten
import Mathlib.Tactic.Common

/-!
# Byte words and self-delimiting codes

`word k n` is the number `n` as `k` bytes, least significant first, and `number` reads it back;
`unsigned`/`signed` are the two's complement readings of a word.

A code `enc` is a concatenation code: a file is the encodings of its items, one after the other.
`Torn enc rs t` says that `t` is what a write of the items `rs` leaves behind its last complete item,
and `exists_torn` that every prefix of a file is complete items followed by such a rest.
-/

namespace Framing

/-! ### Words -/

def word : ℕ → ℕ → List UInt8
  | 0, _ => []
  | k + 1, n => UInt8.ofNat (n % 256) :: word k (n / 256)

def number : List UInt8 → ℕ
  | [] => 0
  | b :: bs => b.toNat + 256 * number bs

@[simp] theorem length_word : ∀ k n : ℕ, (word k n).length = k
  | 0, _ => rfl
  | k + 1, n => by simp [word, length_word k]

theorem number_word : ∀ {k n : ℕ}, n < 256 ^ k → number (word k n) = n
  | 0, n, h => by
    have : n = 0 := by simpa using h
    simp [word, number, this]
  | k + 1, n, h => by
    have hk : n / 256 < 256 ^ k := by
      rw [Nat.div_lt_iff_lt_mul (by decide)]
      rwa [pow_succ] at h
    have hb : (UInt8.ofNat (n % 256)).toNat = n % 256 := by
      rw [UInt8.toNat_ofNat']
      omega
    simp only [word, number, hb, number_word hk]
    omega

theorem number_lt : ∀ bs : List UInt8, number bs < 256 ^ bs.length
  | [] => by simp [number]
  | b :: bs => by
    have h1 := number_lt bs
    have h2 := b.toNat_lt
    simp only [number, List.length_cons, pow_succ]
    omega

theorem word_number : ∀ bs : List UInt8, word bs.length (number bs) = bs
  | [] => rfl
  | b :: bs => by
    have h1 : (b.toNat + 256 * number bs) % 256 = b.toNat := by
      have := b.toNat_lt
      omega
    have h2 : (b.toNat + 256 * number bs) / 256 = number bs := by
      have := b.toNat_lt
      omega
    rw [List.length_cons, number, word, h1, h2, word_number bs, UInt8.ofNat_toNat]

/-- The two's complement word of an integer of `m` values. -/
def unsigned (m : ℕ) (z : ℤ) : ℕ := (z % m).toNat

def signed (m n : ℕ) : ℤ := if 2 * n < m then n else (n : ℤ) - m

theorem unsigned_lt {m : ℕ} (hm : 0 < m) (z : ℤ) : unsigned m z < m := by
  unfold unsigned
  have h1 := Int.emod_nonneg z (by omega : (m : ℤ) ≠ 0)
  have h2 := Int.emod_lt_of_pos z (by omega : (0 : ℤ) < m)
  omega

theorem signed_unsigned {k : ℕ} {z : ℤ} (h1 : -(k : ℤ) ≤ z) (h2 : z < k) :
    signed (2 * k) (unsigned (2 * k) z) = z := by
  unfold signed unsigned
  rcases lt_or_ge z 0 with hz | hz
  · have he : z % ((2 * k : ℕ) : ℤ) = z + 2 * k := by
      rw [← Int.add_emod_right, Int.emod_eq_of_lt] <;> push_cast <;> omega
    rw [he, if_neg (by omega)]
    push_cast
    omega
  · rw [Int.emod_eq_of_lt hz (by push_cast; omega), if_pos (by omega)]
    omega

theorem signed_bounds {k n : ℕ} (hn : n < 2 * k) :
    -(k : ℤ) ≤ signed (2 * k) n ∧ signed (2 * k) n < k := by
  unfold signed
  split_ifs
  · omega
  · push_cast
    omega

theorem unsigned_signed {m n : ℕ} (hn : n < m) : unsigned m (signed m n) = n := by
  unfold unsigned signed
  split_ifs
  · rw [Int.emod_eq_of_lt (by omega) (by omega)]
    omega
  · rw [Int.sub_emod_right, Int.emod_eq_of_lt (by omega) (by omega)]
    omega

/-! ### Concatenation codes -/

section Code

variable {α β : Type} {enc : α → List β}

/-- `t` is a rest of an interrupted write of `rs` that holds no complete item. -/
def Torn (enc : α → List β) (rs : List α) (t : List β) : Prop :=
  t = [] ∨ ∃ r rs', rs = r :: rs' ∧ t <+: enc r ∧ t.length < (enc r).length

theorem Torn.length_lt {rs : List α} {t : List β} {r : α} {rs' : List α} (h : Torn enc rs t)
    (hrs : rs = r :: rs') (hpos : 0 < (enc r).length) : t.length < (enc r).length := by
  rcases h with rfl | ⟨r', rs'', h', -, hlt⟩
  · exact hpos
  · rw [hrs] at h'
    cases h'
    exact hlt

/-- Every prefix of a file is complete items and a torn rest. -/
theorem exists_torn : ∀ (rs : List α) {p : List β}, p <+: rs.flatMap enc →
    ∃ m ≤ rs.length, ∃ t, p = (rs.take m).flatMap enc ++ t ∧ Torn enc (rs.drop m) t
  | [], p, h => ⟨0, le_rfl, [], by simpa using h, .inl rfl⟩
  | r :: rs, p, h => by
    rw [List.flatMap_cons] at h
    rcases lt_or_ge p.length (enc r).length with hlt | hge
    · have hp : p <+: enc r :=
        List.prefix_of_prefix_length_le h (List.prefix_append _ _) hlt.le
      exact ⟨0, by omega, p, by simp, .inr ⟨r, rs, by simp, hp, hlt⟩⟩
    · obtain ⟨q, rfl⟩ : enc r <+: p :=
        List.prefix_of_prefix_length_le (List.prefix_append _ _) h hge
      obtain ⟨m, hm, t, rfl, ht⟩ := exists_torn rs ((List.prefix_append_right_inj _).mp h)
      exact ⟨m + 1, by simpa using hm, t, by simp, by simpa using ht⟩

end Code

end Framing
