import Mathlib.Data.List.Basic
import Mathlib.Tactic.Common

/-!
# Base64

Three bytes are four letters of six bits each; one or two bytes at the end are filled up with `=`.
The decoder skips what is no letter, stops at the padding that completes a group, and refuses a
group that is not complete.
-/

namespace Base64

/-- The letter of a number of six bits. -/
def letter (n : ℕ) : Char :=
  if n < 26 then Char.ofNat (n + 65)
  else if n < 52 then Char.ofNat (n + 71)
  else if n < 62 then Char.ofNat (n - 4)
  else if n = 62 then '+' else '/'

def value (c : Char) : Option ℕ :=
  let n := c.toNat
  if 65 ≤ n ∧ n ≤ 90 then some (n - 65)
  else if 97 ≤ n ∧ n ≤ 122 then some (n - 71)
  else if 48 ≤ n ∧ n ≤ 57 then some (n + 4)
  else if n = 43 then some 62
  else if n = 47 then some 63 else none

def encode : List UInt8 → List Char
  | [] => []
  | [a] => [letter (a.toNat / 4), letter (a.toNat % 4 * 16), '=', '=']
  | [a, b] => [letter (a.toNat / 4), letter (a.toNat % 4 * 16 + b.toNat / 16),
      letter (b.toNat % 16 * 4), '=']
  | a :: b :: c :: rest =>
    letter (a.toNat / 4) :: letter (a.toNat % 4 * 16 + b.toNat / 16) ::
      letter (b.toNat % 16 * 4 + c.toNat / 64) :: letter (c.toNat % 64) :: encode rest

/-- The decoder inside a group: `quad` letters were read, `left` are the bits not yet written, `pads`
the padding behind them. -/
def scan : ℕ → ℕ → ℕ → List Char → Option (List UInt8)
  | quad, _, _, [] => if quad = 0 then some [] else none
  | quad, left, pads, c :: rest =>
    if c = '=' then
      if quad < 2 then scan quad left pads rest
      else if 4 ≤ quad + (pads + 1) then some []
      else scan quad left (pads + 1) rest
    else match value c with
      | none => scan quad left pads rest
      | some v =>
        match quad with
        | 0 => scan 1 v 0 rest
        | 1 => (scan 2 (v % 16) 0 rest).map (UInt8.ofNat (left * 4 + v / 16) :: ·)
        | 2 => (scan 3 (v % 4) 0 rest).map (UInt8.ofNat (left * 16 + v / 4) :: ·)
        | _ => (scan 0 0 0 rest).map (UInt8.ofNat (left * 64 + v) :: ·)

def decode (cs : List Char) : Option (List UInt8) := scan 0 0 0 cs

theorem value_letter : ∀ n < 64, value (letter n) = some n := by decide

theorem letter_ne_pad : ∀ n < 64, letter n ≠ '=' := by decide

variable {n left pads : ℕ} {rest : List Char}

theorem scan_zero (h : n < 64) : scan 0 left pads (letter n :: rest) = scan 1 n 0 rest := by
  rw [scan, if_neg (letter_ne_pad n h), value_letter n h]
  rfl

theorem scan_one (h : n < 64) : scan 1 left pads (letter n :: rest) =
    (scan 2 (n % 16) 0 rest).map (UInt8.ofNat (left * 4 + n / 16) :: ·) := by
  rw [scan, if_neg (letter_ne_pad n h), value_letter n h]
  rfl

theorem scan_two (h : n < 64) : scan 2 left pads (letter n :: rest) =
    (scan 3 (n % 4) 0 rest).map (UInt8.ofNat (left * 16 + n / 4) :: ·) := by
  rw [scan, if_neg (letter_ne_pad n h), value_letter n h]
  rfl

theorem scan_three (h : n < 64) : scan 3 left pads (letter n :: rest) =
    (scan 0 0 0 rest).map (UInt8.ofNat (left * 64 + n) :: ·) := by
  rw [scan, if_neg (letter_ne_pad n h), value_letter n h]
  rfl

/-- Encoded bytes decode to themselves. -/
theorem decode_encode : ∀ bs : List UInt8, decode (encode bs) = some bs
  | [] => rfl
  | [a] => by
    have ha := a.toNat_lt
    unfold decode encode
    rw [scan_zero (by omega), scan_one (by omega),
      show a.toNat / 4 * 4 + a.toNat % 4 * 16 / 16 = a.toNat by omega, UInt8.ofNat_toNat]
    rfl
  | [a, b] => by
    have ha := a.toNat_lt
    have hb := b.toNat_lt
    unfold decode encode
    rw [scan_zero (by omega), scan_one (by omega), scan_two (by omega),
      show a.toNat / 4 * 4 + (a.toNat % 4 * 16 + b.toNat / 16) / 16 = a.toNat by omega,
      show (a.toNat % 4 * 16 + b.toNat / 16) % 16 * 16 + b.toNat % 16 * 4 / 4 = b.toNat by omega,
      UInt8.ofNat_toNat, UInt8.ofNat_toNat]
    rfl
  | a :: b :: c :: rest => by
    have ha := a.toNat_lt
    have hb := b.toNat_lt
    have hc := c.toNat_lt
    have ih := decode_encode rest
    unfold decode at ih ⊢
    rw [encode, scan_zero (by omega), scan_one (by omega), scan_two (by omega),
      scan_three (by omega), ih,
      show a.toNat / 4 * 4 + (a.toNat % 4 * 16 + b.toNat / 16) / 16 = a.toNat by omega,
      show (a.toNat % 4 * 16 + b.toNat / 16) % 16 * 16 +
        (b.toNat % 16 * 4 + c.toNat / 64) / 4 = b.toNat by omega,
      show (b.toNat % 16 * 4 + c.toNat / 64) % 4 * 64 + c.toNat % 64 = c.toNat by omega,
      UInt8.ofNat_toNat, UInt8.ofNat_toNat, UInt8.ofNat_toNat]
    rfl

theorem letter_ascii : ∀ n < 64, (letter n).toNat < 128 := by decide

/-- Encoded text is letters and padding. -/
theorem mem_encode : ∀ (bs : List UInt8), ∀ c ∈ encode bs, c = '=' ∨ ∃ n < 64, c = letter n
  | [], c, hc => by cases hc
  | [a], c, hc => by
    have ha := a.toNat_lt
    simp only [encode, List.mem_cons, List.not_mem_nil, or_false] at hc
    rcases hc with rfl | rfl | rfl | rfl
    · exact .inr ⟨_, by omega, rfl⟩
    · exact .inr ⟨_, by omega, rfl⟩
    · exact .inl rfl
    · exact .inl rfl
  | [a, b], c, hc => by
    have ha := a.toNat_lt
    have hb := b.toNat_lt
    simp only [encode, List.mem_cons, List.not_mem_nil, or_false] at hc
    rcases hc with rfl | rfl | rfl | rfl
    · exact .inr ⟨_, by omega, rfl⟩
    · exact .inr ⟨_, by omega, rfl⟩
    · exact .inr ⟨_, by omega, rfl⟩
    · exact .inl rfl
  | a :: b :: c :: rest, x, hx => by
    have ha := a.toNat_lt
    have hb := b.toNat_lt
    have hc := c.toNat_lt
    simp only [encode, List.mem_cons] at hx
    rcases hx with rfl | rfl | rfl | rfl | hx
    · exact .inr ⟨_, by omega, rfl⟩
    · exact .inr ⟨_, by omega, rfl⟩
    · exact .inr ⟨_, by omega, rfl⟩
    · exact .inr ⟨_, by omega, rfl⟩
    · exact mem_encode rest x hx

/-- Encoded text is ASCII. -/
theorem encode_ascii (bs : List UInt8) : ∀ c ∈ encode bs, c.toNat < 128 := by
  intro c hc
  rcases mem_encode bs c hc with rfl | ⟨n, hn, rfl⟩
  · decide
  · exact letter_ascii n hn

/-- Every three bytes, or the one or two at the end, are four characters. -/
theorem length_encode : ∀ bs : List UInt8, (encode bs).length = 4 * ((bs.length + 2) / 3)
  | [] => rfl
  | [_] => by simp [encode]
  | [_, _] => by simp [encode]
  | _ :: _ :: _ :: rest => by
    simp only [encode, List.length_cons, length_encode rest]
    omega

end Base64
