import Mathlib.Tactic.Common

/-!
# UTF-8

`encode` is the encoding of a string; `decode` reads any bytes and puts one replacement character
for each longest start of a character that is not continued.
-/

namespace Utf8

def encode (s : String) : List UInt8 := s.toList.flatMap String.utf8EncodeChar

/-- `U+FFFD`. -/
def replacement : Char := Char.ofNat 0xFFFD

/-- A character read in part: its bits so far, how many bytes it lacks, the range of the next. -/
structure Pending where
  code : ℕ
  need : ℕ
  lo : ℕ
  hi : ℕ
  deriving DecidableEq, Repr

/-- A byte at the start of a character: what it puts out, and what is open behind it. -/
def lead (b : UInt8) : List Char × Option Pending :=
  let n := b.toNat
  if n < 0x80 then ([Char.ofNat n], none)
  else if 0xC2 ≤ n ∧ n < 0xE0 then ([], some ⟨n - 0xC0, 1, 0x80, 0xBF⟩)
  -- no overlong forms, no surrogates
  else if 0xE0 ≤ n ∧ n < 0xF0 then
    ([], some ⟨n - 0xE0, 2, if n = 0xE0 then 0xA0 else 0x80, if n = 0xED then 0x9F else 0xBF⟩)
  -- nothing above U+10FFFF
  else if 0xF0 ≤ n ∧ n < 0xF5 then
    ([], some ⟨n - 0xF0, 3, if n = 0xF0 then 0x90 else 0x80, if n = 0xF4 then 0x8F else 0xBF⟩)
  else ([replacement], none)

/-- A byte behind `p`; one that does not continue it is read again as a start. -/
def next (p : Pending) (b : UInt8) : List Char × Option Pending :=
  if p.lo ≤ b.toNat ∧ b.toNat ≤ p.hi then
    let code := p.code * 64 + (b.toNat - 0x80)
    if p.need = 1 then ([Char.ofNat code], none) else ([], some ⟨code, p.need - 1, 0x80, 0xBF⟩)
  else (replacement :: (lead b).1, (lead b).2)

def decodeFrom : Option Pending → List UInt8 → List Char
  | none, [] => []
  | some _, [] => [replacement]
  | none, b :: bs => (lead b).1 ++ decodeFrom (lead b).2 bs
  | some p, b :: bs => (next p b).1 ++ decodeFrom (next p b).2 bs

/-- `bytes.decode("utf-8", "replace")`. -/
def decode (bs : List UInt8) : String := String.ofList (decodeFrom none bs)

-- `é`, a cut `€`, a stray continuation byte
example : decodeFrom none [0xC3, 0xA9, 0xE2, 0x82, 0x41, 0x80] =
    ['é', replacement, 'A', replacement] := by decide

/-! ### The round trip -/

theorem lead_one {b : UInt8} (h : b.toNat < 0x80) : lead b = ([Char.ofNat b.toNat], none) := if_pos h

theorem lead_two {b : UInt8} (h1 : 0xC2 ≤ b.toNat) (h2 : b.toNat < 0xE0) :
    lead b = ([], some ⟨b.toNat - 0xC0, 1, 0x80, 0xBF⟩) := by
  unfold lead
  dsimp only
  rw [if_neg (by omega), if_pos ⟨h1, h2⟩]

theorem lead_three {b : UInt8} (h1 : 0xE0 ≤ b.toNat) (h2 : b.toNat < 0xF0) :
    lead b = ([], some ⟨b.toNat - 0xE0, 2, if b.toNat = 0xE0 then 0xA0 else 0x80,
      if b.toNat = 0xED then 0x9F else 0xBF⟩) := by
  unfold lead
  dsimp only
  rw [if_neg (by omega), if_neg (by omega), if_pos ⟨h1, h2⟩]

theorem lead_four {b : UInt8} (h1 : 0xF0 ≤ b.toNat) (h2 : b.toNat < 0xF5) :
    lead b = ([], some ⟨b.toNat - 0xF0, 3, if b.toNat = 0xF0 then 0x90 else 0x80,
      if b.toNat = 0xF4 then 0x8F else 0xBF⟩) := by
  unfold lead
  dsimp only
  rw [if_neg (by omega), if_neg (by omega), if_neg (by omega), if_pos ⟨h1, h2⟩]

/-- A byte that continues a character which lacks more. -/
theorem next_more {p : Pending} {b : UInt8} (h1 : p.lo ≤ b.toNat) (h2 : b.toNat ≤ p.hi)
    (h : p.need ≠ 1) : next p b = ([], some ⟨p.code * 64 + (b.toNat - 0x80), p.need - 1, 0x80, 0xBF⟩) := by
  unfold next
  rw [if_pos ⟨h1, h2⟩]
  exact if_neg h

/-- The last byte of a character. -/
theorem next_last {p : Pending} {b : UInt8} (h1 : p.lo ≤ b.toNat) (h2 : b.toNat ≤ p.hi)
    (h : p.need = 1) : next p b = ([Char.ofNat (p.code * 64 + (b.toNat - 0x80))], none) := by
  unfold next
  rw [if_pos ⟨h1, h2⟩]
  exact if_pos h

/-- The bytes of a character by its code. -/
theorem decodeFrom_two {n : ℕ} (h1 : 0x7F < n) (h2 : n ≤ 0x7FF) {a b : UInt8}
    (ha : a.toNat = n / 64 % 32 + 0xC0) (hb : b.toNat = n % 64 + 0x80) (bs : List UInt8) :
    decodeFrom none (a :: b :: bs) = Char.ofNat n :: decodeFrom none bs := by
  have hn : (a.toNat - 0xC0) * 64 + (b.toNat - 0x80) = n := by omega
  rw [decodeFrom, lead_two (by omega) (by omega), decodeFrom,
    next_last (by dsimp only; omega) (by dsimp only; omega) rfl, hn]
  rfl

theorem decodeFrom_three {n : ℕ} (h1 : 0x7FF < n) (h2 : n ≤ 0xFFFF)
    (hvalid : n < 0xD800 ∨ 0xDFFF < n) {a b c : UInt8} (ha : a.toNat = n / 4096 % 16 + 0xE0)
    (hb : b.toNat = n / 64 % 64 + 0x80) (hc : c.toNat = n % 64 + 0x80) (bs : List UInt8) :
    decodeFrom none (a :: b :: c :: bs) = Char.ofNat n :: decodeFrom none bs := by
  have hn : ((a.toNat - 0xE0) * 64 + (b.toNat - 0x80)) * 64 + (c.toNat - 0x80) = n := by omega
  have hlo : (if a.toNat = 0xE0 then 0xA0 else 0x80) ≤ b.toNat := by
    split_ifs <;> omega
  have hhi : b.toNat ≤ if a.toNat = 0xED then 0x9F else 0xBF := by
    split_ifs <;> omega
  rw [decodeFrom, lead_three (by omega) (by omega), decodeFrom, next_more hlo hhi (by dsimp only; omega),
    decodeFrom, next_last (by dsimp only; omega) (by dsimp only; omega) rfl, hn]
  rfl

theorem decodeFrom_four {n : ℕ} (h1 : 0xFFFF < n) (h2 : n < 0x110000) {a b c d : UInt8}
    (ha : a.toNat = n / 262144 % 8 + 0xF0) (hb : b.toNat = n / 4096 % 64 + 0x80)
    (hc : c.toNat = n / 64 % 64 + 0x80) (hd : d.toNat = n % 64 + 0x80) (bs : List UInt8) :
    decodeFrom none (a :: b :: c :: d :: bs) = Char.ofNat n :: decodeFrom none bs := by
  have hn : (((a.toNat - 0xF0) * 64 + (b.toNat - 0x80)) * 64 + (c.toNat - 0x80)) * 64 +
      (d.toNat - 0x80) = n := by omega
  have hlo : (if a.toNat = 0xF0 then 0x90 else 0x80) ≤ b.toNat := by
    split_ifs <;> omega
  have hhi : b.toNat ≤ if a.toNat = 0xF4 then 0x8F else 0xBF := by
    split_ifs <;> omega
  rw [decodeFrom, lead_four (by omega) (by omega), decodeFrom, next_more hlo hhi (by dsimp only; omega),
    decodeFrom, next_more (by dsimp only; omega) (by dsimp only; omega) (by dsimp only; omega),
    decodeFrom, next_last (by dsimp only; omega) (by dsimp only; omega) rfl, hn]
  rfl

/-- An encoded character is read as itself, and nothing behind it. -/
theorem decodeFrom_char (c : Char) (bs : List UInt8) :
    decodeFrom none (String.utf8EncodeChar c ++ bs) = c :: decodeFrom none bs := by
  have hvalid : c.toNat < 0xD800 ∨ 0xDFFF < c.toNat ∧ c.toNat < 0x110000 := c.valid
  have hc : c.val.toNat = c.toNat := rfl
  have hbyte : ∀ n, n < 256 → (UInt8.ofNat n).toNat = n := by
    intro n hn
    rw [UInt8.toNat_ofNat']
    omega
  unfold String.utf8EncodeChar
  dsimp only
  rw [hc]
  conv_rhs => rw [← Char.ofNat_toNat c]
  split_ifs with h1 h2 h3
  · have hb := hbyte c.toNat (by omega)
    rw [List.cons_append, decodeFrom, lead_one (by omega), hb]
    rfl
  · exact decodeFrom_two (by omega) h2 (hbyte _ (by omega)) (hbyte _ (by omega)) bs
  · exact decodeFrom_three (by omega) h3 (by omega) (hbyte _ (by omega)) (hbyte _ (by omega))
      (hbyte _ (by omega)) bs
  · exact decodeFrom_four (by omega) (by omega) (hbyte _ (by omega)) (hbyte _ (by omega))
      (hbyte _ (by omega)) (hbyte _ (by omega)) bs

theorem decode_encode (s : String) : decode (encode s) = s := by
  have hchars : ∀ cs : List Char, decodeFrom none (cs.flatMap String.utf8EncodeChar) = cs := by
    intro cs
    induction cs with
    | nil => rfl
    | cons c cs ih => rw [List.flatMap_cons, decodeFrom_char, ih]
  unfold decode encode
  rw [hchars, String.ofList_toList]

end Utf8
