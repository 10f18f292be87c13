import Pylog.Net.Batches

/-!
# Pylog.Net.Json — reading JSON text (net.py:16–18, 30–35)

`jsonText` writes, `jsonLoads` reads.  A text with a number that has a fraction or an exponent, or
with half of a surrogate pair, counts as no JSON: no value here has either.

A `JsonValue` is a value that JSON can carry; `jsonLoads` returns nothing else, and it reads back
what was written (`loads_dumps`).
-/

namespace Pylog.Net

open Raft (Bytes Entry Msg)
open Effect Effect.Handler Framing

/-! ### `json.loads` -/

/-- Reads the start of a text and returns what is left. -/
abbrev Scan (α : Type) := List Char → Option (α × List Char)

def isSpace (c : Char) : Bool := c = ' ' || c = '\t' || c = '\n' || c = '\r'

def skipSpace (cs : List Char) : List Char := cs.dropWhile isSpace

def hexValue (c : Char) : Option ℕ :=
  let n := c.toNat
  if 48 ≤ n ∧ n ≤ 57 then some (n - 48)
  else if 97 ≤ n ∧ n ≤ 102 then some (n - 87)
  else if 65 ≤ n ∧ n ≤ 70 then some (n - 55)
  else none

def hexNumber (a b c d : Char) : Option ℕ := do
  let a ← hexValue a
  let b ← hexValue b
  let c ← hexValue c
  let d ← hexValue d
  pure (a * 4096 + b * 256 + c * 16 + d)

/-- What a letter behind a backslash stands for. -/
def unescape (c : Char) : Option ℕ :=
  match c.toNat with
  | 34 => some 34
  | 92 => some 92
  | 47 => some 47
  | 98 => some 8
  | 102 => some 12
  | 110 => some 10
  | 114 => some 13
  | 116 => some 9
  | _ => none

/-- The characters and escapes before the closing quote, by their numbers. -/
def scanUnits : Scan (List ℕ)
  | [] => none
  | '\\' :: 'u' :: a :: b :: c :: d :: rest => do
    let n ← hexNumber a b c d
    let r ← scanUnits rest
    pure (n :: r.1, r.2)
  | '\\' :: c :: rest => do
    let n ← unescape c
    let r ← scanUnits rest
    pure (n :: r.1, r.2)
  | c :: rest =>
    if c = quote then some ([], rest)
    else if c.toNat < 32 then none
    else do
      let r ← scanUnits rest
      pure (c.toNat :: r.1, r.2)

/-- The characters of such numbers; two surrogates are one character. -/
def joinUnits : List ℕ → Option (List Char)
  | [] => some []
  | n :: ns =>
    if 0xD800 ≤ n ∧ n < 0xDC00 then
      match ns with
      | m :: ms =>
        if 0xDC00 ≤ m ∧ m < 0xE000 then do
          let cs ← joinUnits ms
          pure (Char.ofNat (0x10000 + (n - 0xD800) * 1024 + (m - 0xDC00)) :: cs)
        else none
      | [] => none
    else if 0xDC00 ≤ n ∧ n < 0xE000 then none
    else do
      let cs ← joinUnits ns
      pure (Char.ofNat n :: cs)

/-- A string behind its opening quote. -/
def scanString : Scan String := fun cs => do
  let r ← scanUnits cs
  let chars ← joinUnits r.1
  pure (String.ofList chars, r.2)

/-- A zero ends a number that starts with it. -/
def scanNat : Scan ℕ
  | '0' :: rest => some (0, rest)
  | cs =>
    match cs.takeWhile Char.isDigit with
    | [] => none
    | ds => some (Nat.ofDigitChars 10 ds 0, cs.dropWhile Char.isDigit)

/-- A fraction or an exponent. -/
def floats : List Char → Bool
  | c :: _ => c = '.' || c = 'e' || c = 'E'
  | [] => false

def scanSigned : Scan ℤ
  | '-' :: rest => (scanNat rest).map fun r => (-(r.1 : ℤ), r.2)
  | cs => (scanNat cs).map fun r => ((r.1 : ℤ), r.2)

def scanInt : Scan ℤ := fun cs => do
  let r ← scanSigned cs
  if floats r.2 then none else pure r

/-- A key of an object, with its colon. -/
def scanKey : Scan String
  | c :: cs =>
    if c = quote then do
      let r ← scanString cs
      match skipSpace r.2 with
      | ':' :: rest => pure (r.1, skipSpace rest)
      | _ => none
    else none
  | [] => none

def setItem (items : List (String × Value)) (k : String) (v : Value) : List (String × Value) :=
  if items.any fun e => e.1 = k then items.map fun e => if e.1 = k then (k, v) else e
  else items ++ [(k, v)]

/-- `dict(pairs)`: a later value replaces an earlier one. -/
def dictOf (pairs : List (String × Value)) : List (String × Value) :=
  pairs.foldl (fun items e => setItem items e.1 e.2) []

mutual

/-- Each value in a value is read with less fuel; the length of the text is enough. -/
def scanValue : ℕ → Scan Value
  | 0, _ => none
  | fuel + 1, cs =>
    match cs with
    | 'n' :: 'u' :: 'l' :: 'l' :: rest => some (.null, rest)
    | 't' :: 'r' :: 'u' :: 'e' :: rest => some (.bool true, rest)
    | 'f' :: 'a' :: 'l' :: 's' :: 'e' :: rest => some (.bool false, rest)
    | '[' :: rest =>
      match skipSpace rest with
      | ']' :: rest => some (.list [], rest)
      | rest => (scanElems fuel rest).map fun r => (.list r.1, r.2)
    | '{' :: rest =>
      match skipSpace rest with
      | '}' :: rest => some (.dict [], rest)
      | rest => (scanItems fuel rest).map fun r => (.dict (dictOf r.1), r.2)
    | c :: rest =>
      if c = quote then (scanString rest).map fun r => (.str r.1, r.2)
      else (scanInt cs).map fun r => (.int r.1, r.2)
    | [] => none

/-- The elements of an array up to its bracket. -/
def scanElems : ℕ → Scan (List Value)
  | 0, _ => none
  | fuel + 1, cs => do
    let v ← scanValue fuel cs
    match skipSpace v.2 with
    | ']' :: rest => pure ([v.1], rest)
    | ',' :: rest => do
      let r ← scanElems fuel (skipSpace rest)
      pure (v.1 :: r.1, r.2)
    | _ => none

/-- The items of an object up to its brace. -/
def scanItems : ℕ → Scan (List (String × Value))
  | 0, _ => none
  | fuel + 1, cs => do
    let k ← scanKey cs
    let v ← scanValue fuel k.2
    match skipSpace v.2 with
    | '}' :: rest => pure ([(k.1, v.1)], rest)
    | ',' :: rest => do
      let r ← scanItems fuel (skipSpace rest)
      pure ((k.1, v.1) :: r.1, r.2)
    | _ => none

end

/-- A text with nothing but space around its value. -/
def parseJson (cs : List Char) : Option Value := do
  let r ← scanValue (cs.length + 1) (skipSpace cs)
  if skipSpace r.2 = [] then pure r.1 else none

/-- `json.loads(data.decode("utf-8"))`; bytes are UTF-8 if they are the encoding of a text. -/
def jsonLoads (data : Bytes) : Option Value :=
  let text := Utf8.decode data
  if Utf8.encode text = data then parseJson text.toList else none

/-! ### Strings -/

/-- What `read` does with the rest, behind `x`. -/
def ahead {α : Type} (x : α) (r : Option (List α × List Char)) : Option (List α × List Char) :=
  r.map fun r => (x :: r.1, r.2)

theorem scanUnits_hex {a b c d : Char} {n : ℕ} (h : hexNumber a b c d = some n) (rest : List Char) :
    scanUnits ('\\' :: 'u' :: a :: b :: c :: d :: rest) = ahead n (scanUnits rest) := by
  rw [scanUnits, h]
  cases scanUnits rest <;> rfl

theorem scanUnits_letter {c : Char} {n : ℕ} (h : unescape c = some n) (rest : List Char) :
    scanUnits ('\\' :: c :: rest) = ahead n (scanUnits rest) := by
  have hu : c ≠ 'u' := by
    rintro rfl
    cases h
  rw [scanUnits, h]
  · cases scanUnits rest <;> rfl
  · rintro _ _ _ _ _ rfl
    exact absurd rfl hu

theorem scanUnits_plain {c : Char} (hslash : c.toNat ≠ 92) (hquote : c.toNat ≠ 34)
    (h : 32 ≤ c.toNat) (rest : List Char) :
    scanUnits (c :: rest) = ahead c.toNat (scanUnits rest) := by
  have hc : c ≠ quote := by
    rintro rfl
    exact hquote rfl
  have hs : c ≠ '\\' := by
    rintro rfl
    exact hslash rfl
  rw [scanUnits, if_neg hc, if_neg (by omega)]
  · cases scanUnits rest <;> rfl
  · rintro _ _ _ _ _ rfl
    exact absurd rfl hs
  · rintro _ _ rfl
    exact absurd rfl hs

theorem scanUnits_quote (rest : List Char) : scanUnits (quote :: rest) = some ([], rest) := by
  rw [scanUnits]
  · exact if_pos rfl
  · rintro _ _ _ _ _ h
    cases h
  · rintro _ _ h
    cases h

theorem hexValue_digitChar : ∀ k < 16, hexValue (Nat.digitChar k) = some k := by decide

theorem hex4_number {n : ℕ} (hn : n < 0x10000) (rest : List Char) :
    scanUnits ('\\' :: 'u' :: hex4 n ++ rest) = ahead n (scanUnits rest) := by
  refine scanUnits_hex ?_ rest
  unfold hexNumber
  rw [hexValue_digitChar _ (by omega), hexValue_digitChar _ (by omega),
    hexValue_digitChar _ (by omega), hexValue_digitChar _ (by omega)]
  show some _ = _
  congr 1
  omega

/-- The numbers an escaped character is read as. -/
def units (c : Char) : List ℕ :=
  if c.toNat < 0x10000 then [c.toNat]
  else [0xD800 + (c.toNat - 0x10000) / 1024, 0xDC00 + (c.toNat - 0x10000) % 1024]

theorem char_lt (c : Char) : c.toNat < 0xD800 ∨ 0xDFFF < c.toNat ∧ c.toNat < 0x110000 := c.valid

theorem scanUnits_escapeChar (c : Char) (rest : List Char) :
    scanUnits (escapeChar c ++ rest) =
      (scanUnits rest).map fun r => (units c ++ r.1, r.2) := by
  have hc := char_lt c
  have hone : c.toNat < 0x10000 → (fun r : List ℕ × List Char => (units c ++ r.1, r.2)) =
      fun r => (c.toNat :: r.1, r.2) := by
    intro h
    unfold units
    rw [if_pos h]
    rfl
  have hletter : ∀ x : Char, unescape x = some c.toNat → c.toNat < 0x10000 →
      scanUnits (['\\', x] ++ rest) = (scanUnits rest).map fun r => (units c ++ r.1, r.2) := by
    intro x hx h
    rw [hone h]
    exact scanUnits_letter hx rest
  unfold escapeChar
  dsimp only
  split_ifs with h1 h2 h3 h4 h5 h6 h7 h8
  · refine hletter c ?_ (by omega)
    unfold unescape
    rcases h1 with h1 | h1 <;> (rw [h1]; rfl)
  · rw [hone (by omega)]
    exact scanUnits_plain (by omega) (by omega) h2.1 rest
  · exact hletter _ (by rw [h3]; rfl) (by omega)
  · exact hletter _ (by rw [h4]; rfl) (by omega)
  · exact hletter _ (by rw [h5]; rfl) (by omega)
  · exact hletter _ (by rw [h6]; rfl) (by omega)
  · exact hletter _ (by rw [h7]; rfl) (by omega)
  · rw [hone h8]
    exact hex4_number h8 rest
  · -- two surrogates
    have hunits : units c = [0xD800 + (c.toNat - 0x10000) / 1024,
        0xDC00 + (c.toNat - 0x10000) % 1024] := if_neg h8
    rw [List.append_assoc, hex4_number (by omega), hex4_number (by omega), hunits]
    cases scanUnits rest <;> rfl

theorem joinUnits_units (c : Char) (ns : List ℕ) :
    joinUnits (units c ++ ns) = (joinUnits ns).map (c :: ·) := by
  have hc := char_lt c
  unfold units
  split_ifs with h
  · rw [List.singleton_append, joinUnits.eq_def]
    dsimp only
    rw [if_neg (by omega), if_neg (by omega), Char.ofNat_toNat]
    cases joinUnits ns <;> rfl
  · have hsum : 0x10000 + (0xD800 + (c.toNat - 0x10000) / 1024 - 0xD800) * 1024 +
        (0xDC00 + (c.toNat - 0x10000) % 1024 - 0xDC00) = c.toNat := by omega
    rw [List.cons_append, List.singleton_append, joinUnits.eq_def]
    dsimp only
    rw [if_pos (by omega), if_pos (by omega), hsum, Char.ofNat_toNat]
    cases joinUnits ns <;> rfl

/-- A string is read up to its closing quote. -/
theorem scanString_escaped (s : String) (rest : List Char) :
    scanString (s.toList.flatMap escapeChar ++ quote :: rest) = some (s, rest) := by
  have hscan : ∀ cs : List Char, scanUnits (cs.flatMap escapeChar ++ quote :: rest) =
      some (cs.flatMap units, rest) := by
    intro cs
    induction cs with
    | nil => exact scanUnits_quote rest
    | cons c cs ih =>
      rw [List.flatMap_cons, List.append_assoc, scanUnits_escapeChar, ih]
      rfl
  have hjoin : ∀ cs : List Char, joinUnits (cs.flatMap units) = some cs := by
    intro cs
    induction cs with
    | nil => rfl
    | cons c cs ih =>
      rw [List.flatMap_cons, joinUnits_units, ih]
      rfl
  unfold scanString
  rw [hscan]
  show (joinUnits (s.toList.flatMap units) >>= fun chars => pure (String.ofList chars, rest)) = _
  rw [hjoin]
  show some (String.ofList s.toList, rest) = _
  rw [String.ofList_toList]

/-! ### Numbers -/

/-- What can follow a value. -/
def Stops (rest : List Char) : Prop := ∀ c ∈ rest.head?, c = ',' ∨ c = ']' ∨ c = '}'

theorem stops_nil : Stops [] := by simp [Stops]

theorem stops_cons {c : Char} (h : c = ',' ∨ c = ']' ∨ c = '}') (rest : List Char) :
    Stops (c :: rest) := by
  rintro x hx
  obtain rfl := Option.some.inj hx
  exact h

theorem Stops.not_digit {rest : List Char} (h : Stops rest) :
    rest.takeWhile Char.isDigit = [] ∧ rest.dropWhile Char.isDigit = rest := by
  cases rest with
  | nil => exact ⟨rfl, rfl⟩
  | cons c cs =>
    have hc : c.isDigit = false := by
      rcases h c rfl with rfl | rfl | rfl <;> decide
    exact ⟨List.takeWhile_cons_of_neg (by simp [hc]), List.dropWhile_cons_of_neg (by simp [hc])⟩

theorem Stops.not_floats {rest : List Char} (h : Stops rest) : floats rest = false := by
  cases rest with
  | nil => rfl
  | cons c cs => rcases h c rfl with rfl | rfl | rfl <;> rfl

/-- Only zero starts with a zero. -/
theorem toDigits_head (n : ℕ) : 0 < n → ∃ c cs, Nat.toDigits 10 n = c :: cs ∧ c ≠ '0' := by
  induction n using Nat.strong_induction_on with
  | h n ih =>
    intro hn
    by_cases hlt : n < 10
    · refine ⟨_, [], Nat.toDigits_of_lt_base hlt, ?_⟩
      have hdigit : ∀ k < 10, 0 < k → Nat.digitChar k ≠ '0' := by decide
      exact hdigit n hlt hn
    · obtain ⟨c, cs, hcs, hc⟩ := ih (n / 10) (by omega) (by omega)
      refine ⟨c, cs ++ [Nat.digitChar (n % 10)], ?_, hc⟩
      rw [Nat.toDigits_of_base_le (by decide) (by omega), hcs]
      rfl

theorem digits_repr (n : ℕ) : ∀ c ∈ n.repr.toList, c.isDigit = true := by
  intro c hc
  rw [Nat.toList_repr] at hc
  exact Nat.isDigit_of_mem_toDigits (by decide) (by decide) hc

theorem scanNat_repr (n : ℕ) {rest : List Char} (hrest : Stops rest) :
    scanNat (n.repr.toList ++ rest) = some (n, rest) := by
  rcases Nat.eq_zero_or_pos n with rfl | hn
  · have hzero : (0 : ℕ).repr.toList = ['0'] := by
      rw [Nat.toList_repr, Nat.toDigits_zero]
    rw [hzero]
    rfl
  · obtain ⟨c, cs, hcs, hc⟩ := toDigits_head n hn
    have hdigits := digits_repr n
    have hvalue : Nat.ofDigitChars 10 n.repr.toList 0 = n := by
      rw [Nat.toList_repr, Nat.ofDigitChars_ten_toDigits]
    have htake : (n.repr.toList ++ rest).takeWhile Char.isDigit = n.repr.toList := by
      rw [List.takeWhile_append_of_pos hdigits, hrest.not_digit.1, List.append_nil]
    have hdrop : (n.repr.toList ++ rest).dropWhile Char.isDigit = rest := by
      rw [List.dropWhile_append_of_pos hdigits, hrest.not_digit.2]
    rw [Nat.toList_repr, hcs] at hvalue htake hdrop ⊢
    unfold scanNat
    split
    · rename_i heq
      exact absurd (List.cons.inj heq).1 hc
    · rw [htake, hdrop]
      exact congrArg (fun n => some (n, rest)) hvalue

theorem scanSigned_repr (n : ℤ) {rest : List Char} (hrest : Stops rest) :
    scanSigned (n.repr.toList ++ rest) = some (n, rest) := by
  cases n with
  | ofNat n =>
    have hscan := scanNat_repr n hrest
    have hrepr : (Int.ofNat n).repr = n.repr := rfl
    rw [hrepr]
    unfold scanSigned
    split
    · -- a digit is no sign
      rename_i cs heq
      have hdigits := digits_repr n
      cases hcs : n.repr.toList with
      | nil =>
        rw [Nat.toList_repr] at hcs
        exact absurd hcs Nat.toDigits_ne_nil
      | cons c cs' =>
        rw [hcs] at heq hdigits
        have hc : c = '-' := (List.cons.inj heq).1
        have := hdigits c (by simp)
        rw [hc] at this
        cases this
    · rw [hscan]
      rfl
  | negSucc n =>
    have hscan := scanNat_repr (n + 1) hrest
    have hrepr : (Int.negSucc n).repr.toList = '-' :: (n + 1).repr.toList := by
      show (("-" : String) ++ Nat.repr (n + 1)).toList = _
      rw [String.toList_append]
      rfl
    rw [hrepr, List.cons_append, scanSigned, hscan]
    rfl

theorem scanInt_repr (n : ℤ) {rest : List Char} (hrest : Stops rest) :
    scanInt (n.repr.toList ++ rest) = some (n, rest) := by
  unfold scanInt
  rw [scanSigned_repr n hrest]
  show (if floats rest = true then none else some (n, rest)) = _
  rw [hrest.not_floats]
  rfl

/-! ### Values -/

mutual

/-- No bytes, and no dict with a key twice. -/
def Value.sound : Value → Bool
  | .bytes _ => false
  | .list xs => soundList xs
  | .dict items => decide (items.map Prod.fst).Nodup && soundItems items
  | _ => true

def soundList : List Value → Bool
  | [] => true
  | x :: xs => x.sound && soundList xs

def soundItems : List (String × Value) → Bool
  | [] => true
  | (_, v) :: rest => v.sound && soundItems rest

end

/-- A text that no space and no bracket starts. -/
def Starts (text : List Char) : Prop :=
  ∃ c cs, text = c :: cs ∧ isSpace c = false ∧ c ≠ ']' ∧ c ≠ '}'

theorem Starts.skipSpace {text : List Char} (h : Starts text) (rest : List Char) :
    skipSpace (text ++ rest) = text ++ rest := by
  obtain ⟨c, cs, rfl, hc, -⟩ := h
  exact List.dropWhile_cons_of_neg (by simp [hc])

theorem starts_cons {c : Char} (h : isSpace c = false ∧ c ≠ ']' ∧ c ≠ '}') (cs : List Char) :
    Starts (c :: cs) := ⟨c, cs, rfl, h⟩

theorem starts_digit {c : Char} (h : c.isDigit = true) (cs : List Char) : Starts (c :: cs) := by
  refine starts_cons ⟨?_, ?_, ?_⟩ cs
  · have hn := Char.isDigit_iff_toNat.mp h
    unfold isSpace
    rw [Bool.eq_false_iff]
    simp only [ne_eq, Bool.or_eq_true, decide_eq_true_eq]
    rintro (((rfl | rfl) | rfl) | rfl) <;> simp at hn
  · rintro rfl
    cases h
  · rintro rfl
    cases h

theorem repr_head (n : ℤ) : ∃ c cs, n.repr.toList = c :: cs ∧ (c = '-' ∨ c.isDigit = true) := by
  cases n with
  | ofNat n =>
    have hdigits := digits_repr n
    have hrepr : (Int.ofNat n).repr = n.repr := rfl
    rw [hrepr]
    cases hcs : n.repr.toList with
    | nil =>
      rw [Nat.toList_repr] at hcs
      exact absurd hcs Nat.toDigits_ne_nil
    | cons c cs =>
      rw [hcs] at hdigits
      exact ⟨c, cs, rfl, .inr (hdigits c (by simp))⟩
  | negSucc n =>
    refine ⟨'-', (n + 1).repr.toList, ?_, .inl rfl⟩
    show (("-" : String) ++ Nat.repr (n + 1)).toList = _
    rw [String.toList_append]
    rfl

theorem starts_text {v : Value} {text : List Char} (h : jsonText v = .ok text) : Starts text := by
  cases v with
  | null =>
    cases h
    exact starts_cons (by decide) _
  | bool b =>
    cases h
    cases b with
    | false => exact starts_cons (by decide) _
    | true => exact starts_cons (by decide) _
  | int n =>
    cases h
    obtain ⟨c, cs, hcs, rfl | hc⟩ := repr_head n
    · rw [hcs]
      exact starts_cons (by decide) cs
    · rw [hcs]
      exact starts_digit hc cs
  | str s =>
    cases h
    exact starts_cons (by decide) _
  | bytes b => cases h
  | list xs =>
    cases hx : jsonTexts xs with
    | error e =>
      rw [jsonText, hx] at h
      cases h
    | ok texts =>
      rw [jsonText_list hx] at h
      cases h
      exact starts_cons (by decide) _
  | dict items =>
    cases hx : jsonItems items with
    | error e =>
      rw [jsonText, hx] at h
      cases h
    | ok texts =>
      rw [jsonText_dict hx] at h
      cases h
      exact starts_cons (by decide) _

/-- What starts with a digit or a sign is read as a number. -/
theorem scanValue_number {c : Char} (hc : c = '-' ∨ c.isDigit = true) (fuel : ℕ) (cs : List Char) :
    scanValue (fuel + 1) (c :: cs) = (scanInt (c :: cs)).map fun r => (.int r.1, r.2) := by
  have hne : ∀ x : Char, x ≠ '-' → x.isDigit = false → c ≠ x := by
    rintro x hx hd rfl
    rcases hc with hc | hc
    · exact hx hc
    · rw [hd] at hc
      cases hc
  rw [scanValue]
  · exact if_neg (hne quote (by decide) (by decide))
  · intro rest h
    exact absurd h (hne 'n' (by decide) (by decide))
  · intro rest h
    exact absurd h (hne 't' (by decide) (by decide))
  · intro rest h
    exact absurd h (hne 'f' (by decide) (by decide))
  · rintro rfl
    exact hne '[' (by decide) (by decide) rfl
  · rintro rfl
    exact hne '\x7b' (by decide) (by decide) rfl

theorem scanValue_string (fuel : ℕ) (s : String) (rest : List Char) :
    scanValue (fuel + 1) (jsonString s ++ rest) = some (.str s, rest) := by
  unfold jsonString
  rw [List.cons_append, List.cons_append, List.append_assoc, List.singleton_append, scanValue,
    if_pos rfl, scanString_escaped]
  · rfl
  · intro rest h
    exact absurd h (by decide)
  · intro rest h
    exact absurd h (by decide)
  · intro rest h
    exact absurd h (by decide)
  · intro h
    exact absurd h (by decide)
  · intro h
    exact absurd h (by decide)

theorem scanKey_text (k : String) {text : List Char} (h : Starts text) (rest : List Char) :
    scanKey ((jsonString k ++ ':' :: text) ++ rest) = some (k, text ++ rest) := by
  unfold jsonString scanKey
  dsimp only [List.cons_append]
  rw [if_pos rfl, List.append_assoc, List.append_assoc, List.singleton_append, scanString_escaped]
  show (match skipSpace (':' :: (text ++ rest)) with
    | ':' :: rest => pure (k, skipSpace rest)
    | _ => none) = _
  have hcolon : skipSpace (':' :: (text ++ rest)) = ':' :: (text ++ rest) :=
    List.dropWhile_cons_of_neg (by decide)
  rw [hcolon]
  show some (k, skipSpace (text ++ rest)) = _
  rw [h.skipSpace]

theorem joined_cons (text text' : List Char) (texts : List (List Char)) :
    joined (text :: text' :: texts) = text ++ ',' :: joined (text' :: texts) := by
  unfold joined
  rw [List.intercalate_cons_cons, List.append_assoc]
  rfl

theorem joined_one (text : List Char) : joined [text] = text := by
  unfold joined
  simp

theorem skipSpace_mark {c : Char} (h : isSpace c = false) (rest : List Char) :
    skipSpace (c :: rest) = c :: rest := List.dropWhile_cons_of_neg (by simp [h])

theorem starts_joined {text : List Char} {texts : List (List Char)} (h : Starts text) :
    Starts (joined (text :: texts)) := by
  obtain ⟨c, cs, rfl, hc⟩ := h
  cases texts with
  | nil =>
    rw [joined_one]
    exact starts_cons hc cs
  | cons text' texts =>
    rw [joined_cons]
    exact starts_cons hc _

/-- What the texts of a list of values come from. -/
theorem jsonTexts_cons {x : Value} {xs : List Value} {texts : List (List Char)}
    (h : jsonTexts (x :: xs) = .ok texts) :
    ∃ text rest, texts = text :: rest ∧ jsonText x = .ok text ∧ jsonTexts xs = .ok rest := by
  rw [jsonTexts] at h
  cases hx : jsonText x with
  | error e =>
    rw [hx] at h
    cases h
  | ok text =>
    cases hxs : jsonTexts xs with
    | error e =>
      rw [hx, hxs] at h
      cases h
    | ok rest =>
      rw [hx, hxs] at h
      cases h
      exact ⟨text, rest, rfl, rfl, rfl⟩

theorem jsonItems_inv {k : String} {v : Value} {items : List (String × Value)}
    {texts : List (List Char)} (h : jsonItems ((k, v) :: items) = .ok texts) :
    ∃ text rest, texts = (jsonString k ++ ':' :: text) :: rest ∧ jsonText v = .ok text ∧
      jsonItems items = .ok rest := by
  rw [jsonItems] at h
  cases hx : jsonText v with
  | error e =>
    rw [hx] at h
    cases h
  | ok text =>
    cases hxs : jsonItems items with
    | error e =>
      rw [hx, hxs] at h
      cases h
    | ok rest =>
      rw [hx, hxs] at h
      cases h
      exact ⟨text, rest, rfl, rfl, rfl⟩

theorem dictOf_nodup : ∀ {items : List (String × Value)}, (items.map Prod.fst).Nodup →
    dictOf items = items := by
  intro items hnodup
  have hfold : ∀ (items acc : List (String × Value)), ((acc ++ items).map Prod.fst).Nodup →
      items.foldl (fun items e => setItem items e.1 e.2) acc = acc ++ items := by
    intro items
    induction items with
    | nil =>
      intro acc _
      rw [List.foldl_nil, List.append_nil]
    | cons e items ih =>
      intro acc h
      have hnew : (acc.any fun x => x.1 = e.1) = false := by
        rw [List.any_eq_false]
        rintro x hx hk
        rw [List.map_append, List.nodup_append] at h
        exact h.2.2 x.1 (List.mem_map_of_mem hx) e.1 (by simp) (of_decide_eq_true hk)
      have hset : setItem acc e.1 e.2 = acc ++ [e] := by
        unfold setItem
        rw [hnew]
        rfl
      rw [List.foldl_cons, hset, ih _ (by rwa [List.append_assoc, List.singleton_append]),
        List.append_assoc]
      rfl
  exact hfold items [] hnodup

/-! One round of the loops of `scanElems` and `scanItems`. -/

section Rounds

variable {fuel : ℕ} {cs tail rest : List Char} {v : Value}

theorem scanElems_last (h : scanValue fuel cs = some (v, ']' :: rest)) :
    scanElems (fuel + 1) cs = some ([v], rest) := by
  rw [scanElems, h]
  show (match skipSpace (']' :: rest) with
    | ']' :: rest => pure ([v], rest)
    | ',' :: rest => (scanElems fuel (skipSpace rest)).bind fun r => pure (v :: r.1, r.2)
    | _ => none) = _
  rw [skipSpace_mark (by decide)]
  rfl

theorem scanElems_more (h : scanValue fuel cs = some (v, ',' :: tail)) {vs : List Value}
    (hmore : scanElems fuel (skipSpace tail) = some (vs, rest)) :
    scanElems (fuel + 1) cs = some (v :: vs, rest) := by
  rw [scanElems, h]
  show (match skipSpace (',' :: tail) with
    | ']' :: rest => pure ([v], rest)
    | ',' :: rest => (scanElems fuel (skipSpace rest)).bind fun r => pure (v :: r.1, r.2)
    | _ => none) = _
  rw [skipSpace_mark (by decide)]
  show ((scanElems fuel (skipSpace tail)).bind fun r => pure (v :: r.1, r.2)) = _
  rw [hmore]
  rfl

variable {k : String} {cs' : List Char}

theorem scanItems_last (hk : scanKey cs = some (k, cs'))
    (h : scanValue fuel cs' = some (v, '\x7d' :: rest)) :
    scanItems (fuel + 1) cs = some ([(k, v)], rest) := by
  rw [scanItems, hk]
  show ((scanValue fuel cs').bind fun v => match skipSpace v.2 with
    | '\x7d' :: rest => pure ([(k, v.1)], rest)
    | ',' :: rest => (scanItems fuel (skipSpace rest)).bind fun r => pure ((k, v.1) :: r.1, r.2)
    | _ => none) = _
  rw [h, Option.bind_some, skipSpace_mark (by decide)]
  rfl

theorem scanItems_more (hk : scanKey cs = some (k, cs'))
    (h : scanValue fuel cs' = some (v, ',' :: tail)) {items : List (String × Value)}
    (hmore : scanItems fuel (skipSpace tail) = some (items, rest)) :
    scanItems (fuel + 1) cs = some ((k, v) :: items, rest) := by
  rw [scanItems, hk]
  show ((scanValue fuel cs').bind fun v => match skipSpace v.2 with
    | '\x7d' :: rest => pure ([(k, v.1)], rest)
    | ',' :: rest => (scanItems fuel (skipSpace rest)).bind fun r => pure ((k, v.1) :: r.1, r.2)
    | _ => none) = _
  rw [h, Option.bind_some, skipSpace_mark (by decide)]
  show ((scanItems fuel (skipSpace tail)).bind fun r => pure ((k, v) :: r.1, r.2)) = _
  rw [hmore]
  rfl

end Rounds

mutual

/-- A value is read as it was written, and nothing behind it. -/
theorem scanValue_text : ∀ (v : Value) {text : List Char}, jsonText v = .ok text →
    v.sound = true → ∀ {fuel : ℕ} {rest : List Char}, text.length ≤ fuel → Stops rest →
    scanValue fuel (text ++ rest) = some (v, rest)
  | v, text, h, hv, 0, rest, hfuel, _ => by
    obtain ⟨c, cs, rfl, -⟩ := starts_text h
    cases hfuel
  | .null, _, h, _, fuel + 1, rest, _, _ => by
    cases h
    rfl
  | .bool b, _, h, _, fuel + 1, rest, _, _ => by
    cases h
    cases b <;> rfl
  | .int n, _, h, _, fuel + 1, rest, _, hrest => by
    cases h
    have hscan := scanInt_repr n hrest
    obtain ⟨c, cs, hcs, hc⟩ := repr_head n
    rw [hcs, List.cons_append] at hscan ⊢
    rw [scanValue_number hc, hscan]
    rfl
  | .str s, _, h, _, fuel + 1, rest, _, _ => by
    cases h
    exact scanValue_string fuel s rest
  | .bytes b, _, h, _, _ + 1, _, _, _ => by cases h
  | .list xs, text, h, hv, fuel + 1, rest, hfuel, _ => by
    cases hx : jsonTexts xs with
    | error e =>
      rw [jsonText, hx] at h
      cases h
    | ok texts =>
      rw [jsonText_list hx] at h
      cases h
      cases xs with
      | nil =>
        cases hx
        rfl
      | cons x xs =>
        have helems : scanElems fuel (joined texts ++ ']' :: rest) = some (x :: xs, rest) :=
          scanElems_text (x :: xs) (by simp) hx hv (by simpa using hfuel)
        obtain ⟨text, rest', rfl, htext, -⟩ := jsonTexts_cons hx
        have hstarts : Starts (joined (text :: rest')) := starts_joined (starts_text htext)
        have hskip := hstarts.skipSpace (']' :: rest)
        rw [List.cons_append, List.cons_append, List.append_assoc, List.singleton_append, scanValue,
          hskip]
        obtain ⟨c, cs, hcs, -, hc, -⟩ := hstarts
        rw [hcs, List.cons_append] at helems ⊢
        split
        · rename_i heq
          exact absurd (List.cons.inj heq).1 hc
        · rw [helems]
          rfl
  | .dict items, text, h, hv, fuel + 1, rest, hfuel, _ => by
    cases hx : jsonItems items with
    | error e =>
      rw [jsonText, hx] at h
      cases h
    | ok texts =>
      rw [jsonText_dict hx] at h
      cases h
      rw [Value.sound, Bool.and_eq_true, decide_eq_true_eq] at hv
      cases items with
      | nil =>
        cases hx
        rfl
      | cons e items =>
        have hitems : scanItems fuel (joined texts ++ '\x7d' :: rest) = some (e :: items, rest) :=
          scanItems_text (e :: items) (by simp) hx hv.2 (by simpa using hfuel)
        obtain ⟨text, rest', rfl, htext, -⟩ := jsonItems_inv hx
        have hstarts : Starts (joined ((jsonString e.1 ++ ':' :: text) :: rest')) :=
          starts_joined (starts_cons (by decide) _)
        have hskip := hstarts.skipSpace ('\x7d' :: rest)
        rw [List.cons_append, List.cons_append, List.append_assoc, List.singleton_append, scanValue,
          hskip]
        obtain ⟨c, cs, hcs, -, -, hc⟩ := hstarts
        rw [hcs, List.cons_append] at hitems ⊢
        split
        · rename_i heq
          exact absurd (List.cons.inj heq).1 hc
        · rw [hitems]
          show some (Value.dict (dictOf (e :: items)), rest) = _
          rw [dictOf_nodup hv.1]

theorem scanElems_text : ∀ (xs : List Value) {texts : List (List Char)}, xs ≠ [] →
    jsonTexts xs = .ok texts → soundList xs = true → ∀ {fuel : ℕ} {rest : List Char},
    (joined texts).length + 1 ≤ fuel →
    scanElems fuel (joined texts ++ ']' :: rest) = some (xs, rest)
  | [], _, hne, _, _, _, _, _ => absurd rfl hne
  | _ :: _, _, _, _, _, 0, _, hfuel => by omega
  | x :: xs, texts, _, h, hs, fuel + 1, rest, hfuel => by
    obtain ⟨text, texts', rfl, htext, htexts⟩ := jsonTexts_cons h
    rw [soundList, Bool.and_eq_true] at hs
    cases xs with
    | nil =>
      cases htexts
      rw [joined_one] at hfuel ⊢
      exact scanElems_last (scanValue_text x htext hs.1 (by omega) (stops_cons (by simp) rest))
    | cons x' xs =>
      obtain ⟨text', texts'', rfl, htext', -⟩ := jsonTexts_cons htexts
      rw [joined_cons, List.length_append, List.length_cons] at hfuel
      rw [joined_cons, List.append_assoc, List.cons_append]
      refine scanElems_more
        (scanValue_text x htext hs.1 (by omega) (stops_cons (by simp) _)) ?_
      rw [(starts_joined (starts_text htext')).skipSpace]
      exact scanElems_text (x' :: xs) (by simp) htexts hs.2 (by omega)

theorem scanItems_text : ∀ (items : List (String × Value)) {texts : List (List Char)},
    items ≠ [] → jsonItems items = .ok texts → soundItems items = true →
    ∀ {fuel : ℕ} {rest : List Char}, (joined texts).length + 1 ≤ fuel →
    scanItems fuel (joined texts ++ '\x7d' :: rest) = some (items, rest)
  | [], _, hne, _, _, _, _, _ => absurd rfl hne
  | _ :: _, _, _, _, _, 0, _, hfuel => by omega
  | (k, v) :: items, texts, _, h, hs, fuel + 1, rest, hfuel => by
    obtain ⟨text, texts', rfl, htext, htexts⟩ := jsonItems_inv h
    rw [soundItems, Bool.and_eq_true] at hs
    have hstarts := starts_text htext
    cases items with
    | nil =>
      cases htexts
      rw [joined_one] at hfuel ⊢
      rw [List.length_append, List.length_cons] at hfuel
      exact scanItems_last (scanKey_text k hstarts _)
        (scanValue_text v htext hs.1 (by omega) (stops_cons (by simp) rest))
    | cons e items =>
      obtain ⟨text', texts'', rfl, htext', -⟩ := jsonItems_inv htexts
      rw [joined_cons, List.length_append, List.length_append, List.length_cons,
        List.length_cons] at hfuel
      have hnext : Starts (joined ((jsonString e.1 ++ ':' :: text') :: texts'')) :=
        starts_joined (starts_cons (by decide) _)
      rw [joined_cons, List.append_assoc, List.cons_append]
      refine scanItems_more (scanKey_text k hstarts _)
        (scanValue_text v htext hs.1 (by omega) (stops_cons (by simp) _)) ?_
      rw [hnext.skipSpace]
      exact scanItems_text (e :: items) (by simp) htexts hs.2 (by omega)

end

/-! ### What is read -/

theorem keys_setItem (items : List (String × Value)) (k : String) (v : Value) :
    (setItem items k v).map Prod.fst =
      if k ∈ items.map Prod.fst then items.map Prod.fst else items.map Prod.fst ++ [k] := by
  have hany : (items.any fun e => e.1 = k) = true ↔ k ∈ items.map Prod.fst := by
    simp only [List.any_eq_true, decide_eq_true_eq, List.mem_map]
  unfold setItem
  by_cases h : k ∈ items.map Prod.fst
  · rw [if_pos (hany.mpr h), if_pos h, List.map_map]
    refine List.map_congr_left fun e _ => ?_
    show (if e.1 = k then (k, v) else e).1 = e.1
    split_ifs with hk
    · exact hk.symm
    · rfl
  · rw [if_neg (fun h' => h (hany.mp h')), if_neg h, List.map_append]
    rfl

theorem soundItems_iff (items : List (String × Value)) :
    soundItems items = true ↔ ∀ e ∈ items, e.2.sound = true := by
  induction items with
  | nil => simp [soundItems]
  | cons e items ih =>
    rw [soundItems, Bool.and_eq_true, ih]
    simp

/-- A dict that is read has no key twice. -/
theorem dictOf_sound {pairs : List (String × Value)} (h : soundItems pairs = true) :
    (Value.dict (dictOf pairs)).sound = true := by
  have hfold : ∀ (pairs acc : List (String × Value)), soundItems pairs = true →
      (acc.map Prod.fst).Nodup → soundItems acc = true →
      ((pairs.foldl (fun items e => setItem items e.1 e.2) acc).map Prod.fst).Nodup ∧
        soundItems (pairs.foldl (fun items e => setItem items e.1 e.2) acc) = true := by
    intro pairs
    induction pairs with
    | nil => exact fun acc _ hnodup hacc => ⟨hnodup, hacc⟩
    | cons e pairs ih =>
      intro acc h hnodup hacc
      obtain ⟨k, v⟩ := e
      rw [soundItems, Bool.and_eq_true] at h
      refine ih (setItem acc k v) h.2 ?_ ?_
      · rw [keys_setItem]
        split_ifs with hk
        · exact hnodup
        · rw [← List.concat_eq_append]
          exact hnodup.concat hk
      · rw [soundItems_iff] at hacc ⊢
        intro x hx
        unfold setItem at hx
        split_ifs at hx
        · obtain ⟨y, hy, rfl⟩ := List.mem_map.mp hx
          split_ifs
          · exact h.1
          · exact hacc y hy
        · rcases List.mem_append.mp hx with hx | hx
          · exact hacc x hx
          · rw [List.mem_singleton.mp hx]
            exact h.1
  obtain ⟨hnodup, hsound⟩ := hfold pairs [] h List.nodup_nil rfl
  rw [Value.sound, Bool.and_eq_true, decide_eq_true_eq]
  exact ⟨hnodup, hsound⟩

mutual

theorem scanValue_sound : ∀ {fuel : ℕ} {cs rest : List Char} {v : Value},
    scanValue fuel cs = some (v, rest) → v.sound = true
  | 0, _, _, _, h => by cases h
  | fuel + 1, cs, rest, v, h => by
    rw [scanValue.eq_def] at h
    dsimp only at h
    split at h
    · cases h
      rfl
    · cases h
      rfl
    · cases h
      rfl
    · split at h
      · cases h
        rfl
      · obtain ⟨r, hr, heq⟩ := Option.map_eq_some_iff.mp h
        cases heq
        exact scanElems_sound hr
    · split at h
      · cases h
        rfl
      · obtain ⟨r, hr, heq⟩ := Option.map_eq_some_iff.mp h
        cases heq
        exact dictOf_sound (scanItems_sound hr)
    · split_ifs at h
      · obtain ⟨r, hr, heq⟩ := Option.map_eq_some_iff.mp h
        cases heq
        rfl
      · obtain ⟨r, hr, heq⟩ := Option.map_eq_some_iff.mp h
        cases heq
        rfl
    · cases h

theorem scanElems_sound : ∀ {fuel : ℕ} {cs : List Char} {r : List Value × List Char},
    scanElems fuel cs = some r → soundList r.1 = true
  | 0, _, _, h => by cases h
  | fuel + 1, cs, r, h => by
    rw [scanElems] at h
    obtain ⟨v, hv, h⟩ := Option.bind_eq_some_iff.mp h
    have hsound := scanValue_sound hv
    split at h
    · cases h
      rw [soundList, hsound]
      rfl
    · obtain ⟨r', hr', h⟩ := Option.bind_eq_some_iff.mp h
      cases h
      rw [soundList, hsound, scanElems_sound hr']
      rfl
    · cases h

theorem scanItems_sound : ∀ {fuel : ℕ} {cs : List Char} {r : List (String × Value) × List Char},
    scanItems fuel cs = some r → soundItems r.1 = true
  | 0, _, _, h => by cases h
  | fuel + 1, cs, r, h => by
    rw [scanItems] at h
    obtain ⟨k, hk, h⟩ := Option.bind_eq_some_iff.mp h
    obtain ⟨v, hv, h⟩ := Option.bind_eq_some_iff.mp h
    have hsound := scanValue_sound hv
    split at h
    · cases h
      rw [soundItems, hsound]
      rfl
    · obtain ⟨r', hr', h⟩ := Option.bind_eq_some_iff.mp h
      cases h
      rw [soundItems, hsound, scanItems_sound hr']
      rfl
    · cases h

end

theorem jsonLoads_sound {data : Bytes} {v : Value} (h : jsonLoads data = some v) :
    v.sound = true := by
  unfold jsonLoads parseJson at h
  dsimp only at h
  split_ifs at h
  obtain ⟨r, hr, h⟩ := Option.bind_eq_some_iff.mp h
  split_ifs at h
  cases h
  exact scanValue_sound hr

mutual

theorem jsonText_sound : ∀ {v : Value}, v.sound = true → ∃ text, jsonText v = .ok text
  | .null, _ => ⟨_, rfl⟩
  | .bool _, _ => ⟨_, rfl⟩
  | .int _, _ => ⟨_, rfl⟩
  | .str _, _ => ⟨_, rfl⟩
  | .bytes _, h => by cases h
  | .list xs, h => by
    obtain ⟨texts, htexts⟩ := jsonTexts_sound h
    exact ⟨_, jsonText_list htexts⟩
  | .dict items, h => by
    rw [Value.sound, Bool.and_eq_true] at h
    obtain ⟨texts, htexts⟩ := jsonItems_sound h.2
    exact ⟨_, jsonText_dict htexts⟩

theorem jsonTexts_sound : ∀ {xs : List Value}, soundList xs = true → ∃ texts, jsonTexts xs = .ok texts
  | [], _ => ⟨_, rfl⟩
  | x :: xs, h => by
    rw [soundList, Bool.and_eq_true] at h
    obtain ⟨text, htext⟩ := jsonText_sound h.1
    obtain ⟨texts, htexts⟩ := jsonTexts_sound h.2
    refine ⟨text :: texts, ?_⟩
    rw [jsonTexts, htext, htexts]
    rfl

theorem jsonItems_sound : ∀ {items : List (String × Value)}, soundItems items = true →
    ∃ texts, jsonItems items = .ok texts
  | [], _ => ⟨_, rfl⟩
  | (k, v) :: items, h => by
    rw [soundItems, Bool.and_eq_true] at h
    obtain ⟨text, htext⟩ := jsonText_sound h.1
    obtain ⟨texts, htexts⟩ := jsonItems_sound h.2
    exact ⟨_, jsonItems_cons htext htexts⟩

end

/-! ### Values that JSON can carry -/

/-- A value without bytes; the keys of a dict are not repeated. -/
abbrev JsonValue := { v : Value // v.sound = true }

/-- `json.dumps` cannot fail on such a value. -/
def jsonDumps (v : JsonValue) : Bytes :=
  match dumps v.1 with
  | .ok data => data
  | .error _ => []

/-- The standard library's `json`. -/
def pyJson : Json JsonValue where
  dumps := jsonDumps
  loads data := (jsonLoads data).pmap Subtype.mk fun _ h => jsonLoads_sound h

theorem dumps_sound (v : JsonValue) : ∃ text, jsonText v.1 = .ok text ∧
    jsonDumps v = Utf8.encode (String.ofList text) := by
  obtain ⟨text, htext⟩ := jsonText_sound v.2
  refine ⟨text, htext, ?_⟩
  unfold jsonDumps dumps
  rw [htext]
  rfl

theorem parseJson_text {v : Value} (hv : v.sound = true) {text : List Char}
    (h : jsonText v = .ok text) : parseJson text = some v := by
  have hskip := (starts_text h).skipSpace []
  rw [List.append_nil] at hskip
  have hscan := scanValue_text v h hv (Nat.le_succ text.length) stops_nil
  rw [List.append_nil] at hscan
  unfold parseJson
  rw [hskip, hscan]
  rfl

/-- **JSON is lossless.** -/
theorem loads_dumps (v : JsonValue) : pyJson.loads (pyJson.dumps v) = some v := by
  obtain ⟨text, htext, hdumps⟩ := dumps_sound v
  have hloads : jsonLoads (jsonDumps v) = some v.1 := by
    unfold jsonLoads
    rw [hdumps, Utf8.decode_encode, if_pos rfl, String.toList_ofList]
    exact parseJson_text v.2 htext
  show (jsonLoads (jsonDumps v)).pmap Subtype.mk _ = some v
  simp only [hloads, Option.pmap_some]

/-! ### The length of a text -/

theorem utf8Size_le_escape (c : Char) : c.utf8Size ≤ (escapeChar c).length := by
  have hone : c.toNat < 128 → c.utf8Size = 1 := by
    intro h
    rw [Char.utf8Size_eq_one_iff, UInt32.le_iff_toNat_le]
    exact Nat.le_of_lt_succ h
  have hfour := Char.utf8Size_le_four c
  unfold escapeChar
  dsimp only
  split_ifs with h1 h2 h3 h4 h5 h6 h7
  · rw [hone (by omega)]
    exact Nat.le_succ 1
  · rw [hone (by omega)]
    exact Nat.le_refl 1
  · rw [hone (by omega)]
    decide
  · rw [hone (by omega)]
    decide
  · rw [hone (by omega)]
    decide
  · rw [hone (by omega)]
    decide
  · rw [hone (by omega)]
    decide
  · exact hfour.trans (by simp [hex4])
  · exact hfour.trans (by simp [hex4])

/-- The text of a string has at least as many bytes as the string. -/
theorem encode_le_jsonString (s : String) : (Utf8.encode s).length ≤ (jsonString s).length := by
  have hchars : ∀ cs : List Char,
      (cs.flatMap String.utf8EncodeChar).length ≤ (cs.flatMap escapeChar).length := by
    intro cs
    induction cs with
    | nil => exact Nat.le_refl 0
    | cons c cs ih =>
      rw [List.flatMap_cons, List.flatMap_cons, List.length_append, List.length_append,
        String.length_utf8EncodeChar]
      exact Nat.add_le_add (utf8Size_le_escape c) ih
  unfold jsonString
  rw [List.length_append, List.length_cons]
  exact (hchars s.toList).trans (by omega)

theorem length_le_joined : ∀ {texts : List (List Char)}, ∀ text ∈ texts,
    text.length ≤ (joined texts).length
  | [], _, h => by cases h
  | [text'], text, h => by
    rw [List.mem_singleton.mp h, joined_one]
  | text' :: text'' :: texts, text, h => by
    rw [joined_cons, List.length_append, List.length_cons]
    rcases List.mem_cons.mp h with rfl | h
    · omega
    · have := length_le_joined text h
      omega

/-- A string in a dict is not longer than the text of the dict. -/
theorem length_item_le : ∀ {items : List (String × Value)} {texts : List (List Char)},
    jsonItems items = .ok texts → ∀ {k s : String}, (k, Value.str s) ∈ items →
    (jsonString s).length ≤ (joined texts).length
  | [], _, _, _, _, hmem => by cases hmem
  | (k', v) :: items, texts, h, k, s, hmem => by
    obtain ⟨text, texts', rfl, htext, htexts⟩ := jsonItems_inv h
    rcases List.mem_cons.mp hmem with heq | hmem
    · cases heq
      cases htext
      refine le_trans ?_ (length_le_joined _ List.mem_cons_self)
      rw [List.length_append, List.length_cons]
      omega
    · cases texts' with
      | nil =>
        have := length_item_le htexts hmem
        exact this.trans (Nat.zero_le _)
      | cons text' texts' =>
        rw [joined_cons, List.length_append, List.length_cons]
        have := length_item_le htexts hmem
        omega

/-- The bytes of a string in a dict are not more than those of its JSON. -/
theorem length_payload_le {v : JsonValue} {items : List (String × Value)} (hv : v.1 = .dict items)
    {k s : String} (hmem : (k, Value.str s) ∈ items) :
    (Utf8.encode s).length ≤ (pyJson.dumps v).length := by
  obtain ⟨text, htext, hdumps⟩ := dumps_sound v
  rw [hv] at htext
  cases hx : jsonItems items with
  | error e =>
    rw [jsonText, hx] at htext
    cases htext
  | ok texts =>
    have hle := length_item_le hx hmem
    rw [jsonText_dict hx] at htext
    have hlen : (pyJson.dumps v).length = text.length := by
      show (jsonDumps v).length = _
      rw [hdumps]
      refine length_encode_ascii (ascii_jsonText (.dict items) ?_)
      rw [jsonText_dict hx, htext]
    have hs := encode_le_jsonString s
    rw [hlen, ← Except.ok.inj htext, List.length_append, List.length_cons]
    omega

end Pylog.Net
