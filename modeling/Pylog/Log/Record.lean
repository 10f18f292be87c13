import Pylog.Base.Framing

/-!
# Pylog.Log.Record — framed records (log.py:1–67)

A record on disk is a 28-byte little-endian header (magic, payload length, offset, timestamp,
checksum) and the payload.  `read_record` takes the bytes from the file position on and hands back
the record with the bytes behind it; a raise of `CorruptRecord` carries its text.

`readRecord_bytes`: a record is read back whatever follows it; `readRecord_torn`: no proper prefix
of a record is read as one.
-/

namespace Pylog.Log

open Framing

/-- A Python `bytes` value. -/
abbrev Bytes := List UInt8

/-- `b"PLG1"`. -/
def magic : Bytes := [80, 76, 71, 49]

/-- `_HEADER.size` of `"<4sIQqI"`. -/
def headerSize : ℕ := 28

def maxRecordBytes : ℕ := 64 * 1024 * 1024

structure CorruptRecord where
  message : String
  deriving DecidableEq, Repr

/-- What the methods of a log can raise. -/
inductive LogError
  /-- `struct.error`: a value does not fit its field. -/
  | structError
  | indexError
  deriving DecidableEq, Repr

structure Record where
  offset : ℕ
  timestamp : ℤ
  payload : Bytes
  deriving DecidableEq, Repr

/-! ### `zlib.crc32` -/

def crcBit (c : UInt32) : UInt32 :=
  if c &&& 1 = 1 then (c >>> 1) ^^^ 0xEDB88320 else c >>> 1

def crcByte (c : UInt32) (b : UInt8) : UInt32 := crcBit^[8] (c ^^^ b.toUInt32)

def crc32 (bs : Bytes) : UInt32 := bs.foldl crcByte 0xFFFFFFFF ^^^ 0xFFFFFFFF

-- the check value of the CRC-32 catalogue, of "123456789"
example : crc32 [49, 50, 51, 52, 53, 54, 55, 56, 57] = 0xCBF43926 := by decide +kernel

/-! ### `encode_record`, `read_record` -/

/-- The packed header of a record whose fields fit. -/
def Record.header (r : Record) : Bytes :=
  magic ++ word 4 r.payload.length ++ word 8 r.offset ++ word 8 (unsigned (2 ^ 64) r.timestamp) ++
    word 4 (crc32 r.payload).toNat

def Record.bytes (r : Record) : Bytes := r.header ++ r.payload

/-- The value fits a `q` field. -/
def FitsI64 (ts : ℤ) : Prop := -2 ^ 63 ≤ ts ∧ ts < 2 ^ 63

instance (ts : ℤ) : Decidable (FitsI64 ts) := inferInstanceAs (Decidable (_ ∧ _))

def encodeRecord (offset : ℕ) (payload : Bytes) (timestamp : ℤ) : Except LogError Bytes :=
  if payload.length < 2 ^ 32 ∧ offset < 2 ^ 64 ∧ FitsI64 timestamp then
    .ok (Record.bytes ⟨offset, timestamp, payload⟩)
  else .error .structError

/-- `read_record`: `none` at the end of the file, else the record and the bytes behind it. -/
def readRecord (f : Bytes) : Except CorruptRecord (Option (Record × Bytes)) :=
  let header := f.take headerSize
  if header = [] then .ok none
  else if header.length < headerSize then .error ⟨"truncated record header"⟩
  else
    let length := number ((header.drop 4).take 4)
    let offset := number ((header.drop 8).take 8)
    let timestamp := signed (2 ^ 64) (number ((header.drop 16).take 8))
    let crc := number ((header.drop 24).take 4)
    let payload := (f.drop headerSize).take length
    if header.take 4 ≠ magic then .error ⟨"bad magic"⟩
    else if maxRecordBytes < length then .error ⟨"implausible payload length"⟩
    else if payload.length < length then .error ⟨"truncated payload"⟩
    else if (crc32 payload).toNat ≠ crc then .error ⟨"crc mismatch"⟩
    else .ok (some (⟨offset, timestamp, payload⟩, f.drop (headerSize + length)))

/-! ### Round trip -/

/-- A record that can be written and read. -/
structure Record.Fits (r : Record) : Prop where
  offset : r.offset < 2 ^ 64
  timestamp : FitsI64 r.timestamp
  payload : r.payload.length ≤ maxRecordBytes

@[simp] theorem Record.length_header (r : Record) : r.header.length = headerSize := by
  simp [Record.header, magic, headerSize]

@[simp] theorem Record.length_bytes (r : Record) :
    r.bytes.length = headerSize + r.payload.length := by
  simp [Record.bytes]

theorem Record.length_bytes_pos (r : Record) : 0 < r.bytes.length := by
  rw [r.length_bytes, headerSize]
  omega

theorem encodeRecord_eq {r : Record} (h : r.Fits) :
    encodeRecord r.offset r.payload r.timestamp = .ok r.bytes := by
  have hp := h.payload
  unfold maxRecordBytes at hp
  unfold encodeRecord
  rw [if_pos ⟨by omega, h.offset, h.timestamp⟩]

/-- `read_record` on the five fields of a header and the bytes behind it. -/
theorem readRecord_fields {m l o t c : Bytes} (hm : m.length = 4) (hl : l.length = 4)
    (ho : o.length = 8) (ht : t.length = 8) (hc : c.length = 4) (q : Bytes) :
    readRecord (m ++ (l ++ (o ++ (t ++ (c ++ q))))) =
      if m ≠ magic then .error ⟨"bad magic"⟩
      else if maxRecordBytes < number l then .error ⟨"implausible payload length"⟩
      else if q.length < number l then .error ⟨"truncated payload"⟩
      else if (crc32 (q.take (number l))).toNat ≠ number c then .error ⟨"crc mismatch"⟩
      else .ok (some (⟨number o, signed (2 ^ 64) (number t), q.take (number l)⟩,
        q.drop (number l))) := by
  have hf : m ++ (l ++ (o ++ (t ++ (c ++ q)))) = (m ++ (l ++ (o ++ (t ++ c)))) ++ q := by
    simp
  generalize hh : m ++ (l ++ (o ++ (t ++ c))) = h at hf
  have hlen : h.length = headerSize := by
    rw [← hh, headerSize]
    simp only [List.length_append]
    omega
  have htake : (h ++ q).take headerSize = h := by rw [← hlen, List.take_left]
  have hdrop : (h ++ q).drop headerSize = q := by rw [← hlen, List.drop_left]
  have hne : h ≠ [] := by
    rintro rfl
    exact absurd hlen (by decide)
  -- each field at its place
  have h1 : h.take 4 = m := by rw [← hh, List.take_left' hm]
  have h2 : h.drop 4 = l ++ (o ++ (t ++ c)) := by rw [← hh, List.drop_left' hm]
  have h3 : h.drop 8 = o ++ (t ++ c) := by rw [← List.drop_drop (i := 4), h2, List.drop_left' hl]
  have h4 : h.drop 16 = t ++ c := by rw [← List.drop_drop (i := 8), h3, List.drop_left' ho]
  have h5 : h.drop 24 = c := by rw [← List.drop_drop (i := 8), h4, List.drop_left' ht]
  have hmin : ∀ n, min n q.length < n ↔ q.length < n := by
    intro n
    omega
  rw [hf]
  simp only [readRecord, htake, hdrop, hne, hlen, if_false, lt_irrefl, h1, h2, h3, h4, h5,
    List.take_left' hl, List.take_left' ho, List.take_left' ht, List.take_of_length_le hc.le,
    ← List.drop_drop, List.length_take, hmin]

/-- The fields of a record. -/
theorem Record.bytes_fields (r : Record) (q : Bytes) : r.bytes ++ q =
    magic ++ (word 4 r.payload.length ++ (word 8 r.offset ++
      (word 8 (unsigned (2 ^ 64) r.timestamp) ++ (word 4 (crc32 r.payload).toNat ++
        (r.payload ++ q))))) := by
  simp [Record.bytes, Record.header]

/-- What `read_record` makes of a header that was written, by the bytes behind it. -/
theorem readRecord_header {r : Record} (h : r.Fits) (q : Bytes) :
    readRecord (r.header ++ q) =
      if q.length < r.payload.length then .error ⟨"truncated payload"⟩
      else if (crc32 (q.take r.payload.length)).toNat ≠ (crc32 r.payload).toNat then
        .error ⟨"crc mismatch"⟩
      else .ok (some (⟨r.offset, r.timestamp, q.take r.payload.length⟩,
        q.drop r.payload.length)) := by
  have hp := h.payload
  have hlen : number (word 4 r.payload.length) = r.payload.length := by
    refine number_word ?_
    unfold maxRecordBytes at hp
    omega
  have hoff : number (word 8 r.offset) = r.offset := number_word h.offset
  have hts : signed (2 ^ 64) (number (word 8 (unsigned (2 ^ 64) r.timestamp))) = r.timestamp := by
    have hu : unsigned (2 ^ 64) r.timestamp < 256 ^ 8 := unsigned_lt (by decide) _
    have h1 : -((2 ^ 63 : ℕ) : ℤ) ≤ r.timestamp := by
      push_cast
      exact h.timestamp.1
    have h2 : r.timestamp < ((2 ^ 63 : ℕ) : ℤ) := by
      push_cast
      exact h.timestamp.2
    have hround := signed_unsigned h1 h2
    rw [number_word hu]
    rwa [show 2 * 2 ^ 63 = 2 ^ 64 from rfl] at hround
  have hcrc : number (word 4 (crc32 r.payload).toNat) = (crc32 r.payload).toNat :=
    number_word (UInt32.toNat_lt _)
  have hfields := readRecord_fields (m := magic) rfl (length_word 4 r.payload.length)
    (length_word 8 r.offset) (length_word 8 (unsigned (2 ^ 64) r.timestamp))
    (length_word 4 (crc32 r.payload).toNat) q
  rw [hlen, hoff, hts, hcrc, if_neg (not_not.mpr rfl), if_neg (not_lt.mpr hp)] at hfields
  unfold Record.header
  simpa only [List.append_assoc] using hfields

/-- The header of bytes that hold one. -/
theorem exists_fields {f : Bytes} (h : headerSize ≤ f.length) :
    ∃ m l o t c q : Bytes, f = m ++ (l ++ (o ++ (t ++ (c ++ q)))) ∧ m.length = 4 ∧ l.length = 4 ∧
      o.length = 8 ∧ t.length = 8 ∧ c.length = 4 := by
  unfold headerSize at h
  refine ⟨f.take 4, (f.drop 4).take 4, (f.drop 8).take 8, (f.drop 16).take 8, (f.drop 24).take 4,
    f.drop 28, ?_, ?_, ?_, ?_, ?_, ?_⟩
  · rw [← List.drop_drop (i := 4) (j := 24), List.take_append_drop,
      ← List.drop_drop (i := 8) (j := 16), List.take_append_drop,
      ← List.drop_drop (i := 8) (j := 8), List.take_append_drop,
      ← List.drop_drop (i := 4) (j := 4), List.take_append_drop, List.take_append_drop]
  all_goals
    simp only [List.length_take, List.length_drop]
    omega

/-- Whatever bytes it reads a record from, `read_record` accepts only bytes that encode it. -/
theorem readRecord_inv {f rest : Bytes} {r : Record} (h : readRecord f = .ok (some (r, rest))) :
    r.Fits ∧ f = r.bytes ++ rest := by
  -- a whole header was read
  have hlen : headerSize ≤ f.length := by
    by_contra hlt
    have htake : f.take headerSize = f := List.take_of_length_le (by omega)
    rw [readRecord, htake] at h
    dsimp only at h
    by_cases hnil : f = []
    · rw [if_pos hnil] at h
      cases h
    · rw [if_neg hnil, if_pos (by omega)] at h
      cases h
  obtain ⟨m, l, o, t, c, q, rfl, hm, hl, ho, ht, hc⟩ := exists_fields hlen
  rw [readRecord_fields hm hl ho ht hc] at h
  split_ifs at h with h1 h2 h3 h4
  simp only [Except.ok.injEq, Option.some.injEq, Prod.mk.injEq] at h
  obtain ⟨rfl, rfl⟩ := h
  have hoff := number_lt o
  have hts := number_lt t
  rw [ho] at hoff
  rw [ht] at hts
  have hts' : number t < 2 ^ 64 := lt_of_lt_of_eq hts (by decide)
  have hq : (q.take (number l)).length = number l := List.length_take_of_le (by omega)
  have hsigned := signed_bounds (k := 2 ^ 63) hts'
  push_cast at hsigned
  refine ⟨⟨lt_of_lt_of_eq hoff (by decide), hsigned, by rw [hq]; omega⟩, ?_⟩
  have hwl := word_number l
  have hwo := word_number o
  have hwt := word_number t
  have hwc := word_number c
  rw [hl] at hwl
  rw [ho] at hwo
  rw [ht] at hwt
  rw [hc] at hwc
  rw [Record.bytes_fields]
  dsimp only
  rw [hq, unsigned_signed hts', not_not.mp h4, hwl, hwo, hwt, hwc, List.take_append_drop,
    not_not.mp h1]

@[simp] theorem readRecord_nil : readRecord [] = .ok none := rfl

theorem readRecord_none {f : Bytes} (h : readRecord f = .ok none) : f = [] := by
  unfold readRecord at h
  dsimp only at h
  split_ifs at h with h0
  · rw [List.take_eq_nil_iff] at h0
    exact h0.resolve_left (by decide)
  · cases h

/-- A record is read back whatever follows it. -/
theorem readRecord_bytes {r : Record} (h : r.Fits) (rest : Bytes) :
    readRecord (r.bytes ++ rest) = .ok (some (r, rest)) := by
  rw [Record.bytes, List.append_assoc, readRecord_header h]
  simp

/-- No proper prefix of a record is read as one. -/
theorem readRecord_torn {r : Record} (h : r.Fits) {t : Bytes} (ht : t <+: r.bytes)
    (hlt : t.length < r.bytes.length) (hne : t ≠ []) : ∃ e, readRecord t = .error e := by
  rcases lt_or_ge t.length headerSize with hs | hs
  · refine ⟨⟨"truncated record header"⟩, ?_⟩
    have hh : t.take headerSize = t := List.take_of_length_le hs.le
    simp only [readRecord, hh, if_neg hne, if_pos hs]
  · obtain ⟨q, rfl⟩ : r.header <+: t :=
      List.prefix_of_prefix_length_le (List.prefix_append _ _) ht (by simpa using hs)
    refine ⟨⟨"truncated payload"⟩, ?_⟩
    rw [readRecord_header h, if_pos]
    simp at hlt
    omega

end Pylog.Log
