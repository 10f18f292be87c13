import Mathlib.Data.Nat.Bitwise
import Pylog.Log.SegmentFacts

/-!
# What the checksum of a record covers

`crc32` tells two payloads apart that differ in one byte (`crc32_set_ne`), but covers neither the
offset and the timestamp nor the length.  `altered_byte_iff`: after a change of one byte of a segment
file, `recover` keeps only records that were written exactly if the byte is not in an offset or
timestamp field, and a changed length does not happen to cover bytes of the same checksum.
-/

namespace Pylog.Log

open Effect Effect.Handler Files Framing

/-! ### One byte of a payload -/

theorem crcBit_toNat (c : UInt32) :
    (crcBit c).toNat = if c.toNat % 2 = 1 then c.toNat / 2 ^^^ 0xEDB88320 else c.toNat / 2 := by
  have hshift : (c >>> 1).toNat = c.toNat / 2 := by
    rw [UInt32.toNat_shiftRight]
    simp [Nat.shiftRight_eq_div_pow]
  have hodd : c &&& 1 = 1 ↔ c.toNat % 2 = 1 := by
    rw [← UInt32.toNat_inj, UInt32.toNat_and]
    simp
  unfold crcBit
  by_cases h : c.toNat % 2 = 1
  · rw [if_pos h, if_pos (hodd.mpr h), UInt32.toNat_xor, hshift]
    rfl
  · rw [if_neg h, if_neg (fun hc => h (hodd.mp hc)), hshift]

theorem crcBit_injective : Function.Injective crcBit := by
  intro c c' h
  have hn := congrArg UInt32.toNat h
  have h1 := c.toNat_lt
  have h2 := c'.toNat_lt
  rw [crcBit_toNat, crcBit_toNat] at hn
  -- the polynomial sets the top bit, which a shift clears
  have htop : ∀ x y : ℕ, x < 2 ^ 31 → y < 2 ^ 31 → x ^^^ 0xEDB88320 ≠ y := by
    intro x y hx hy he
    have hp : (0xEDB88320 : ℕ) = x ^^^ y := by
      rw [← he, Nat.xor_xor_cancel_left]
    have := Nat.xor_lt_two_pow hx hy
    omega
  refine UInt32.toNat_inj.mp ?_
  split_ifs at hn with ha hb hb
  · have hx := congrArg (· ^^^ 0xEDB88320) hn
    simp only [Nat.xor_xor_cancel_right] at hx
    omega
  · exact absurd hn (htop _ _ (by omega) (by omega))
  · exact absurd hn.symm (htop _ _ (by omega) (by omega))
  · omega

theorem crcByte_left {c c' : UInt32} {b : UInt8} (h : crcByte c b = crcByte c' b) : c = c' := by
  have hx := congrArg (· ^^^ b.toUInt32) (crcBit_injective.iterate 8 h)
  simpa only [UInt32.xor_assoc, UInt32.xor_self, UInt32.xor_zero] using hx

theorem crcByte_right {c : UInt32} {b b' : UInt8} (h : crcByte c b = crcByte c b') : b = b' := by
  have hx := congrArg (c ^^^ ·) (crcBit_injective.iterate 8 h)
  simp only [← UInt32.xor_assoc, UInt32.xor_self, UInt32.zero_xor] at hx
  have hn := congrArg UInt32.toNat hx
  rw [UInt8.toNat_toUInt32, UInt8.toNat_toUInt32] at hn
  exact UInt8.toNat_inj.mp hn

theorem crcFold_left : ∀ {bs : Bytes} {c c' : UInt32}, bs.foldl crcByte c = bs.foldl crcByte c' →
    c = c'
  | [], _, _, h => h
  | _ :: _, _, _, h => crcByte_left (crcFold_left h)

/-- Payloads of equal length that differ in one byte have different checksums. -/
theorem crc32_set_ne {bs : Bytes} {j : ℕ} (hj : j < bs.length) {v : UInt8} (hv : bs[j] ≠ v) :
    crc32 (bs.set j v) ≠ crc32 bs := by
  intro h
  have hx := congrArg (· ^^^ (0xFFFFFFFF : UInt32)) h
  simp only [crc32, UInt32.xor_assoc, UInt32.xor_self, UInt32.xor_zero] at hx
  have hold : bs = bs.take j ++ bs[j] :: bs.drop (j + 1) := by simp
  have hset : bs.set j v = bs.take j ++ v :: bs.drop (j + 1) := by
    rw [List.set_eq_take_append_cons_drop, if_pos hj]
  rw [hset] at hx
  conv_rhs at hx => rw [hold]
  rw [List.foldl_append, List.foldl_append, List.foldl_cons, List.foldl_cons] at hx
  exact hv (crcByte_right (crcFold_left hx)).symm

/-! ### One byte of a record -/

/-- The fields of a record `encode_record` accepts; its payload may be one `read_record` refuses. -/
structure Record.Encodes (r : Record) : Prop where
  offset : r.offset < 2 ^ 64
  timestamp : FitsI64 r.timestamp
  payload : r.payload.length < 2 ^ 32

theorem Record.Encodes.fits {r : Record} (h : r.Encodes) (hp : r.payload.length ≤ maxRecordBytes) :
    r.Fits := ⟨h.offset, h.timestamp, hp⟩

/-- `read_record` refuses the record when its byte `q` is `v`, with the bytes `rest` behind it.  A
changed offset or timestamp is never noticed, a changed length by what it covers. -/
def Caught (r : Record) (rest : Bytes) (q : ℕ) (v : UInt8) : Prop :=
  (8 ≤ q → q < 24 → maxRecordBytes < r.payload.length) ∧
    (4 ≤ q → q < 8 →
      let n := number ((word 4 r.payload.length).set (q - 4) v)
      maxRecordBytes < n ∨ (r.payload ++ rest).length < n ∨
        crc32 ((r.payload ++ rest).take n) ≠ crc32 r.payload)

/-- When `read_record` refuses a header and the bytes behind it. -/
theorem readRecord_error_iff {m l o t c : Bytes} (hm : m.length = 4) (hl : l.length = 4)
    (ho : o.length = 8) (ht : t.length = 8) (hc : c.length = 4) (q : Bytes) :
    (∃ e, readRecord (m ++ (l ++ (o ++ (t ++ (c ++ q))))) = .error e) ↔
      m ≠ magic ∨ maxRecordBytes < number l ∨ q.length < number l ∨
        (crc32 (q.take (number l))).toNat ≠ number c := by
  rw [readRecord_fields hm hl ho ht hc]
  split_ifs <;> simp [*]

theorem set_ne_self {bs : Bytes} {j : ℕ} {u v : UInt8} (hu : bs[j]? = some u) (hv : u ≠ v) :
    bs.set j v ≠ bs := by
  obtain ⟨hj, -⟩ := List.getElem?_eq_some_iff.mp hu
  intro h
  have hj' := congrArg (fun l => l[j]?) h
  rw [List.getElem?_set_self hj, hu] at hj'
  exact hv (Option.some.inj hj').symm

/-- A word is another number when one of its bytes changes. -/
theorem number_set_ne {bs : Bytes} {j : ℕ} {u v : UInt8} (hu : bs[j]? = some u) (hv : u ≠ v) :
    number (bs.set j v) ≠ number bs := by
  intro h
  have hw := congrArg (word bs.length) h
  have hset := word_number (bs.set j v)
  rw [List.length_set] at hset
  rw [hset, word_number] at hw
  exact set_ne_self hu hv hw

/-- A changed byte is not read as a record exactly if it is caught. -/
theorem readRecord_set_iff {r : Record} (h : r.Encodes) (rest : Bytes) {q : ℕ} {u v : UInt8}
    (hu : r.bytes[q]? = some u) (hv : u ≠ v) :
    (∃ e, readRecord (r.bytes.set q v ++ rest) = .error e) ↔ Caught r rest q v := by
  have hq := (List.getElem?_eq_some_iff.mp hu).1
  have hset : r.bytes.set q v ++ rest = (r.bytes ++ rest).set q v :=
    (List.set_append_left _ _ hq).symm
  have hu : (r.bytes ++ rest)[q]? = some u := by rw [List.getElem?_append_left hq, hu]
  rw [hset]
  rw [Record.bytes_fields] at hu ⊢
  rw [Record.length_bytes, headerSize] at hq
  have hlen : number (word 4 r.payload.length) = r.payload.length :=
    number_word (lt_of_lt_of_eq h.payload (by decide))
  have hcrc : number (word 4 (crc32 r.payload).toNat) = (crc32 r.payload).toNat :=
    number_word (UInt32.toNat_lt _)
  have hl := length_word 4 r.payload.length
  have ho := length_word 8 r.offset
  have ht := length_word 8 (unsigned (2 ^ 64) r.timestamp)
  have hc := length_word 4 (crc32 r.payload).toNat
  unfold Caught
  generalize word 4 r.payload.length = l at *
  generalize word 8 r.offset = o at *
  generalize word 8 (unsigned (2 ^ 64) r.timestamp) = t at *
  generalize word 4 (crc32 r.payload).toNat = c at *
  have hm : magic.length = 4 := rfl
  have hsame : (crc32 ((r.payload ++ rest).take r.payload.length)).toNat = number c := by
    rw [List.take_left, hcrc]
  have hle : ¬ (r.payload ++ rest).length < r.payload.length := by simp
  by_cases h4 : q < 4
  · -- the magic
    rw [List.getElem?_append_left (by omega)] at hu
    rw [List.set_append_left _ _ (by omega),
      readRecord_error_iff (by simpa using hm) hl ho ht hc]
    exact ⟨fun _ => ⟨fun _ _ => by omega, fun _ _ => by omega⟩, fun _ => .inl (set_ne_self hu hv)⟩
  rw [List.getElem?_append_right (by omega), hm] at hu
  rw [List.set_append_right _ _ (by omega), hm]
  by_cases h8 : q < 8
  · -- the length
    rw [List.set_append_left _ _ (by omega),
      readRecord_error_iff hm (by simpa using hl) ho ht hc]
    simp only [ne_eq, not_true_eq_false, false_or, hcrc, UInt32.toNat_inj]
    exact ⟨fun hx => ⟨fun _ _ => by omega, fun _ _ => hx⟩, fun hx => hx.2 (by omega) h8⟩
  rw [List.getElem?_append_right (by omega), hl] at hu
  rw [List.set_append_right _ _ (by omega), hl]
  by_cases h16 : q < 16
  · -- the offset
    rw [List.set_append_left _ _ (by omega),
      readRecord_error_iff hm hl (by simpa using ho) ht hc, hlen]
    simp only [ne_eq, not_true_eq_false, false_or, hsame, hle, or_false]
    exact ⟨fun hx => ⟨fun _ _ => hx, fun _ _ => by omega⟩, fun hx => hx.1 (by omega) (by omega)⟩
  rw [List.getElem?_append_right (by omega), ho] at hu
  rw [List.set_append_right _ _ (by omega), ho]
  by_cases h24 : q < 24
  · -- the timestamp
    rw [List.set_append_left _ _ (by omega),
      readRecord_error_iff hm hl ho (by simpa using ht) hc, hlen]
    simp only [ne_eq, not_true_eq_false, false_or, hsame, hle, or_false]
    exact ⟨fun hx => ⟨fun _ _ => hx, fun _ _ => by omega⟩, fun hx => hx.1 (by omega) (by omega)⟩
  rw [List.getElem?_append_right (by omega), ht] at hu
  rw [List.set_append_right _ _ (by omega), ht]
  by_cases h28 : q < 28
  · -- the checksum
    rw [List.getElem?_append_left (by omega)] at hu
    rw [List.set_append_left _ _ (by omega),
      readRecord_error_iff hm hl ho ht (by simpa using hc), hlen, hsame]
    exact ⟨fun _ => ⟨fun _ _ => by omega, fun _ _ => by omega⟩,
      fun _ => .inr (.inr (.inr (number_set_ne hu hv).symm))⟩
  · -- the payload
    rw [List.getElem?_append_right (by omega), hc, List.getElem?_append_left (by omega)] at hu
    obtain ⟨hj, rfl⟩ := List.getElem?_eq_some_iff.mp hu
    rw [List.set_append_right _ _ (by omega), hc, List.set_append_left _ _ hj,
      readRecord_error_iff hm hl ho ht hc, hlen, hcrc]
    refine ⟨fun _ => ⟨fun _ _ => by omega, fun _ _ => by omega⟩,
      fun _ => .inr (.inr (.inr ?_))⟩
    rw [List.take_append_of_le_length (by simp), List.take_of_length_le (by simp)]
    exact fun he => crc32_set_ne hj hv (UInt32.toNat_inj.mp he)

/-! ### What `recover` keeps of any file -/

/-- Any bytes are records and a rest that is not read. -/
theorem exists_records (f : Bytes) :
    ∃ rs t, f = encodeAll rs ++ t ∧ (∀ r ∈ rs, r.Fits) ∧ Segment.Ends t := by
  induction hn : f.length using Nat.strong_induction_on generalizing f with
  | _ n ih =>
    cases hread : readRecord f with
    | error e => exact ⟨[], f, rfl, by simp, .inr ⟨e, hread⟩⟩
    | ok found =>
      cases found with
      | none => exact ⟨[], f, rfl, by simp, .inl hread⟩
      | some p =>
        obtain ⟨r, rest⟩ := p
        obtain ⟨hfits, rfl⟩ := readRecord_inv hread
        have hpos := r.length_bytes_pos
        rw [List.length_append] at hn
        obtain ⟨rs, t, rfl, hrs, ht⟩ := ih rest.length (by omega) rest rfl
        refine ⟨r :: rs, t, by simp, ?_, ht⟩
        intro r' hr'
        rcases List.mem_cons.mp hr' with rfl | hr'
        · exact hfits
        · exact hrs r' hr'

namespace Segment

/-- The `.log` files and the segment's base. -/
def OnLogs (logs : Dir ℕ UInt8) (b : ℕ) (s : Folder × Segment) : Prop :=
  s.1.logs = logs ∧ s.2.baseOffset = b

variable {logs : Dir ℕ UInt8} {b : ℕ}

theorem keeps_indexOp (op : Op ℕ UInt8) : Keeps (OnLogs logs b) (fileOp .index op) :=
  fun _ h => h

theorem keeps_packIndexEntry (rel : ℤ) (position : ℕ) :
    Keeps (OnLogs logs b) (packIndexEntry rel position) := by
  unfold packIndexEntry
  split
  · exact keeps_pure _
  · exact fun _ h => h

theorem keeps_maybeIndex (absOffset position : ℕ) :
    Keeps (OnLogs logs b) (maybeIndex absOffset position) := by
  unfold maybeIndex
  refine keeps_read fun s => keeps_when ?_
  refine keeps_bind (keeps_update fun _ h => h) fun _ => ?_
  refine keeps_bind (keeps_packIndexEntry _ _) fun _ => ?_
  exact keeps_bind (keeps_indexOp _) fun _ => keeps_update fun _ h => h

theorem keeps_rewriteIndex : Keeps (OnLogs logs b) rewriteIndex := by
  unfold rewriteIndex
  refine keeps_read fun s => keeps_bind (keeps_indexOp _) fun _ => keeps_each (fun e => ?_) _
  exact keeps_bind (keeps_packIndexEntry _ _) fun _ => keeps_indexOp _

theorem keeps_replay : ∀ (fuel : ℕ) (f : Bytes) (position next : ℕ),
    Keeps (OnLogs logs b) (replay fuel f position next)
  | 0, _, _, _ => keeps_pure _
  | fuel + 1, f, position, next => by
    unfold replay
    split
    · exact keeps_pure _
    · exact keeps_pure _
    · refine keeps_bind (keeps_maybeIndex _ _) fun _ => ?_
      exact keeps_bind (keeps_update fun _ h => h) fun _ => keeps_replay fuel _ _ _

/-- A replay that returns went over the records that are read, whatever their offsets. -/
theorem replay_size {t : Bytes} (ht : Ends t) : ∀ (rs : List Record) {fuel position next : ℕ}
    {s s' : Folder × Segment} {o : List FileOp} {good next' : ℕ}, (∀ r ∈ rs, r.Fits) →
    rs.length < fuel →
    replay fuel (encodeAll rs ++ t) position next s = ⟨s', o, .ok (good, next')⟩ →
    good = position + (encodeAll rs).length
  | [], fuel + 1, position, next, s, s', o, good, next', _, _, h => by
    rw [encodeAll_nil, List.nil_append] at h
    rcases ht with he | ⟨e, he⟩
    · simp only [replay, he] at h
      cases h
      rfl
    · simp only [replay, he] at h
      cases h
      rfl
  | r :: rs, fuel + 1, position, next, s, s', o, good, next', hf, hlen, h => by
    simp only [replay, encodeAll_cons, List.append_assoc, readRecord_bytes (hf r (by simp))] at h
    obtain ⟨s₁, _, _, _, -, h₁⟩ := bind_ok h
    obtain ⟨s₂, _, _, _, -, h₂⟩ := bind_ok h₁
    have ih := replay_size ht rs (fun r' hr' => hf r' (by simp [hr'])) (by simpa using hlen) h₂
    rw [ih, encodeAll_cons, List.length_append, r.length_bytes]
    omega

/-- A `recover` that returns leaves exactly the records that are read from the file. -/
theorem recover_leaves {d : Folder} {interval : ℕ} {rs : List Record} {t : Bytes}
    (hget : d.logs.get b = some (encodeAll rs ++ t)) (hf : ∀ r ∈ rs, r.Fits) (ht : Ends t)
    {s' : Folder × Segment} {o : List FileOp} {n : ℕ}
    (h : recover (d, new b interval) = ⟨s', o, .ok n⟩) :
    s'.1.logs = d.logs.put b (encodeAll rs) := by
  unfold recover assign at h
  rw [update_bind, read_bind] at h
  dsimp only [new] at h
  rw [hget] at h
  obtain ⟨s₁, o₁, ⟨good, next⟩, _, hreplay, h₁⟩ := bind_ok h
  obtain ⟨s₂, o₂, _, _, hcut, h₂⟩ := bind_ok h₁
  rw [update_bind] at h₂
  obtain ⟨s₃, o₃, _, _, hrewrite, h₃⟩ := bind_ok h₂
  have hlen : rs.length < (encodeAll rs ++ t).length + 1 := by
    have := length_le_encodeAll rs
    rw [List.length_append]
    omega
  have hgood := replay_size ht rs hf hlen hreplay
  rw [Nat.zero_add] at hgood
  subst hgood
  have h1 : OnLogs d.logs b s₁ := (keeps_replay _ _ _ _).run hreplay ⟨rfl, rfl⟩
  -- the cut, if there is something to cut
  have h2 : OnLogs (d.logs.put b (encodeAll rs)) b s₂ := by
    by_cases hc : (encodeAll rs).length < (encodeAll rs ++ t).length
    · rw [when_eq_of_pos hc] at hcut
      cases hcut
      refine ⟨?_, h1.2⟩
      dsimp only
      rw [Folder.perform_log_logs, h1.1, Dir.perform, hget, Option.getD_some, List.take_left]
    · rw [when_eq_of_neg hc] at hcut
      cases hcut
      have htn : t = [] := by
        rw [List.length_append] at hc
        exact List.eq_nil_of_length_eq_zero (by omega)
      rw [htn, List.append_nil] at hget
      exact ⟨by rw [h1.1, Dir.put_self hget], h1.2⟩
  have h3 : OnLogs (d.logs.put b (encodeAll rs)) b s₃ := keeps_rewriteIndex.run hrewrite h2
  cases h₃
  exact h3.1

end Segment

/-! ### One byte of a segment file -/

/-- `recover` returned and kept a first part of the records, as they were written. -/
def KeepsWritten (o : Outcome (Folder × Segment) FileOp LogError ℕ) (b interval : ℕ)
    (rs : List Record) : Prop :=
  ∃ k s' ops n, o = ⟨s', ops, .ok n⟩ ∧ s'.1.logs.get b = some (encodeAll (rs.take k)) ∧
    s'.2 = (Segment.new b interval).fill (rs.take k)

section

variable {b interval : ℕ} {d : Folder} {pre post : List Record} {r : Record}

/-- Reading that ends behind records `pre` keeps them. -/
theorem keepsWritten_of_ends {t : Bytes} (hpre : ∀ x ∈ pre, x.Fits ∧ b ≤ x.offset)
    (ht : Segment.Ends t) (hd : d.logs.get b = some (encodeAll pre ++ t)) :
    KeepsWritten (Segment.recover (d, Segment.new b interval)) b interval (pre ++ post) := by
  obtain ⟨ops, hlogs, hrun⟩ := Segment.recover_eq interval hd hpre ht
  refine ⟨pre.length, _, ops, _, hrun, ?_, ?_⟩
  · rw [hlogs, Dir.get_put, List.take_left]
  · rw [List.take_left]

/-- A payload above the limit is not read. -/
theorem ends_of_large (hr : r.Encodes) (hlarge : maxRecordBytes < r.payload.length) (rest : Bytes) :
    Segment.Ends (r.bytes ++ rest) := by
  right
  rw [Record.bytes_fields, readRecord_error_iff rfl (length_word _ _) (length_word _ _)
    (length_word _ _) (length_word _ _), number_word (lt_of_lt_of_eq hr.payload (by decide))]
  exact .inr (.inl hlarge)

theorem exists_first_large (pre : List Record) (h : ∃ x ∈ pre, maxRecordBytes < x.payload.length) :
    ∃ xs x ys, pre = xs ++ x :: ys ∧ (∀ y ∈ xs, y.payload.length ≤ maxRecordBytes) ∧
      maxRecordBytes < x.payload.length := by
  induction pre with
  | nil => simp at h
  | cons y ys ih =>
    by_cases hy : maxRecordBytes < y.payload.length
    · exact ⟨[], y, ys, rfl, by simp, hy⟩
    · obtain ⟨xs, x, zs, rfl, hxs, hx⟩ := ih (by simpa [hy] using h)
      exact ⟨y :: xs, x, zs, rfl, by simpa using ⟨Nat.not_lt.mp hy, hxs⟩, hx⟩

theorem Caught.of_outside {rest : Bytes} {q : ℕ} {v : UInt8} (h : q < 4 ∨ 24 ≤ q) :
    Caught r rest q v :=
  ⟨fun _ _ => by omega, fun _ _ => by omega⟩

/-- A changed record that is read is kept. -/
theorem not_keepsWritten {rest : Bytes} {q : ℕ} {u v : UInt8} {r' : Record}
    (hpre : ∀ x ∈ pre, x.Fits) (hu : r.bytes[q]? = some u) (hv : u ≠ v) (hq : q < headerSize)
    (hread : readRecord (r.bytes.set q v ++ encodeAll post) = .ok (some (r', rest)))
    (hd : d.logs.get b = some (encodeAll pre ++ (r.bytes.set q v ++ encodeAll post))) :
    ¬ KeepsWritten (Segment.recover (d, Segment.new b interval)) b interval (pre ++ r :: post) := by
  rintro ⟨k, s', ops, n, hrun, hfile, -⟩
  obtain ⟨hfits, hbytes⟩ := readRecord_inv hread
  obtain ⟨more, t, rfl, hmore, ht⟩ := exists_records rest
  have hget : d.logs.get b = some (encodeAll (pre ++ r' :: more) ++ t) := by
    rw [hd, hbytes, encodeAll_append, encodeAll_cons]
    simp only [List.append_assoc]
  have hfits' : ∀ x ∈ pre ++ r' :: more, x.Fits := by
    intro x hx
    rcases List.mem_append.mp hx with hx | hx
    · exact hpre x hx
    · rcases List.mem_cons.mp hx with rfl | hx
      · exact hfits
      · exact hmore x hx
  rw [Segment.recover_leaves hget hfits' ht hrun, Dir.get_put, Option.some.injEq] at hfile
  -- the changed byte, in the file that is left and in what was written
  have hlt := (List.getElem?_eq_some_iff.mp hu).1
  have hnew : (encodeAll (pre ++ r' :: more))[(encodeAll pre).length + q]? = some v := by
    have hq' : q < r'.bytes.length := by
      rw [r'.length_bytes]
      omega
    have hb := congrArg (fun l => l[q]?) hbytes
    rw [List.getElem?_append_left hq', List.getElem?_append_left (by simpa using hlt),
      List.getElem?_set_self hlt] at hb
    rw [encodeAll_append, encodeAll_cons, List.getElem?_append_right (by omega),
      Nat.add_sub_cancel_left, List.getElem?_append_left hq', ← hb]
  have hold : (encodeAll (pre ++ r :: post))[(encodeAll pre).length + q]? = some u := by
    rw [encodeAll_append, encodeAll_cons, List.getElem?_append_right (by omega),
      Nat.add_sub_cancel_left, List.getElem?_append_left hlt, hu]
  have hpart : encodeAll ((pre ++ r :: post).take k) <+: encodeAll (pre ++ r :: post) := by
    conv_rhs => rw [← List.take_append_drop k (pre ++ r :: post), encodeAll_append]
    exact List.prefix_append _ _
  rw [hfile] at hnew
  have hlen := (List.getElem?_eq_some_iff.mp hnew).1
  rw [List.prefix_iff_getElem?.mp hpart _ hlen] at hold
  rw [List.getElem?_eq_getElem hlen] at hnew
  exact hv (Option.some.inj (hold.symm.trans hnew))

/-- A change in the record `r`, with the records `pre` before it. -/
theorem keepsWritten_iff (hrs : ∀ x ∈ pre ++ r :: post, x.Encodes ∧ b ≤ x.offset) {q : ℕ} {u v : UInt8}
    (hu : r.bytes[q]? = some u) (hv : u ≠ v)
    (hd : d.logs.get b =
      some ((encodeAll (pre ++ r :: post)).set ((encodeAll pre).length + q) v)) :
    KeepsWritten (Segment.recover (d, Segment.new b interval)) b interval (pre ++ r :: post) ↔
      (∃ x ∈ pre, maxRecordBytes < x.payload.length) ∨ Caught r (encodeAll post) q v := by
  have hq := (List.getElem?_eq_some_iff.mp hu).1
  have hr := (hrs r (by simp)).1
  rw [encodeAll_append, encodeAll_cons, List.set_append_right _ _ (by omega),
    Nat.add_sub_cancel_left, List.set_append_left _ _ hq] at hd
  by_cases hlarge : ∃ x ∈ pre, maxRecordBytes < x.payload.length
  · simp only [hlarge, true_or, iff_true]
    obtain ⟨xs, x, ys, rfl, hxs, hx⟩ := exists_first_large pre hlarge
    rw [List.append_assoc]
    refine keepsWritten_of_ends (t := x.bytes ++ (encodeAll ys ++
      (r.bytes.set q v ++ encodeAll post))) ?_ (ends_of_large (hrs x (by simp)).1 hx _) ?_
    · intro y hy
      obtain ⟨h1, h2⟩ := hrs y (by simp [hy])
      exact ⟨h1.fits (hxs y hy), h2⟩
    · rw [hd, encodeAll_append, encodeAll_cons]
      simp only [List.append_assoc]
  · simp only [hlarge, false_or]
    have hpre : ∀ x ∈ pre, x.Fits ∧ b ≤ x.offset := by
      intro x hx
      obtain ⟨h1, h2⟩ := hrs x (by simp [hx])
      refine ⟨h1.fits ?_, h2⟩
      by_contra hgt
      exact hlarge ⟨x, hx, by omega⟩
    rw [← readRecord_set_iff hr _ hu hv]
    constructor
    · intro hkeep
      cases hread : readRecord (r.bytes.set q v ++ encodeAll post) with
      | error e => exact ⟨e, rfl⟩
      | ok found =>
        cases found with
        | none =>
          have := congrArg List.length (readRecord_none hread)
          rw [List.length_append, List.length_set, List.length_nil] at this
          omega
        | some p =>
          refine absurd hkeep (not_keepsWritten (fun x hx => (hpre x hx).1) hu hv ?_ hread hd)
          by_contra hhead
          have hcaught := (readRecord_set_iff hr (encodeAll post) hu hv).mpr
            (.of_outside (.inr (by unfold headerSize at hhead; omega)))
          rw [hread] at hcaught
          obtain ⟨e, he⟩ := hcaught
          cases he
    · rintro ⟨e, he⟩
      exact keepsWritten_of_ends hpre (.inr ⟨e, he⟩) hd

/-- Every byte of a file of records is a byte of one of them. -/
theorem exists_byte : ∀ {rs : List Record} {i : ℕ}, i < (encodeAll rs).length →
    ∃ pre r post q, rs = pre ++ r :: post ∧ i = (encodeAll pre).length + q ∧ q < r.bytes.length
  | [], _, h => by simp at h
  | r :: rs, i, h => by
    rcases Nat.lt_or_ge i r.bytes.length with hlt | hge
    · exact ⟨[], r, rs, i, rfl, by simp, hlt⟩
    · rw [encodeAll_cons, List.length_append] at h
      have hrest : i - r.bytes.length < (encodeAll rs).length := by omega
      obtain ⟨pre, r', post, q, rfl, hi, hq⟩ := exists_byte hrest
      refine ⟨r :: pre, r', post, q, rfl, ?_, hq⟩
      rw [encodeAll_cons, List.length_append]
      omega

/-- Byte `i` of the records may become `v`: a record before it is not read anyway, or the change is
caught. -/
def Harmless (rs : List Record) (i : ℕ) (v : UInt8) : Prop :=
  ∃ pre r post q, rs = pre ++ r :: post ∧ i = (encodeAll pre).length + q ∧ q < r.bytes.length ∧
    ((∃ x ∈ pre, maxRecordBytes < x.payload.length) ∨ Caught r (encodeAll post) q v)

/-- One byte of a segment file changes.  `recover` keeps a first part of the written records exactly
if the change is harmless. -/
theorem altered_byte_iff {rs : List Record} (hrs : ∀ x ∈ rs, x.Encodes ∧ b ≤ x.offset) {i : ℕ}
    {u v : UInt8} (hu : (encodeAll rs)[i]? = some u) (hv : u ≠ v)
    (hd : d.logs.get b = some ((encodeAll rs).set i v)) :
    KeepsWritten (Segment.recover (d, Segment.new b interval)) b interval rs ↔ Harmless rs i v := by
  have hbyte : ∀ pre r post q, rs = pre ++ r :: post → i = (encodeAll pre).length + q →
      q < r.bytes.length → r.bytes[q]? = some u := by
    rintro pre r post q rfl rfl hq
    rwa [encodeAll_append, encodeAll_cons, List.getElem?_append_right (by omega),
      Nat.add_sub_cancel_left, List.getElem?_append_left hq] at hu
  constructor
  · intro hkeep
    obtain ⟨pre, r, post, q, rfl, rfl, hq⟩ := exists_byte (List.getElem?_eq_some_iff.mp hu).1
    exact ⟨pre, r, post, q, rfl, rfl, hq,
      (keepsWritten_iff hrs (hbyte pre r post q rfl rfl hq) hv hd).mp hkeep⟩
  · rintro ⟨pre, r, post, q, rfl, rfl, hq, hcond⟩
    exact (keepsWritten_iff hrs (hbyte pre r post q rfl rfl hq) hv hd).mpr hcond

/-- A directory with one record, of the payload `[7]`, and byte `i` of it changed to `v`. -/
def oneRecord (i : ℕ) (v : UInt8) : Folder :=
  { logs := [(0, (encodeAll [⟨0, 0, [7]⟩]).set i v)] }

theorem altered_byte_payload :
    KeepsWritten (Segment.recover (oneRecord 28 9, Segment.new 0 1)) 0 1 [⟨0, 0, [7]⟩] ↔
      Harmless [⟨0, 0, [7]⟩] 28 9 :=
  altered_byte_iff (u := 7) (by
    intro x hx
    obtain rfl := List.mem_singleton.mp hx
    exact ⟨⟨by decide, by decide, by decide⟩, by decide⟩) (by decide +kernel) (by decide) rfl

/-- The timestamp of the record changes from `0` to `1`, and `recover` keeps it so. -/
theorem altered_timestamp_kept :
    ¬ KeepsWritten (Segment.recover (oneRecord 16 1, Segment.new 0 1)) 0 1 [⟨0, 0, [7]⟩] := by
  have hread : readRecord ((Record.mk 0 0 [7]).bytes.set 16 1 ++ encodeAll []) =
      .ok (some (⟨0, 1, [7]⟩, [])) := by decide +kernel
  exact not_keepsWritten (u := 0) (by simp : ∀ x ∈ ([] : List Record), x.Fits)
    (by decide +kernel) (by decide) (by decide) hread rfl

end

end Pylog.Log
