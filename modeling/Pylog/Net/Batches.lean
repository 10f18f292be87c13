import Pylog.Base.Utf8
import Pylog.Net.Frames
import Pylog.Net.Wire
import Pylog.Raft.Handlers

/-!
# Pylog.Net.Batches — the bytes of an append message (net.py:16–18, server.py:17–24, raft.py:592–624)

`_send_append` limits a batch by the number of its entries, `recv_frame` a frame by its bytes, and
`send_frame` checks nothing.  `append_fits_iff`: the JSON text of the message has `appendSize` bytes,
so it can be received exactly if that is not above `MAX_FRAME_BYTES`.
-/

namespace Pylog.Net

open Raft (Bytes Entry Msg Node Self)
open Effect Effect.Handler Framing

/-! ### JSON text -/

/-- `'{0:04x}'.format(n)`. -/
def hex4 (n : ℕ) : List Char :=
  [Nat.digitChar (n / 4096 % 16), Nat.digitChar (n / 256 % 16), Nat.digitChar (n / 16 % 16),
    Nat.digitChar (n % 16)]

/-- A character in a JSON string; `json.dumps` keeps to ASCII. -/
def escapeChar (c : Char) : List Char :=
  let n := c.toNat
  if n = 34 ∨ n = 92 then ['\\', c]
  else if 32 ≤ n ∧ n ≤ 126 then [c]
  else if n = 8 then ['\\', 'b']
  else if n = 9 then ['\\', 't']
  else if n = 10 then ['\\', 'n']
  else if n = 12 then ['\\', 'f']
  else if n = 13 then ['\\', 'r']
  else if n < 0x10000 then '\\' :: 'u' :: hex4 n
  -- a surrogate pair
  else '\\' :: 'u' :: hex4 (0xD800 + (n - 0x10000) / 1024) ++
    '\\' :: 'u' :: hex4 (0xDC00 + (n - 0x10000) % 1024)

/-- The double quote. -/
def quote : Char := Char.ofNat 34

def jsonString (s : String) : List Char := quote :: s.toList.flatMap escapeChar ++ [quote]

/-- `','.join(texts)`. -/
def joined (texts : List (List Char)) : List Char := List.intercalate [','] texts

mutual

/-- `json.dumps(obj, separators=(",", ":"))`. -/
def jsonText : Value → Except WireError (List Char)
  | .null => .ok "null".toList
  | .bool b => .ok (if b then "true".toList else "false".toList)
  | .int n => .ok n.repr.toList
  | .str s => .ok (jsonString s)
  | .bytes _ => .error .typeError
  | .list xs => do
    let texts ← jsonTexts xs
    pure ('[' :: joined texts ++ [']'])
  | .dict items => do
    let texts ← jsonItems items
    pure ('{' :: joined texts ++ ['}'])

def jsonTexts : List Value → Except WireError (List (List Char))
  | [] => pure []
  | x :: xs => do
    let text ← jsonText x
    let texts ← jsonTexts xs
    pure (text :: texts)

def jsonItems : List (String × Value) → Except WireError (List (List Char))
  | [] => pure []
  | (k, v) :: rest => do
    let text ← jsonText v
    let texts ← jsonItems rest
    pure ((jsonString k ++ ':' :: text) :: texts)

end

/-- The bytes `send_frame` puts behind the length. -/
def dumps (v : Value) : Except WireError Bytes := do
  let text ← jsonText v
  pure (Utf8.encode (String.ofList text))

/-- The bytes of a message that `TcpTransport.send` sends. -/
def wireData (m : Msg String Value) : Except WireError Bytes := dumps (encodeWire (messageTree m))

/-! ### How long the text is -/

def digits (n : ℤ) : ℕ := n.repr.length

/-- An entry in a batch: the names and the marks around its values, and the letters of its payload. -/
def entrySize (e : Entry) : ℕ :=
  43 + digits e.index + digits e.term + 4 * ((e.payload.length + 2) / 3)

/-- The entries of a batch, with the commas between them. -/
def batchSize (entries : List Entry) : ℕ := (entries.map entrySize).sum + (entries.length - 1)

def appendSize (term : ℕ) (leader : String) (prevIndex : ℕ) (prevTerm : ℤ) (entries : List Entry)
    (commit : ℕ) : ℕ :=
  85 + digits term + (jsonString leader).length + digits prevIndex + digits prevTerm +
    batchSize entries + digits commit

theorem length_joined : ∀ texts : List (List Char),
    (joined texts).length = (texts.map List.length).sum + (texts.length - 1)
  | [] => rfl
  | [text] => by simp [joined]
  | text :: text' :: rest => by
    have ih := length_joined (text' :: rest)
    unfold joined at ih ⊢
    rw [List.intercalate_cons_cons, List.length_append, List.length_append, ih]
    simp only [List.map_cons, List.sum_cons, List.length_cons, List.length_nil]
    omega

/-- What `json.dumps` does not change. -/
def Unescaped (c : Char) : Prop := escapeChar c = [c]

theorem length_jsonString {s : String} (h : ∀ c ∈ s.toList, Unescaped c) :
    (jsonString s).length = s.length + 2 := by
  have hflat : s.toList.flatMap escapeChar = s.toList := by
    generalize s.toList = cs at h
    induction cs with
    | nil => rfl
    | cons c cs ih =>
      rw [List.flatMap_cons, h c (by simp), ih fun x hx => h x (by simp [hx])]
      rfl
  unfold jsonString
  rw [hflat, List.length_append, List.length_cons, String.length_toList]
  rfl

theorem unescaped_letter : ∀ n < 64, Unescaped (Base64.letter n) := by
  unfold Unescaped
  decide

theorem length_payload (b : Bytes) :
    (jsonString (b64encode b)).length = 4 * ((b.length + 2) / 3) + 2 := by
  rw [length_jsonString]
  · unfold b64encode
    rw [String.length_ofList, Base64.length_encode]
  · intro c hc
    unfold b64encode at hc
    rw [String.toList_ofList] at hc
    rcases Base64.mem_encode b c hc with rfl | ⟨n, hn, rfl⟩
    · rfl
    · exact unescaped_letter n hn

/-- The text of an entry. -/
theorem entry_text (e : Entry) : ∃ text, jsonText (encodeWire (entryTree e)) = .ok text ∧
    text.length = entrySize e := by
  have h1 : (jsonString "index").length = 7 := by decide
  have h2 : (jsonString "term").length = 6 := by decide
  have h3 : (jsonString "payload").length = 9 := by decide
  have h4 : (jsonString b64Key).length = 9 := by decide
  refine ⟨_, rfl, ?_⟩
  unfold entrySize digits
  simp only [List.length_cons, List.length_append, length_joined, List.map_cons, List.map_nil,
    List.sum_cons, List.sum_nil, List.length_nil, length_payload, String.length_toList]
  omega

theorem jsonText_list {xs : List Value} {texts : List (List Char)} (h : jsonTexts xs = .ok texts) :
    jsonText (.list xs) = .ok ('[' :: joined texts ++ [']']) := by
  rw [jsonText, h]
  rfl

theorem jsonText_dict {items : List (String × Value)} {texts : List (List Char)}
    (h : jsonItems items = .ok texts) :
    jsonText (.dict items) = .ok ('{' :: joined texts ++ ['}']) := by
  rw [jsonText, h]
  rfl

theorem jsonItems_cons {k : String} {v : Value} {rest : List (String × Value)} {text : List Char}
    {texts : List (List Char)} (h : jsonText v = .ok text) (hrest : jsonItems rest = .ok texts) :
    jsonItems ((k, v) :: rest) = .ok ((jsonString k ++ ':' :: text) :: texts) := by
  rw [jsonItems, h, hrest]
  rfl

/-- The texts of the entries of a batch. -/
theorem batch_texts : ∀ entries : List Entry, ∃ texts,
    jsonTexts (encodeList (entries.map entryTree)) = .ok texts ∧ texts.length = entries.length ∧
      (texts.map List.length).sum = (entries.map entrySize).sum
  | [] => ⟨[], rfl, rfl, rfl⟩
  | e :: entries => by
    obtain ⟨text, htext, hlen⟩ := entry_text e
    obtain ⟨texts, htexts, hcount, hsum⟩ := batch_texts entries
    refine ⟨text :: texts, ?_, by simp [hcount], by simp [hlen, hsum]⟩
    rw [List.map_cons, encodeList, jsonTexts, htext, htexts]
    rfl

/-- **The text of an append message** has `appendSize` characters. -/
theorem append_text (term : ℕ) (leader : String) (prevIndex : ℕ) (prevTerm : ℤ)
    (entries : List Entry) (commit : ℕ) : ∃ text,
    jsonText (encodeWire (messageTree (.append term leader prevIndex prevTerm entries commit))) =
      .ok text ∧ text.length = appendSize term leader prevIndex prevTerm entries commit := by
  obtain ⟨texts, htexts, hcount, hsum⟩ := batch_texts entries
  have h1 : (jsonString "type").length = 6 := by decide
  have h2 : (jsonString "append").length = 8 := by decide
  have h3 : (jsonString "term").length = 6 := by decide
  have h4 : (jsonString "leader").length = 8 := by decide
  have h5 : (jsonString "prev_index").length = 12 := by decide
  have h6 : (jsonString "prev_term").length = 11 := by decide
  have h7 : (jsonString "entries").length = 9 := by decide
  have h8 : (jsonString "commit").length = 8 := by decide
  refine ⟨_, jsonText_dict (jsonItems_cons rfl <| jsonItems_cons rfl <| jsonItems_cons rfl <|
    jsonItems_cons rfl <| jsonItems_cons rfl <| jsonItems_cons (jsonText_list htexts) <|
    jsonItems_cons rfl rfl), ?_⟩
  unfold appendSize batchSize digits
  simp only [List.length_cons, List.length_append, length_joined, List.map_cons, List.map_nil,
    List.sum_cons, List.sum_nil, List.length_nil, String.length_toList]
  omega

/-! ### The text is ASCII -/

/-- All characters are of one byte. -/
def Ascii (cs : List Char) : Prop := ∀ c ∈ cs, c.toNat < 128

/-- Texts that are written out. -/
theorem ascii_of_all {cs : List Char} (h : (cs.all fun c => c.toNat < 128) = true) : Ascii cs :=
  fun c hc => of_decide_eq_true (List.all_eq_true.mp h c hc)

theorem ascii_append {cs cs' : List Char} (h : Ascii cs) (h' : Ascii cs') : Ascii (cs ++ cs') := by
  intro c hc
  rcases List.mem_append.mp hc with hc | hc
  · exact h c hc
  · exact h' c hc

theorem ascii_cons {c : Char} {cs : List Char} (hc : c.toNat < 128) (h : Ascii cs) :
    Ascii (c :: cs) := by
  intro x hx
  rcases List.mem_cons.mp hx with rfl | hx
  · exact hc
  · exact h x hx

theorem ascii_hex4 (n : ℕ) : Ascii (hex4 n) := by
  have hdigit : ∀ k < 16, (Nat.digitChar k).toNat < 128 := by decide
  unfold hex4
  intro c hc
  simp only [List.mem_cons, List.not_mem_nil, or_false] at hc
  rcases hc with rfl | rfl | rfl | rfl <;> exact hdigit _ (by omega)

theorem ascii_escapeChar (c : Char) : Ascii (escapeChar c) := by
  have hslash : ('\\').toNat < 128 := by decide
  have hu : ('u').toNat < 128 := by decide
  have htwo : ∀ x : Char, x.toNat < 128 → Ascii ['\\', x] :=
    fun x hx => ascii_cons hslash (ascii_cons hx (by simp [Ascii]))
  have hhex : ∀ n, Ascii ('\\' :: 'u' :: hex4 n) :=
    fun n => ascii_cons hslash (ascii_cons hu (ascii_hex4 n))
  unfold escapeChar
  dsimp only
  split_ifs with h1 h2
  · exact htwo c (by omega)
  · exact ascii_cons (by omega) (by simp [Ascii])
  · exact htwo _ (by decide)
  · exact htwo _ (by decide)
  · exact htwo _ (by decide)
  · exact htwo _ (by decide)
  · exact htwo _ (by decide)
  · exact hhex _
  · exact ascii_append (hhex _) (hhex _)

theorem ascii_jsonString (s : String) : Ascii (jsonString s) := by
  have hquote : quote.toNat < 128 := by decide
  refine ascii_append (ascii_cons hquote fun c hc => ?_) (ascii_cons hquote (by simp [Ascii]))
  obtain ⟨x, -, hx⟩ := List.mem_flatMap.mp hc
  exact ascii_escapeChar x c hx

theorem ascii_joined : ∀ {texts : List (List Char)}, (∀ text ∈ texts, Ascii text) →
    Ascii (joined texts)
  | [], _ => by simp [joined, Ascii]
  | [text], h => by
    have hone : joined [text] = text := by simp [joined]
    rw [hone]
    exact h text (by simp)
  | text :: text' :: rest, h => by
    unfold joined
    rw [List.intercalate_cons_cons]
    refine ascii_append (ascii_append (h text (by simp)) ?_) (ascii_joined fun t ht => h t (by simp [ht]))
    exact ascii_cons (by decide) (by simp [Ascii])

theorem ascii_repr (n : ℤ) : Ascii n.repr.toList := by
  have hnat : ∀ n : ℕ, Ascii n.repr.toList := by
    intro n c hc
    rw [Nat.toList_repr] at hc
    have hdigit := Char.isDigit_iff_toNat.mp (Nat.isDigit_of_mem_toDigits (by decide) (by decide) hc)
    have hnine : ('9').toNat = 57 := rfl
    omega
  cases n with
  | ofNat n => exact hnat n
  | negSucc n =>
    show Ascii (("-" : String) ++ Nat.repr (n + 1)).toList
    rw [String.toList_append]
    exact ascii_append (ascii_of_all (by decide)) (hnat _)

mutual

theorem ascii_jsonText : ∀ (v : Value) {text : List Char}, jsonText v = .ok text → Ascii text
  | .null, _, h => by
    cases h
    exact ascii_of_all (by decide)
  | .bool b, _, h => by
    cases h
    cases b with
    | false => exact ascii_of_all (by decide)
    | true => exact ascii_of_all (by decide)
  | .int n, _, h => by
    cases h
    exact ascii_repr n
  | .str s, _, h => by
    cases h
    exact ascii_jsonString s
  | .list xs, text, h => by
    cases hx : jsonTexts xs with
    | error e =>
      rw [jsonText, hx] at h
      cases h
    | ok texts =>
      rw [jsonText_list hx] at h
      cases h
      exact ascii_append (ascii_cons (by decide) (ascii_joined (ascii_jsonTexts xs hx)))
        (ascii_of_all (by decide))
  | .dict items, text, h => by
    cases hx : jsonItems items with
    | error e =>
      rw [jsonText, hx] at h
      cases h
    | ok texts =>
      rw [jsonText_dict hx] at h
      cases h
      exact ascii_append (ascii_cons (by decide) (ascii_joined (ascii_jsonItems items hx)))
        (ascii_of_all (by decide))

theorem ascii_jsonTexts : ∀ (xs : List Value) {texts : List (List Char)},
    jsonTexts xs = .ok texts → ∀ text ∈ texts, Ascii text
  | [], _, h => by
    cases h
    simp
  | x :: xs, texts, h => by
    rw [jsonTexts] at h
    cases hx : jsonText x with
    | error e =>
      rw [hx] at h
      cases h
    | ok text =>
      cases hxs : jsonTexts xs with
      | error e =>
        rw [hx, hxs] at h
        cases h
      | ok rest =>
        rw [hx, hxs] at h
        cases h
        exact List.forall_mem_cons.mpr ⟨ascii_jsonText x hx, ascii_jsonTexts xs hxs⟩

theorem ascii_jsonItems : ∀ (items : List (String × Value)) {texts : List (List Char)},
    jsonItems items = .ok texts → ∀ text ∈ texts, Ascii text
  | [], _, h => by
    cases h
    simp
  | (k, v) :: rest, texts, h => by
    rw [jsonItems] at h
    cases hx : jsonText v with
    | error e =>
      rw [hx] at h
      cases h
    | ok text =>
      cases hxs : jsonItems rest with
      | error e =>
        rw [hx, hxs] at h
        cases h
      | ok texts' =>
        rw [hx, hxs] at h
        cases h
        refine List.forall_mem_cons.mpr ⟨?_, ascii_jsonItems rest hxs⟩
        exact ascii_append (ascii_jsonString k) (ascii_cons (by decide) (ascii_jsonText v hx))

end

/-- ASCII text has as many bytes as characters. -/
theorem length_encode_ascii {cs : List Char} (h : Ascii cs) :
    (Utf8.encode (String.ofList cs)).length = cs.length := by
  unfold Utf8.encode
  rw [String.toList_ofList]
  induction cs with
  | nil => rfl
  | cons c cs ih =>
    have hc : c.toNat < 128 := h c (by simp)
    have hsize : c.utf8Size = 1 := by
      rw [Char.utf8Size_eq_one_iff, UInt32.le_iff_toNat_le]
      exact Nat.le_of_lt_succ hc
    rw [List.flatMap_cons, List.length_append, String.length_utf8EncodeChar, hsize,
      ih fun x hx => h x (by simp [hx]), List.length_cons, Nat.add_comm]

/-! ### Received -/

/-- **The bytes of an append message.** -/
theorem append_data (term : ℕ) (leader : String) (prevIndex : ℕ) (prevTerm : ℤ)
    (entries : List Entry) (commit : ℕ) : ∃ data,
    wireData (.append term leader prevIndex prevTerm entries commit) = .ok data ∧
      data.length = appendSize term leader prevIndex prevTerm entries commit := by
  obtain ⟨text, htext, hlen⟩ := append_text term leader prevIndex prevTerm entries commit
  refine ⟨_, ?_, (length_encode_ascii (ascii_jsonText _ htext)).trans hlen⟩
  unfold wireData dumps
  rw [htext]
  rfl

/-- The message is sent in a frame that `recv_frame` takes. -/
def Fits (m : Msg String Value) : Prop := ∃ data, wireData m = .ok data ∧ data.length ≤ maxFrameBytes

/-- The value can be sent, and `recv_frame` returns it at the other end. -/
def Received (json : Json Value) (v : Value) : Prop :=
  ∃ stream, sendFrame json v = .ok stream ∧
    ∀ rest picks, (recvFrame json ⟨stream ++ rest, picks⟩).result = .ok v

theorem received_iff {json : Json Value} {v : Value} (hjson : json.loads (json.dumps v) = some v) :
    Received json v ↔ (json.dumps v).length ≤ maxFrameBytes := by
  refine ⟨fun h => ?_, fun h => ⟨_, sendFrame_eq h, fun rest picks => ?_⟩⟩
  · obtain ⟨stream, hsend, hrecv⟩ := h
    by_contra hlong
    unfold sendFrame at hsend
    dsimp only at hsend
    split_ifs at hsend with hword
    cases hsend
    obtain ⟨picks', hrun⟩ := recvFrame_refused hword (Nat.lt_of_not_le hlong) [] fun _ => 0
    have hok := hrecv [] fun _ => 0
    rw [show word frameHeaderSize (json.dumps v).length ++ json.dumps v = frame json v from rfl,
      hrun] at hok
    cases hok
  · obtain ⟨picks', hrun⟩ := recvFrame_whole hjson h rest picks
    rw [hrun]

theorem fits_append (term : ℕ) (leader : String) (prevIndex : ℕ) (prevTerm : ℤ)
    (entries : List Entry) (commit : ℕ) :
    Fits (.append term leader prevIndex prevTerm entries commit) ↔
      appendSize term leader prevIndex prevTerm entries commit ≤ maxFrameBytes := by
  obtain ⟨data, hdata, hlen⟩ := append_data term leader prevIndex prevTerm entries commit
  refine ⟨fun h => ?_, fun h => ⟨data, hdata, hlen.trans_le h⟩⟩
  obtain ⟨data', hdata', hle⟩ := h
  obtain rfl : data = data' := Except.ok.inj (hdata.symm.trans hdata')
  exact hlen.symm.trans_le hle

/-- The message of `_send_append` for a peer whose `next_index` is not below the log. -/
theorem appendMsg_eq {σ : Type} (self : Self String σ Value) (n : Node String σ Value)
    {peer : String} {ni : ℕ} (hni : ni = (n.nextIndex peer).getD (n.log.lastIndex + 1))
    (hfirst : n.log.firstIndex ≤ ni) :
    self.appendMsg n peer = .append n.currentTerm self.id (ni - 1) (n.log.termAt (ni - 1))
      (n.log.entriesFrom ni self.maxBatch) n.commitIndex := by
  subst hni
  exact if_neg (Nat.not_lt.mpr hfirst)

/-- **Append messages fit by their size alone.**  The append message `_send_append` builds for a
peer whose `next_index` is not below the log has at most `MAX_FRAME_BYTES` of JSON, and is received,
exactly if `appendSize` of its window is at most that. -/
theorem append_fits_iff {σ : Type} (self : Self String σ Value) (n : Node String σ Value)
    (peer : String) (ni : ℕ) (hni : ni = (n.nextIndex peer).getD (n.log.lastIndex + 1))
    (hfirst : n.log.firstIndex ≤ ni) :
    let size := appendSize n.currentTerm self.id (ni - 1) (n.log.termAt (ni - 1))
      (n.log.entriesFrom ni self.maxBatch) n.commitIndex
    (Fits (self.appendMsg n peer) ↔ size ≤ maxFrameBytes) ∧
      ∀ (json : Json Value) v, v = encodeWire (messageTree (self.appendMsg n peer)) →
        dumps v = .ok (json.dumps v) → json.loads (json.dumps v) = some v →
          (Received json v ↔ size ≤ maxFrameBytes) := by
  intro size
  rw [appendMsg_eq self n hni hfirst]
  refine ⟨fits_append _ _ _ _ _ _, ?_⟩
  rintro json v rfl hdumps hloads
  obtain ⟨data, hdata, hlen⟩ := append_data n.currentTerm self.id (ni - 1) (n.log.termAt (ni - 1))
    (n.log.entriesFrom ni self.maxBatch) n.commitIndex
  rw [received_iff hloads, ← Except.ok.inj (hdata.symm.trans hdumps), hlen]

/-! ### Two large entries -/

/-- `node1`, which sends up to `maxBatch` entries. -/
def sender (maxBatch : ℕ) : Self String Unit Value where
  peers := ["node2"]
  maxBatch := maxBatch
  stateMachine := none
  emptyData := .dict []
  json := ⟨fun _ => [], fun _ => none⟩
  id := "node1"
  now := 0
  draw := 0

/-- A leader with two entries of one payload, and this `next_index` for its peer. -/
def twoEntries (payload : Bytes) (ni : ℕ) : Node String Unit Value where
  currentTerm := 1
  log := { entries := [⟨1, 1, payload⟩, ⟨2, 1, payload⟩] }
  peers := ["node2"]
  config := {"node1", "node2"}
  machine := none
  role := .leader
  nextIndex := fun p => if p = "node2" then some ni else none

/-- Two entries of three bytes fit into one message. -/
theorem append_fits_small : Fits ((sender 256).appendMsg (twoEntries [1, 2, 3] 1) "node2") :=
  (append_fits_iff (sender 256) (twoEntries [1, 2, 3] 1) "node2" 1 rfl (by decide)).1.mpr (by decide)

/-- Two entries of 30 MiB: each can be sent alone, both together cannot. -/
theorem append_too_large :
    let payload : Bytes := List.replicate (30 * 1024 * 1024) 0
    Fits ((sender 1).appendMsg (twoEntries payload 1) "node2") ∧
      Fits ((sender 1).appendMsg (twoEntries payload 2) "node2") ∧
      ¬Fits ((sender 256).appendMsg (twoEntries payload 1) "node2") := by
  intro payload
  have hlen : payload.length = 30 * 1024 * 1024 := List.length_replicate
  generalize payload = payload at hlen
  have hmsg : ∀ ni limit, 1 ≤ ni → (sender limit).appendMsg (twoEntries payload ni) "node2" =
      .append 1 "node1" (ni - 1) ((twoEntries payload ni).log.termAt (ni - 1))
        ((twoEntries payload ni).log.entriesFrom ni limit) 0 :=
    fun ni limit hni => appendMsg_eq (sender limit) (twoEntries payload ni) rfl hni
  have hleader : (jsonString "node1").length = 7 := by decide
  have h0 : digits 0 = 1 := by decide
  have h1 : digits 1 = 1 := by decide
  have h2 : digits 2 = 1 := by decide
  rw [hmsg 1 1 le_rfl, hmsg 2 1 (by omega), hmsg 1 256 le_rfl, fits_append, fits_append, fits_append]
  refine ⟨?_, ?_, Nat.not_le.mpr ?_⟩
  · show appendSize 1 "node1" 0 0 [⟨1, 1, payload⟩] 0 ≤ maxFrameBytes
    unfold appendSize batchSize entrySize maxFrameBytes
    simp only [List.map_cons, List.map_nil, List.sum_cons, List.sum_nil, List.length_cons,
      List.length_nil, hlen, hleader, Nat.cast_zero, Nat.cast_one, h0, h1]
    omega
  · show appendSize 1 "node1" 1 1 [⟨2, 1, payload⟩] 0 ≤ maxFrameBytes
    unfold appendSize batchSize entrySize maxFrameBytes
    simp only [List.map_cons, List.map_nil, List.sum_cons, List.sum_nil, List.length_cons,
      List.length_nil, hlen, hleader, Nat.cast_zero, Nat.cast_one, Nat.cast_ofNat, h0, h1, h2]
    omega
  · show maxFrameBytes < appendSize 1 "node1" 0 0 [⟨1, 1, payload⟩, ⟨2, 1, payload⟩] 0
    unfold appendSize batchSize entrySize maxFrameBytes
    simp only [List.map_cons, List.map_nil, List.sum_cons, List.sum_nil, hlen]
    omega

end Pylog.Net
