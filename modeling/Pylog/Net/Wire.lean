import Pylog.Base.Base64
import Pylog.Raft.KVStore

/-!
# Pylog.Net.Wire — messages as JSON trees (server.py:14–34)

A tree is what a message is made of; a dict is the list of its items.  Bytes travel as a dict with
the one key `__b64__`, which a dict of the sender can have too: `wire_round_trip_iff` says which
trees come back as they were sent.
-/

namespace Pylog.Net

open Raft

inductive Value
  | null
  | bool (b : Bool)
  | int (n : ℤ)
  | str (s : String)
  | bytes (b : Bytes)
  | list (xs : List Value)
  | dict (items : List (String × Value))

/-- What `base64.b64decode` raises. -/
inductive WireError
  | typeError
  | valueError
  deriving DecidableEq, Repr

def b64Key : String := "__b64__"

def b64encode (b : Bytes) : String := String.ofList (Base64.encode b)

/-- The characters `b64decode` reads: a text has to be ASCII, bytes are taken as they are. -/
def b64decode : Value → Except WireError Value
  | .str s =>
    if s.toList.all fun c => decide (c.toNat < 128) then
      match Base64.decode s.toList with
      | some b => .ok (.bytes b)
      | none => .error .valueError
    else .error .valueError
  | .bytes b =>
    match Base64.decode (b.map fun x => Char.ofNat x.toNat) with
    | some b => .ok (.bytes b)
    | none => .error .valueError
  | _ => .error .typeError

mutual

def encodeWire : Value → Value
  | .bytes b => .dict [(b64Key, .str (b64encode b))]
  | .dict items => .dict (encodeItems items)
  | .list xs => .list (encodeList xs)
  | .null => .null
  | .bool b => .bool b
  | .int n => .int n
  | .str s => .str s

def encodeList : List Value → List Value
  | [] => []
  | x :: xs => encodeWire x :: encodeList xs

def encodeItems : List (String × Value) → List (String × Value)
  | [] => []
  | (k, v) :: rest => (k, encodeWire v) :: encodeItems rest

end

/-- The value of a dict whose one key is `__b64__`. -/
def escaped : List (String × Value) → Option Value
  | [(k, v)] => if k = b64Key then some v else none
  | _ => none

mutual

def decodeWire : Value → Except WireError Value
  | .dict items =>
    match escaped items with
    | some v => b64decode v
    | none => do
      let items ← decodeItems items
      pure (.dict items)
  | .list xs => do
    let xs ← decodeList xs
    pure (.list xs)
  | .null => pure .null
  | .bool b => pure (.bool b)
  | .int n => pure (.int n)
  | .str s => pure (.str s)
  | .bytes b => pure (.bytes b)

def decodeList : List Value → Except WireError (List Value)
  | [] => pure []
  | x :: xs => do
    let y ← decodeWire x
    let ys ← decodeList xs
    pure (y :: ys)

def decodeItems : List (String × Value) → Except WireError (List (String × Value))
  | [] => pure []
  | (k, v) :: rest => do
    let w ← decodeWire v
    let items ← decodeItems rest
    pure ((k, w) :: items)

end

mutual

/-- No dict of the tree has `__b64__` as its only key. -/
def Value.plain : Value → Bool
  | .list xs => plainList xs
  | .dict items => (escaped items).isNone && plainItems items
  | _ => true

def plainList : List Value → Bool
  | [] => true
  | x :: xs => x.plain && plainList xs

def plainItems : List (String × Value) → Bool
  | [] => true
  | (_, v) :: rest => v.plain && plainItems rest

end

/-! ### Messages -/

def entryTree (e : Entry) : Value :=
  .dict [("index", .int e.index), ("term", .int e.term), ("payload", .bytes e.payload)]

/-- The dict a node hands to `transport.send`; the data of a snapshot is a tree already. -/
def messageTree : Msg String Value → Value
  | .prevote term candidate lastIndex lastTerm =>
    .dict [("type", .str "prevote"), ("term", .int term), ("candidate", .str candidate),
      ("last_index", .int lastIndex), ("last_term", .int lastTerm)]
  | .prevoteResp term sender granted =>
    .dict [("type", .str "prevote_resp"), ("term", .int term), ("from", .str sender),
      ("granted", .bool granted)]
  | .vote term candidate lastIndex lastTerm =>
    .dict [("type", .str "vote"), ("term", .int term), ("candidate", .str candidate),
      ("last_index", .int lastIndex), ("last_term", .int lastTerm)]
  | .voteResp term sender granted =>
    .dict [("type", .str "vote_resp"), ("term", .int term), ("from", .str sender),
      ("granted", .bool granted)]
  | .append term leader prevIndex prevTerm entries commit =>
    .dict [("type", .str "append"), ("term", .int term), ("leader", .str leader),
      ("prev_index", .int prevIndex), ("prev_term", .int prevTerm),
      ("entries", .list (entries.map entryTree)), ("commit", .int commit)]
  | .appendResp term sender success matchIndex conflict =>
    .dict ([("type", .str "append_resp"), ("term", .int term), ("from", .str sender),
      ("success", .bool success), ("match", .int matchIndex)] ++
      conflict.toList.map fun c => ("conflict", .int c))
  | .installSnapshot term leader s =>
    .dict [("type", .str "install_snapshot"), ("term", .int term), ("leader", .str leader),
      ("last_included_index", .int s.lastIncludedIndex),
      ("last_included_term", .int s.lastIncludedTerm), ("data", s.data)]
  | .timeoutNow term => .dict [("type", .str "timeout_now"), ("term", .int term)]

/-- `KVStore.snapshot`: the keys in the order they were first set, and the count. -/
def snapshotTree (keys : List (String × String)) (ops : ℕ) : Value :=
  .dict [("keys", .dict (keys.map fun e => (e.1, .str e.2))), ("ops", .int ops)]

/-! ### The round trip -/

theorem b64decode_encode (b : Bytes) : b64decode (.str (b64encode b)) = .ok (.bytes b) := by
  have hlist : (b64encode b).toList = Base64.encode b := String.toList_ofList
  unfold b64decode
  dsimp only
  have hascii : ((Base64.encode b).all fun c => decide (c.toNat < 128)) = true :=
    List.all_eq_true.mpr fun c hc => decide_eq_true (Base64.encode_ascii b c hc)
  rw [hlist, if_pos hascii, Base64.decode_encode]

/-- Only bytes come out of `b64decode`. -/
theorem b64decode_bytes {v w : Value} (h : b64decode v = .ok w) : ∃ b, w = .bytes b := by
  unfold b64decode at h
  split at h
  · split_ifs at h
    split at h
    · cases h
      exact ⟨_, rfl⟩
    · cases h
  · split at h
    · cases h
      exact ⟨_, rfl⟩
    · cases h
  · cases h

theorem escaped_encode (items : List (String × Value)) :
    escaped (encodeItems items) = (escaped items).map encodeWire := by
  match items with
  | [] => rfl
  | [(k, v)] =>
    show (if k = b64Key then some (encodeWire v) else none) =
      (if k = b64Key then some v else none).map encodeWire
    split_ifs <;> rfl
  | _ :: _ :: _ => rfl

theorem bind_iff {ε α β : Type} {a : Except ε α} {f : α → β} (hf : ∀ {x x'}, f x = f x' ↔ x = x')
    {x : α} : (do let x ← a; pure (f x) : Except ε β) = .ok (f x) ↔ a = .ok x := by
  cases a with
  | error e => exact iff_of_false (fun h => by cases h) fun h => by cases h
  | ok x' =>
    show Except.ok (f x') = .ok (f x) ↔ _
    rw [Except.ok.injEq, hf, Except.ok.injEq]

theorem bind_cons_iff {ε α β γ : Type} {a : Except ε α} {b : Except ε β} {f : α → β → γ}
    (hf : ∀ {x x' y y'}, f x y = f x' y' ↔ x = x' ∧ y = y') {x : α} {y : β} :
    (do let x ← a; let y ← b; pure (f x y) : Except ε γ) = .ok (f x y) ↔ a = .ok x ∧ b = .ok y := by
  cases a with
  | error e => exact iff_of_false (fun h => by cases h) fun h => by cases h.1
  | ok x' =>
    cases b with
    | error e => exact iff_of_false (fun h => by cases h) fun h => by cases h.2
    | ok y' =>
      show Except.ok (f x' y') = .ok (f x y) ↔ _
      rw [Except.ok.injEq, hf, Except.ok.injEq, Except.ok.injEq]

mutual

theorem decode_encode_iff : ∀ t : Value, decodeWire (encodeWire t) = .ok t ↔ t.plain = true
  | .null => iff_of_true rfl rfl
  | .bool b => iff_of_true rfl rfl
  | .int n => iff_of_true rfl rfl
  | .str s => iff_of_true rfl rfl
  | .bytes b => by
    refine iff_of_true ?_ rfl
    show b64decode (.str (b64encode b)) = _
    exact b64decode_encode b
  | .list xs => by
    rw [encodeWire, decodeWire, bind_iff (by simp), decodeList_encode_iff xs, Value.plain]
  | .dict items => by
    rw [encodeWire, decodeWire, escaped_encode, Value.plain]
    cases escaped items with
    | none =>
      dsimp only [Option.map_none]
      rw [bind_iff (by simp), decodeItems_encode_iff items]
      simp
    | some v =>
      -- what comes back is no dict
      refine iff_of_false (fun h => ?_) (by simp)
      obtain ⟨b, hb⟩ := b64decode_bytes h
      cases hb

theorem decodeList_encode_iff : ∀ xs : List Value,
    decodeList (encodeList xs) = .ok xs ↔ plainList xs = true
  | [] => iff_of_true rfl rfl
  | x :: xs => by
    rw [encodeList, decodeList, bind_cons_iff (by simp), decode_encode_iff x,
      decodeList_encode_iff xs, plainList, Bool.and_eq_true]

theorem decodeItems_encode_iff : ∀ items : List (String × Value),
    decodeItems (encodeItems items) = .ok items ↔ plainItems items = true
  | [] => iff_of_true rfl rfl
  | (k, v) :: rest => by
    rw [encodeItems, decodeItems, bind_cons_iff (by simp), decode_encode_iff v,
      decodeItems_encode_iff rest, plainItems, Bool.and_eq_true]

end

/-- Plain trees with the same encoding are the same. -/
theorem encodeWire_inj {t u : Value} (ht : t.plain = true) (hu : u.plain = true)
    (h : encodeWire t = encodeWire u) : t = u := by
  have hround := (decode_encode_iff t).mpr ht
  rw [h, (decode_encode_iff u).mpr hu] at hround
  exact (Except.ok.inj hround).symm

theorem plainList_entries : ∀ entries : List Entry, plainList (entries.map entryTree) = true
  | [] => rfl
  | _ :: entries => by
    rw [List.map_cons, plainList, plainList_entries entries]
    rfl

/-- Only the data of a snapshot can have the key. -/
theorem plain_message (m : Msg String Value) : (messageTree m).plain = true ↔
    ∀ term leader s, m = .installSnapshot term leader s → s.data.plain = true := by
  cases m with
  | installSnapshot term leader s =>
    refine Iff.trans (b := s.data.plain = true) ?_ ⟨fun h _ _ _ hm => by cases hm; exact h,
      fun h => h term leader s rfl⟩
    simp [messageTree, Value.plain, plainItems, escaped]
  | append term leader prevIndex prevTerm entries commit =>
    refine iff_of_true ?_ fun _ _ _ hm => by cases hm
    simp [messageTree, Value.plain, plainItems, escaped, plainList_entries]
  | appendResp term sender success matchIndex conflict =>
    refine iff_of_true ?_ fun _ _ _ hm => by cases hm
    cases conflict <;> rfl
  | prevote | prevoteResp | vote | voteResp | timeoutNow =>
    exact iff_of_true rfl fun _ _ _ hm => by cases hm

theorem plainItems_texts : ∀ keys : List (String × String),
    plainItems (keys.map fun e => (e.1, .str e.2)) = true
  | [] => rfl
  | _ :: keys => by
    rw [List.map_cons, plainItems, plainItems_texts keys]
    rfl

theorem plain_snapshot (keys : List (String × String)) (ops : ℕ) :
    (snapshotTree keys ops).plain = true ↔ ∀ v, keys ≠ [(b64Key, v)] := by
  have hkeys : (snapshotTree keys ops).plain = true ↔
      (escaped (keys.map fun e => (e.1, .str e.2))).isNone = true := by
    simp [snapshotTree, Value.plain, plainItems, escaped, plainItems_texts]
  rw [hkeys]
  match keys with
  | [] => simp [escaped]
  | [(k, v)] => by_cases hk : k = b64Key <;> simp [escaped, hk]
  | _ :: _ :: _ => simp [escaped]

/-- A tree comes back as it was sent exactly if no dict of it has `__b64__` as its only key, and
such trees have encodings of their own; a message of a node comes back exactly if it is no snapshot
with such data; and the data of a `KVStore` are such exactly if this is the only key of the store. -/
theorem wire_round_trip_iff (t u : Value) (m : Msg String Value) (keys : List (String × String))
    (ops : ℕ) :
    (decodeWire (encodeWire t) = .ok t ↔ t.plain = true) ∧
    (t.plain = true → u.plain = true → encodeWire t = encodeWire u → t = u) ∧
    (decodeWire (encodeWire (messageTree m)) = .ok (messageTree m) ↔
      ∀ term leader s, m = .installSnapshot term leader s → s.data.plain = true) ∧
    ((snapshotTree keys ops).plain = true ↔ ∀ v, keys ≠ [(b64Key, v)]) :=
  ⟨decode_encode_iff t, encodeWire_inj, (decode_encode_iff _).trans (plain_message m),
    plain_snapshot keys ops⟩

/-- The command `__b64__=QUJD` makes a store whose snapshot arrives with bytes for its keys; the
text and the bytes have one encoding. -/
theorem wire_snapshot_garbled :
    (KVStore.apply {} (b64Key ++ "=QUJD").toUTF8.toList).1.data b64Key.toList = some "QUJD".toList ∧
      decodeWire (encodeWire (messageTree
        (.installSnapshot 1 "node1" ⟨1, 1, snapshotTree [(b64Key, "QUJD")] 1⟩))) =
        .ok (messageTree (.installSnapshot 1 "node1"
          ⟨1, 1, .dict [("keys", .bytes [65, 66, 67]), ("ops", .int 1)]⟩)) ∧
      messageTree (.installSnapshot 1 "node1" ⟨1, 1, snapshotTree [(b64Key, "QUJD")] 1⟩) ≠
        messageTree (.installSnapshot 1 "node1"
          ⟨1, 1, .dict [("keys", .bytes [65, 66, 67]), ("ops", .int 1)]⟩) ∧
      encodeWire (.dict [(b64Key, .str "QUJD")]) = encodeWire (.bytes [65, 66, 67]) := by
  have hq : b64encode [65, 66, 67] = "QUJD" := by decide
  have hb := b64decode_encode [65, 66, 67]
  rw [hq] at hb
  refine ⟨by decide +kernel, ?_, ?_, ?_⟩
  · simp [messageTree, snapshotTree, encodeWire, encodeItems, decodeWire, decodeItems, escaped,
      b64Key, hb]
  · intro h
    simp [messageTree, snapshotTree] at h
  · simp [encodeWire, encodeItems, hq]

end Pylog.Net
