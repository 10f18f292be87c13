import Pylog.Net.Json

/-!
# Pylog.Net.Messages — a message through the whole stack (server.py:17–34, 60–61, 110–111, net.py)

`TcpTransport.send` encodes a message as a JSON tree and sends it in a frame; the server of the peer reads
the frame, decodes the tree, and `handle` takes the fields of the message from it.
`messages_arrive`: what `handle` gets are the messages that were sent.
-/

namespace Pylog.Net

open Raft (Bytes Entry Msg)
open Effect Effect.Handler Framing

/-! ### The fields of a message -/

/-- `m[k]`. -/
def field (items : List (String × Value)) (k : String) : Option Value :=
  (items.find? fun e => e.1 = k).map Prod.snd

def natField (items : List (String × Value)) (k : String) : Option ℕ :=
  match field items k with
  | some (.int (.ofNat n)) => some n
  | _ => none

def intField (items : List (String × Value)) (k : String) : Option ℤ :=
  match field items k with
  | some (.int n) => some n
  | _ => none

def strField (items : List (String × Value)) (k : String) : Option String :=
  match field items k with
  | some (.str s) => some s
  | _ => none

def boolField (items : List (String × Value)) (k : String) : Option Bool :=
  match field items k with
  | some (.bool b) => some b
  | _ => none

def readEntry : Value → Option Entry
  | .dict items => do
    let index ← natField items "index"
    let term ← natField items "term"
    match field items "payload" with
    | some (.bytes payload) => pure ⟨index, term, payload⟩
    | _ => none
  | _ => none

def readEntries : List Value → Option (List Entry)
  | [] => pure []
  | x :: xs => do
    let e ← readEntry x
    let es ← readEntries xs
    pure (e :: es)

/-- `m["entries"]`. -/
def entriesField (items : List (String × Value)) : Option (List Entry) :=
  match field items "entries" with
  | some (.list xs) => readEntries xs
  | _ => none

/-- The message of one type, by the fields that its method reads. -/
def readFields (items : List (String × Value)) (kind : String) : Option (Msg String Value) :=
  if kind = "prevote" then do
    let term ← natField items "term"
    let candidate ← strField items "candidate"
    let lastIndex ← natField items "last_index"
    let lastTerm ← intField items "last_term"
    pure (.prevote term candidate lastIndex lastTerm)
  else if kind = "prevote_resp" then do
    let term ← natField items "term"
    let sender ← strField items "from"
    let granted ← boolField items "granted"
    pure (.prevoteResp term sender granted)
  else if kind = "vote" then do
    let term ← natField items "term"
    let candidate ← strField items "candidate"
    let lastIndex ← natField items "last_index"
    let lastTerm ← intField items "last_term"
    pure (.vote term candidate lastIndex lastTerm)
  else if kind = "vote_resp" then do
    let term ← natField items "term"
    let sender ← strField items "from"
    let granted ← boolField items "granted"
    pure (.voteResp term sender granted)
  else if kind = "append" then do
    let term ← natField items "term"
    let leader ← strField items "leader"
    let prevIndex ← natField items "prev_index"
    let prevTerm ← intField items "prev_term"
    let entries ← entriesField items
    let commit ← natField items "commit"
    pure (.append term leader prevIndex prevTerm entries commit)
  else if kind = "append_resp" then do
    let term ← natField items "term"
    let sender ← strField items "from"
    let success ← boolField items "success"
    let matchIndex ← natField items "match"
    pure (.appendResp term sender success matchIndex (natField items "conflict"))
  else if kind = "install_snapshot" then do
    let term ← natField items "term"
    let leader ← strField items "leader"
    let lastIncludedIndex ← natField items "last_included_index"
    let lastIncludedTerm ← intField items "last_included_term"
    let data ← field items "data"
    pure (.installSnapshot term leader ⟨lastIncludedIndex, lastIncludedTerm, data⟩)
  else if kind = "timeout_now" then do
    let term ← natField items "term"
    pure (.timeoutNow term)
  else none

/-- The message `handle` takes a dict for; `none` if it is none that a node sends. -/
def readMessage : Value → Option (Msg String Value)
  | .dict items =>
    match field items "type" with
    | some (.str kind) => readFields items kind
    | _ => none
  | _ => none

theorem readEntry_tree (e : Entry) : readEntry (entryTree e) = some e := rfl

theorem readEntries_trees : ∀ entries : List Entry, readEntries (entries.map entryTree) = some entries
  | [] => rfl
  | e :: entries => by
    rw [List.map_cons, readEntries, readEntry_tree, readEntries_trees entries]
    rfl

/-- `handle` reads the message that was written. -/
theorem readMessage_tree (m : Msg String Value) : readMessage (messageTree m) = some m := by
  cases m with
  | append term leader prevIndex prevTerm entries commit =>
    show (readEntries (entries.map entryTree)).bind (fun entries =>
      some (Msg.append term leader prevIndex prevTerm entries commit)) = _
    rw [readEntries_trees]
    rfl
  | appendResp term sender success matchIndex conflict =>
    cases conflict <;> rfl
  | prevote | prevoteResp | vote | voteResp | installSnapshot | timeoutNow => rfl

/-! ### Trees that JSON can carry -/

mutual

/-- No dict of the tree has a key twice. -/
def Value.distinct : Value → Bool
  | .list xs => distinctList xs
  | .dict items => decide (items.map Prod.fst).Nodup && distinctItems items
  | _ => true

def distinctList : List Value → Bool
  | [] => true
  | x :: xs => x.distinct && distinctList xs

def distinctItems : List (String × Value) → Bool
  | [] => true
  | (_, v) :: rest => v.distinct && distinctItems rest

end

theorem keys_encodeItems (items : List (String × Value)) :
    (encodeItems items).map Prod.fst = items.map Prod.fst := by
  induction items with
  | nil => rfl
  | cons e items ih => rw [encodeItems, List.map_cons, List.map_cons, ih]

mutual

/-- The encoding has no bytes left. -/
theorem encodeWire_sound : ∀ t : Value, (encodeWire t).sound = t.distinct
  | .null => rfl
  | .bool _ => rfl
  | .int _ => rfl
  | .str _ => rfl
  | .bytes b => by simp [encodeWire, Value.sound, soundItems, Value.distinct]
  | .list xs => by rw [encodeWire, Value.sound, encodeList_sound xs, Value.distinct]
  | .dict items => by
    rw [encodeWire, Value.sound, keys_encodeItems, encodeItems_sound items, Value.distinct]

theorem encodeList_sound : ∀ xs : List Value, soundList (encodeList xs) = distinctList xs
  | [] => rfl
  | x :: xs => by
    rw [encodeList, soundList, encodeWire_sound x, encodeList_sound xs, distinctList]

theorem encodeItems_sound : ∀ items : List (String × Value),
    soundItems (encodeItems items) = distinctItems items
  | [] => rfl
  | (k, v) :: items => by
    rw [encodeItems, soundItems, encodeWire_sound v, encodeItems_sound items, distinctItems]

end

/-- The data of a snapshot come back as they were sent. -/
def Carried (m : Msg String Value) : Prop :=
  ∀ term leader s, m = .installSnapshot term leader s →
    s.data.plain = true ∧ s.data.distinct = true

theorem distinctList_entries : ∀ entries : List Entry, distinctList (entries.map entryTree) = true
  | [] => rfl
  | _ :: entries => by
    rw [List.map_cons, distinctList, distinctList_entries entries]
    rfl

theorem distinct_message {m : Msg String Value} (h : Carried m) :
    (messageTree m).distinct = true := by
  cases m with
  | append term leader prevIndex prevTerm entries commit =>
    simp [messageTree, Value.distinct, distinctItems, distinctList_entries]
  | appendResp term sender success matchIndex conflict => cases conflict <;> rfl
  | installSnapshot term leader s =>
    have hdata := (h term leader s rfl).2
    simp [messageTree, Value.distinct, distinctItems, hdata]
  | prevote | prevoteResp | vote | voteResp | timeoutNow => rfl

theorem distinctItems_texts : ∀ keys : List (String × String),
    distinctItems (keys.map fun e => (e.1, .str e.2)) = true
  | [] => rfl
  | _ :: keys => by
    rw [List.map_cons, distinctItems, distinctItems_texts keys]
    rfl

/-- The snapshot of a store whose only key is not `__b64__`. -/
theorem carried_snapshot {keys : List (String × String)} (hnodup : (keys.map Prod.fst).Nodup)
    (hkeys : ∀ v, keys ≠ [(b64Key, v)]) (ops : ℕ) :
    (snapshotTree keys ops).plain = true ∧ (snapshotTree keys ops).distinct = true := by
  refine ⟨(plain_snapshot keys ops).mpr hkeys, ?_⟩
  have hmap : (keys.map fun e => (e.1, Value.str e.2)).map Prod.fst = keys.map Prod.fst := by
    rw [List.map_map]
    rfl
  rw [← hmap] at hnodup
  simp only [snapshotTree, Value.distinct, distinctItems, distinctItems_texts,
    decide_eq_true hnodup]
  rfl

/-! ### The stack -/

/-- A message that a node can send. -/
abbrev SentMsg := { m : Msg String Value // Carried m }

/-- `_encode_wire(msg)`. -/
def wire (m : SentMsg) : JsonValue :=
  ⟨encodeWire (messageTree m.1), (encodeWire_sound _).trans (distinct_message m.2)⟩

/-- What `_on_wire_message` gives `handle`. -/
def received (v : JsonValue) : Option (Msg String Value) :=
  match decodeWire v.1 with
  | .ok t => readMessage t
  | .error _ => none

theorem received_wire (m : SentMsg) : received (wire m) = some m.1 := by
  have hplain : (messageTree m.1).plain = true :=
    (plain_message m.1).mpr fun term leader s hm => (m.2 term leader s hm).1
  have hdecode := (decode_encode_iff (messageTree m.1)).mpr hplain
  unfold received wire
  rw [hdecode]
  exact readMessage_tree m.1

theorem dumps_wire {m : SentMsg} {data : Bytes} (h : wireData m.1 = .ok data) :
    pyJson.dumps (wire m) = data := by
  have hdumps : dumps (wire m).1 = .ok data := h
  show jsonDumps (wire m) = data
  unfold jsonDumps
  rw [hdumps]

/-- **What is sent is what is handled.**  Messages are sent one after the other on one connection,
their bytes arrive in any chunks, and the connection may break behind any byte: the server hands
`handle` these messages in order, up to the break. -/
theorem messages_arrive (ms : List SentMsg) (hms : ∀ m ∈ ms, Fits m.1) :
    ∃ stream, sendFrames pyJson (ms.map wire) = .ok stream ∧
      ∀ (picks : ℕ → ℕ) (n : ℕ), ms.length < n →
        (recvFrames pyJson n ⟨stream, picks⟩).1.map received = ms.map (some ·.1) ∧
        ∀ k, ∃ j, (recvFrames pyJson n ⟨stream.take k, picks⟩).1.map received =
          (ms.take j).map (some ·.1) ∧
          (recvFrames pyJson n ⟨stream.take k, picks⟩).2 = some (.disconnected "peer closed") ∧
          (((ms.take j).map wire).flatMap (frame pyJson)).length ≤ k ∧
          (j < ms.length → k < (((ms.take (j + 1)).map wire).flatMap (frame pyJson)).length) := by
  have hwire : ∀ v ∈ ms.map wire, (pyJson.dumps v).length ≤ maxFrameBytes := by
    intro v hv
    obtain ⟨m, hm, rfl⟩ := List.mem_map.mp hv
    obtain ⟨data, hdata, hle⟩ := hms m hm
    rwa [dumps_wire hdata]
  have hreceived : ∀ ms : List SentMsg, (ms.map wire).map received = ms.map (some ·.1) := by
    intro ms
    rw [List.map_map]
    exact List.map_congr_left fun m _ => received_wire m
  refine ⟨_, sendFrames_eq hwire, fun picks n hn => ?_⟩
  obtain ⟨n, rfl⟩ := Nat.exists_eq_add_of_le' (Nat.lt_of_le_of_lt (Nat.zero_le _) hn)
  have hcut := fun k => recvFrames_cut loads_dumps hwire k picks n
  refine ⟨?_, fun k => ?_⟩
  · have hall := hcut ((ms.map wire).flatMap (frame pyJson)).length
    rw [arrived_all, List.take_length, List.length_map] at hall
    rw [hall (by omega)]
    exact hreceived ms
  · obtain ⟨j, hj, harrived, hle, hlt⟩ := arrived_spec pyJson (ms.map wire) k
    rw [List.length_map] at hj hlt
    have hrun := hcut k (by rw [harrived, List.length_take, List.length_map]; omega)
    rw [harrived, ← List.map_take] at hrun
    rw [← List.map_take] at hle hlt
    refine ⟨j, ?_, ?_, hle, fun hj' => ?_⟩
    · rw [hrun]
      exact hreceived _
    · rw [hrun]
    · exact hlt hj'

/-- A vote and a snapshot of two keys, cut in the second frame. -/
def twoMessages : List SentMsg :=
  [⟨.vote 3 "node2" 7 2, fun _ _ _ h => by cases h⟩,
    ⟨.installSnapshot 3 "node1" ⟨5, 2, snapshotTree [("a", "x"), ("é", "\n")] 2⟩, fun _ _ s h => by
      cases h
      exact carried_snapshot (by decide) (by simp) 2⟩]

theorem messages_arrive_two : ∃ stream, sendFrames pyJson (twoMessages.map wire) = .ok stream ∧
    (recvFrames pyJson 3 ⟨stream, fun i => i % 5⟩).1.map received = twoMessages.map (some ·.1) ∧
    ∃ j, (recvFrames pyJson 3 ⟨stream.take 100, fun i => i % 5⟩).1.map received =
      (twoMessages.take j).map (some ·.1) := by
  have hfits : ∀ m ∈ twoMessages, Fits m.1 := by
    intro m hm
    rcases List.mem_cons.mp hm with rfl | hm
    · exact ⟨_, rfl, by decide +kernel⟩
    · rw [List.mem_singleton.mp hm]
      exact ⟨_, rfl, by decide +kernel⟩
  obtain ⟨stream, hstream, hall⟩ := messages_arrive twoMessages hfits
  obtain ⟨hwhole, hcut⟩ := hall (fun i => i % 5) 3 (by decide)
  obtain ⟨j, hj, -⟩ := hcut 100
  exact ⟨stream, hstream, hwhole, j, hj⟩

end Pylog.Net
