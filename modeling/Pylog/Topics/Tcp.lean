import Pylog.Net.Messages
import Pylog.Net.Serve
import Pylog.Topics.Runs

/-!
# Pylog.Topics.Tcp — the broker behind the frame server (cli.py:44–53, net.py:87–90)

`_tcp_dispatch` on the JSON value of a request.  The clock and the operating system answer in the
order they are asked.  The texts of exceptions, `repr` and the read-out `stats` are parameters.

`keeps_tcpDispatch`: whatever JSON value a request is, the partitions hold what was reported for them
afterwards, and no record is lost.
-/

namespace Pylog.Topics

open Effect Effect.Handler Log Transition
open Net (Value JsonValue field maxFrameBytes pyJson)

inductive TcpError
  | attributeError
  | typeError
  | keyError (name : String)
  | broker (e : BrokerError)
  deriving DecidableEq, Repr

/-- A broker with the records it has reported, and what the clock and the operating system will
answer. -/
structure TcpState where
  history : History
  clock : ℕ → ℤ
  os : ℕ → Answers

abbrev TcpM (α : Type) := Handler TcpState Empty TcpError α

/-- What the code takes from elsewhere. -/
structure Texts where
  /-- `repr(v)`. -/
  repr : Value → String
  /-- `f"{type(exc).__name__}: {exc}"`. -/
  exc : TcpError → String
  /-- `broker.stats()`. -/
  stats : Broker → JsonValue

/-- `f"{v}"`. -/
def Texts.format (texts : Texts) : Value → String
  | .str s => s
  | .int n => n.repr
  | v => texts.repr v

/-! ### Answers -/

def Report.json (r : Report) : JsonValue :=
  ⟨.dict [("topic", .str r.topic), ("partition", .int r.partition), ("offset", .int r.offset)], rfl⟩

def Message.tree (m : Message) : Value :=
  .dict [("offset", .int m.offset), ("timestamp", .int m.timestamp), ("payload", .str m.payload)]

theorem soundList_messages : ∀ ms : List Message, Net.soundList (ms.map Message.tree) = true
  | [] => rfl
  | _ :: ms => by
    rw [List.map_cons, Net.soundList, soundList_messages ms]
    rfl

/-- `{"messages": msgs}`. -/
def messagesJson (ms : List Message) : JsonValue :=
  ⟨.dict [("messages", .list (ms.map Message.tree))], by
    simp [Value.sound, Net.soundItems, soundList_messages]⟩

/-- The answer of the server to a request whose handler raised. -/
def errorJson (texts : Texts) (e : TcpError) : JsonValue :=
  ⟨.dict [("type", .str "error"), ("error", .str (texts.exc e))], rfl⟩

def unknownJson (texts : Texts) (op : Value) : JsonValue :=
  ⟨.dict [("error", .str ("unknown op " ++ texts.repr op))], rfl⟩

/-! ### `_tcp_dispatch` -/

/-- `req[k]`. -/
def item {σ ω : Type} (items : List (String × Value)) (k : String) : Handler σ ω TcpError Value :=
  match field items k with
  | some v => pure v
  | none => raise (.keyError k)

/-- `isinstance(v, int)`; a truth value is a number. -/
def asInt : Value → Option ℤ
  | .int n => some n
  | .bool b => some (if b then 1 else 0)
  | _ => none

/-- What `create_topic` raises for a topic that is no text. -/
def oddTopic (topic : Value) : TcpM JsonValue := do
  let s ← read
  match topic with
  | .list _ | .dict _ => raise .typeError
  | _ =>
    if s.history.broker.config.defaultPartitions < 1 then
      raise (.broker (.valueError "num_partitions must be >= 1"))
    else raise .typeError

/-- `broker.produce(topic, payload, key=key)`. -/
def produceText (topic : String) (payload : Bytes) (key : Option String) : TcpM JsonValue := fun s =>
  let r := s.history.broker.produce (s.os 0) topic payload key none (s.clock 0)
  ⟨⟨s.history.next id (.produce (s.os 0) topic payload key none (s.clock 0)),
      fun i => s.clock (i + 1), fun i => s.os (i + 1)⟩, [],
    (r.result.map Report.json).mapError .broker⟩

/-- A key that is no text has no `encode`; the topic is made before. -/
def produceOdd (topic : String) : TcpM JsonValue := fun s =>
  let r := when (s.history.broker.topics.lookup topic = none)
    (Broker.createTopic (s.os 0) topic none) s.history.broker
  ⟨⟨{ s.history with broker := r.state }, s.clock, fun i => s.os (i + 1)⟩, [],
    match r.result with
    | .ok _ => .error .attributeError
    | .error e => .error (.broker e)⟩

def tcpProduce (items : List (String × Value)) : TcpM JsonValue := do
  let topic ← item items "topic"
  let payload ← item items "payload"
  match payload with
  | .str text =>
    match topic with
    | .str t =>
      match (field items "key").getD .null with
      | .null => produceText t (Utf8.encode text) none
      | .str k => produceText t (Utf8.encode text) (some k)
      | _ => produceOdd t
    | v => oddTopic v
  | _ => raise .attributeError

/-- The message of `fetch` when there is no such partition. -/
def noPartition (texts : Texts) (topic partition : Value) : TcpError :=
  .broker (.keyError
    ("no such topic/partition: " ++ texts.format topic ++ "[" ++ texts.format partition ++ "]"))

/-- `broker.fetch(topic, partition, after)`. -/
def fetchText (texts : Texts) (topic : String) (partition after : Value) : TcpM JsonValue := do
  let s ← read
  if s.history.broker.topics.lookup topic = none then
    raise (noPartition texts (.str topic) partition)
  else
    match asInt partition with
    | none => raise .typeError
    | some p =>
      match (if 0 ≤ p then s.history.broker.partitionAt topic p.toNat else none) with
      | none => raise (noPartition texts (.str topic) partition)
      | some part =>
        match asInt after with
        | none => raise .typeError
        | some a => pure (messagesJson ((Partition.readAfter part a 100).map Message.ofRecord))

def tcpFetch (texts : Texts) (items : List (String × Value)) : TcpM JsonValue := do
  let topic ← item items "topic"
  let partition := (field items "partition").getD (.int 0)
  match topic with
  | .str t => fetchText texts t partition ((field items "after").getD (.int (-1)))
  | .list _ | .dict _ => raise .typeError
  | v => raise (noPartition texts v partition)

def tcpDispatch (texts : Texts) (req : JsonValue) : TcpM JsonValue :=
  match req.1 with
  | .dict items =>
    match field items "op" with
    | some (.str op) =>
      if op = "produce" then tcpProduce items
      else if op = "fetch" then tcpFetch texts items
      else if op = "stats" then do
        let s ← read
        pure (texts.stats s.history.broker)
      else pure (unknownJson texts (.str op))
    | op => pure (unknownJson texts (op.getD .null))
  | _ => raise .attributeError

/-! ### What every request keeps -/

/-- The records of a partition only get more. -/
def History.Grows (s s' : History) : Prop := ∀ t i, s.reported t i <+: s'.reported t i

/-- The partitions hold what was reported for them, and are there. -/
structure History.Sound (s : History) : Prop where
  stored : Stored s
  placed : ∀ e ∈ s.produced, ∃ n, s.broker.count e.topic = some n ∧ e.partition < n

theorem History.Grows.refl (s : History) : s.Grows s := fun _ _ => List.prefix_rfl

theorem History.Grows.trans {s s' s'' : History} (h : s.Grows s') (h' : s'.Grows s'') :
    s.Grows s'' := fun t i => (h t i).trans (h' t i)

theorem History.grows_of_produced {s s' : History} {es : List Produced}
    (h : s'.produced = s.produced ++ es) : s.Grows s' := by
  intro t i
  unfold History.reported
  rw [h, List.filter_append]
  exact List.prefix_append _ _

theorem History.sound_init (config : Config) : (History.init config).Sound :=
  ⟨stored_init config, fun e he => by cases he⟩

section Keep

variable {s : History}

/-- Topics that are open stay open, as they are. -/
theorem History.Sound.placed_mono (h : s.Sound) {b' : Broker}
    (hcount : ∀ t n, s.broker.count t = some n → b'.count t = some n) :
    ∀ e ∈ s.produced, ∃ n, b'.count e.topic = some n ∧ e.partition < n := by
  intro e he
  obtain ⟨n, hn, hlt⟩ := h.placed e he
  exact ⟨n, hcount _ _ hn, hlt⟩

theorem History.Sound.produce (h : s.Sound) (groupFile : String → String) {payload : Bytes}
    (hp : payload.length ≤ maxRecordBytes) (os : Answers) (topic : String) (key : Option String)
    (timestamp : Option ℤ) (now : ℤ) :
    (s.next groupFile (.produce os topic payload key timestamp now)).Sound ∧
      s.Grows (s.next groupFile (.produce os topic payload key timestamp now)) := by
  obtain ⟨hst, hext, -, hcase⟩ := h.stored.produce groupFile hp os topic key timestamp now rfl
  have hold := h.placed_mono fun t n hn => hext.count hn
  rcases hcase with hsame | ⟨e, -, hrep⟩
  · refine ⟨⟨hst, ?_⟩, History.grows_of_produced (hsame.trans (List.append_nil _).symm)⟩
    rw [hsame]
    exact hold
  · refine ⟨⟨hst, ?_⟩, History.grows_of_produced hrep.produced⟩
    rw [hrep.produced]
    intro e' he'
    rcases List.mem_append.mp he' with he' | he'
    · exact hold e' he'
    · obtain ⟨n, hn, hlt, -⟩ := hrep.routed
      rw [List.mem_singleton.mp he']
      exact ⟨n, hn, hlt⟩

theorem History.Sound.createTopic (h : s.Sound) (os : Answers) (name : String)
    (numPartitions : Option ℤ) :
    ({ s with broker := (Broker.createTopic os name numPartitions s.broker).state } : History).Sound := by
  obtain ⟨b', r, hrun, hst, hext⟩ := h.stored.createTopic os name numPartitions
  rw [hrun]
  exact ⟨hst, h.placed_mono fun t n hn => hext.count hn⟩

/-- What leaves the topics alone. -/
theorem History.Sound.sameTopics (h : s.Sound) {s' : History} (hproduced : s'.produced = s.produced)
    (hsame : SameTopics s.broker s'.broker) : s'.Sound := by
  have hreported : s'.reported = s.reported := by
    unfold History.reported
    rw [hproduced]
  refine ⟨⟨?_, ?_, ?_⟩, ?_⟩
  · unfold History.records
    rw [hreported]
    exact h.stored.stores.congr hsame
  · rw [hreported]
    exact h.stored.offsets
  · intro t n hn
    exact h.stored.pos t n ((hsame.count t).symm.trans hn)
  · rw [hproduced]
    exact h.placed_mono fun t n hn => (hsame.count t).trans hn

/-- A partition that is not there has no records. -/
theorem History.Sound.reported_nil (h : s.Sound) {t : String} {i : ℕ}
    (hnone : s.broker.partitionAt t i = none) : s.reported t i = [] := by
  refine List.filter_eq_nil_iff.mpr fun e he heq => ?_
  obtain ⟨rfl, rfl⟩ := of_decide_eq_true heq
  obtain ⟨n, hn, hlt⟩ := h.placed e he
  obtain ⟨p, hp⟩ := partitionAt_isSome hn hlt
  rw [hp] at hnone
  cases hnone

/-- Sound, and with every record of `s`. -/
def Onward (s : History) (app : TcpState) : Prop := app.history.Sound ∧ s.Grows app.history

theorem keeps_item {α : Type} {items : List (String × Value)} {k : String} {f : Value → TcpM α}
    (h : ∀ v, field items k = some v → Keeps (Onward s) (f v)) :
    Keeps (Onward s) (item items k >>= f) := by
  unfold item
  cases hfield : field items k with
  | some v => exact fun app happ => h v hfield app happ
  | none => exact fun app happ => happ

theorem keeps_oddTopic (topic : Value) : Keeps (Onward s) (oddTopic topic) := by
  unfold oddTopic
  refine keeps_read fun app => ?_
  split
  · exact keeps_raise _
  · exact keeps_raise _
  · split_ifs
    · exact keeps_raise _
    · exact keeps_raise _

theorem keeps_produceText (topic : String) {payload : Bytes} (hp : payload.length ≤ maxRecordBytes)
    (key : Option String) : Keeps (Onward s) (produceText topic payload key) := by
  rintro app ⟨hs, hgrows⟩
  obtain ⟨hs', hgrows'⟩ := hs.produce id hp (app.os 0) topic key none (app.clock 0)
  exact ⟨hs', hgrows.trans hgrows'⟩

theorem keeps_produceOdd (topic : String) : Keeps (Onward s) (produceOdd topic) := by
  rintro app ⟨hs, hgrows⟩
  refine ⟨?_, hgrows⟩
  show ({ app.history with broker := (when _ _ app.history.broker).state } : History).Sound
  unfold when
  split_ifs
  · exact hs.createTopic (app.os 0) topic none
  · exact hs

theorem mem_of_field {items : List (String × Value)} {k : String} {v : Value}
    (h : field items k = some v) : (k, v) ∈ items := by
  obtain ⟨e, he, rfl⟩ := Option.map_eq_some_iff.mp h
  have hk : e.1 = k := by simpa using List.find?_some he
  rw [← hk]
  exact List.mem_of_find?_eq_some he

theorem keeps_tcpProduce {items : List (String × Value)}
    (hp : ∀ text, ("payload", Value.str text) ∈ items → (Utf8.encode text).length ≤ maxRecordBytes) :
    Keeps (Onward s) (tcpProduce items) := by
  unfold tcpProduce
  refine keeps_item fun topic _ => keeps_item fun payload hpayload => ?_
  cases payload with
  | str text =>
    have hlen := hp text (mem_of_field hpayload)
    cases topic with
    | str t =>
      dsimp only
      split
      · exact keeps_produceText t hlen none
      · exact keeps_produceText t hlen _
      · exact keeps_produceOdd t
    | _ => exact keeps_oddTopic _
  | _ => exact keeps_raise _

theorem keeps_fetchText (texts : Texts) (topic : String) (partition after : Value) :
    Keeps (Onward s) (fetchText texts topic partition after) := by
  unfold fetchText
  refine keeps_read fun app => ?_
  split_ifs
  · exact keeps_raise _
  · cases asInt partition with
    | none => exact keeps_raise _
    | some p =>
      dsimp only
      split
      · exact keeps_raise _
      · cases asInt after with
        | none => exact keeps_raise _
        | some a => exact keeps_pure _

theorem keeps_tcpFetch (texts : Texts) (items : List (String × Value)) :
    Keeps (Onward s) (tcpFetch texts items) := by
  unfold tcpFetch
  refine keeps_item fun topic _ => ?_
  dsimp only
  cases topic with
  | str t => exact keeps_fetchText texts t _ _
  | _ => exact keeps_raise _

/-- **No request loses a record**, whatever JSON value it is. -/
theorem keeps_tcpDispatch (texts : Texts) {req : JsonValue}
    (hreq : (pyJson.dumps req).length ≤ maxFrameBytes) : Keeps (Onward s) (tcpDispatch texts req) := by
  unfold tcpDispatch
  split
  · rename_i items hitems
    split
    · rename_i op _
      split_ifs
      · exact keeps_tcpProduce fun text htext => (Net.length_payload_le hitems htext).trans hreq
      · exact keeps_tcpFetch texts items
      · exact keeps_read fun app => keeps_pure _
      · exact keeps_pure _
    · exact keeps_pure _
  · exact keeps_raise _

end Keep

/-! ### The broker behind the server -/

/-- What the HTTP gateway does to the broker. -/
inductive Gateway (groupFile : String → String) (s : History) : History → Prop
  | produce (os : Answers) (topic : String) {payload : Bytes} (key : Option String)
      (timestamp : Option ℤ) (now : ℤ) : payload.length ≤ maxRecordBytes →
      Gateway groupFile s (s.next groupFile (.produce os topic payload key timestamp now))
  | consume (os : Answers) (rq : ConsumeRequest) :
      Gateway groupFile s (s.next groupFile (.consume os rq))
  /-- A produce request with a key that is no text. -/
  | createTopic (os : Answers) (topic : String) :
      Gateway groupFile s { s with broker := (Broker.createTopic os topic none s.broker).state }
  | commit (os : Answers) (group topic : String) (partition offset : ℤ) : Gateway groupFile s
      { s with broker := (Broker.commit groupFile os group topic partition offset s.broker).state }

/-- The gateway is at work; what the clock and the operating system answer is not fixed. -/
def Beside (groupFile : String → String) (app app' : TcpState) : Prop :=
  Gateway groupFile app.history app'.history

theorem Gateway.onward {groupFile : String → String} {s s' : History} (h : Gateway groupFile s s')
    (hs : s.Sound) : s'.Sound ∧ s.Grows s' := by
  cases h with
  | produce os topic key timestamp now hp => exact hs.produce groupFile hp os topic key timestamp now
  | consume os rq =>
    obtain ⟨hsame, -⟩ := hs.stored.consume groupFile os rq
    exact ⟨hs.sameTopics rfl hsame, History.Grows.refl s⟩
  | createTopic os topic => exact ⟨hs.createTopic os topic none, History.Grows.refl s⟩
  | commit os group topic partition offset =>
    exact ⟨hs.sameTopics rfl (commit_sameTopics os group topic partition offset s.broker ⟨rfl, rfl⟩),
      History.Grows.refl s⟩

end Pylog.Topics
