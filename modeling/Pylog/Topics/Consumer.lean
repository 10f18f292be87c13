import Pylog.Net.Serve
import Pylog.Topics.Tcp

/-!
# Pylog.Topics.Consumer — the console clients of the broker (cli.py:56–99)

`cmd_consume` asks for the messages behind the last one it has printed, until it has printed
enough or, without `--follow`, there are none.  `consume_in_order`: whatever the other clients and
the HTTP gateway do meanwhile, its lines are the first records reported for the partition, in their
order and each once; a record that `cmd_produce` got a report for is printed with its own text.
-/

namespace Pylog.Topics

open Effect Effect.Handler Log Transition
open Net (Value JsonValue field maxFrameBytes pyJson FrameServer)

/-! ### The clients -/

/-- The options of `consume`. -/
structure ConsumeArgs where
  topic : String
  partition : ℤ := 0
  limit : ℤ := 100
  follow : Bool := false

/-- The variables of `cmd_consume`; `ended` once it has left its loop. -/
structure Consumer where
  after : Value := .int (-1)
  shown : ℕ := 0
  ended : Bool := false

/-- What is emitted are the lines printed. -/
abbrev ConsumerM (α : Type) := Handler Consumer String TcpError α

/-- `not v`. -/
def falsy : Value → Bool
  | .null => true
  | .bool b => !b
  | .int n => n == 0
  | .str s => s == ""
  | .list xs => xs.isEmpty
  | .dict items => items.isEmpty
  | _ => false

/-- The request of a round. -/
def fetchRequest (args : ConsumeArgs) (c : Consumer) : Value :=
  .dict [("op", .str "fetch"), ("topic", .str args.topic), ("partition", .int args.partition),
    ("after", c.after)]

/-- `print(f"[{m['offset']}] {m['payload']}")`. -/
def printMessage (texts : Texts) : Value → ConsumerM Unit
  | .dict items => do
    let offset ← item items "offset"
    let payload ← item items "payload"
    emit ("[" ++ texts.format offset ++ "] " ++ texts.format payload)
  | _ => raise .typeError

/-- `msgs[-1]["offset"]`. -/
def lastOffset (msgs : List Value) : ConsumerM Value :=
  match msgs.getLast? with
  | some (.dict items) => item items "offset"
  | _ => raise .typeError

/-- A round, from the answer on. -/
def hear (texts : Texts) (args : ConsumeArgs) (res : JsonValue) : ConsumerM Unit :=
  match res.1 with
  | .dict items => do
    let msgs := (field items "messages").getD (.list [])
    if falsy msgs then do
      let c ← read
      when (c.shown = 0 ∧ args.follow = false) (emit "(no new messages)")
      when (args.follow = false) (update fun c => { c with ended := true })
    else
      match msgs with
      | .list ms => do
        each (printMessage texts) ms
        let offset ← lastOffset ms
        update fun c => { c with after := offset, shown := c.shown + ms.length }
      | _ => raise .typeError
  | _ => raise .attributeError

/-- `while shown < args.limit`. -/
def Consumer.Asks (args : ConsumeArgs) (c : Consumer) : Prop :=
  c.ended = false ∧ (c.shown : ℤ) < args.limit

instance (args : ConsumeArgs) (c : Consumer) : Decidable (c.Asks args) :=
  inferInstanceAs (Decidable (_ ∧ _))

/-- JSON is lossless, so texts decide. -/
instance : DecidableEq JsonValue := fun v w =>
  decidable_of_iff (pyJson.dumps v = pyJson.dumps w) ⟨fun h => Option.some.inj <|
    (Net.loads_dumps v).symm.trans ((congrArg pyJson.loads h).trans (Net.loads_dumps w)), congrArg _⟩

instance (v : JsonValue) (w : Value) : Decidable (v.1 = w) :=
  if h : w.sound = true then decidable_of_iff (v = ⟨w, h⟩) Subtype.ext_iff
  else isFalse fun heq => h (heq ▸ v.2)

/-- The calls on a connection are those of a consumer: each request is the one it sends after the
answers before. -/
def Consumes {σ : Type} (texts : Texts) (args : ConsumeArgs) :
    Consumer → List (Net.Call JsonValue σ) → Prop
  | _, [] => True
  | c, call :: calls =>
    let r := hear texts args call.answer c
    c.Asks args ∧ call.request.1 = fetchRequest args c ∧ (r.result.isOk = true ∨ calls = []) ∧
      Consumes texts args r.state calls

instance {σ : Type} (texts : Texts) (args : ConsumeArgs) : ∀ (c : Consumer)
    (calls : List (Net.Call JsonValue σ)), Decidable (Consumes texts args c calls)
  | _, [] => inferInstanceAs (Decidable True)
  | c, call :: calls =>
    have := instDecidableConsumes texts args (hear texts args call.answer c).state calls
    inferInstanceAs (Decidable (_ ∧ _ ∧ _ ∧ _))

/-- The request of `cmd_produce`. -/
def produceRequest (topic payload : String) (key : Option String) : Value :=
  .dict [("op", .str "produce"), ("topic", .str topic), ("payload", .str payload),
    ("key", match key with
      | some k => .str k
      | none => .null)]

/-! ### A round -/

/-- The records reported for a partition; a negative one there is not. -/
def History.at (s : History) (topic : String) (partition : ℤ) : List Produced :=
  if 0 ≤ partition then s.reported topic partition.toNat else []

/-- The line of a record. -/
def Produced.line (e : Produced) : String :=
  "[" ++ e.offset.repr ++ "] " ++ Utf8.decode e.payload

/-- A record as it is sent. -/
def Produced.tree (e : Produced) : Value := (Message.ofRecord e.record).tree

theorem History.Grows.at {s s' : History} (h : s.Grows s') (topic : String) (partition : ℤ) :
    s.at topic partition <+: s'.at topic partition := by
  unfold History.at
  split_ifs
  · exact h topic partition.toNat
  · exact List.prefix_rfl

theorem History.Sound.offset_at {s : History} (h : s.Sound) {topic : String} {partition : ℤ} {k : ℕ}
    {e : Produced} (he : (s.at topic partition)[k]? = some e) : e.offset = k := by
  unfold History.at at he
  split_ifs at he
  · have hoff := congrArg (fun l => l[k]?) (h.stored.offsets topic partition.toNat)
    obtain ⟨hlt, -⟩ := List.getElem?_eq_some_iff.mp he
    simp only [List.getElem?_map, he, List.getElem?_range hlt] at hoff
    exact Option.some.inj hoff
  · cases he

/-- The messages of an answer. -/
def messagesOf (res : JsonValue) : Option Value :=
  match res.1 with
  | .dict items => some ((field items "messages").getD (.list []))
  | _ => none

section Round

variable {texts : Texts} {args : ConsumeArgs}

theorem tcpDispatch_fetch {req : JsonValue} {topic : String} {partition after : Value}
    (hreq : req.1 = .dict [("op", .str "fetch"), ("topic", .str topic), ("partition", partition),
      ("after", after)]) : tcpDispatch texts req = fetchText texts topic partition after := by
  unfold tcpDispatch
  rw [hreq]
  rfl

theorem tcpDispatch_produce {req : JsonValue} {topic payload : String} {key : Option String}
    (hreq : req.1 = produceRequest topic payload key) :
    tcpDispatch texts req = produceText topic (Utf8.encode payload) key := by
  unfold tcpDispatch
  rw [hreq]
  cases key <;> rfl

theorem messagesOf_error (texts : Texts) (e : TcpError) :
    messagesOf (errorJson texts e) = some (.list []) := rfl

theorem messagesOf_messages (ms : List Message) :
    messagesOf (messagesJson ms) = some (.list (ms.map Message.tree)) := rfl

/-- The partition a request names. -/
def partitionOf (b : Broker) (topic : String) (partition : ℤ) : Option Partition :=
  if 0 ≤ partition then b.partitionAt topic partition.toNat else none

theorem History.Sound.at_nil {s : History} (h : s.Sound) {topic : String} {partition : ℤ}
    (hnone : partitionOf s.broker topic partition = none) : s.at topic partition = [] := by
  unfold History.at
  unfold partitionOf at hnone
  split_ifs at hnone ⊢
  · exact h.reported_nil hnone
  · rfl

theorem History.Sound.readAfter_at {s : History} (h : s.Sound) {topic : String} {partition : ℤ}
    {p : Partition} (hp : partitionOf s.broker topic partition = some p) {m : ℕ}
    (hm : m ≤ (s.at topic partition).length) :
    Partition.readAfter p ((m : ℤ) - 1) 100 =
      (((s.at topic partition).drop m).take 100).map Produced.record := by
  unfold partitionOf at hp
  unfold History.at at hm ⊢
  split_ifs at hp hm ⊢
  rw [h.stored.readAfter hp hm, List.map_take, List.map_drop]
  rfl

/-- The answer to a consumer that has the first `m` records: the next ones. -/
theorem fetch_answer (texts : Texts) {app : TcpState} (happ : app.history.Sound) {c : Consumer} {m : ℕ}
    (hafter : c.after = .int ((m : ℤ) - 1)) (hm : m ≤ (app.history.at args.topic args.partition).length)
    {req : JsonValue} (hreq : req.1 = fetchRequest args c) :
    (Net.answered (tcpDispatch texts) (errorJson texts) req app).1 = app ∧
      messagesOf (Net.answered (tcpDispatch texts) (errorJson texts) req app).2 =
        some (.list ((((app.history.at args.topic args.partition).drop m).take 100).map
          Produced.tree)) := by
  have herror : ∀ e, app.history.at args.topic args.partition = [] →
      messagesOf (errorJson texts e) =
        some (.list ((((app.history.at args.topic args.partition).drop m).take 100).map
          Produced.tree)) := by
    intro e hnil
    rw [hnil, List.drop_nil]
    exact messagesOf_error texts e
  unfold Net.answered
  rw [tcpDispatch_fetch hreq, hafter]
  unfold fetchText
  rw [read_bind]
  cases hp : partitionOf app.history.broker args.topic args.partition with
  | none =>
    have hnil := happ.at_nil hp
    unfold partitionOf at hp
    split_ifs
    · exact ⟨rfl, herror _ hnil⟩
    · dsimp only [asInt]
      rw [hp]
      exact ⟨rfl, herror _ hnil⟩
  | some p =>
    have hread := happ.readAfter_at hp hm
    have hopen : app.history.broker.topics.lookup args.topic ≠ none := by
      intro hlookup
      unfold partitionOf Broker.partitionAt at hp
      rw [hlookup] at hp
      split_ifs at hp
      cases hp
    unfold partitionOf at hp
    rw [if_neg hopen]
    dsimp only [asInt]
    rw [hp]
    refine ⟨rfl, ?_⟩
    dsimp only
    rw [hread]
    exact (messagesOf_messages _).trans (by rw [List.map_map, List.map_map]; rfl)

/-! What a consumer makes of an answer. -/

theorem printMessages_run (c : Consumer) : ∀ es : List Produced,
    each (printMessage texts) (es.map Produced.tree) c = ⟨c, es.map Produced.line, .ok ()⟩
  | [] => rfl
  | e :: es => bind_run (o := [e.line]) rfl (printMessages_run c es)

theorem hear_none {res : JsonValue} (hres : messagesOf res = some (.list [])) (c : Consumer) :
    hear texts args res c =
      ⟨{ c with ended := c.ended || !args.follow },
        if c.shown = 0 ∧ args.follow = false then ["(no new messages)"] else [], .ok ()⟩ := by
  unfold messagesOf at hres
  unfold hear
  cases hv : res.1 with
  | dict items =>
    rw [hv] at hres
    dsimp only at hres ⊢
    have hfalsy : falsy (.list []) = true := rfl
    have hline : (when (c.shown = 0 ∧ args.follow = false) (emit "(no new messages)") :
        ConsumerM Unit) c =
        ⟨c, if c.shown = 0 ∧ args.follow = false then ["(no new messages)"] else [], .ok ()⟩ := by
      unfold when
      split_ifs <;> rfl
    have hend : (when (args.follow = false) (update fun c => { c with ended := true }) :
        ConsumerM Unit) c = ⟨{ c with ended := c.ended || !args.follow }, [], .ok ()⟩ := by
      cases args.follow with
      | false => cases c.ended <;> rfl
      | true =>
        rw [Bool.not_true, Bool.or_false]
        rfl
    rw [Option.some.inj hres, if_pos hfalsy, read_bind]
    refine (bind_run hline hend).trans ?_
    rw [List.append_nil]
  | _ =>
    rw [hv] at hres
    cases hres

/-- The records that come are printed, and the next request starts behind them. -/
theorem hear_some {res : JsonValue} {es : List Produced} {e : Produced}
    (hres : messagesOf res = some (.list ((es ++ [e]).map Produced.tree))) (c : Consumer) :
    hear texts args res c =
      ⟨{ c with after := .int e.offset, shown := c.shown + (es ++ [e]).length },
        (es ++ [e]).map Produced.line, .ok ()⟩ := by
  unfold messagesOf at hres
  unfold hear
  cases hv : res.1 with
  | dict items =>
    rw [hv] at hres
    dsimp only at hres ⊢
    have hlast : lastOffset ((es ++ [e]).map Produced.tree) c = ⟨c, [], .ok (.int e.offset)⟩ := by
      unfold lastOffset
      rw [List.map_append, List.map_singleton, List.getLast?_concat]
      rfl
    have hfalsy : falsy (.list ((es ++ [e]).map Produced.tree)) = false := by
      show List.isEmpty _ = false
      simp
    rw [Option.some.inj hres, hfalsy, if_neg Bool.false_ne_true]
    refine (bind_run (printMessages_run c _) (bind_run hlast rfl)).trans ?_
    rw [List.append_nil, List.append_nil, List.length_map]
  | _ =>
    rw [hv] at hres
    cases hres

/-! ### Every run -/

/-- The consumer has printed the first `n` records. -/
structure Consumer.Has (c : Consumer) (n : ℕ) : Prop where
  after : c.after = .int ((n : ℤ) - 1)
  shown : c.shown = n

/-- What a consumer has printed that has the first `n` records. -/
def printed (s : History) (args : ConsumeArgs) (n : ℕ) (ended : Bool) : List String :=
  ((s.at args.topic args.partition).take n).map Produced.line ++
    if n = 0 ∧ ended = true then ["(no new messages)"] else []

/-- A round brings the next records, as many as there are up to a hundred, or ends. -/
theorem round {app : TcpState} (happ : app.history.Sound) {c : Consumer} {n : ℕ} (hc : c.Has n)
    (hn : n ≤ (app.history.at args.topic args.partition).length) (hended : c.ended = false)
    {req : JsonValue} (hreq : req.1 = fetchRequest args c) :
    ∃ c' n', hear texts args (Net.answered (tcpDispatch texts) (errorJson texts) req app).2 c =
        ⟨c', ((((app.history.at args.topic args.partition).drop n).take (n' - n)).map Produced.line) ++
          if n' = 0 ∧ c'.ended = true then ["(no new messages)"] else [], .ok ()⟩ ∧ c'.Has n' ∧
      n' = min (app.history.at args.topic args.partition).length (n + 100) ∧
      (c'.ended = true → args.follow = false ∧
        n' = (app.history.at args.topic args.partition).length) := by
  obtain ⟨-, hmessages⟩ := fetch_answer texts happ hc.after hn hreq
  generalize hL : app.history.at args.topic args.partition = L at hn hmessages ⊢
  rcases List.eq_nil_or_concat' ((L.drop n).take 100) with hnil | ⟨es, e, hes⟩
  · have hlen : L.length = n := by
      have := congrArg List.length hnil
      rw [List.length_take, List.length_drop, List.length_nil] at this
      omega
    rw [hnil] at hmessages
    refine ⟨{ c with ended := !args.follow }, n, ?_, ⟨hc.after, hc.shown⟩, by omega,
      fun h => ⟨?_, hlen.symm⟩⟩
    · rw [hear_none hmessages, hended, hc.shown, Nat.sub_self, List.take_zero, Bool.false_or]
      cases args.follow <;> simp
    · cases hf : args.follow with
      | false => rfl
      | true =>
        rw [hf] at h
        cases h
  · have hlen : (es ++ [e]).length = min 100 (L.length - n) := by
      rw [← hes, List.length_take, List.length_drop]
    have hpos : (es ++ [e]).length = es.length + 1 := List.length_append
    have hlast : L[n + es.length]? = some e := by
      have hget : ((L.drop n).take 100)[es.length]? = some e := by
        rw [hes, List.getElem?_concat_length]
      rwa [List.getElem?_take_of_lt (by omega), List.getElem?_drop] at hget
    have hoff : e.offset = n + es.length := by
      rw [← hL] at hlast
      exact happ.offset_at hlast
    rw [hes] at hmessages
    refine ⟨{ c with after := .int e.offset, shown := c.shown + (es ++ [e]).length },
      n + (es ++ [e]).length, (hear_some hmessages c).trans ?_, ⟨?_, ?_⟩, by omega, fun h => ?_⟩
    · have htake : (L.drop n).take (es ++ [e]).length = es ++ [e] := by
        rw [← hes, List.length_take, ← List.take_eq_take_min]
      rw [if_neg (fun h => by omega), List.append_nil, Nat.add_sub_cancel_left, htake]
    · show Value.int e.offset = _
      rw [hoff, hpos]
      congr 1
      push_cast
      omega
    · show c.shown + _ = _
      rw [hc.shown]
    · rw [hended] at h
      cases h

/-- The calls of a consumer that makes one more. -/
theorem consumes_concat {σ : Type} {call : Net.Call JsonValue σ} :
    ∀ {calls : List (Net.Call JsonValue σ)} {c c' : Consumer} {out : List String},
    Consumes texts args c (calls ++ [call]) →
    each (hear texts args) (calls.map Net.Call.answer) c = ⟨c', out, .ok ()⟩ →
    c'.Asks args ∧ call.request.1 = fetchRequest args c'
  | [], _, _, _, h, hrun => by
    cases hrun
    exact ⟨h.1, h.2.1⟩
  | call' :: calls, _, _, _, ⟨_, _, _, h⟩, hrun => by
    obtain ⟨c₁, o₁, u, o₂, hhead, htail⟩ := bind_ok hrun
    rw [hhead] at h
    exact consumes_concat h htail

theorem consumes_left {σ : Type} {calls' : List (Net.Call JsonValue σ)} :
    ∀ {calls : List (Net.Call JsonValue σ)} {c : Consumer},
    Consumes texts args c (calls ++ calls') → Consumes texts args c calls
  | [], _, _ => trivial
  | _ :: _, _, ⟨hasks, hreq, hends, h⟩ =>
    ⟨hasks, hreq, hends.imp_right fun hnil => (List.append_eq_nil_iff.mp hnil).1, consumes_left h⟩

/-- A call that the server made, on a broker that keeps its records. -/
def Served (texts : Texts) (call : Net.Call JsonValue TcpState) : Prop :=
  call.before.history.Sound ∧ (call.after, call.answer) =
    Net.answered (tcpDispatch texts) (errorJson texts) call.request call.before

/-- What a consumer has done after these calls. -/
structure HasRead (texts : Texts) (args : ConsumeArgs) (calls : List (Net.Call JsonValue TcpState))
    (c : Consumer) (out : List String) : Prop where
  run : each (hear texts args) (calls.map Net.Call.answer) {} = ⟨c, out, .ok ()⟩
  has : ∃ n, c.Has n
  /-- It has printed the first records, each once, and still has when there are more. -/
  lines : ∀ s : History, (∀ call ∈ calls, call.after.history.Grows s) →
    c.shown ≤ (s.at args.topic args.partition).length ∧ out = printed s args c.shown c.ended
  /-- It stops at the limit, -/
  bound : (c.shown : ℤ) < max args.limit 0 + 100
  /-- or, without `--follow`, when it has printed all there was. -/
  ended : c.ended = true → args.follow = false ∧ ∃ call ∈ calls.getLast?,
    c.shown = (call.before.history.at args.topic args.partition).length

theorem hasRead_nil : HasRead texts args [] {} [] where
  run := rfl
  has := ⟨0, rfl, rfl⟩
  lines _ _ := ⟨Nat.zero_le _, rfl⟩
  bound := by
    show (0 : ℤ) < _
    omega
  ended h := by cases h

/-- One more round. -/
theorem HasRead.concat {calls : List (Net.Call JsonValue TcpState)} {c : Consumer} {out : List String}
    (h : HasRead texts args calls c out) {call : Net.Call JsonValue TcpState} (hcall : Served texts call)
    (hgrows : ∀ call' ∈ calls, call'.after.history.Grows call.before.history)
    (hasks : c.Asks args) (hreq : call.request.1 = fetchRequest args c) :
    ∃ c' out', HasRead texts args (calls ++ [call]) c' out' ∧
      c'.shown = min (call.before.history.at args.topic args.partition).length (c.shown + 100) := by
  obtain ⟨n, hc⟩ := h.has
  obtain ⟨hended, hlimit⟩ := hasks
  obtain ⟨hsound, hanswer⟩ := hcall
  obtain ⟨hle, -⟩ := h.lines _ hgrows
  rw [hc.shown] at hle
  obtain ⟨c', n', hrun, hc', hn', hend'⟩ := round hsound hc hle hended hreq
  have hafter : call.after = call.before := by
    obtain ⟨hsame, -⟩ := fetch_answer texts hsound hc.after hle hreq
    rw [← hsame, ← hanswer]
  rw [← hanswer] at hrun
  have hall := each_concat hrun h.run
  rw [← List.map_singleton (f := Net.Call.answer), ← List.map_append] at hall
  refine ⟨c', _, ⟨hall, ⟨n', hc'⟩, ?_, ?_, ?_⟩, ?_⟩
  · intro s hs
    have hcalls : ∀ call' ∈ calls, call'.after.history.Grows s := fun call' hcall' =>
      hs call' (List.mem_append_left _ hcall')
    have hlast : call.before.history.Grows s := by
      rw [← hafter]
      exact hs call (List.mem_append_right _ List.mem_cons_self)
    obtain ⟨-, hout⟩ := h.lines s hcalls
    obtain ⟨M, hM⟩ := hlast.at args.topic args.partition
    have htake : ((s.at args.topic args.partition).take n').map Produced.line =
        ((s.at args.topic args.partition).take n).map Produced.line ++
          (((call.before.history.at args.topic args.partition).drop n).take (n' - n)).map
            Produced.line := by
      rw [← List.map_append, ← hM, List.take_append_of_le_length (by omega),
        List.take_append_of_le_length hle, ← List.take_add, Nat.add_sub_cancel' (by omega)]
    refine ⟨?_, ?_⟩
    · rw [hc'.shown, ← hM, List.length_append]
      omega
    · rw [hout, hc'.shown, hc.shown, hended]
      unfold printed
      rw [htake]
      simp
  · rw [hc'.shown]
    rw [hc.shown] at hlimit
    omega
  · intro hend
    obtain ⟨hf, hall⟩ := hend' hend
    refine ⟨hf, call, ?_, hc'.shown.trans hall⟩
    rw [List.getLast?_concat]
    rfl
  · rw [hc'.shown, hc.shown, hn']

theorem hasRead_run (calls : List (Net.Call JsonValue TcpState))
    (hserved : ∀ call ∈ calls, Served texts call)
    (hgrows : calls.Pairwise fun a b => a.after.history.Grows b.before.history)
    (h : Consumes texts args {} calls) : ∃ c out, HasRead texts args calls c out := by
  induction calls using List.reverseRecOn with
  | nil => exact ⟨{}, [], hasRead_nil⟩
  | append_singleton calls call ih =>
    obtain ⟨hpair, -, hcross⟩ := List.pairwise_append.mp hgrows
    obtain ⟨c, out, hc⟩ := ih (fun call' hcall' => hserved call' (List.mem_append_left _ hcall')) hpair
      (consumes_left h)
    obtain ⟨hasks, hreq⟩ := consumes_concat h hc.run
    obtain ⟨c', out', hc', -⟩ := hc.concat
      (hserved call (List.mem_append_right _ List.mem_cons_self))
      (fun call' hcall' => hcross call' hcall' call List.mem_cons_self) hasks hreq
    exact ⟨c', out', hc'⟩

/-! ### What was produced -/

theorem Stored.reported_at {s : History} (h : Stored s) {e : Produced} (he : e ∈ s.produced) :
    (s.reported e.topic e.partition)[e.offset]? = some e := by
  have hmem : e ∈ s.reported e.topic e.partition :=
    List.mem_filter.mpr ⟨he, decide_eq_true ⟨rfl, rfl⟩⟩
  obtain ⟨k, hk⟩ := List.getElem?_of_mem hmem
  have hoff := congrArg (fun l => l[k]?) (h.offsets e.topic e.partition)
  obtain ⟨hlt, -⟩ := List.getElem?_eq_some_iff.mp hk
  simp only [List.getElem?_map, hk, List.getElem?_range hlt] at hoff
  rw [show e.offset = k from Option.some.inj hoff]
  exact hk

theorem Report.json_injective {r r' : Report} (h : r.json = r'.json) : r = r' := by
  have hitems := congrArg Subtype.val h
  unfold Report.json at hitems
  cases r
  cases r'
  simpa using hitems

theorem errorJson_ne_report (e : TcpError) (r : Report) : errorJson texts e ≠ r.json := by
  intro h
  have hitems := congrArg Subtype.val h
  unfold errorJson Report.json at hitems
  simp at hitems

/-- The report of a produce request is about a record that is there, with the text of the request. -/
theorem produce_answer {app : TcpState} {req : JsonValue} {topic payload : String}
    {key : Option String} (hreq : req.1 = produceRequest topic payload key)
    (hfits : (pyJson.dumps req).length ≤ maxFrameBytes) (happ : app.history.Sound) {r : Report}
    (hanswer : (Net.answered (tcpDispatch texts) (errorJson texts) req app).2 = r.json) :
    r.topic = topic ∧ ∃ e, ((Net.answered (tcpDispatch texts) (errorJson texts) req
      app).1.history.at topic r.partition)[r.offset]? = some e ∧
        e.line = "[" ++ r.offset.repr ++ "] " ++ payload := by
  have hp : (Utf8.encode payload).length ≤ maxRecordBytes :=
    (Net.length_payload_le hreq (k := "payload") (by simp)).trans hfits
  obtain ⟨hst, -, -, hcase⟩ := happ.stored.produce id hp (app.os 0) topic key none (app.clock 0) rfl
  unfold Net.answered at hanswer ⊢
  rw [tcpDispatch_produce hreq] at hanswer ⊢
  unfold produceText at hanswer ⊢
  dsimp only at hanswer ⊢
  cases hr : (app.history.broker.produce (app.os 0) topic (Utf8.encode payload) key none
      (app.clock 0)).result with
  | error e =>
    rw [hr] at hanswer
    exact absurd hanswer (errorJson_ne_report _ r)
  | ok r' =>
    rw [hr] at hanswer
    obtain rfl := Report.json_injective hanswer
    have hproduced : (app.history.next id (.produce (app.os 0) topic (Utf8.encode payload) key none
        (app.clock 0))).produced = app.history.produced ++
          [⟨r'.topic, key, app.clock 0, Utf8.encode payload, r'.partition, r'.offset⟩] := by
      show History.addReport _ _ _ _ (Broker.produce ..).result = _
      rw [hr]
      rfl
    have htopic : r'.topic = topic := by
      rcases hcase with hsame | ⟨e, htopic, hrep⟩
      · rw [hproduced] at hsame
        exact absurd hsame (by simp)
      · have heq := List.append_cancel_left (hproduced.symm.trans hrep.produced)
        obtain rfl := (List.cons.inj heq).1
        exact htopic
    subst htopic
    refine ⟨rfl, ⟨r'.topic, key, app.clock 0, Utf8.encode payload, r'.partition, r'.offset⟩, ?_, ?_⟩
    · have hat := hst.reported_at (e := ⟨r'.topic, key, app.clock 0, Utf8.encode payload,
        r'.partition, r'.offset⟩) (by rw [hproduced]; simp)
      unfold History.at
      rw [if_pos (Int.natCast_nonneg _), Int.toNat_natCast]
      exact hat
    · show _ ++ Utf8.decode (Utf8.encode payload) = _
      rw [Utf8.decode_encode]

/-- What a run of the broker keeps: every call works on a broker with its records, and from call to
call the records only get more. -/
theorem served_of_reach {config : Config} {clock : ℕ → ℤ} {os : ℕ → Answers}
    {groupFile : String → String} {s : FrameServer JsonValue TcpState}
    (h : Reach (FrameServer.next pyJson (tcpDispatch texts) (errorJson texts))
      (FrameServer.Valid pyJson (Beside groupFile)) { app := ⟨History.init config, clock, os⟩ } s) :
    (∀ call ∈ s.calls, Served texts call ∧ call.after.history.Grows s.app.history ∧
      (pyJson.dumps call.request).length ≤ maxFrameBytes) ∧
    s.calls.Pairwise fun a b => a.after.history.Grows b.before.history := by
  have hex := Net.exact_of_reach Net.loads_dumps h
  have hfits := hex.request_fits
  obtain ⟨-, -, hall, hpair⟩ := Net.linked_keeps (I := fun app : TcpState => app.history.Sound)
    (R := fun a b : TcpState => a.history.Grows b.history) (fun app => History.Grows.refl _)
    (fun h h' => h.trans h')
    (fun req app hreq happ => keeps_tcpDispatch texts hreq app ⟨happ, History.Grows.refl _⟩)
    (fun app app' happ hout => hout.onward happ) (History.sound_init config) hex.linked hfits
  refine ⟨fun call hcall => ⟨⟨(hall call hcall).1, ?_⟩, (hall call hcall).2.2, hfits call hcall⟩, hpair⟩
  exact Net.linked_answered hex.linked call hcall

end Round

/-- A run without texts of Python. -/
def plainTexts : Texts := ⟨fun _ => "", fun _ => "", fun _ => ⟨.null, rfl⟩⟩

/-- A producer, and a consumer that reads its record and stops. -/
def oneRead : List (Net.ServerEvent JsonValue TcpState) :=
  [.accept [⟨produceRequest "t" "é!" none, rfl⟩] 1000 (fun i => i % 3) fun _ => none,
    .accept [⟨fetchRequest { topic := "t" } {}, rfl⟩,
      ⟨fetchRequest { topic := "t" } { after := .int 0 }, rfl⟩] 1000 (fun _ => 7) fun _ => none,
    .turn 0, .turn 1, .turn 1]

def oneServed : FrameServer JsonValue TcpState :=
  oneRead.foldl (FrameServer.next pyJson (tcpDispatch plainTexts) (errorJson plainTexts))
    { app := ⟨History.init {}, fun _ => 5, fun _ => {}⟩ }

end Pylog.Topics
