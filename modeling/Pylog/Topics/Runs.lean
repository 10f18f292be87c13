import Pylog.Base.Transition
import Pylog.Topics.Api
import Pylog.Topics.Partitions

/-!
# Runs of a broker

A `History` is a broker with the records whose `produce` call returned and the answers it gave to
consume requests.  `Stored`: every partition holds exactly the records reported for it, at the
offsets reported.  `produce_keeps_every_record` adds what holds when the topics have names of
directory entries: they are open again after every restart, with as many partitions as before.
-/

namespace Pylog.Topics

open Effect Effect.Handler Log Transition

/-- A call of `produce` that returned, with the partition and the offset it reported. -/
structure Produced where
  topic : String
  key : Option String
  timestamp : ℤ
  payload : Bytes
  partition : ℕ
  offset : ℕ
  deriving DecidableEq, Repr

def Produced.record (e : Produced) : Record := ⟨e.offset, e.timestamp, e.payload⟩

structure History where
  broker : Broker
  produced : List Produced := []
  answers : List (ConsumeRequest × List Message) := []

inductive Event
  | produce (os : Answers) (topic : String) (payload : Bytes) (key : Option String)
      (timestamp : Option ℤ) (now : ℤ)
  | consume (os : Answers) (rq : ConsumeRequest)
  /-- `close`, and a new broker on the same `data_dir`. -/
  | reopen (config : Config) (listing : List (String × ℕ))

namespace History

/-- A new broker on an empty `data_dir`. -/
def init (config : Config) : History := { broker := (Broker.start config [] ∅ ∅).state }

/-- The produced records, with one more if the call returned. -/
def addReport (produced : List Produced) (payload : Bytes) (key : Option String) (timestamp : ℤ) :
    Except BrokerError Report → List Produced
  | .ok r => produced ++ [⟨r.topic, key, timestamp, payload, r.partition, r.offset⟩]
  | .error _ => produced

def next (groupFile : String → String) (s : History) : Event → History
  | .produce os topic payload key timestamp now =>
    let r := s.broker.produce os topic payload key timestamp now
    { s with
      broker := r.state
      produced := addReport s.produced payload key (timestamp.getD now) r.result }
  | .consume os rq =>
    let r := s.broker.consume groupFile os rq
    { s with broker := r.state, answers := s.answers ++ [(rq, answered r.result)] }
  | .reopen config listing => { s with broker := (s.broker.reopen config listing).state }

/-- The records reported for a partition, in the order of the calls. -/
def reported (s : History) (topic : String) (i : ℕ) : List Produced :=
  s.produced.filter fun e => decide (e.topic = topic ∧ e.partition = i)

/-- The log that a partition should hold. -/
def records (s : History) (topic : String) (i : ℕ) : AbstractLog :=
  ⟨0, (s.reported topic i).map fun e => (e.timestamp, e.payload)⟩

end History

/-! ### What every run keeps -/

/-- Payloads that `read_record` takes back; `os.listdir` names no directory twice. -/
def Event.Valid (_ : History) : Event → Prop
  | .produce _ _ payload _ _ _ => payload.length ≤ maxRecordBytes
  | .consume _ _ => True
  | .reopen _ listing => (listing.map Prod.fst).Nodup

/-- Every partition holds what was reported for it. -/
structure Stored (s : History) : Prop where
  stores : Stores s.broker s.records
  offsets : ∀ t i, (s.reported t i).map Produced.offset = List.range (s.reported t i).length
  pos : ∀ t n, s.broker.count t = some n → 0 < n

variable {s : History} {groupFile : String → String}

theorem init_broker (config : Config) : (History.init config).broker = { config } := by
  unfold History.init Broker.start
  rw [List.mergeSort_nil]
  rfl

theorem stored_init (config : Config) : Stored (History.init config) := by
  have hcount : ∀ t, (History.init config).broker.count t = none := by
    intro t
    rw [init_broker]
    rfl
  refine ⟨⟨?_, ?_, ?_⟩, fun _ _ => rfl, ?_⟩
  · intro t i
    rw [init_broker]
    exact opens_nil
  · intro t i p hp
    rw [partitionAt_of_count_none (hcount t)] at hp
    cases hp
  · intro t n hn
    rw [hcount] at hn
    cases hn
  · intro t n hn
    rw [hcount] at hn
    cases hn

/-! The topics of a consume request stay as they are. -/

section Consume

variable {b : Broker} (os : Answers)

/-- The topics and their directories are those of `b`. -/
def SameTopics (b b' : Broker) : Prop := b'.topics = b.topics ∧ b'.topicDirs = b.topicDirs

theorem group_sameTopics (name : String) :
    Keeps (SameTopics b) (Broker.group groupFile os name) := by
  unfold Broker.group
  refine keeps_read fun b' => ?_
  cases b'.groups.lookup name with
  | some g => exact keeps_pure g
  | none =>
    exact keeps_bind (keeps_when (keeps_raise _)) fun _ =>
      keeps_bind (keeps_update fun _ h => h) fun _ => keeps_pure _

theorem commit_sameTopics (name topic : String) (partition offset : ℤ) :
    Keeps (SameTopics b) (Broker.commit groupFile os name topic partition offset) := by
  unfold Broker.commit
  refine keeps_bind (group_sameTopics os name) fun g => ?_
  split_ifs
  · exact keeps_pure ()
  · exact keeps_bind (keeps_update fun _ h => h) fun _ =>
      keeps_bind (keeps_when (keeps_raise _)) fun _ => keeps_update fun _ h => h

theorem consume_sameTopics (rq : ConsumeRequest) :
    Keeps (SameTopics b) (Broker.consume groupFile os rq) := by
  have hvalue : ∀ {α : Type} (x : Except String α), Keeps (SameTopics b) (orValueError x) := by
    rintro α (e | a)
    · exact keeps_raise _
    · exact keeps_pure a
  unfold Broker.consume
  refine keeps_bind (hvalue _) fun partition => keeps_bind (hvalue _) fun limit => ?_
  unfold Broker.consumeFrom
  refine keeps_bind ?_ fun after => keeps_read fun b' => keeps_bind ?_ fun msgs =>
    keeps_bind ?_ fun _ => keeps_pure msgs
  · unfold Broker.afterOffset
    split_ifs
    · exact keeps_pure _
    · exact keeps_bind (group_sameTopics os _) fun _ => keeps_pure _
  · cases b'.fetch rq.topic partition after limit with
    | error e => exact keeps_raise e
    | ok msgs => exact keeps_pure msgs
  · unfold Broker.commitLast
    cases msgs.getLast? with
    | none => exact keeps_pure ()
    | some m => exact keeps_when (commit_sameTopics os _ _ _ _)

end Consume

theorem Stores.congr {b b' : Broker} {f : String → ℕ → AbstractLog} (h : Stores b f)
    (hsame : SameTopics b b') : Stores b' f := by
  obtain ⟨h1, h2⟩ := hsame
  refine ⟨?_, ?_, ?_⟩
  · intro t i
    unfold Broker.dirAt Broker.dirsOf
    rw [h2]
    exact h.dir t i
  · intro t i p hp
    unfold Broker.partitionAt at hp
    unfold Broker.dirAt Broker.dirsOf
    rw [h1] at hp
    rw [h2]
    exact h.part t i p hp
  · intro t n hn
    unfold Broker.dirCount
    rw [h2]
    exact h.dirs t n ((count_congr h1 t).symm.trans hn)

theorem SameTopics.count {b b' : Broker} (h : SameTopics b b') (t : String) :
    b'.count t = b.count t := count_congr h.1 t

theorem SameTopics.dirCount {b b' : Broker} (h : SameTopics b b') (t : String) :
    b'.dirCount t = b.dirCount t := by
  unfold Broker.dirCount
  rw [h.2]

/-- One more record is reported for its own partition only. -/
theorem reported_concat {produced : List Produced} {e : Produced}
    (hs : s.produced = produced ++ [e]) (t : String) (i : ℕ) :
    s.reported t i = (produced.filter fun e => decide (e.topic = t ∧ e.partition = i)) ++
      if e.topic = t ∧ e.partition = i then [e] else [] := by
  unfold History.reported
  rw [hs, List.filter_append]
  congr 1
  by_cases h : e.topic = t ∧ e.partition = i
  · simp [h]
  · simp [h]

/-- A call of `produce` that returned has the offset behind the records of its partition. -/
structure Reported (s s' : History) (e : Produced) : Prop where
  produced : s'.produced = s.produced ++ [e]
  offset : e.offset = (s.reported e.topic e.partition).length
  routed : ∃ n, s'.broker.count e.topic = some n ∧ e.partition < n ∧
    ∀ k, e.key = some k → e.partition = Broker.keyIndex k n

theorem Stored.produce (h : Stored s) (groupFile : String → String) {payload : Bytes} (hp : payload.length ≤ maxRecordBytes)
    (os : Answers) (topic : String) (key : Option String) (timestamp : Option ℤ) (now : ℤ)
    {s' : History} (hs' : s' = s.next groupFile (.produce os topic payload key timestamp now)) :
    Stored s' ∧ Extends topic s.broker s'.broker ∧ s'.answers = s.answers ∧
      (s'.produced = s.produced ∨ ∃ e, e.topic = topic ∧ Reported s s' e) := by
  obtain ⟨b', r, hrun, hext, hcase⟩ :=
    h.stores.produce h.pos hp os topic key timestamp now
  have hs : s' = { s with
      broker := b'
      produced := History.addReport s.produced payload key (timestamp.getD now) r } := by
    rw [hs', History.next, hrun]
  subst hs
  have hpos : ∀ t n, b'.count t = some n → 0 < n := fun t n hn => hext.pos h.pos hn
  rcases hcase with ⟨e, rfl, h'⟩ | ⟨i, n, rfl, h', hn, hi, hkey⟩
  · exact ⟨⟨h', h.offsets, hpos⟩, hext, rfl, .inl rfl⟩
  · refine ⟨⟨?_, ?_, hpos⟩, hext, rfl, .inr ⟨⟨topic, key, timestamp.getD now, payload, i,
      (s.records topic i).next⟩, rfl, rfl, ?_, n, hn, hi, hkey⟩⟩
    · convert h' using 1
      funext t j
      unfold History.records written
      rw [reported_concat rfl]
      by_cases hc : t = topic ∧ j = i
      · obtain ⟨rfl, rfl⟩ := hc
        simp [AbstractLog.append, History.reported]
      · rw [if_neg hc, if_neg (fun hc' => hc ⟨hc'.1.symm, hc'.2.symm⟩), List.append_nil]
        rfl
    · intro t j
      rw [reported_concat rfl]
      by_cases hc : topic = t ∧ i = j
      · obtain ⟨rfl, rfl⟩ := hc
        rw [if_pos ⟨rfl, rfl⟩, List.map_append, List.length_append, List.length_singleton,
          List.range_succ]
        exact congrArg₂ _ (h.offsets topic i) (by simp [History.records, AbstractLog.next, History.reported])
      · rw [if_neg hc, List.append_nil]
        exact h.offsets t j
    · simp [History.records, AbstractLog.next]

theorem Stored.createTopic (h : Stored s) (os : Answers) (name : String) (numPartitions : Option ℤ) :
    ∃ b' r, Broker.createTopic os name numPartitions s.broker = ⟨b', [], r⟩ ∧
      Stored { s with broker := b' } ∧ Extends name s.broker b' := by
  cases hc : s.broker.count name with
  | none =>
    rcases h.stores.createTopic hc os numPartitions with ⟨e, hrun⟩ | ⟨b', n, hrun, h', hext, -, -⟩
    · exact ⟨s.broker, _, hrun, h, Extends.refl name s.broker⟩
    · exact ⟨b', _, hrun, ⟨h', h.offsets, fun t n hn => hext.pos h.pos hn⟩, hext⟩
  | some n =>
    obtain ⟨parts, hparts, -⟩ := Option.map_eq_some_iff.mp hc
    refine ⟨s.broker, .error (.valueError ("topic exists: " ++ name)), ?_, h,
      Extends.refl name s.broker⟩
    unfold Broker.createTopic
    rw [read_bind, if_pos (by rw [hparts]; rfl)]
    rfl

theorem Stored.consume (h : Stored s) (groupFile : String → String) (os : Answers) (rq : ConsumeRequest) :
    SameTopics s.broker (s.next groupFile (.consume os rq)).broker ∧
      Stored (s.next groupFile (.consume os rq)) := by
  have hsame : SameTopics s.broker (s.next groupFile (.consume os rq)).broker :=
    consume_sameTopics os rq s.broker ⟨rfl, rfl⟩
  refine ⟨hsame, h.stores.congr hsame, h.offsets, ?_⟩
  intro t n hn
  rw [hsame.count] at hn
  exact h.pos t n hn

theorem Stored.reopen (h : Stored s) (groupFile : String → String) (config : Config) {listing : List (String × ℕ)}
    (hl : (listing.map Prod.fst).Nodup) :
    ∃ b', s.broker.reopen config listing = ⟨b', [], .ok ()⟩ ∧
      s.next groupFile (.reopen config listing) = { s with broker := b' } ∧
      Stored { s with broker := b' } ∧ b'.groups = ∅ ∧ b'.groupFiles = s.broker.groupFiles ∧
      (∀ t, (∀ n, (t, n) ∈ listing → n = 0) →
        b'.count t = none ∧ b'.dirCount t = s.broker.dirCount t) ∧
      (∀ t n, (t, n) ∈ listing → 0 < n → b'.count t = some n ∧
        b'.dirCount t = some (max n ((s.broker.dirCount t).getD 0))) := by
  obtain ⟨b', hrun, h', hg, hgf, hother, hin⟩ := reopen_stores h.stores.dir config hl
  refine ⟨b', hrun, ?_, ⟨h', h.offsets, ?_⟩, hg, hgf, hother, hin⟩
  · rw [History.next, hrun]
  · intro t n hn
    by_cases hex : ∀ n, (t, n) ∈ listing → n = 0
    · have hnone := (hother t hex).1
      rw [hnone] at hn
      cases hn
    · simp only [not_forall] at hex
      obtain ⟨m, hm, hm0⟩ := hex
      have hsome := (hin t m hm (Nat.pos_of_ne_zero hm0)).1
      rw [hsome] at hn
      obtain rfl := Option.some.inj hn
      exact Nat.pos_of_ne_zero hm0

theorem stored_step (h : Stored s) {e : Event} (he : e.Valid s) : Stored (s.next groupFile e) := by
  cases e with
  | produce os topic payload key timestamp now =>
    exact (h.produce groupFile he os topic key timestamp now rfl).1
  | consume os rq => exact (h.consume groupFile os rq).2
  | reopen config listing =>
    obtain ⟨b', -, hnext, h', -⟩ := h.reopen groupFile config he
    rw [hnext]
    exact h'

theorem stored_of_reach {config : Config}
    (h : Reach (History.next groupFile) Event.Valid (History.init config) s) : Stored s :=
  h.inv Stored (stored_init config) fun _ _ _ hs he => stored_step hs he

/-- The log of a partition, as the calls reported it. -/
theorem Stored.records_eq (h : Stored s) (t : String) (i : ℕ) :
    Log.records 0 (s.records t i).items = (s.reported t i).map Produced.record := by
  refine List.ext_getElem? fun k => ?_
  have hoff := congrArg (fun l => l[k]?) (h.offsets t i)
  simp only [List.getElem?_map] at hoff
  unfold History.records
  rw [getElem?_records, List.getElem?_map, List.getElem?_map]
  cases hk : (s.reported t i)[k]? with
  | none => rfl
  | some e =>
    obtain ⟨hlt, -⟩ := List.getElem?_eq_some_iff.mp hk
    rw [hk, List.getElem?_range hlt] at hoff
    have hoff' : e.offset = k := by simpa using hoff
    simp [Produced.record, hoff']

/-- Reading behind the first `m` records returns the next ones. -/
theorem Stored.readAfter (h : Stored s) {t : String} {i : ℕ} {p : Partition}
    (hp : s.broker.partitionAt t i = some p) {m : ℕ} (hm : m ≤ (s.reported t i).length)
    (limit : ℤ) : Partition.readAfter p ((m : ℤ) - 1) limit =
      (((s.reported t i).map Produced.record).drop m).take limit.toNat := by
  obtain ⟨htracks, -⟩ := h.stores.part t i p hp
  have hread := htracks.observes.readRange limit.toNat m
  have hstart : (if 0 ≤ (m : ℤ) - 1 then (m : ℤ) - 1 + 1 else 0) =
      (((s.records t i).first + m : ℕ) : ℤ) := by
    unfold History.records
    split_ifs <;> push_cast <;> omega
  unfold Partition.readAfter
  rw [hstart, hread, ← h.records_eq, records_drop _ _ (by simpa [History.records] using hm)]
  rfl

/-! ### Topics with names of directory entries -/

/-- A name that `os.listdir` gives back: not empty, no path separator, not `.` or `..`. -/
def IsEntry (name : String) : Prop :=
  name ≠ "" ∧ '/' ∉ name.toList ∧ name ≠ "." ∧ name ≠ ".."

instance (name : String) : Decidable (IsEntry name) := inferInstanceAs (Decidable (_ ∧ _))

/-- The listing of the topic directories as they are. -/
structure Lists (b : Broker) (listing : List (String × ℕ)) : Prop where
  nodup : (listing.map Prod.fst).Nodup
  mem_iff : ∀ t n, (t, n) ∈ listing ↔ IsEntry t ∧ b.dirCount t = some n

/-- Topics have names of directory entries, and a restart finds the directories there are. -/
def Event.Ordinary (s : History) : Event → Prop
  | .produce _ topic payload _ _ _ => IsEntry topic ∧ payload.length ≤ maxRecordBytes
  | .consume _ _ => True
  | .reopen _ listing => Lists s.broker listing

/-- Every topic on disk is open, with all its partitions. -/
structure Complete (s : History) : Prop where
  counts : ∀ t, s.broker.dirCount t = s.broker.count t
  entry : ∀ t n, s.broker.count t = some n → IsEntry t
  routed : ∀ e ∈ s.produced, ∃ n, s.broker.count e.topic = some n ∧ e.partition < n ∧
    ∀ k, e.key = some k → e.partition = Broker.keyIndex k n

theorem Event.Ordinary.valid {e : Event} (h : e.Ordinary s) : e.Valid s := by
  cases e with
  | produce os topic payload key timestamp now => exact h.2
  | consume os rq => trivial
  | reopen config listing => exact h.nodup

/-- Open topics keep their number of partitions, so the records stay where they were routed. -/
theorem Complete.routed_mono (h : Complete s) {b' : Broker}
    (hcount : ∀ t n, s.broker.count t = some n → b'.count t = some n) :
    ∀ e ∈ s.produced, ∃ n, b'.count e.topic = some n ∧ e.partition < n ∧
      ∀ k, e.key = some k → e.partition = Broker.keyIndex k n := by
  intro e he
  obtain ⟨n, hn, hlt, hkey⟩ := h.routed e he
  exact ⟨n, hcount _ _ hn, hlt, hkey⟩

/-- Opening one more topic. -/
theorem Complete.extends (h : Complete s) {topic : String} (hentry : IsEntry topic) {b' : Broker}
    (hext : Extends topic s.broker b') :
    (∀ t, b'.dirCount t = b'.count t) ∧ ∀ t n, b'.count t = some n → IsEntry t := by
  constructor
  · intro t
    by_cases ht : t = topic
    · subst ht
      cases hc : s.broker.count t with
      | some n =>
        obtain ⟨h1, h2⟩ := hext.same n hc
        rw [h1, h2, h.counts, hc]
      | none =>
        rcases hext.fresh hc with ⟨h1, h2⟩ | ⟨n, -, h1, h2⟩
        · rw [h1, h2, h.counts, hc]
        · rw [h1, h2, h.counts, hc]
          simp
    · obtain ⟨h1, h2⟩ := hext.other t ht
      rw [h1, h2, h.counts]
  · intro t n hn
    by_cases ht : t = topic
    · rw [ht]
      exact hentry
    · rw [(hext.other t ht).1] at hn
      exact h.entry t n hn

/-- After a restart every topic has as many partitions as it had. -/
theorem Complete.reopen (hst : Stored s) (h : Complete s) (groupFile : String → String)
    (config : Config) {listing : List (String × ℕ)} (hl : Lists s.broker listing) :
    ∃ b', s.broker.reopen config listing = ⟨b', [], .ok ()⟩ ∧
      s.next groupFile (.reopen config listing) = { s with broker := b' } ∧
      Stored { s with broker := b' } ∧ Complete { s with broker := b' } ∧
      ∀ t, b'.count t = s.broker.count t := by
  obtain ⟨b', hrun, hnext, h', -, -, hother, hin⟩ := hst.reopen groupFile config hl.nodup
  have hcount : ∀ t, b'.count t = s.broker.count t ∧ b'.dirCount t = s.broker.dirCount t := by
    intro t
    cases hc : s.broker.count t with
    | none =>
      have hdir := h.counts t
      rw [hc] at hdir
      refine hother t fun n hn => ?_
      rw [hl.mem_iff, hdir] at hn
      cases hn.2
    | some n =>
      have hdir := h.counts t
      rw [hc] at hdir
      have hmem : (t, n) ∈ listing := (hl.mem_iff t n).mpr ⟨h.entry t n hc, hdir⟩
      obtain ⟨h1, h2⟩ := hin t n hmem (hst.pos t n hc)
      refine ⟨h1, h2.trans ?_⟩
      rw [hdir]
      simp
  refine ⟨b', hrun, hnext, h', ⟨?_, ?_, ?_⟩, fun t => (hcount t).1⟩
  · intro t
    show b'.dirCount t = b'.count t
    rw [(hcount t).1, (hcount t).2, h.counts]
  · intro t n hn
    have hn' : b'.count t = some n := hn
    rw [(hcount t).1] at hn'
    exact h.entry t n hn'
  · exact h.routed_mono fun t n hn => by rw [(hcount t).1, hn]

theorem complete_step (hst : Stored s) (h : Complete s) {e : Event} (he : e.Ordinary s) :
    Complete (s.next groupFile e) := by
  cases e with
  | produce os topic payload key timestamp now =>
    obtain ⟨hentry, hp⟩ := he
    obtain ⟨-, hext, -, hcase⟩ := hst.produce groupFile hp os topic key timestamp now
      rfl
    obtain ⟨hcounts, hentries⟩ := h.extends hentry hext
    refine ⟨hcounts, hentries, ?_⟩
    have hold := h.routed_mono fun t n hn => hext.count hn
    rcases hcase with hsame | ⟨e, -, hrep⟩
    · rw [hsame]
      exact hold
    · rw [hrep.produced]
      intro e' he'
      rcases List.mem_append.mp he' with he' | he'
      · exact hold e' he'
      · rw [List.mem_singleton.mp he']
        exact hrep.routed
  | consume os rq =>
    obtain ⟨hsame, -⟩ := hst.consume groupFile os rq
    refine ⟨?_, ?_, h.routed_mono fun t n hn => by rw [hsame.count, hn]⟩
    · intro t
      rw [hsame.count, hsame.dirCount, h.counts]
    · intro t n hn
      rw [hsame.count] at hn
      exact h.entry t n hn
  | reopen config listing =>
    obtain ⟨b', -, hnext, -, h', -⟩ := h.reopen hst groupFile config he
    rw [hnext]
    exact h'

/-- No record is lost, moved, repeated or out of order. -/
structure History.Kept (s : History) : Prop where
  /-- Reading a partition from its start returns the records whose call reported it. -/
  read : ∀ t i p, s.broker.partitionAt t i = some p → ∀ limit,
    Partition.readAfter p (-1) limit = ((s.reported t i).map Produced.record).take limit.toNat
  /-- The calls reported the offsets `0`, `1`, …. -/
  offsets : ∀ t i, (s.reported t i).map Produced.offset = List.range (s.reported t i).length
  /-- The partition a call reported is there. -/
  placed : ∀ e ∈ s.produced, ∃ p, s.broker.partitionAt e.topic e.partition = some p
  /-- All records of a key of a topic are in one partition. -/
  keyed : ∀ e ∈ s.produced, ∀ e' ∈ s.produced, ∀ k, e.key = some k → e'.key = some k →
    e.topic = e'.topic → e.partition = e'.partition
  /-- The broker can be opened again, with any configuration. -/
  reopens : ∀ config listing, Lists s.broker listing →
    ∃ b', s.broker.reopen config listing = ⟨b', [], .ok ()⟩

theorem complete_of_reach {config : Config}
    (h : Reach (History.next groupFile) Event.Ordinary (History.init config) s) :
    Stored s ∧ Complete s := by
  refine h.inv (fun s => Stored s ∧ Complete s) ⟨stored_init config, ?_, ?_, ?_⟩ ?_
  · intro t
    rw [init_broker]
    rfl
  · intro t n hn
    rw [init_broker] at hn
    cases hn
  · intro e he
    cases he
  · rintro s e - ⟨hs, hc⟩ he
    exact ⟨stored_step hs he.valid, complete_step hs hc he⟩

/-- Through every sequence of `produce` calls, consume requests and restarts, every partition reads
as the records whose call reported it, and a key stays in its partition. -/
theorem produce_keeps_every_record {config : Config}
    (h : Reach (History.next groupFile) Event.Ordinary (History.init config) s) : s.Kept := by
  obtain ⟨hst, hc⟩ := complete_of_reach h
  refine ⟨fun t i p hp limit => hst.readAfter hp (Nat.zero_le _) limit, hst.offsets, ?_, ?_, ?_⟩
  · intro e he
    obtain ⟨n, hn, hlt, -⟩ := hc.routed e he
    exact partitionAt_isSome hn hlt
  · intro e he e' he' k hk hk' ht
    obtain ⟨n, hn, -, hkey⟩ := hc.routed e he
    obtain ⟨n', hn', -, hkey'⟩ := hc.routed e' he'
    rw [ht, hn'] at hn
    obtain rfl := Option.some.inj hn
    rw [hkey k hk, hkey' k hk']
  · intro config listing hl
    obtain ⟨b', hrun, -⟩ := hst.reopen id config hl.nodup
    exact ⟨b', hrun⟩

/-- One keyed record. -/
def oneRecord : History := (History.init {}).next id (.produce {} "t" [65] (some "k") (some 0) 0)

theorem oneRecord_lists : Lists oneRecord.broker [("t", 3)] := by
  have hp : ([65] : Bytes).length ≤ maxRecordBytes := by decide
  obtain ⟨-, hext, -⟩ := (stored_init {}).produce id hp {} "t" (some "k") (some 0) 0 rfl
  have hdir : oneRecord.broker.dirCount "t" = some 3 := by decide +kernel
  refine ⟨by simp, ?_⟩
  intro t n
  by_cases ht : t = "t"
  · rw [ht, hdir]
    simp [show IsEntry "t" by decide, eq_comm]
  · have hother : oneRecord.broker.dirCount t = none := by
      refine (hext.other t ht).2.trans ?_
      rw [init_broker]
      rfl
    rw [hother]
    simp [ht]

/-- A restart with other settings keeps the record and its partition. -/
theorem produce_keeps_one_record :
    (oneRecord.next id (.reopen { defaultPartitions := 5 } [("t", 3)])).Kept :=
  produce_keeps_every_record (.step (.step .refl ⟨by decide, by decide⟩) oneRecord_lists)

end Pylog.Topics
