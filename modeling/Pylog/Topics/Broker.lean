import Mathlib.Data.List.AList
import Pylog.Base.Utf8
import Pylog.Log.CommitLog

/-!
# Pylog.Topics.Broker — topics, partitions and consumer groups (broker.py)

The state is the object together with what it keeps on disk: the directories `p0`, `p1`, … of every
topic and the JSON files of the groups.  A dictionary is a finite map; a JSON file of one is that
map, since JSON reads back what it wrote.  A topic's directories go by its name, so two names that
lead to one directory (`a` and `./a`) are not related here (`Pylog.Topics.Site` has the paths);
`groupFile` is the file a group's path leads to.
-/

namespace Pylog.Topics

open Effect Effect.Handler Log

abbrev Dict (α : Type) := AList fun _ : String => α

/-- What the methods of the broker can raise. -/
inductive BrokerError
  | valueError (message : String)
  | keyError (message : String)
  /-- A call of the operating system fails. -/
  | osError
  | log (e : LogError)
  deriving DecidableEq, Repr

/-! ### `Partition` -/

abbrev Partition := CommitLog

namespace Partition

def highWatermark (p : Partition) : ℕ := p.nextOffset

/-- `append`; the log does not ask the clock, since it is given a timestamp. -/
def append (payload : Bytes) (timestamp : ℤ) : LogM ℕ :=
  CommitLog.append payload (some timestamp) timestamp

/-- `read_after`; its loop is the one of `read_range`. -/
def readAfter (p : Partition) (offset limit : ℤ) : List Record :=
  CommitLog.readRange p (if 0 ≤ offset then offset + 1 else 0) limit.toNat

/-- `segments[expired_through]`; the active segment is never looked at. -/
def expiredThrough (p : Partition) (nowMs : ℤ) (maxAgeMs : Option ℤ) : Option Segment :=
  (p.segments.dropLast.takeWhile fun seg =>
    match maxAgeMs with
    | none => false
    | some age => decide (age < nowMs - seg.maxTimestamp)).getLast?

def sweepAge (nowMs : ℤ) (maxAgeMs : Option ℤ) : LogM ℕ := do
  let p ← read
  match expiredThrough p nowMs maxAgeMs with
  | some seg => CommitLog.truncateSegmentsBefore (seg.baseOffset + 1)
  | none => pure 0

/-- The loop over the size; every round removes a segment, so their number is enough fuel. -/
def sweepBytes (maxTotalBytes : ℤ) : ℕ → LogM ℕ
  | 0 => pure 0
  | fuel + 1 => do
    let p ← read
    match p.segments with
    | _ :: second :: _ =>
      if (((p.segments.map Segment.size).sum : ℕ) : ℤ) ≤ maxTotalBytes then pure 0
      else do
        let _ ← CommitLog.truncateSegmentsBefore (second.baseOffset + 1)
        let removed ← sweepBytes maxTotalBytes fuel
        pure (removed + 1)
    | _ => pure 0

def sweepTotal (maxTotalBytes : Option ℤ) : LogM ℕ := do
  let p ← read
  match maxTotalBytes with
  | none => pure 0
  | some n => sweepBytes n p.segments.length

def retentionSweep (nowMs : ℤ) (maxAgeMs maxTotalBytes : Option ℤ) : LogM ℕ := do
  let aged ← sweepAge nowMs maxAgeMs
  let swept ← sweepTotal maxTotalBytes
  pure (aged + swept)

end Partition

/-! ### `ConsumerGroup` and `Broker` -/

/-- The key `f"{topic}/{partition}"`. -/
def offsetKey (topic : String) (partition : ℤ) : String := topic ++ "/" ++ partition.repr

structure ConsumerGroup where
  name : String
  path : String
  offsets : Dict ℤ

/-- `offsets.get(f"{topic}/{partition}", -1)`. -/
def committedIn (offsets : Dict ℤ) (topic : String) (partition : ℤ) : ℤ :=
  (offsets.lookup (offsetKey topic partition)).getD (-1)

def ConsumerGroup.committed (g : ConsumerGroup) (topic : String) (partition : ℤ) : ℤ :=
  committedIn g.offsets topic partition

structure Config where
  defaultPartitions : ℤ := 3
  maxSegmentBytes : ℤ := 128 * 1024 * 1024
  indexIntervalBytes : ℤ := 4096
  retentionMaxAgeMs : Option ℤ := none
  retentionMaxPartitionBytes : Option ℤ := none
  deriving DecidableEq, Repr

/-- The fields of a `Broker`, and what is on disk. -/
structure Broker where
  config : Config
  topics : Dict (List Partition) := ∅
  groups : Dict ConsumerGroup := ∅
  rr : ℕ := 0
  topicDirs : Dict (List Folder) := ∅
  groupFiles : Dict (Dict ℤ) := ∅

/-- What the operating system answers during a call. -/
structure Answers where
  /-- The directory of a new topic can be made. -/
  makes : Bool := true
  /-- The file of a group, if there is one, can be loaded. -/
  loads : Bool := true
  /-- No write of a group's file fails. -/
  writes : Bool := true
  deriving DecidableEq, Repr

abbrev BrokerM (α : Type) := Handler Broker Empty BrokerError α

/-- The dictionary `produce` returns. -/
structure Report where
  topic : String
  partition : ℕ
  offset : ℕ
  deriving DecidableEq, Repr

/-- A message as `fetch` returns it. -/
structure Message where
  offset : ℕ
  timestamp : ℤ
  payload : String
  deriving DecidableEq, Repr

def Message.ofRecord (r : Record) : Message := ⟨r.offset, r.timestamp, Utf8.decode r.payload⟩

namespace Broker

/-- The directories of a topic. -/
def dirsOf (b : Broker) (topic : String) : List Folder := (b.topicDirs.lookup topic).getD []

/-- `topics[topic][i]`. -/
def partitionAt (b : Broker) (topic : String) (i : ℕ) : Option Partition :=
  (b.topics.lookup topic).bind fun parts => parts[i]?

/-- `Partition(os.path.join(topics_dir, name, f"p{i}"), …)`; the directory is there afterwards. -/
def openPartition (name : String) (i : ℕ) : BrokerM Partition := fun b =>
  let dirs := b.dirsOf name
  let r := CommitLog.openAt b.config.maxSegmentBytes.toNat b.config.indexIntervalBytes.toNat
    (dirs[i]?.getD {})
  let b' := { b with
    topicDirs := b.topicDirs.insert name (dirs.take i ++ r.state.folder :: dirs.drop (i + 1)) }
  match r.result with
  | .ok _ => ⟨b', [], .ok r.state⟩
  | .error e => ⟨b', [], .error (.log e)⟩

def openPartitions (name : String) : List ℕ → BrokerM (List Partition)
  | [] => pure []
  | i :: is => do
    let p ← openPartition name i
    let ps ← openPartitions name is
    pure (p :: ps)

def openTopic (name : String) (numPartitions : ℕ) : BrokerM Unit := do
  let parts ← openPartitions name (List.range numPartitions)
  update fun b => { b with topics := b.topics.insert name parts }

/-- `Broker(data_dir, …)`: `listing` is what `os.listdir` finds in `topics_dir`, each directory with
the number of its entries that start with `p`. -/
def start (config : Config) (listing : List (String × ℕ)) (topicDirs : Dict (List Folder))
    (groupFiles : Dict (Dict ℤ)) : Outcome Broker Empty BrokerError Unit :=
  each (fun e : String × ℕ => when (0 < e.2) (openTopic e.1 e.2))
    (listing.mergeSort fun a b => decide (a.1 ≤ b.1)) { config, topicDirs, groupFiles }

/-- A new broker on the same `data_dir`. -/
def reopen (b : Broker) (config : Config) (listing : List (String × ℕ)) :
    Outcome Broker Empty BrokerError Unit :=
  start config listing b.topicDirs b.groupFiles

/-- `num_partitions or self.default_partitions`. -/
def partitionCount (b : Broker) (numPartitions : Option ℤ) : ℤ :=
  match numPartitions with
  | some n => if n = 0 then b.config.defaultPartitions else n
  | none => b.config.defaultPartitions

def createTopic (os : Answers) (name : String) (numPartitions : Option ℤ) : BrokerM Unit := do
  let b ← read
  let n := b.partitionCount numPartitions
  if (b.topics.lookup name).isSome then raise (.valueError ("topic exists: " ++ name))
  else if n < 1 then raise (.valueError "num_partitions must be >= 1")
  else do
    when (os.makes = false) (raise .osError)
    openTopic name n.toNat

/-- A method of `topics[topic][i]`; its file operations reach the directory. -/
def onPartition {α : Type} (topic : String) (i : ℕ) (x : LogM α) : BrokerM α := fun b =>
  match b.partitionAt topic i with
  | none => ⟨b, [], .error (.log .indexError)⟩
  | some p =>
    let r := x p
    ⟨{ b with
        topics := b.topics.insert topic (((b.topics.lookup topic).getD []).set i r.state)
        topicDirs := b.topicDirs.insert topic ((b.dirsOf topic).set i r.state.folder) }, [],
      r.result.mapError .log⟩

/-- `zlib.crc32(key.encode("utf-8")) % len(parts)`. -/
def keyIndex (key : String) (count : ℕ) : ℕ := (crc32 (Utf8.encode key)).toNat % count

/-- The partition of a record: by its key, else round robin. -/
def route (key : Option String) (count : ℕ) : BrokerM ℕ := do
  let b ← read
  match key with
  | some k => pure (keyIndex k count)
  | none => do
    update fun b => { b with rr := b.rr + 1 }
    pure (b.rr % count)

def produce (os : Answers) (topic : String) (payload : Bytes) (key : Option String)
    (timestamp : Option ℤ) (now : ℤ) : BrokerM Report := do
  let b ← read
  when (b.topics.lookup topic = none) (createTopic os topic none)
  let b ← read
  let idx ← route key ((b.topics.lookup topic).getD []).length
  let offset ← onPartition topic idx (Partition.append payload (timestamp.getD now))
  pure ⟨topic, idx, offset⟩

/-- `fetch`; it changes nothing. -/
def fetch (b : Broker) (topic : String) (partition afterOffset limit : ℤ) :
    Except BrokerError (List Message) :=
  match (if 0 ≤ partition then b.partitionAt topic partition.toNat else none) with
  | none => .error (.keyError
      ("no such topic/partition: " ++ topic ++ "[" ++ partition.repr ++ "]"))
  | some p => .ok ((Partition.readAfter p afterOffset limit).map Message.ofRecord)

/-- `group`: a group is loaded from its file when it is first asked for. -/
def group (groupFile : String → String) (os : Answers) (name : String) : BrokerM ConsumerGroup := do
  let b ← read
  match b.groups.lookup name with
  | some g => pure g
  | none => do
    when (os.loads = false) (raise .osError)
    let path := groupFile name
    let g : ConsumerGroup := ⟨name, path, (b.groupFiles.lookup path).getD ∅⟩
    update fun b => { b with groups := b.groups.insert name g }
    pure g

/-- `commit` of the broker and of the group. -/
def commit (groupFile : String → String) (os : Answers) (name topic : String)
    (partition offset : ℤ) : BrokerM Unit := do
  let g ← group groupFile os name
  if offset < g.committed topic partition then pure ()
  else do
    let offsets := g.offsets.insert (offsetKey topic partition) offset
    -- the object changes before the file
    update fun b => { b with groups := b.groups.insert name { g with offsets := offsets } }
    when (os.writes = false) (raise .osError)
    update fun b => { b with groupFiles := b.groupFiles.insert g.path offsets }

/-- `lag`; a negative index counts from the end of the list. -/
def lag (groupFile : String → String) (os : Answers) (name topic : String) (partition : ℤ) :
    BrokerM ℤ := do
  let b ← read
  match b.topics.lookup topic with
  | none => pure 0
  | some parts =>
    let i := if partition < 0 then partition + parts.length else partition
    match (if 0 ≤ i then parts[i.toNat]? else none) with
    | none => raise (.log .indexError)
    | some p => do
      let g ← group groupFile os name
      pure (max 0 ((Partition.highWatermark p : ℤ) - 1 - g.committed topic partition))

end Broker

end Pylog.Topics
