import Pylog.Base.Paths
import Pylog.Topics.Runs

/-!
# Pylog.Topics.Site — where a broker keeps its topics (broker.py:110–173)

The broker of `Pylog.Topics.Broker` with the directories its paths lead to: the name of a topic is
part of a path, so it can lead into the directory of another topic or out of `topics_dir`, and two
names can lead to one directory.  What is in a directory belongs to the disk; an object is read and
written together with it.  Groups are left out.

The files of a partition have digits for names.  `os.listdir` of a partition directory also names the
directories in it, and one called like a segment (of a topic `t/p0/0.log`) is not looked at here.
-/

namespace Pylog.Topics

open Effect Effect.Handler Log Paths

/-- The fields of a `Broker`, the directory `topics_dir` leads to, and the disk. -/
structure Site where
  config : Config
  topicsDir : Place
  topics : Dict (List Partition) := ∅
  rr : ℕ := 0
  disk : DirTree Folder

abbrev SiteM (α : Type) := Handler Site Empty BrokerError α

/-- `f"p{i}"`. -/
def partitionName (i : ℕ) : String := "p" ++ i.repr

/-- `os.path.join(name, f"p{i}")`, below `topics_dir`. -/
def partitionPath (name : String) (i : ℕ) : String := join name (partitionName i)

namespace Site

def partitionDir (s : Site) (name : String) (i : ℕ) : Place :=
  resolve s.topicsDir (partitionPath name i)

/-- How many partitions of a topic are open. -/
def count (s : Site) (topic : String) : Option ℕ := (s.topics.lookup topic).map List.length

/-- `topics[topic][i]`, on the directory as it is now. -/
def partitionAt (s : Site) (topic : String) (i : ℕ) : Option Partition :=
  ((s.topics.lookup topic).bind fun parts => parts[i]?).map fun p =>
    { p with folder := s.disk.contents (s.partitionDir topic i) }

/-- `Partition(os.path.join(topics_dir, name, f"p{i}"), …)`, which makes the directory. -/
def openPartition (name : String) (i : ℕ) : SiteM Partition := fun s =>
  let dir := s.partitionDir name i
  let disk := s.disk.makedirs s.topicsDir (partitionPath name i)
  let r := CommitLog.openAt s.config.maxSegmentBytes.toNat s.config.indexIntervalBytes.toNat
    (disk.contents dir)
  let s' := { s with disk := disk.write dir r.state.folder }
  match r.result with
  | .ok _ => ⟨s', [], .ok r.state⟩
  | .error e => ⟨s', [], .error (.log e)⟩

def openPartitions (name : String) : List ℕ → SiteM (List Partition)
  | [] => pure []
  | i :: is => do
    let p ← openPartition name i
    let ps ← openPartitions name is
    pure (p :: ps)

def openTopic (name : String) (numPartitions : ℕ) : SiteM Unit := do
  let parts ← openPartitions name (List.range numPartitions)
  update fun s => { s with topics := s.topics.insert name parts }

/-- `len([d for d in os.listdir(pdir) if d.startswith("p")])`. -/
def partitionDirs (s : Site) (name : Name) : ℕ :=
  ((s.disk.children (s.topicsDir ++ [name])).filter fun d => d.1.toList.head? = some 'p').card

/-- `Broker(data_dir, …)`, once `topics_dir` is made. -/
def start (config : Config) (topicsDir : Place) (disk : DirTree Folder) :
    Outcome Site Empty BrokerError Unit :=
  each (fun name : Name => do
      let s ← read
      when (0 < s.partitionDirs name) (openTopic name.1 (s.partitionDirs name)))
    (disk.listdir topicsDir) { config, topicsDir, disk }

/-- A new broker on the same `data_dir`. -/
def reopen (s : Site) (config : Config) : Outcome Site Empty BrokerError Unit :=
  start config s.topicsDir s.disk

/-- `num_partitions or self.default_partitions`. -/
def partitionCount (s : Site) (numPartitions : Option ℤ) : ℤ :=
  match numPartitions with
  | some n => if n = 0 then s.config.defaultPartitions else n
  | none => s.config.defaultPartitions

def createTopic (os : Answers) (name : String) (numPartitions : Option ℤ) : SiteM Unit := do
  let s ← read
  let n := s.partitionCount numPartitions
  if (s.topics.lookup name).isSome then raise (.valueError ("topic exists: " ++ name))
  else if n < 1 then raise (.valueError "num_partitions must be >= 1")
  else do
    when (os.makes = false) (raise .osError)
    openTopic name n.toNat

/-- A method of `topics[topic][i]`; its file operations reach the disk. -/
def onPartition {α : Type} (topic : String) (i : ℕ) (x : LogM α) : SiteM α := fun s =>
  match s.partitionAt topic i with
  | none => ⟨s, [], .error (.log .indexError)⟩
  | some p =>
    let r := x p
    ⟨{ s with
        topics := s.topics.insert topic (((s.topics.lookup topic).getD []).set i r.state)
        disk := s.disk.write (s.partitionDir topic i) r.state.folder }, [], r.result.mapError .log⟩

/-- The partition of a record: by its key, else round robin. -/
def route (key : Option String) (count : ℕ) : SiteM ℕ := do
  let s ← read
  match key with
  | some k => pure (Broker.keyIndex k count)
  | none => do
    update fun s => { s with rr := s.rr + 1 }
    pure (s.rr % count)

def produce (os : Answers) (topic : String) (payload : Bytes) (key : Option String)
    (timestamp : Option ℤ) (now : ℤ) : SiteM Report := do
  let s ← read
  when (s.topics.lookup topic = none) (createTopic os topic none)
  let s ← read
  let idx ← route key ((s.topics.lookup topic).getD []).length
  let offset ← onPartition topic idx (Partition.append payload (timestamp.getD now))
  pure ⟨topic, idx, offset⟩

end Site

end Pylog.Topics
