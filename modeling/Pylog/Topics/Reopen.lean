import Pylog.Log.Accepted
import Pylog.Topics.Directories

/-!
# Reopening a broker, for every topic name

A `Ledger` is a broker over paths with the records whose `produce` call returned.  `Restores`: a new
broker on the same `data_dir` has the same topics, with as many partitions and the same records.

A topic is found again by the names in `topics_dir`, so it has to have one of them
(`Restored.isEntry`); with such names the broker runs in lockstep with the one over named
directories, which a restart restores.  `reopen_restores_iff` puts both together.
-/

namespace Pylog.Topics

open Effect Effect.Handler Log Paths Transition

inductive TopicCall
  | createTopic (os : Answers) (name : String) (numPartitions : Option ℤ)
  | produce (os : Answers) (topic : String) (payload : Bytes) (key : Option String)
      (timestamp : Option ℤ) (now : ℤ)

structure Ledger where
  site : Site
  produced : List Produced := []

namespace Ledger

/-- A new broker, once `topics_dir` is made. -/
def init (config : Config) (topicsDir : Place) (disk : DirTree Folder) : Ledger :=
  { site := (Site.start config topicsDir disk).state }

def next (l : Ledger) : TopicCall → Ledger
  | .createTopic os name numPartitions =>
    { l with site := (Site.createTopic os name numPartitions l.site).state }
  | .produce os topic payload key timestamp now =>
    let r := Site.produce os topic payload key timestamp now l.site
    ⟨r.state, History.addReport l.produced payload key (timestamp.getD now) r.result⟩

/-- The call returns normally. -/
def Returns (l : Ledger) : TopicCall → Prop
  | .createTopic os name numPartitions =>
    (Site.createTopic os name numPartitions l.site).result.isOk
  | .produce os topic payload key timestamp now =>
    (Site.produce os topic payload key timestamp now l.site).result.isOk

instance (l : Ledger) : ∀ c, Decidable (l.Returns c)
  | .createTopic .. => inferInstanceAs (Decidable (_ = true))
  | .produce .. => inferInstanceAs (Decidable (_ = true))

end Ledger

/-- `s'` has the topics of `s`, and the records that were produced. -/
structure Restored (s s' : Site) (produced : List Produced) : Prop where
  /-- The same topics, each with as many partitions. -/
  count : ∀ t, s'.count t = s.count t
  watermark : ∀ t i, (s'.partitionAt t i).map Partition.highWatermark =
    (s.partitionAt t i).map Partition.highWatermark
  /-- Every offset reads as before. -/
  read : ∀ t i (o : ℤ), (s'.partitionAt t i).bind (fun p => p.read o) =
    (s.partitionAt t i).bind fun p => p.read o
  /-- Every record is where its call reported it. -/
  kept : ∀ e ∈ produced, ∃ p, s'.partitionAt e.topic e.partition = some p ∧
    p.read e.offset = some e.record
  /-- Every key keeps its partition. -/
  keyed : ∀ e ∈ produced, ∀ k, e.key = some k →
    ∃ n, s'.count e.topic = some n ∧ e.partition = Broker.keyIndex k n

/-- A new broker can be opened, with any configuration, and restores the topics. -/
def Ledger.Restores (l : Ledger) : Prop :=
  ∀ config, ∃ s', l.site.reopen config = ⟨s', [], .ok ()⟩ ∧ Restored l.site s' l.produced

/-- The topic has the name of a directory entry, and `read_record` takes the payload back. -/
def TopicCall.Plain : TopicCall → Prop
  | .createTopic _ name _ => IsEntry name
  | .produce _ topic payload _ _ _ => IsEntry topic ∧ payload.length ≤ maxRecordBytes

/-! ### Open topics -/

section Open

variable {I : Dict (List Partition) → Prop} {name : String} {s s' : Site}

theorem keeps_openPartitions : ∀ is : List ℕ,
    Keeps (fun s : Site => I s.topics) (Site.openPartitions name is)
  | [] => keeps_pure _
  | i :: is => by
    refine keeps_bind (fun s h => ?_) fun p =>
      keeps_bind (keeps_openPartitions is) fun ps => keeps_pure _
    rw [s.openPartition_eq name i rfl]
    exact h

theorem keeps_openTopic (hI : ∀ d ps, I d → I (d.insert name ps)) (n : ℕ) :
    Keeps (fun s : Site => I s.topics) (Site.openTopic name n) :=
  keeps_bind (keeps_openPartitions _) fun _ => keeps_update fun _ h => hI _ _ h

theorem keeps_createTopic (hI : ∀ d ps, I d → I (d.insert name ps)) (os : Answers)
    (numPartitions : Option ℤ) :
    Keeps (fun s : Site => I s.topics) (Site.createTopic os name numPartitions) := by
  unfold Site.createTopic
  refine keeps_read fun s => ?_
  dsimp only
  split_ifs
  · exact keeps_raise _
  · exact keeps_raise _
  · exact keeps_bind (keeps_when (keeps_raise _)) fun _ => keeps_openTopic hI _

theorem keeps_onPartition (hI : ∀ d ps, I d → I (d.insert name ps)) (i : ℕ) {α : Type} (x : LogM α) :
    Keeps (fun s : Site => I s.topics) (Site.onPartition name i x) := by
  intro s h
  cases hp : s.partitionAt name i with
  | none =>
    unfold Site.onPartition
    rw [hp]
    exact h
  | some p =>
    rw [Site.onPartition_run hp]
    exact hI _ _ h

theorem keeps_route (key : Option String) (n : ℕ) :
    Keeps (fun s : Site => I s.topics) (Site.route key n) := by
  unfold Site.route
  refine keeps_read fun s => ?_
  cases key with
  | some k => exact keeps_pure _
  | none => exact keeps_bind (keeps_update fun _ h => h) fun _ => keeps_pure _

theorem keeps_produce (hI : ∀ d ps, I d → I (d.insert name ps)) (os : Answers) (payload : Bytes)
    (key : Option String) (timestamp : Option ℤ) (now : ℤ) :
    Keeps (fun s : Site => I s.topics) (Site.produce os name payload key timestamp now) := by
  unfold Site.produce
  exact keeps_read fun s => keeps_bind (keeps_when (keeps_createTopic hI os none)) fun _ =>
    keeps_read fun s' => keeps_bind (keeps_route key _) fun idx =>
      keeps_bind (keeps_onPartition hI idx _) fun _ => keeps_pure _

/-- `_open_topic` that returned has opened the topic. -/
theorem openTopic_opened {n : ℕ} {o : List Empty} (h : Site.openTopic name n s = ⟨s', o, .ok ()⟩) :
    s'.topics.lookup name ≠ none := by
  obtain ⟨s₁, o₁, parts, o₂, -, hupdate⟩ := bind_ok h
  have hs : (fun s : Site => { s with topics := s.topics.insert name parts }) s₁ = s' :=
    congrArg Outcome.state hupdate
  rw [← hs]
  dsimp only
  rw [AList.lookup_insert]
  simp

theorem createTopic_opened {os : Answers} {numPartitions : Option ℤ} {o : List Empty}
    (h : Site.createTopic os name numPartitions s = ⟨s', o, .ok ()⟩) :
    s'.topics.lookup name ≠ none := by
  unfold Site.createTopic at h
  rw [read_bind] at h
  split_ifs at h
  · cases h
  · cases h
  · obtain ⟨s₁, o₁, ⟨⟩, o₂, -, hopen⟩ := bind_ok h
    exact openTopic_opened hopen

theorem insert_opened (name t : String) (d : Dict (List Partition)) (ps : List Partition)
    (h : d.lookup t ≠ none) : (d.insert name ps).lookup t ≠ none := by
  by_cases ht : t = name
  · rw [ht, AList.lookup_insert]
    simp
  · rwa [AList.lookup_insert_ne ht]

theorem produce_opened {os : Answers} {payload : Bytes} {key : Option String} {timestamp : Option ℤ}
    {now : ℤ} {o : List Empty} {r : Report}
    (h : Site.produce os name payload key timestamp now s = ⟨s', o, .ok r⟩) :
    s'.topics.lookup name ≠ none := by
  unfold Site.produce at h
  rw [read_bind] at h
  obtain ⟨s₁, o₁, ⟨⟩, o₂, hopen, hrest⟩ := bind_ok h
  have h₁ : s₁.topics.lookup name ≠ none := by
    by_cases hnone : s.topics.lookup name = none
    · rw [when_eq_of_pos hnone] at hopen
      exact createTopic_opened hopen
    · rw [when_eq_of_neg hnone] at hopen
      obtain rfl : s = s₁ := congrArg Outcome.state hopen
      exact hnone
  -- the rest keeps the topic
  refine Keeps.run (I := fun s : Site => s.topics.lookup name ≠ none) ?_ hrest h₁
  exact keeps_read fun s' => keeps_bind (keeps_route (I := fun d => d.lookup name ≠ none) key _) fun idx =>
    keeps_bind (keeps_onPartition (I := fun d => d.lookup name ≠ none) (insert_opened name name) idx _)
      fun _ => keeps_pure _

end Open

/-! ### What a call that returned leaves -/

/-- The topic is open, and the record of a `produce` call is reported. -/
def TopicCall.Left (l : Ledger) : TopicCall → Prop
  | .createTopic _ name _ => l.site.topics.lookup name ≠ none
  | .produce _ topic payload _ _ _ =>
    l.site.topics.lookup topic ≠ none ∧ ∃ e ∈ l.produced, e.payload = payload

variable {l : Ledger}

theorem ran_of_isOk {α : Type} {r : Outcome Site Empty BrokerError α} (h : r.result.isOk) :
    ∃ a, r = ⟨r.state, r.out, .ok a⟩ := by
  cases r with
  | mk s o res =>
    cases res with
    | error e => cases h
    | ok a => exact ⟨a, rfl⟩

theorem left_next {c : TopicCall} (h : l.Returns c) : c.Left (l.next c) := by
  cases c with
  | createTopic os name numPartitions =>
    obtain ⟨⟨⟩, hrun⟩ := ran_of_isOk h
    exact createTopic_opened hrun
  | produce os topic payload key timestamp now =>
    obtain ⟨r, hrun⟩ := ran_of_isOk h
    refine ⟨produce_opened hrun, ⟨r.topic, key, timestamp.getD now, payload, r.partition, r.offset⟩, ?_,
      rfl⟩
    show _ ∈ History.addReport l.produced payload key (timestamp.getD now)
      (Site.produce os topic payload key timestamp now l.site).result
    rw [hrun]
    exact List.mem_append_right _ (List.mem_singleton_self _)

theorem left_mono (c' : TopicCall) {c : TopicCall} (h : c.Left l) : c.Left (l.next c') := by
  have hopen : ∀ t, l.site.topics.lookup t ≠ none → (l.next c').site.topics.lookup t ≠ none := by
    intro t ht
    cases c' with
    | createTopic os name numPartitions =>
      exact keeps_createTopic (I := fun d => d.lookup t ≠ none) (insert_opened name t) os
        numPartitions l.site ht
    | produce os topic payload key timestamp now =>
      exact keeps_produce (I := fun d => d.lookup t ≠ none) (insert_opened topic t) os payload key
        timestamp now l.site ht
  have hprod : l.produced ⊆ (l.next c').produced := by
    cases c' with
    | createTopic os name numPartitions => exact List.Subset.refl _
    | produce os topic payload key timestamp now =>
      show l.produced ⊆ History.addReport l.produced payload key (timestamp.getD now)
        (Site.produce os topic payload key timestamp now l.site).result
      cases (Site.produce os topic payload key timestamp now l.site).result with
      | error e => exact List.Subset.refl _
      | ok r => exact List.subset_append_left _ _
  cases c with
  | createTopic os name numPartitions => exact hopen name h
  | produce os topic payload key timestamp now =>
    obtain ⟨ht, e, he, hpay⟩ := h
    exact ⟨hopen topic ht, e, hprod he, hpay⟩

/-- Every call of a run whose calls all return. -/
theorem left_of_run : ∀ (calls : List TopicCall) {l : Ledger}, Along Ledger.next Ledger.Returns l calls →
    (∀ c : TopicCall, c.Left l → c.Left (calls.foldl Ledger.next l)) ∧
      ∀ c ∈ calls, c.Left (calls.foldl Ledger.next l)
  | [], l, _ => ⟨fun _ h => h, by simp⟩
  | c :: calls, l, h => by
    obtain ⟨hc, hrest⟩ := h
    obtain ⟨hkeep, hall⟩ := left_of_run calls hrest
    refine ⟨fun c' h' => hkeep c' (left_mono c h'), fun c' hc' => ?_⟩
    rcases List.mem_cons.mp hc' with rfl | hc'
    · exact hkeep c' (left_next hc)
    · exact hall c' hc'

/-! ### What a new broker cannot restore -/

/-- The topics of a new broker have names of directory entries. -/
theorem reopen_isEntry {s s' : Site} {config : Config} (h : s.reopen config = ⟨s', [], .ok ()⟩)
    {t : String} (ht : s'.topics.lookup t ≠ none) : IsEntry t := by
  have hkeeps : Keeps (fun s : Site => ∀ t, s.topics.lookup t ≠ none → IsEntry t)
      (each (fun name : Name => (do
        let s ← read
        when (0 < s.partitionDirs name) (Site.openTopic name.1 (s.partitionDirs name)) : SiteM Unit))
        (s.disk.listdir s.topicsDir)) := by
    refine keeps_each (fun name => keeps_read fun s => keeps_when ?_) _
    refine keeps_openTopic (I := fun d => ∀ t, d.lookup t ≠ none → IsEntry t) ?_ _
    intro d ps hd t ht
    by_cases hname : t = name.1
    · rw [hname]
      exact name.2
    · rw [AList.lookup_insert_ne hname] at ht
      exact hd t ht
  refine hkeeps.run h ?_ t ht
  intro t ht
  exact absurd rfl ht

theorem Restored.isEntry {s s' : Site} {produced : List Produced} {config : Config}
    (h : Restored s s' produced) (hrun : s.reopen config = ⟨s', [], .ok ()⟩) {t : String}
    (ht : s.topics.lookup t ≠ none) : IsEntry t := by
  refine reopen_isEntry hrun fun hnone => ht ?_
  have hcount := h.count t
  unfold Site.count at hcount
  rw [hnone] at hcount
  exact Option.map_eq_none_iff.mp hcount.symm

theorem Restored.short {s s' : Site} {produced : List Produced} (h : Restored s s' produced)
    {e : Produced} (he : e ∈ produced) : e.payload.length ≤ maxRecordBytes := by
  obtain ⟨p, -, hread⟩ := h.kept e he
  exact (CommitLog.read_fits hread).payload

/-- Calls that left what a restart restores. -/
theorem plain_of_restores (h : l.Restores) {c : TopicCall} (hc : c.Left l) : c.Plain := by
  obtain ⟨s', hrun, hres⟩ := h {}
  cases c with
  | createTopic os name numPartitions => exact hres.isEntry hrun hc
  | produce os topic payload key timestamp now =>
    obtain ⟨ht, e, he, rfl⟩ := hc
    exact ⟨hres.isEntry hrun ht, hres.short he⟩

/-! ### What a new broker restores -/

/-- The broker over named directories that runs in lockstep, with the same reports. -/
structure Ledger.Refines (l : Ledger) (b : Broker) : Prop where
  mirrors : Mirrors l.site b
  stored : Stored ⟨b, l.produced, []⟩
  complete : Complete ⟨b, l.produced, []⟩

variable {b : Broker}

theorem Ledger.Refines.step (h : l.Refines b) {c : TopicCall} (hc : c.Plain) :
    ∃ b', (l.next c).Refines b' := by
  cases c with
  | createTopic os name numPartitions =>
    obtain ⟨b', r, hrun, hst, hext⟩ := h.stored.createTopic os name numPartitions
    obtain ⟨hcounts, hentries⟩ := h.complete.extends hc hext
    obtain ⟨s', hs', hm⟩ := (h.mirrors.createTopic os ⟨name, hc⟩ numPartitions).run hrun
    refine ⟨b', ?_, hst, hcounts, hentries, h.complete.routed_mono fun t n hn => hext.count hn⟩
    show Mirrors (Site.createTopic os name numPartitions l.site).state b'
    rw [hs']
    exact hm
  | produce os topic payload key timestamp now =>
    obtain ⟨hentry, hp⟩ := hc
    obtain ⟨hst, -⟩ := h.stored.produce id hp os topic key timestamp now rfl
    have hcom : Complete (History.next id ⟨b, l.produced, []⟩
        (.produce os topic payload key timestamp now)) := complete_step h.stored h.complete ⟨hentry, hp⟩
    obtain ⟨-, hres, hm⟩ := h.mirrors.produce h.stored.stores h.stored.pos os ⟨topic, hentry⟩ payload
      key timestamp now
    have hnext : (⟨(Broker.produce os topic payload key timestamp now b).state,
        (l.next (.produce os topic payload key timestamp now)).produced, []⟩ : History) =
        History.next id ⟨b, l.produced, []⟩ (.produce os topic payload key timestamp now) := by
      show (⟨_, History.addReport l.produced payload key (timestamp.getD now)
        (Site.produce os topic payload key timestamp now l.site).result, []⟩ : History) = _
      rw [hres]
      rfl
    exact ⟨_, hm, by rw [hnext]; exact hst, by rw [hnext]; exact hcom⟩

theorem refines_run : ∀ (calls : List TopicCall) {l : Ledger} {b : Broker}, l.Refines b →
    (∀ c ∈ calls, c.Plain) → ∃ b', (calls.foldl Ledger.next l).Refines b'
  | [], l, b, h, _ => ⟨b, h⟩
  | c :: calls, l, b, h, hplain => by
    obtain ⟨b₁, h₁⟩ := h.step (hplain c List.mem_cons_self)
    exact refines_run calls h₁ fun c' hc' => hplain c' (List.mem_cons_of_mem c hc')

theorem refines_init (config : Config) {topicsDir : Place} {disk : DirTree Folder}
    (hbare : disk.Bare topicsDir {}) :
    (Ledger.init config topicsDir disk).Refines (History.init config).broker := by
  have hsite : (Ledger.init config topicsDir disk).site = { config, topicsDir, disk } := by
    unfold Ledger.init Site.start
    rw [hbare.listdir]
    rfl
  obtain ⟨hst, hcom⟩ := complete_of_reach
    (.refl : Reach (History.next id) Event.Ordinary (History.init config) (History.init config))
  refine ⟨?_, hst, hcom⟩
  rw [hsite, init_broker]
  refine ⟨rfl, rfl, rfl, fun t i => (hbare t [partitionEntry i]).2, fun t c => ?_, fun t => ?_⟩
  · exact iff_of_false (hbare t [c]).1 (by rintro ⟨i, hi, -⟩; cases hi)
  · exact iff_of_false (hbare t []).1 fun h => h rfl

/-- The partitions of a site whose topics have names of entries are those of its broker. -/
theorem Mirrors.partitions {s : Site} {f : String → ℕ → AbstractLog} (h : Mirrors s b)
    (hst : Stores b f) (hentry : ∀ t n, b.count t = some n → IsEntry t) (t : String) (i : ℕ) :
    s.partitionAt t i = b.partitionAt t i := by
  cases hc : b.count t with
  | some n => exact h.partitionAt hst ⟨t, hentry t n hc⟩ i
  | none =>
    rw [partitionAt_of_count_none hc]
    unfold Site.partitionAt
    rw [h.topics, count_eq_none.mp hc]
    rfl

theorem Mirrors.count {s : Site} (h : Mirrors s b) (t : String) : s.count t = b.count t := by
  unfold Site.count Broker.count
  rw [h.topics]

/-- A partition is there before and after, with the same records, or neither time. -/
theorem Stored.same {s : History} {b' : Broker} (h : Stored s) (h' : Stored { s with broker := b' })
    (hcount : ∀ t, b'.count t = s.broker.count t) (t : String) (i : ℕ) :
    (s.broker.partitionAt t i = none ∧ b'.partitionAt t i = none) ∨
      ∃ p p', s.broker.partitionAt t i = some p ∧ b'.partitionAt t i = some p' ∧
        Observes p (s.records t i) ∧ Observes p' (s.records t i) := by
  cases hc : s.broker.count t with
  | none =>
    exact .inl ⟨partitionAt_of_count_none hc i, partitionAt_of_count_none ((hcount t).trans hc) i⟩
  | some n =>
    have hc' : b'.count t = some n := (hcount t).trans hc
    rcases Nat.lt_or_ge i n with hi | hi
    · obtain ⟨p, hp⟩ := partitionAt_isSome hc hi
      obtain ⟨p', hp'⟩ := partitionAt_isSome hc' hi
      exact .inr ⟨p, p', hp, hp', (h.stores.part t i p hp).1.observes, (h'.stores.part t i p' hp').1.observes⟩
    · exact .inl ⟨partitionAt_of_le hc hi, partitionAt_of_le hc' hi⟩

/-- A record that was reported is read. -/
theorem Stored.read {s : History} (h : Stored s) {e : Produced} (he : e ∈ s.produced) {p : Partition}
    (hp : s.broker.partitionAt e.topic e.partition = some p) : p.read e.offset = some e.record := by
  refine read_records (h.stores.part _ _ p hp).1.observes e.record ?_
  show e.record ∈ Log.records 0 (s.records e.topic e.partition).items
  rw [h.records_eq]
  exact List.mem_map_of_mem (List.mem_filter.mpr ⟨he, by simp⟩)

theorem Ledger.Refines.restores (h : l.Refines b) : l.Restores := by
  intro config
  obtain ⟨b', hrun, -, hst', hcom', hcount⟩ :=
    h.complete.reopen h.stored id config h.mirrors.lists
  obtain ⟨s', hs', hm'⟩ := h.mirrors.reopen config hrun
  have hat := h.mirrors.partitions h.stored.stores h.complete.entry
  have hat' := hm'.partitions hst'.stores hcom'.entry
  refine ⟨s', hs', ⟨fun t => ?_, fun t i => ?_, fun t i o => ?_, fun e he => ?_, fun e he k hk => ?_⟩⟩
  · rw [hm'.count, h.mirrors.count]
    exact hcount t
  · rw [hat, hat']
    rcases h.stored.same hst' hcount t i with ⟨hp, hp'⟩ | ⟨p, p', hp, hp', ho, ho'⟩
    · rw [show b.partitionAt t i = none from hp, hp']
    · rw [show b.partitionAt t i = some p from hp, hp']
      exact congrArg some (ho'.1.trans ho.1.symm)
  · rw [hat, hat']
    rcases h.stored.same hst' hcount t i with ⟨hp, hp'⟩ | ⟨p, p', hp, hp', ho, ho'⟩
    · rw [show b.partitionAt t i = none from hp, hp']
    · rw [show b.partitionAt t i = some p from hp, hp']
      exact (ho'.2 o).trans (ho.2 o).symm
  · obtain ⟨n, hn, hi, -⟩ := hcom'.routed e he
    obtain ⟨p, hp⟩ := partitionAt_isSome hn hi
    exact ⟨p, (hat' _ _).trans hp, hst'.read he hp⟩
  · obtain ⟨n, hn, -, hkey⟩ := hcom'.routed e he
    exact ⟨n, (hm'.count _).trans hn, hkey k hk⟩

/-- After calls that all returned, a new broker on the `data_dir` restores the topics and the records
exactly if every topic has the name of a directory entry and every payload can be read back. -/
theorem reopen_restores_iff {config : Config} {topicsDir : Place} {disk : DirTree Folder}
    (hbare : disk.Bare topicsDir {}) {calls : List TopicCall}
    (hret : Along Ledger.next Ledger.Returns (Ledger.init config topicsDir disk) calls) :
    (calls.foldl Ledger.next (Ledger.init config topicsDir disk)).Restores ↔ ∀ c ∈ calls, c.Plain := by
  constructor
  · intro h c hc
    exact plain_of_restores h ((left_of_run calls hret).2 c hc)
  · intro h
    obtain ⟨b', h'⟩ := refines_run calls (refines_init config hbare) h
    exact h'.restores

/-- An empty disk. -/
def emptyDisk : DirTree Folder := ⟨∅, fun _ => {}⟩

theorem emptyDisk_bare (d : Place) : emptyDisk.Bare d {} := fun _ _ =>
  ⟨Finset.notMem_empty _, rfl⟩

/-- A topic with two partitions and a keyed record. -/
theorem reopen_restores_topic :
    ([.createTopic {} "t" (some 2), .produce {} "t" [65] (some "k") (some 0) 0].foldl Ledger.next
        (Ledger.init {} [] emptyDisk)).Restores ↔
      ∀ c ∈ [.createTopic {} "t" (some 2), .produce {} "t" [65] (some "k") (some 0) 0],
        TopicCall.Plain c :=
  reopen_restores_iff (emptyDisk_bare []) ⟨by decide +kernel, by decide +kernel, trivial⟩

/-- The topic `a/b` is in the directory `b` of the directory `a`, where no restart looks for it. -/
theorem nested_topic_lost :
    Along Ledger.next Ledger.Returns (Ledger.init {} [] emptyDisk) [.createTopic {} "a/b" none] ∧
      ¬ ([.createTopic {} "a/b" none].foldl Ledger.next (Ledger.init {} [] emptyDisk)).Restores := by
  have hret : Along Ledger.next Ledger.Returns (Ledger.init {} [] emptyDisk)
      [.createTopic {} "a/b" none] := ⟨by decide +kernel, trivial⟩
  refine ⟨hret, fun h => ?_⟩
  have hplain : IsEntry "a/b" := plain_of_restores h ((left_of_run _ hret).2 _ List.mem_cons_self)
  exact absurd hplain (by decide)

end Pylog.Topics
