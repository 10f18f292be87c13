import Pylog.Log.Crash
import Pylog.Topics.Broker

/-!
# What the broker keeps of its partitions

`Stores b f`: every partition directory of `b` opens as the records `f` says, and an open partition
holds them.  `Extends t b b'`: only the topic `t` may have been opened, and no topic has changed its
number of partitions.  Opening topics, starting on a `data_dir` and `produce` each have one lemma
about both.
-/

namespace Pylog.Log

open CommitLog

/-- With any configuration the directory opens as the records `a`. -/
def Opens (d : Folder) (a : AbstractLog) : Prop :=
  ∀ maxSegmentBytes interval, ∃ s out,
    CommitLog.openAt maxSegmentBytes interval d = ⟨s, out, .ok ()⟩ ∧ Tracks s a

theorem opens_nil : Opens {} ⟨0, []⟩ := by
  intro maxSegmentBytes interval
  obtain ⟨s, out, hrun, hl, hn, -, -⟩ := CommitLog.openAt_nil maxSegmentBytes interval
  exact ⟨s, out, hrun, CommitLog.emptyShape, hl, hn, rfl⟩

theorem Tracks.opens {s : CommitLog} {a : AbstractLog} (h : Tracks s a) : Opens s.folder a :=
  fun maxSegmentBytes interval => h.openAt maxSegmentBytes interval

end Pylog.Log

namespace Pylog.Topics

open Effect Effect.Handler Log

/-- The directory `p{i}` of a topic; one that is not there is empty when it is opened. -/
def Broker.dirAt (b : Broker) (topic : String) (i : ℕ) : Folder := (b.dirsOf topic)[i]?.getD {}

/-- How many partitions of a topic are open. -/
def Broker.count (b : Broker) (topic : String) : Option ℕ := (b.topics.lookup topic).map List.length

/-- How many partition directories a topic has. -/
def Broker.dirCount (b : Broker) (topic : String) : Option ℕ :=
  (b.topicDirs.lookup topic).map List.length

/-- The directories open as the records `f`, and so do the open partitions. -/
structure Stores (b : Broker) (f : String → ℕ → AbstractLog) : Prop where
  dir : ∀ t i, Opens (b.dirAt t i) (f t i)
  part : ∀ t i p, b.partitionAt t i = some p → Tracks p (f t i) ∧ b.dirAt t i = p.folder
  dirs : ∀ t n, b.count t = some n → ∃ m, b.dirCount t = some m ∧ n ≤ m

/-- Only `topic` may have been opened; its partitions stay as many as they are. -/
structure Extends (topic : String) (b b' : Broker) : Prop where
  config : b'.config = b.config
  groups : b'.groups = b.groups
  groupFiles : b'.groupFiles = b.groupFiles
  other : ∀ t, t ≠ topic → b'.count t = b.count t ∧ b'.dirCount t = b.dirCount t
  same : ∀ n, b.count topic = some n →
    b'.count topic = some n ∧ b'.dirCount topic = b.dirCount topic
  fresh : b.count topic = none →
    (b'.count topic = none ∧ b'.dirCount topic = b.dirCount topic) ∨
      ∃ n, 0 < n ∧ b'.count topic = some n ∧
        b'.dirCount topic = some (max n ((b.dirCount topic).getD 0))

variable {b b' : Broker} {f : String → ℕ → AbstractLog} {name topic : String}

theorem Extends.refl (topic : String) (b : Broker) : Extends topic b b :=
  ⟨rfl, rfl, rfl, fun _ _ => ⟨rfl, rfl⟩, fun _ h => ⟨h, rfl⟩, fun h => .inl ⟨h, rfl⟩⟩

theorem Extends.trans {b'' : Broker} (h : Extends topic b b') (h' : Extends topic b' b'') :
    Extends topic b b'' where
  config := h'.config.trans h.config
  groups := h'.groups.trans h.groups
  groupFiles := h'.groupFiles.trans h.groupFiles
  other := by
    intro t ht
    obtain ⟨h1, h2⟩ := h.other t ht
    obtain ⟨h3, h4⟩ := h'.other t ht
    exact ⟨h3.trans h1, h4.trans h2⟩
  same := by
    intro n hn
    obtain ⟨h1, h2⟩ := h.same n hn
    obtain ⟨h3, h4⟩ := h'.same n h1
    exact ⟨h3, h4.trans h2⟩
  fresh := by
    intro hn
    rcases h.fresh hn with ⟨h1, h2⟩ | ⟨n, hpos, h1, h2⟩
    · rw [← h2]
      exact h'.fresh h1
    · obtain ⟨h3, h4⟩ := h'.same n h1
      exact .inr ⟨n, hpos, h3, h4.trans h2⟩

/-- Topics keep their number of partitions. -/
theorem Extends.count (h : Extends topic b b') {t : String} {n : ℕ} (hn : b.count t = some n) :
    b'.count t = some n := by
  by_cases ht : t = topic
  · subst ht
    exact (h.same n hn).1
  · rw [(h.other t ht).1, hn]

/-- Open topics have partitions. -/
theorem Extends.pos (h : Extends topic b b') (hpos : ∀ t n, b.count t = some n → 0 < n) {t : String}
    {n : ℕ} (hn : b'.count t = some n) : 0 < n := by
  by_cases ht : t = topic
  · subst ht
    cases hc : b.count t with
    | some m =>
      rw [(h.same m hc).1] at hn
      obtain rfl := Option.some.inj hn
      exact hpos t m hc
    | none =>
      rcases h.fresh hc with ⟨h1, -⟩ | ⟨m, hm, h1, -⟩
      · rw [h1] at hn
        cases hn
      · rw [h1] at hn
        obtain rfl := Option.some.inj hn
        exact hm
  · rw [(h.other t ht).1] at hn
    exact hpos t n hn

theorem count_eq_none : b.count topic = none ↔ b.topics.lookup topic = none := Option.map_eq_none_iff

theorem count_of_lookup {parts : List Partition} (h : b.topics.lookup topic = some parts) :
    b.count topic = some parts.length := by
  unfold Broker.count
  rw [h]
  rfl

theorem count_congr (h : b'.topics = b.topics) (t : String) : b'.count t = b.count t := by
  unfold Broker.count
  rw [h]

theorem exists_count {i : ℕ} {p : Partition} (h : b.partitionAt topic i = some p) :
    ∃ n, b.count topic = some n ∧ i < n := by
  obtain ⟨parts, hparts, hget⟩ := Option.bind_eq_some_iff.mp h
  exact ⟨parts.length, count_of_lookup hparts, (List.getElem?_eq_some_iff.mp hget).1⟩

theorem partitionAt_of_le {n i : ℕ} (hn : b.count topic = some n) (hi : n ≤ i) :
    b.partitionAt topic i = none := by
  obtain ⟨parts, hparts, rfl⟩ := Option.map_eq_some_iff.mp hn
  unfold Broker.partitionAt
  rw [hparts]
  exact List.getElem?_eq_none hi

theorem partitionAt_isSome {n i : ℕ} (hn : b.count topic = some n) (hi : i < n) :
    ∃ p, b.partitionAt topic i = some p := by
  obtain ⟨parts, hparts, rfl⟩ := Option.map_eq_some_iff.mp hn
  exact ⟨parts[i], by unfold Broker.partitionAt; rw [hparts]; simp [hi]⟩

/-! ### Opening a topic -/

/-- A list with one place written, or one element more. -/
theorem getElem?_put {α : Type} {l : List α} {i : ℕ} (hi : i ≤ l.length) (x : α) (j : ℕ) :
    (l.take i ++ x :: l.drop (i + 1))[j]? = if j = i then some x else l[j]? := by
  have hlen : (l.take i).length = i := by
    rw [List.length_take]
    omega
  rcases Nat.lt_trichotomy j i with hj | rfl | hj
  · rw [if_neg (by omega), List.getElem?_append_left (by omega), List.getElem?_take_of_lt hj]
  · rw [if_pos rfl, List.getElem?_append_right (by omega), hlen, Nat.sub_self]
    rfl
  · rw [if_neg (by omega), List.getElem?_append_right (by omega), hlen,
      show j - i = (j - i - 1) + 1 by omega, List.getElem?_cons_succ, List.getElem?_drop]
    congr 1
    omega

/-- The directories of `name` have changed, and nothing else. -/
structure DirsOnly (name : String) (b b' : Broker) : Prop where
  config : b'.config = b.config
  topics : b'.topics = b.topics
  groups : b'.groups = b.groups
  groupFiles : b'.groupFiles = b.groupFiles
  rr : b'.rr = b.rr
  other : ∀ t, t ≠ name → b'.topicDirs.lookup t = b.topicDirs.lookup t

theorem DirsOnly.trans {b'' : Broker} (h : DirsOnly name b b') (h' : DirsOnly name b' b'') :
    DirsOnly name b b'' where
  config := h'.config.trans h.config
  topics := h'.topics.trans h.topics
  groups := h'.groups.trans h.groups
  groupFiles := h'.groupFiles.trans h.groupFiles
  rr := h'.rr.trans h.rr
  other t ht := (h'.other t ht).trans (h.other t ht)

theorem openPartition_eq {i : ℕ} (hi : i ≤ (b.dirsOf name).length) {a : AbstractLog}
    (ha : Opens (b.dirAt name i) a) :
    ∃ p b', Broker.openPartition name i b = ⟨b', [], .ok p⟩ ∧ Tracks p a ∧ DirsOnly name b b' ∧
      (∀ j, (b'.dirsOf name)[j]? = if j = i then some p.folder else (b.dirsOf name)[j]?) ∧
      (b'.dirCount name = some (max (i + 1) (b.dirsOf name).length)) := by
  obtain ⟨p, out, hrun, htracks⟩ := ha b.config.maxSegmentBytes.toNat b.config.indexIntervalBytes.toNat
  unfold Broker.dirAt at hrun
  refine ⟨p, { b with
    topicDirs := b.topicDirs.insert name
      ((b.dirsOf name).take i ++ p.folder :: (b.dirsOf name).drop (i + 1)) }, ?_, htracks,
    ⟨rfl, rfl, rfl, rfl, rfl, fun t ht => AList.lookup_insert_ne ht⟩, ?_, ?_⟩
  · unfold Broker.openPartition
    dsimp only
    rw [hrun]
  · intro j
    rw [← getElem?_put hi p.folder j]
    show ((AList.lookup name (AList.insert name _ b.topicDirs)).getD [])[j]? = _
    rw [AList.lookup_insert]
    rfl
  · show (AList.lookup name (AList.insert name _ b.topicDirs)).map List.length = _
    rw [AList.lookup_insert, Option.map_some, List.length_append, List.length_cons,
      List.length_take, List.length_drop]
    congr 1
    omega

theorem dirsOf_length {n : ℕ} (h : b.dirCount name = some n) : (b.dirsOf name).length = n := by
  obtain ⟨ds, hds, rfl⟩ := Option.map_eq_some_iff.mp h
  unfold Broker.dirsOf
  rw [hds]
  rfl

theorem dirsOf_length_getD (b : Broker) (name : String) :
    (b.dirCount name).getD 0 = (b.dirsOf name).length := by
  unfold Broker.dirCount Broker.dirsOf
  cases b.topicDirs.lookup name <;> rfl

/-- The loop over `range(num_partitions)`, from partition `k` on. -/
theorem openPartitions_eq : ∀ (n k : ℕ) {b : Broker} {a : ℕ → AbstractLog},
    k ≤ (b.dirsOf name).length → (∀ i, Opens (b.dirAt name i) (a i)) →
    ∃ ps b', Broker.openPartitions name (List.range' k n) b = ⟨b', [], .ok ps⟩ ∧ ps.length = n ∧
      (∀ j p, ps[j]? = some p → Tracks p (a (k + j)) ∧ b'.dirAt name (k + j) = p.folder) ∧
      DirsOnly name b b' ∧ (∀ i, Opens (b'.dirAt name i) (a i)) ∧
      (∀ i < k, (b'.dirsOf name)[i]? = (b.dirsOf name)[i]?) ∧
      (0 < n → b'.dirCount name = some (max (k + n) (b.dirsOf name).length))
  | 0, k, b, a, hk, ha => ⟨[], b, rfl, rfl, by simp, ⟨rfl, rfl, rfl, rfl, rfl, fun _ _ => rfl⟩, ha,
      fun _ _ => rfl, by simp⟩
  | n + 1, k, b, a, hk, ha => by
    obtain ⟨p, b₁, hrun₁, hp, h₁, hdirs, hcount⟩ := openPartition_eq hk (ha k)
    have hlen := dirsOf_length hcount
    have hat : ∀ i, b₁.dirAt name i = if i = k then p.folder else b.dirAt name i := by
      intro i
      unfold Broker.dirAt
      rw [hdirs]
      split_ifs <;> rfl
    have ha₁ : ∀ i, Opens (b₁.dirAt name i) (a i) := by
      intro i
      rw [hat]
      split_ifs with hi
      · rw [hi]
        exact hp.opens
      · exact ha i
    obtain ⟨ps, b₂, hrun₂, hps, hparts, h₂, ha₂, hbelow, hcount₂⟩ :=
      openPartitions_eq n (k + 1) (by omega) ha₁
    refine ⟨p :: ps, b₂, ?_, by rw [List.length_cons, hps], ?_, h₁.trans h₂, ha₂, ?_, ?_⟩
    · rw [List.range'_succ, Broker.openPartitions]
      exact bind_run hrun₁ (bind_run hrun₂ (pure_eq _ _))
    · rintro (_ | j) q hq
      · obtain rfl : p = q := by simpa using hq
        refine ⟨hp, ?_⟩
        have hk' := hat k
        unfold Broker.dirAt at hk' ⊢
        rw [Nat.add_zero, hbelow k (by omega), hk', if_pos rfl]
      · have := hparts j q (by simpa using hq)
        rwa [show k + 1 + j = k + (j + 1) by omega] at this
    · intro i hi
      rw [hbelow i (by omega), hdirs, if_neg (by omega)]
    · intro _
      rcases Nat.eq_zero_or_pos n with rfl | hn
      · obtain rfl : b₁ = b₂ := by
          have : b₁ = b₂ := congrArg Outcome.state hrun₂
          exact this
        rw [hcount]
      · rw [hcount₂ hn, hlen]
        congr 1
        omega

theorem partitionAt_of_count_none (h : b.count topic = none) (i : ℕ) :
    b.partitionAt topic i = none := by
  unfold Broker.partitionAt
  rw [count_eq_none.mp h]
  rfl

theorem DirsOnly.dirAt (h : DirsOnly name b b') {t : String} (ht : t ≠ name) (i : ℕ) :
    b'.dirAt t i = b.dirAt t i := by
  unfold Broker.dirAt Broker.dirsOf
  rw [h.other t ht]

theorem DirsOnly.dirCount (h : DirsOnly name b b') {t : String} (ht : t ≠ name) :
    b'.dirCount t = b.dirCount t := by
  unfold Broker.dirCount
  rw [h.other t ht]

/-- The broker with the topic open on these partitions. -/
def Broker.withTopic (b : Broker) (name : String) (ps : List Partition) : Broker :=
  { b with topics := b.topics.insert name ps }

theorem count_withTopic (b : Broker) (name : String) (ps : List Partition) (t : String) :
    (b.withTopic name ps).count t = if t = name then some ps.length else b.count t := by
  show (AList.lookup t (b.topics.insert name ps)).map List.length = _
  split_ifs with ht
  · rw [ht, AList.lookup_insert, Option.map_some]
  · rw [AList.lookup_insert_ne ht]
    rfl

theorem partitionAt_withTopic (b : Broker) (name : String) (ps : List Partition) (t : String) (i : ℕ) :
    (b.withTopic name ps).partitionAt t i = if t = name then ps[i]? else b.partitionAt t i := by
  show (AList.lookup t (b.topics.insert name ps)).bind (fun parts => parts[i]?) = _
  split_ifs with ht
  · rw [ht, AList.lookup_insert, Option.bind_some]
  · rw [AList.lookup_insert_ne ht]
    rfl

/-- A topic that is not open is opened with the records of its directories. -/
theorem Stores.openTopic (h : Stores b f) (hname : b.count name = none) {n : ℕ} (hn : 0 < n) :
    ∃ b', Broker.openTopic name n b = ⟨b', [], .ok ()⟩ ∧ Stores b' f ∧ Extends name b b' ∧
      b'.count name = some n := by
  obtain ⟨ps, b₁, hrun, hlen, hparts, h₁, hdir, -, hcount⟩ :=
    openPartitions_eq n 0 (b := b) (Nat.zero_le _) (h.dir name)
  have hcount₁ := hcount hn
  rw [Nat.zero_add] at hcount₁
  have hopen : (b₁.withTopic name ps).count name = some n := by
    rw [count_withTopic, if_pos rfl, hlen]
  -- the other topics are as they were
  have hother : ∀ t, t ≠ name → (b₁.withTopic name ps).count t = b.count t := by
    intro t ht
    rw [count_withTopic, if_neg ht, count_congr h₁.topics]
  refine ⟨b₁.withTopic name ps, ?_, ⟨fun t i => ?_, fun t i p hp => ?_, fun t m hm => ?_⟩,
    ⟨h₁.config, h₁.groups, h₁.groupFiles, fun t ht => ⟨hother t ht, h₁.dirCount ht⟩, fun m hm => ?_,
      fun _ => .inr ⟨n, hn, hopen, ?_⟩⟩, hopen⟩
  · unfold Broker.openTopic
    rw [List.range_eq_range']
    exact bind_run hrun rfl
  · show Opens (b₁.dirAt t i) _
    by_cases ht : t = name
    · rw [ht]
      exact hdir i
    · rw [h₁.dirAt ht]
      exact h.dir t i
  · show Tracks p (f t i) ∧ b₁.dirAt t i = p.folder
    rw [partitionAt_withTopic] at hp
    split_ifs at hp with ht
    · have := hparts i p hp
      rwa [Nat.zero_add, ← ht] at this
    · have hp' : b.partitionAt t i = some p := by
        unfold Broker.partitionAt at hp ⊢
        rwa [h₁.topics] at hp
      rw [h₁.dirAt ht]
      exact h.part t i p hp'
  · show ∃ m', b₁.dirCount t = some m' ∧ m ≤ m'
    by_cases ht : t = name
    · rw [ht, hopen] at hm
      rw [ht, hcount₁]
      exact ⟨_, rfl, (Option.some.inj hm).symm.le.trans (le_max_left _ _)⟩
    · rw [hother t ht] at hm
      rw [h₁.dirCount ht]
      exact h.dirs t m hm
  · rw [hname] at hm
    cases hm
  · rw [dirsOf_length_getD]
    exact hcount₁

/-- `create_topic` opens the topic or raises and changes nothing. -/
theorem Stores.createTopic (h : Stores b f) (hname : b.count name = none) (os : Answers)
    (numPartitions : Option ℤ) :
    (∃ e, Broker.createTopic os name numPartitions b = ⟨b, [], .error e⟩) ∨
      ∃ b' n, Broker.createTopic os name numPartitions b = ⟨b', [], .ok ()⟩ ∧ Stores b' f ∧
        Extends name b b' ∧ 0 < n ∧ b'.count name = some n := by
  have hnot : (b.topics.lookup name).isSome = false := by
    rw [Option.isSome_eq_false_iff, Option.isNone_iff_eq_none]
    exact count_eq_none.mp hname
  unfold Broker.createTopic
  rw [read_bind, if_neg (by rw [hnot]; simp)]
  by_cases hlt : b.partitionCount numPartitions < 1
  · rw [if_pos hlt]
    exact .inl ⟨_, rfl⟩
  · rw [if_neg hlt]
    cases hos : os.makes with
    | false => exact .inl ⟨.osError, rfl⟩
    | true =>
      have hpos : 0 < (b.partitionCount numPartitions).toNat := by omega
      obtain ⟨b', hrun, h', hext, hcount⟩ := h.openTopic hname hpos
      exact .inr ⟨b', _, bind_run (when_eq_of_neg (by simp) _ _) hrun, h', hext, hpos, hcount⟩

/-! ### `produce` -/

/-- The records with one more in partition `i` of `topic`. -/
def written (f : String → ℕ → AbstractLog) (topic : String) (i : ℕ) (e : Datum) :
    String → ℕ → AbstractLog := fun t j =>
  if t = topic ∧ j = i then (f t j).append e else f t j

/-- The broker with partition `i` of the topic, and its directory, replaced. -/
def Broker.put (b : Broker) (topic : String) (i : ℕ) (p : Partition) : Broker :=
  { b with
    topics := b.topics.insert topic (((b.topics.lookup topic).getD []).set i p)
    topicDirs := b.topicDirs.insert topic ((b.dirsOf topic).set i p.folder) }

theorem onPartition_run {i : ℕ} {p p' : Partition} (hp : b.partitionAt topic i = some p) {α : Type}
    {x : LogM α} {out : List FileOp} {r : Except LogError α} (hx : x p = ⟨p', out, r⟩) :
    Broker.onPartition topic i x b = ⟨b.put topic i p', [], r.mapError .log⟩ := by
  unfold Broker.onPartition
  rw [hp]
  dsimp only
  rw [hx]
  rfl

section Put

variable {i : ℕ} {p : Partition}

theorem count_put {n : ℕ} (hn : b.count topic = some n) (t : String) :
    (b.put topic i p).count t = b.count t := by
  obtain ⟨parts, hparts, hlen⟩ := Option.map_eq_some_iff.mp hn
  show (AList.lookup t (b.topics.insert topic _)).map List.length = _
  by_cases ht : t = topic
  · rw [ht, AList.lookup_insert, Option.map_some, List.length_set, hparts, Option.getD_some, hlen, hn]
  · rw [AList.lookup_insert_ne ht]
    rfl

theorem dirCount_put {m : ℕ} (hm : b.dirCount topic = some m) (t : String) :
    (b.put topic i p).dirCount t = b.dirCount t := by
  show (AList.lookup t (b.topicDirs.insert topic _)).map List.length = _
  by_cases ht : t = topic
  · rw [ht, AList.lookup_insert, Option.map_some, List.length_set, dirsOf_length hm, hm]
  · rw [AList.lookup_insert_ne ht]
    rfl

theorem partitionAt_put {n : ℕ} (hn : b.count topic = some n) (hi : i < n) (t : String) (j : ℕ) :
    (b.put topic i p).partitionAt t j =
      if t = topic ∧ j = i then some p else b.partitionAt t j := by
  obtain ⟨parts, hparts, rfl⟩ := Option.map_eq_some_iff.mp hn
  show (AList.lookup t (b.topics.insert topic _)).bind (fun parts => parts[j]?) = _
  by_cases ht : t = topic
  · rw [ht, AList.lookup_insert, Option.bind_some, hparts, Option.getD_some, List.getElem?_set]
    by_cases hj : i = j
    · rw [if_pos hj, if_pos hi, if_pos ⟨rfl, hj.symm⟩]
    · rw [if_neg hj, if_neg fun hc => hj hc.2.symm]
      unfold Broker.partitionAt
      rw [hparts, Option.bind_some]
  · rw [AList.lookup_insert_ne ht, if_neg fun hc => ht hc.1]
    rfl

theorem dirAt_put {m : ℕ} (hm : b.dirCount topic = some m) (hi : i < m) (t : String) (j : ℕ) :
    (b.put topic i p).dirAt t j = if t = topic ∧ j = i then p.folder else b.dirAt t j := by
  have hlen := dirsOf_length hm
  show ((AList.lookup t (b.topicDirs.insert topic _)).getD [])[j]?.getD {} = _
  by_cases ht : t = topic
  · rw [ht, AList.lookup_insert, Option.getD_some, List.getElem?_set]
    by_cases hj : i = j
    · rw [if_pos hj, if_pos (by omega), if_pos ⟨rfl, hj.symm⟩]
      rfl
    · rw [if_neg hj, if_neg fun hc => hj hc.2.symm]
      rfl
  · rw [AList.lookup_insert_ne ht, if_neg fun hc => ht hc.1]
    rfl

end Put

/-- A partition and its directory change together. -/
theorem Stores.onPartition (h : Stores b f) {i : ℕ} {p p' : Partition}
    (hp : b.partitionAt topic i = some p) {g : String → ℕ → AbstractLog}
    (hg : ∀ t j, ¬ (t = topic ∧ j = i) → g t j = f t j) (hp' : Tracks p' (g topic i)) {α : Type}
    {x : LogM α} {out : List FileOp} {r : Except LogError α} (hx : x p = ⟨p', out, r⟩) :
    ∃ b', Broker.onPartition topic i x b = ⟨b', [], r.mapError .log⟩ ∧ Stores b' g ∧
      Extends topic b b' ∧ b'.partitionAt topic i = some p' := by
  obtain ⟨n, hn, hi⟩ := exists_count hp
  obtain ⟨m, hm, hle⟩ := h.dirs topic _ hn
  have him : i < m := by omega
  refine ⟨b.put topic i p', onPartition_run hp hx, ⟨fun t j => ?_, fun t j q hq => ?_, ?_⟩,
    ⟨rfl, rfl, rfl, fun t _ => ⟨count_put hn t, dirCount_put hm t⟩,
      fun n hn' => ⟨(count_put hn topic).trans hn', dirCount_put hm topic⟩, ?_⟩, ?_⟩
  · rw [dirAt_put hm him]
    split_ifs with hc
    · obtain ⟨rfl, rfl⟩ := hc
      exact hp'.opens
    · rw [hg t j hc]
      exact h.dir t j
  · rw [partitionAt_put hn hi] at hq
    rw [dirAt_put hm him]
    split_ifs at hq ⊢ with hc
    · obtain ⟨rfl, rfl⟩ := hc
      rw [← Option.some.inj hq]
      exact ⟨hp', rfl⟩
    · rw [hg t j hc]
      exact h.part t j q hq
  · intro t n hn'
    rw [count_put hn] at hn'
    rw [dirCount_put hm]
    exact h.dirs t n hn'
  · intro hnone
    exact absurd (hn.symm.trans hnone) (by simp)
  · rw [partitionAt_put hn hi, if_pos ⟨rfl, rfl⟩]

/-- The partition a record goes to: by its key alone, when it has one. -/
theorem route_eq (key : Option String) (n : ℕ) (hn : 0 < n) (b : Broker) :
    ∃ rr i, Broker.route key n b = ⟨{ b with rr := rr }, [], .ok i⟩ ∧ i < n ∧
      ∀ k, key = some k → i = Broker.keyIndex k n := by
  unfold Broker.route
  rw [read_bind]
  cases key with
  | none => exact ⟨b.rr + 1, b.rr % n, rfl, Nat.mod_lt _ hn, by simp⟩
  | some k =>
    refine ⟨b.rr, _, rfl, Nat.mod_lt _ hn, ?_⟩
    rintro k' ⟨⟩
    rfl

theorem Stores.withRr (h : Stores b f) (rr : ℕ) : Stores { b with rr := rr } f :=
  ⟨h.dir, h.part, h.dirs⟩

theorem Extends.withRr (h : Extends topic b b') (rr : ℕ) : Extends topic b { b' with rr := rr } :=
  ⟨h.config, h.groups, h.groupFiles, h.other, h.same, h.fresh⟩

/-- What `produce` does first: the topic is open, or is opened now. -/
theorem Stores.openFor (h : Stores b f) (hpos : ∀ t n, b.count t = some n → 0 < n) (os : Answers)
    (topic : String) :
    ∃ b' r, when (b.topics.lookup topic = none) (Broker.createTopic os topic none) b = ⟨b', [], r⟩ ∧
      Stores b' f ∧ Extends topic b b' ∧
      ((∃ e, r = .error e) ∨ (r = .ok () ∧ ∃ n, 0 < n ∧ b'.count topic = some n)) := by
  by_cases hnone : b.topics.lookup topic = none
  · rw [when_eq_of_pos hnone]
    rcases h.createTopic (count_eq_none.mpr hnone) os none with ⟨e, hrun⟩ | ⟨b', n, hrun, h', hext, hn, hc⟩
    · exact ⟨b, _, hrun, h, Extends.refl topic b, .inl ⟨e, rfl⟩⟩
    · exact ⟨b', _, hrun, h', hext, .inr ⟨rfl, n, hn, hc⟩⟩
  · rw [when_eq_of_neg hnone]
    obtain ⟨parts, hparts⟩ := Option.ne_none_iff_exists'.mp hnone
    have hc := count_of_lookup hparts
    exact ⟨b, _, rfl, h, Extends.refl topic b, .inr ⟨rfl, _, hpos topic _ hc, hc⟩⟩

/-- `produce` writes the record behind those of one partition and reports where, or raises and
writes nothing. -/
theorem Stores.produce (h : Stores b f) (hpos : ∀ t n, b.count t = some n → 0 < n) {payload : Bytes}
    (hp : payload.length ≤ maxRecordBytes) (os : Answers) (topic : String) (key : Option String)
    (timestamp : Option ℤ) (now : ℤ) :
    ∃ b' r, Broker.produce os topic payload key timestamp now b = ⟨b', [], r⟩ ∧
      Extends topic b b' ∧
      ((∃ e, r = .error e ∧ Stores b' f) ∨
        ∃ i n, r = .ok ⟨topic, i, (f topic i).next⟩ ∧
          Stores b' (written f topic i (timestamp.getD now, payload)) ∧
          b'.count topic = some n ∧ i < n ∧ ∀ k, key = some k → i = Broker.keyIndex k n) := by
  obtain ⟨b₁, r₀, hrun₁, h₁, hext₁, hr₀⟩ := h.openFor hpos os topic
  unfold Broker.produce
  rw [read_bind]
  rcases hr₀ with ⟨e, rfl⟩ | ⟨rfl, n, hn, hcount⟩
  · refine ⟨b₁, .error e, ?_, hext₁, .inl ⟨e, rfl, h₁⟩⟩
    exact bind_error hrun₁
  · obtain ⟨parts, hparts, hlen⟩ := Option.map_eq_some_iff.mp hcount
    obtain ⟨rr, i, hroute, hi, hkey⟩ := route_eq key n hn b₁
    rw [bind_eq hrun₁, read_bind, hparts, Option.getD_some, hlen, bind_eq hroute]
    have h₂ := h₁.withRr rr
    have hext₂ := hext₁.withRr rr
    obtain ⟨p, hpart⟩ := partitionAt_isSome (b := { b₁ with rr := rr }) hcount hi
    obtain ⟨htracks, -⟩ := h₂.part topic i p hpart
    rcases htracks.append_cases hp (some (timestamp.getD now)) (timestamp.getD now) with
      ⟨p', out, hrun, h'⟩ | ⟨p', out, hrun, h'⟩
    · obtain ⟨b₃, hrun₃, h₃, hext₃, -⟩ := h₂.onPartition hpart
        (g := written f topic i (timestamp.getD now, payload))
        (fun t j hne => by unfold written; rw [if_neg hne])
        (by unfold written; rw [if_pos ⟨rfl, rfl⟩]; exact h') hrun
      refine ⟨b₃, _, ?_, hext₂.trans hext₃, .inr ⟨i, n, rfl, h₃, hext₃.count hcount, hi, hkey⟩⟩
      rw [show Partition.append payload (timestamp.getD now) =
        CommitLog.append payload (some (timestamp.getD now)) (timestamp.getD now) from rfl,
        bind_eq hrun₃]
      rfl
    · obtain ⟨b₃, hrun₃, h₃, hext₃, -⟩ := h₂.onPartition hpart (g := f) (fun _ _ _ => rfl) h' hrun
      refine ⟨b₃, _, ?_, hext₂.trans hext₃, .inl ⟨.log .structError, rfl, h₃⟩⟩
      rw [show Partition.append payload (timestamp.getD now) =
        CommitLog.append payload (some (timestamp.getD now)) (timestamp.getD now) from rfl,
        bind_error hrun₃]
      rfl

/-! ### A new broker on a `data_dir` -/

/-- One directory of the listing: its topic is opened if it has partitions. -/
theorem Stores.openListed (h : Stores b f) (k : ℕ) (hname : b.count name = none) :
    ∃ b', when (0 < k) (Broker.openTopic name k) b = ⟨b', [], .ok ()⟩ ∧ Stores b' f ∧
      Extends name b b' ∧ ((k = 0 ∧ b' = b) ∨ (0 < k ∧ b'.count name = some k ∧
        b'.dirCount name = some (max k ((b.dirCount name).getD 0)))) := by
  rcases Nat.eq_zero_or_pos k with rfl | hk
  · exact ⟨b, when_eq_of_neg (by simp) _ _, h, Extends.refl name b, .inl ⟨rfl, rfl⟩⟩
  · obtain ⟨b', hrun, h', hext, hcount⟩ := h.openTopic hname hk
    refine ⟨b', by rw [when_eq_of_pos hk, hrun], h', hext, .inr ⟨hk, hcount, ?_⟩⟩
    rcases hext.fresh hname with ⟨h2, -⟩ | ⟨n, -, h2, h3⟩
    · rw [hcount] at h2
      cases h2
    · rw [hcount] at h2
      obtain rfl := Option.some.inj h2
      exact h3

/-- The loop over the directories opens each topic that has partitions. -/
theorem Stores.openEach : ∀ (l : List (String × ℕ)) {b : Broker}, Stores b f →
    (l.map Prod.fst).Nodup → (∀ e ∈ l, b.count e.1 = none) →
    ∃ b', each (fun e : String × ℕ => when (0 < e.2) (Broker.openTopic e.1 e.2)) l b =
        ⟨b', [], .ok ()⟩ ∧ Stores b' f ∧ b'.groups = b.groups ∧ b'.groupFiles = b.groupFiles ∧
      (∀ t, (∀ n, (t, n) ∈ l → n = 0) → b'.count t = b.count t ∧ b'.dirCount t = b.dirCount t) ∧
      (∀ t n, (t, n) ∈ l → 0 < n → b'.count t = some n ∧
        b'.dirCount t = some (max n ((b.dirCount t).getD 0)))
  | [], b, h, _, _ => ⟨b, rfl, h, rfl, rfl, fun _ _ => ⟨rfl, rfl⟩, by simp⟩
  | (name, k) :: l, b, h, hnd, hnone => by
    rw [List.map_cons, List.nodup_cons] at hnd
    obtain ⟨hname, hnd⟩ := hnd
    have hnot : ∀ n, (name, n) ∉ l := fun n hn => hname (List.mem_map.mpr ⟨(name, n), hn, rfl⟩)
    obtain ⟨b₁, hrun₁, h₁, hext, hopen⟩ := h.openListed k (hnone (name, k) (by simp))
    obtain ⟨b₂, hrun₂, h₂, hg, hgf, hother, hmem⟩ := Stores.openEach l h₁ hnd (by
      intro e he
      have hne : e.1 ≠ name := by
        rintro rfl
        exact hnot e.2 he
      rw [(hext.other _ hne).1]
      exact hnone e (by simp [he]))
    refine ⟨b₂, bind_run hrun₁ hrun₂, h₂, hg.trans hext.groups, hgf.trans hext.groupFiles, ?_, ?_⟩
    · intro t ht
      have hrest := hother t fun n hn => ht n (by simp [hn])
      by_cases hne : t = name
      · subst hne
        rcases hopen with ⟨-, rfl⟩ | ⟨hk, -⟩
        · exact hrest
        · exact absurd (ht k (by simp)) (by omega)
      · obtain ⟨h3, h4⟩ := hext.other t hne
        exact ⟨hrest.1.trans h3, hrest.2.trans h4⟩
    · intro t n hn hpos
      rcases List.mem_cons.mp hn with heq | htail
      · obtain ⟨rfl, rfl⟩ := Prod.mk.inj heq
        obtain ⟨h3, h4⟩ := hother t fun n' hn' => absurd hn' (hnot n')
        rcases hopen with ⟨rfl, -⟩ | ⟨-, h5, h6⟩
        · omega
        · exact ⟨h3.trans h5, h4.trans h6⟩
      · have hne : t ≠ name := by
          rintro rfl
          exact hnot n htail
        obtain ⟨h3, h4⟩ := hmem t n htail hpos
        rw [(hext.other t hne).2] at h4
        exact ⟨h3, h4⟩

/-- A new broker opens the topics of the listing with the records of their directories. -/
theorem reopen_stores (hdir : ∀ t i, Opens (b.dirAt t i) (f t i)) (config : Config)
    {listing : List (String × ℕ)} (hl : (listing.map Prod.fst).Nodup) :
    ∃ b', b.reopen config listing = ⟨b', [], .ok ()⟩ ∧ Stores b' f ∧ b'.groups = ∅ ∧
      b'.groupFiles = b.groupFiles ∧
      (∀ t, (∀ n, (t, n) ∈ listing → n = 0) → b'.count t = none ∧ b'.dirCount t = b.dirCount t) ∧
      (∀ t n, (t, n) ∈ listing → 0 < n → b'.count t = some n ∧
        b'.dirCount t = some (max n ((b.dirCount t).getD 0))) := by
  have hperm := List.mergeSort_perm listing fun a b => decide (a.1 ≤ b.1)
  have hmem : ∀ e, e ∈ listing.mergeSort (fun a b => decide (a.1 ≤ b.1)) ↔ e ∈ listing :=
    fun e => hperm.mem_iff
  have hempty : ∀ t, Broker.count { config, topicDirs := b.topicDirs, groupFiles := b.groupFiles } t =
      none := fun t => rfl
  have h₀ : Stores { config, topicDirs := b.topicDirs, groupFiles := b.groupFiles } f := by
    refine ⟨hdir, ?_, ?_⟩
    · intro t i p hp
      rw [partitionAt_of_count_none (hempty t)] at hp
      cases hp
    · intro t n hn
      rw [hempty] at hn
      cases hn
  obtain ⟨b', hrun, h', hg, hgf, hother, hin⟩ := h₀.openEach
    (listing.mergeSort fun a b => decide (a.1 ≤ b.1))
    ((hperm.map Prod.fst).nodup_iff.mpr hl) (fun e _ => hempty e.1)
  refine ⟨b', hrun, h', hg, hgf, ?_, ?_⟩
  · intro t ht
    exact hother t fun n hn => ht n ((hmem _).mp hn)
  · intro t n hn hpos
    exact hin t n ((hmem _).mpr hn) hpos

end Pylog.Topics
