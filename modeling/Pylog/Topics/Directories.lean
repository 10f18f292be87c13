import Pylog.Base.Lockstep
import Pylog.Topics.Site

/-!
# The broker over directories and the broker over paths

`Mirrors s b`: below `topics_dir` the disk of `s` has the directories `b` keeps under the names of
its topics, and nothing else.  As long as a topic has the name of a directory entry, the two brokers
run in lockstep; what is proved of `Broker` then holds over paths.
-/

namespace Pylog.Topics

open Effect Effect.Handler Log Paths

/-! ### The directory of a partition -/

theorem isName_partitionName (i : ℕ) : IsName (partitionName i) := by
  have hlist : (partitionName i).toList = 'p' :: i.repr.toList := by
    unfold partitionName
    rw [String.toList_append]
    rfl
  have hne : ∀ c : String, c.toList.head? ≠ some 'p' → partitionName i ≠ c := by
    rintro _ hc rfl
    rw [hlist] at hc
    exact hc rfl
  refine ⟨hne "" (by decide), ?_, hne "." (by decide), hne ".." (by decide)⟩
  intro hmem
  rw [hlist] at hmem
  rcases List.mem_cons.mp hmem with h | h
  · exact absurd h (by decide)
  · exact slash_notMem_numeral i h

/-- The entry `p{i}` of a topic directory. -/
def partitionEntry (i : ℕ) : Name := ⟨partitionName i, isName_partitionName i⟩

theorem partitionEntry_inj {i j : ℕ} (h : partitionEntry i = partitionEntry j) : i = j := by
  have hlist := congrArg (fun d : Name => d.1.toList) h
  have hdigits : Nat.toDigits 10 i = Nat.toDigits 10 j := by
    simpa [partitionEntry, partitionName, String.toList_append] using hlist
  rw [← Nat.ofDigitChars_ten_toDigits (n := i), hdigits, Nat.ofDigitChars_ten_toDigits]

variable {base : Place} {t t' : Name} {i j : ℕ}

theorem resolve_partition : resolve base (partitionPath t.1 i) = base ++ [t, partitionEntry i] := by
  unfold partitionPath
  rw [resolve_join, resolve_name t.2, resolve_name (isName_partitionName i), List.append_assoc]
  rfl

theorem place_inj (base : Place) :
    base ++ [t, partitionEntry i] = base ++ [t', partitionEntry j] ↔ t = t' ∧ i = j := by
  rw [List.append_cancel_left_eq]
  constructor
  · intro h
    obtain ⟨ht, h'⟩ := List.cons.inj h
    exact ⟨ht, partitionEntry_inj (List.cons.inj h').1⟩
  · rintro ⟨rfl, rfl⟩
    rfl

/-- One partition directory written. -/
theorem update_partition {α : Type} (g : Place → α) (base : Place) (x : α) :
    Function.update g (base ++ [t, partitionEntry i]) x (base ++ [t', partitionEntry j]) =
      if t'.1 = t.1 ∧ j = i then x else g (base ++ [t', partitionEntry j]) := by
  by_cases h : t' = t ∧ j = i
  · obtain ⟨rfl, rfl⟩ := h
    rw [Function.update_self, if_pos ⟨rfl, rfl⟩]
  · rw [Function.update_of_ne fun he => h ((place_inj _).mp he),
      if_neg fun he => h ⟨Subtype.ext he.1, he.2⟩]

theorem mem_passed_partition {e : Place} : e ∈ passed base (partitionPath t.1 i) ↔
    e = base ∨ e = base ++ [t] ∨ e = base ++ [t, partitionEntry i] := by
  unfold partitionPath
  rw [passed_join base (isName_partitionName i).not_absolute, passed_name t.2, resolve_name t.2,
    passed_name (isName_partitionName i), List.append_assoc]
  simp [partitionEntry]

/-! ### One broker mirrors the other -/

/-- The same fields, and below `topics_dir` the directories of the topics. -/
structure Mirrors (s : Site) (b : Broker) : Prop where
  config : s.config = b.config
  topics : s.topics = b.topics
  rr : s.rr = b.rr
  contents : ∀ (t : Name) i, s.disk.contents (s.topicsDir ++ [t, partitionEntry i]) = b.dirAt t.1 i
  made : ∀ t c : Name, s.topicsDir ++ [t, c] ∈ s.disk.dirs ↔
    ∃ i < (b.dirsOf t.1).length, c = partitionEntry i
  listed : ∀ t : Name, s.topicsDir ++ [t] ∈ s.disk.dirs ↔ b.dirCount t.1 ≠ none

variable {s : Site} {b : Broker} {f : String → ℕ → AbstractLog}

theorem Mirrors.partitionDirs (h : Mirrors s b) (t : Name) :
    s.partitionDirs t = (b.dirsOf t.1).length := by
  have himage : (s.disk.children (s.topicsDir ++ [t])).filter
      (fun d => d.1.toList.head? = some 'p') =
      (Finset.range (b.dirsOf t.1).length).image partitionEntry := by
    ext c
    rw [Finset.mem_filter, DirTree.mem_children, List.append_assoc, List.singleton_append, h.made,
      Finset.mem_image]
    constructor
    · rintro ⟨⟨i, hi, rfl⟩, -⟩
      exact ⟨i, Finset.mem_range.mpr hi, rfl⟩
    · rintro ⟨i, hi, rfl⟩
      refine ⟨⟨i, Finset.mem_range.mp hi, rfl⟩, ?_⟩
      simp [partitionEntry, partitionName, String.toList_append]
  unfold Site.partitionDirs
  rw [himage, Finset.card_image_of_injective _ fun _ _ => partitionEntry_inj, Finset.card_range]

/-- The directories of the topic `t` are at most `n`, or as many as they were; the others stay. -/
structure Widened (t : String) (n : ℕ) (b b' : Broker) : Prop where
  lower : (b.dirsOf t).length ≤ (b'.dirsOf t).length
  upper : (b'.dirsOf t).length ≤ max n (b.dirsOf t).length
  other : ∀ t', t' ≠ t → b'.dirCount t' = b.dirCount t'

theorem Widened.refl (t : String) (n : ℕ) (b : Broker) : Widened t n b b :=
  ⟨le_rfl, le_max_right _ _, fun _ _ => rfl⟩

theorem Widened.trans {t : String} {m n : ℕ} {b' b'' : Broker} (h : Widened t m b b')
    (h' : Widened t n b' b'') (hmn : m ≤ n) : Widened t n b b'' where
  lower := h.lower.trans h'.lower
  upper := by
    have h1 := h.upper
    have h2 := h'.upper
    omega
  other t' ht := (h'.other t' ht).trans (h.other t' ht)

/-- The partition directory is made and holds `d`. -/
def Site.laid (s : Site) (name : String) (i : ℕ) (d : Folder) : Site :=
  let disk := s.disk.makedirs s.topicsDir (partitionPath name i)
  { s with disk := disk.write (s.partitionDir name i) d }

def Broker.laid (b : Broker) (name : String) (i : ℕ) (d : Folder) : Broker :=
  { b with topicDirs :=
      b.topicDirs.insert name ((b.dirsOf name).take i ++ d :: (b.dirsOf name).drop (i + 1)) }

theorem contents_laid (s : Site) (name : String) (i : ℕ) (d : Folder) :
    (s.laid name i d).disk.contents =
      Function.update s.disk.contents (s.partitionDir name i) d := rfl

theorem mem_dirs_laid (s : Site) (t : Name) (i : ℕ) (d : Folder) (e : Place) :
    e ∈ (s.laid t.1 i d).disk.dirs ↔ e ∈ s.disk.dirs ∨
      e = s.topicsDir ∨ e = s.topicsDir ++ [t] ∨ e = s.topicsDir ++ [t, partitionEntry i] :=
  DirTree.mem_makedirs.trans (or_congr_right mem_passed_partition)

theorem topicsDir_laid (s : Site) (name : String) (i : ℕ) (d : Folder) :
    (s.laid name i d).topicsDir = s.topicsDir := rfl

theorem partitionDir_eq (s : Site) (t : Name) (i : ℕ) :
    s.partitionDir t.1 i = s.topicsDir ++ [t, partitionEntry i] := resolve_partition

theorem dirsOf_laid (b : Broker) (name : String) (i : ℕ) (d : Folder) : (b.laid name i d).dirsOf name =
    (b.dirsOf name).take i ++ d :: (b.dirsOf name).drop (i + 1) := by
  show ((AList.lookup name (b.topicDirs.insert name _)).getD []) = _
  rw [AList.lookup_insert]
  rfl

theorem length_dirsOf_laid {name : String} (hi : i ≤ (b.dirsOf name).length) (d : Folder) :
    ((b.laid name i d).dirsOf name).length = max (i + 1) (b.dirsOf name).length := by
  rw [dirsOf_laid, List.length_append, List.length_cons, List.length_take, List.length_drop]
  omega

theorem lookup_laid {name t : String} (ht : t ≠ name) (d : Folder) :
    (b.laid name i d).topicDirs.lookup t = b.topicDirs.lookup t := AList.lookup_insert_ne ht

theorem dirAt_laid {name : String} (hi : i ≤ (b.dirsOf name).length) (d : Folder) (t : String) (j : ℕ) :
    (b.laid name i d).dirAt t j = if t = name ∧ j = i then d else b.dirAt t j := by
  unfold Broker.dirAt
  by_cases ht : t = name
  · rw [ht, dirsOf_laid, getElem?_put hi]
    by_cases hj : j = i
    · rw [if_pos hj, if_pos ⟨rfl, hj⟩]
      rfl
    · rw [if_neg hj, if_neg fun h => hj h.2]
  · rw [if_neg fun h => ht h.1]
    unfold Broker.dirsOf
    rw [lookup_laid ht]

theorem Mirrors.laid (h : Mirrors s b) {t : Name} (hi : i ≤ (b.dirsOf t.1).length) (d : Folder) :
    Mirrors (s.laid t.1 i d) (b.laid t.1 i d) where
  config := h.config
  topics := h.topics
  rr := h.rr
  contents := by
    intro t' j
    rw [contents_laid, topicsDir_laid, partitionDir_eq, update_partition, h.contents, dirAt_laid hi]
  made := by
    intro t' c
    rw [topicsDir_laid, mem_dirs_laid, h.made]
    simp only [List.append_cancel_left_eq, List.append_right_eq_self, List.cons.injEq, and_true,
      reduceCtorEq, and_false, false_or]
    by_cases ht : t' = t
    · subst ht
      rw [length_dirsOf_laid hi]
      constructor
      · rintro (⟨j, hj, rfl⟩ | ⟨-, rfl⟩)
        · exact ⟨j, by omega, rfl⟩
        · exact ⟨i, by omega, rfl⟩
      · rintro ⟨j, hj, rfl⟩
        by_cases hij : j = i
        · exact .inr ⟨rfl, by rw [hij]⟩
        · exact .inl ⟨j, by omega, rfl⟩
    · unfold Broker.dirsOf
      rw [lookup_laid (fun he => ht (Subtype.ext he))]
      simp [ht]
  listed := by
    intro t'
    rw [topicsDir_laid, mem_dirs_laid, h.listed]
    simp only [List.append_cancel_left_eq, List.append_right_eq_self, List.cons.injEq, and_true,
      reduceCtorEq, and_false, or_false, false_or]
    by_cases ht : t' = t
    · subst ht
      refine iff_of_true (.inr rfl) ?_
      show (AList.lookup t'.1 (b.topicDirs.insert t'.1 _)).map List.length ≠ none
      rw [AList.lookup_insert]
      simp
    · unfold Broker.dirCount
      rw [lookup_laid (fun he => ht (Subtype.ext he))]
      simp [ht]

/-! ### Lockstep -/

theorem widened_laid {name : String} (hi : i ≤ (b.dirsOf name).length) (d : Folder) :
    Widened name (i + 1) b (b.laid name i d) where
  lower := (le_max_right _ _).trans (length_dirsOf_laid hi d).ge
  upper := (length_dirsOf_laid hi d).le
  other t ht := by
    unfold Broker.dirCount
    rw [lookup_laid ht]

theorem Site.openPartition_eq (s : Site) (name : String) (i : ℕ)
    {r : Outcome CommitLog FileOp LogError Unit}
    (hr : CommitLog.openAt s.config.maxSegmentBytes.toNat s.config.indexIntervalBytes.toNat
      (s.disk.contents (s.partitionDir name i)) = r) :
    Site.openPartition name i s =
      ⟨s.laid name i r.state.folder, [], (r.result.map fun _ => r.state).mapError .log⟩ := by
  unfold Site.openPartition
  dsimp only
  rw [show (s.disk.makedirs s.topicsDir (partitionPath name i)).contents = s.disk.contents from rfl, hr]
  cases r with
  | mk p o res => cases res <;> rfl

theorem Broker.openPartition_eq (b : Broker) (name : String) (i : ℕ)
    {r : Outcome CommitLog FileOp LogError Unit}
    (hr : CommitLog.openAt b.config.maxSegmentBytes.toNat b.config.indexIntervalBytes.toNat
      (b.dirAt name i) = r) :
    Broker.openPartition name i b =
      ⟨b.laid name i r.state.folder, [], (r.result.map fun _ => r.state).mapError .log⟩ := by
  unfold Broker.dirAt at hr
  unfold Broker.openPartition
  dsimp only
  rw [hr]
  cases r with
  | mk p o res => cases res <;> rfl

theorem Mirrors.openPartition (h : Mirrors s b) (t : Name) (hi : i ≤ (b.dirsOf t.1).length) :
    Lockstep (fun s' b' => Mirrors s' b' ∧ Widened t.1 (i + 1) b b' ∧ i < (b'.dirsOf t.1).length)
      (Site.openPartition t.1 i) (Broker.openPartition t.1 i) s b := by
  have hdir : s.disk.contents (s.partitionDir t.1 i) = b.dirAt t.1 i := by
    rw [partitionDir_eq, h.contents]
  unfold Lockstep
  rw [s.openPartition_eq t.1 i rfl, b.openPartition_eq t.1 i rfl, hdir, h.config]
  refine ⟨rfl, rfl, h.laid hi _, widened_laid hi _, ?_⟩
  rw [length_dirsOf_laid hi]
  omega

theorem Mirrors.openPartitions (t : Name) : ∀ (n k : ℕ) {s : Site} {b : Broker}, Mirrors s b →
    k ≤ (b.dirsOf t.1).length →
    Lockstep (fun s' b' => Mirrors s' b' ∧ Widened t.1 (k + n) b b')
      (Site.openPartitions t.1 (List.range' k n)) (Broker.openPartitions t.1 (List.range' k n)) s b
  | 0, k, s, b, h, _ => lockstep_pure [] ⟨h, Widened.refl _ _ _⟩
  | n + 1, k, s, b, h, hk => by
    rw [List.range'_succ, Site.openPartitions, Broker.openPartitions]
    refine (h.openPartition t hk).bind ?_ ?_
    · rintro p s₁ b₁ ⟨h₁, hw₁, hk₁⟩
      refine (Mirrors.openPartitions t n (k + 1) h₁ hk₁).bind ?_ ?_
      · rintro ps s₂ b₂ ⟨h₂, hw₂⟩
        exact lockstep_pure _ ⟨h₂, hw₁.trans (by rwa [Nat.add_right_comm] at hw₂) (by omega)⟩
      · rintro s₂ b₂ ⟨h₂, hw₂⟩
        exact ⟨h₂, hw₁.trans (by rwa [Nat.add_right_comm] at hw₂) (by omega)⟩
    · rintro s₁ b₁ ⟨h₁, hw₁, -⟩
      exact ⟨h₁, hw₁.trans (Widened.refl _ _ _) (by omega)⟩

theorem Mirrors.openTopic (h : Mirrors s b) (t : Name) (n : ℕ) :
    Lockstep (fun s' b' => Mirrors s' b' ∧ Widened t.1 n b b')
      (Site.openTopic t.1 n) (Broker.openTopic t.1 n) s b := by
  unfold Site.openTopic Broker.openTopic
  rw [List.range_eq_range']
  have hopen := Mirrors.openPartitions t n 0 h (Nat.zero_le _)
  rw [Nat.zero_add] at hopen
  refine hopen.bind (fun parts s₁ b₁ ⟨h₁, hw₁⟩ => ⟨rfl, rfl, ?_, ?_⟩) fun _ _ h' => h'
  · have htopics : s₁.topics.insert t.1 parts = b₁.topics.insert t.1 parts := by rw [h₁.topics]
    exact ⟨h₁.config, htopics, h₁.rr, h₁.contents, h₁.made, h₁.listed⟩
  · exact ⟨hw₁.lower, hw₁.upper, hw₁.other⟩

theorem Mirrors.createTopic (h : Mirrors s b) (os : Answers) (t : Name) (numPartitions : Option ℤ) :
    Lockstep Mirrors (Site.createTopic os t.1 numPartitions)
      (Broker.createTopic os t.1 numPartitions) s b := by
  have hcount : s.partitionCount numPartitions = b.partitionCount numPartitions := by
    cases numPartitions with
    | none => exact congrArg Config.defaultPartitions h.config
    | some n =>
      show (if n = 0 then s.config.defaultPartitions else n) =
        if n = 0 then b.config.defaultPartitions else n
      rw [h.config]
  show Lockstep Mirrors (if (s.topics.lookup t.1).isSome then _ else _)
    (if (b.topics.lookup t.1).isSome then _ else _) s b
  rw [hcount, h.topics]
  split_ifs
  · exact lockstep_raise _ h
  · exact lockstep_raise _ h
  · refine (lockstep_when Iff.rfl (fun _ => lockstep_raise _ h) h).bind (fun _ s₁ b₁ h₁ => ?_)
      fun _ _ h' => h'
    exact (h₁.openTopic t _).mono fun _ _ h' => h'.1

/-- An open partition on its directory, when the broker below keeps it so. -/
theorem Mirrors.partitionAt (h : Mirrors s b) (hst : Stores b f) (t : Name) (i : ℕ) :
    s.partitionAt t.1 i = b.partitionAt t.1 i := by
  have hdir : s.disk.contents (s.partitionDir t.1 i) = b.dirAt t.1 i := by
    rw [partitionDir_eq, h.contents]
  unfold Site.partitionAt
  rw [hdir, h.topics]
  show (b.partitionAt t.1 i).map _ = _
  cases hp : b.partitionAt t.1 i with
  | none => rfl
  | some p =>
    rw [(hst.part t.1 i p hp).2]
    rfl

/-- The site with partition `i` of the topic, and its directory, replaced. -/
def Site.put (s : Site) (topic : String) (i : ℕ) (p : Partition) : Site :=
  { s with
    topics := s.topics.insert topic (((s.topics.lookup topic).getD []).set i p)
    disk := s.disk.write (s.partitionDir topic i) p.folder }

theorem contents_put (s : Site) (topic : String) (i : ℕ) (p : Partition) :
    (s.put topic i p).disk.contents =
      Function.update s.disk.contents (s.partitionDir topic i) p.folder := rfl

theorem dirs_put (s : Site) (topic : String) (i : ℕ) (p : Partition) :
    (s.put topic i p).disk.dirs = s.disk.dirs := rfl

theorem topicsDir_put (s : Site) (topic : String) (i : ℕ) (p : Partition) :
    (s.put topic i p).topicsDir = s.topicsDir := rfl

theorem Mirrors.put (h : Mirrors s b) {t : Name} {m : ℕ} (hm : b.dirCount t.1 = some m) (hi : i < m)
    (p : Partition) : Mirrors (s.put t.1 i p) (b.put t.1 i p) where
  config := h.config
  topics := by
    unfold Site.put Broker.put
    dsimp only
    rw [h.topics]
  rr := h.rr
  contents := by
    intro t' j
    rw [contents_put, topicsDir_put, partitionDir_eq, update_partition, h.contents, dirAt_put hm hi]
  made := by
    intro t' c
    rw [dirs_put, topicsDir_put, h.made, ← dirsOf_length_getD, ← dirsOf_length_getD, dirCount_put hm]
  listed := by
    intro t'
    rw [dirs_put, topicsDir_put, h.listed, dirCount_put hm]

theorem Site.onPartition_run {topic : String} {p : Partition} (hp : s.partitionAt topic i = some p)
    {α : Type} (x : LogM α) : Site.onPartition topic i x s =
      ⟨s.put topic i (x p).state, [], (x p).result.mapError .log⟩ := by
  unfold Site.onPartition
  rw [hp]
  rfl

theorem Mirrors.onPartition (h : Mirrors s b) (hst : Stores b f) (t : Name) (i : ℕ) {α : Type}
    (x : LogM α) : Lockstep Mirrors (Site.onPartition t.1 i x) (Broker.onPartition t.1 i x) s b := by
  have hat := h.partitionAt hst t i
  unfold Lockstep
  cases hp : b.partitionAt t.1 i with
  | none =>
    rw [hp] at hat
    unfold Site.onPartition Broker.onPartition
    rw [hat, hp]
    exact ⟨rfl, rfl, h⟩
  | some p =>
    rw [hp] at hat
    obtain ⟨n, hn, hi⟩ := exists_count hp
    obtain ⟨m, hm, hle⟩ := hst.dirs t.1 _ hn
    rw [Site.onPartition_run hat, Topics.onPartition_run hp (x := x) rfl]
    exact ⟨rfl, rfl, h.put hm (by omega) _⟩

theorem Mirrors.route (h : Mirrors s b) (hst : Stores b f) (key : Option String) (n : ℕ) :
    Lockstep (fun s' b' => Mirrors s' b' ∧ Stores b' f) (Site.route key n) (Broker.route key n) s b := by
  unfold Site.route Broker.route
  cases key with
  | some k => exact ⟨rfl, rfl, h, hst⟩
  | none =>
    refine ⟨rfl, ?_, ?_, hst.withRr (b.rr + 1)⟩
    · show Except.ok (s.rr % n) = Except.ok (b.rr % n)
      rw [h.rr]
    · have hrr : s.rr + 1 = b.rr + 1 := by rw [h.rr]
      exact ⟨h.config, h.topics, hrr, h.contents, h.made, h.listed⟩

theorem Mirrors.produce (h : Mirrors s b) (hst : Stores b f)
    (hpos : ∀ t n, b.count t = some n → 0 < n) (os : Answers) (t : Name) (payload : Bytes)
    (key : Option String) (timestamp : Option ℤ) (now : ℤ) :
    Lockstep Mirrors (Site.produce os t.1 payload key timestamp now)
      (Broker.produce os t.1 payload key timestamp now) s b := by
  unfold Site.produce Broker.produce
  show Lockstep Mirrors (when (s.topics.lookup t.1 = none) _ >>= _)
    (when (b.topics.lookup t.1 = none) _ >>= _) s b
  obtain ⟨b₁, r, hrun, hst₁, -⟩ := hst.openFor hpos os t.1
  have hopen : Lockstep Mirrors (when (s.topics.lookup t.1 = none) (Site.createTopic os t.1 none))
      (when (b.topics.lookup t.1 = none) (Broker.createTopic os t.1 none)) s b :=
    lockstep_when (by rw [h.topics]) (fun _ => h.createTopic os t none) h
  refine (hopen.and (P := fun b' => Stores b' f) (by rw [hrun]; exact hst₁)).bind ?_ fun _ _ h' => h'.1
  rintro - s' b' ⟨h', hst'⟩
  show Lockstep Mirrors (Site.route key ((s'.topics.lookup t.1).getD []).length >>= _)
    (Broker.route key ((b'.topics.lookup t.1).getD []).length >>= _) s' b'
  rw [h'.topics]
  refine (h'.route hst' key _).bind ?_ fun _ _ h'' => h''.1
  rintro idx s'' b'' ⟨h'', hst''⟩
  exact (h''.onPartition hst'' t idx _).bind (fun offset _ _ h₃ => lockstep_pure _ h₃) fun _ _ h₃ => h₃

/-! ### A new broker -/

/-- What a listing of `topics_dir` shows: the directories, and how many partitions each has. -/
def Site.listing (s : Site) : List (String × ℕ) :=
  (s.disk.listdir s.topicsDir).map fun t => (t.1, s.partitionDirs t)

theorem Mirrors.lists (h : Mirrors s b) : Lists b s.listing := by
  refine ⟨?_, fun t n => ?_⟩
  · unfold Site.listing
    rw [List.map_map]
    exact (s.disk.nodup_listdir s.topicsDir).map Subtype.val_injective
  · unfold Site.listing
    rw [List.mem_map]
    constructor
    · rintro ⟨t, ht, heq⟩
      obtain ⟨rfl, rfl⟩ := Prod.mk.inj heq
      rw [DirTree.mem_listdir, h.listed] at ht
      obtain ⟨n, hn⟩ := Option.ne_none_iff_exists'.mp ht
      refine ⟨t.2, ?_⟩
      rw [h.partitionDirs, dirsOf_length hn, hn]
    · rintro ⟨ht, hn⟩
      refine ⟨⟨t, ht⟩, ?_, ?_⟩
      · rw [DirTree.mem_listdir, h.listed, hn]
        simp
      · rw [h.partitionDirs, dirsOf_length hn]

theorem listing_sorted (s : Site) :
    s.listing.mergeSort (fun a b => decide (a.1 ≤ b.1)) = s.listing := by
  refine List.mergeSort_of_pairwise ?_
  unfold Site.listing
  rw [List.pairwise_map]
  exact (s.disk.sorted_listdir s.topicsDir).imp fun h => decide_eq_true h

/-- One directory of the listing; opening it leaves the directories as they are. -/
theorem Mirrors.openListed {l : List (String × ℕ)} {s' : Site} {b' : Broker} (h : Mirrors s' b')
    (hl : ∀ e ∈ l, b'.dirCount e.1 = some e.2) {t : Name} {n : ℕ} (hmem : (t.1, n) ∈ l) :
    Lockstep (fun s'' b'' => Mirrors s'' b'' ∧ ∀ e ∈ l, b''.dirCount e.1 = some e.2)
      (when (0 < s'.partitionDirs t) (Site.openTopic t.1 (s'.partitionDirs t)))
      (when (0 < n) (Broker.openTopic t.1 n)) s' b' := by
  have hn : (b'.dirsOf t.1).length = n := dirsOf_length (hl _ hmem)
  rw [h.partitionDirs, hn]
  refine lockstep_when Iff.rfl (fun hpos => ?_) ⟨h, hl⟩
  refine (h.openTopic t n).mono fun s'' b'' ⟨h'', hw⟩ => ⟨h'', fun e he => ?_⟩
  by_cases ht : e.1 = t.1
  · have hlen : (b''.dirsOf t.1).length = n := by
      have h1 := hw.lower
      have h2 := hw.upper
      omega
    have hsame : e.2 = n := by
      have he' := hl e he
      rw [ht, hl _ hmem] at he'
      exact (Option.some.inj he').symm
    have hget := dirsOf_length_getD b'' t.1
    rw [ht, hsame]
    cases hc : b''.dirCount t.1 with
    | none =>
      rw [hc, hlen] at hget
      simp at hget
      omega
    | some m =>
      rw [hc, hlen] at hget
      exact congrArg some hget
  · rw [hw.other e.1 ht, hl e he]

/-- A new broker opens the topics that one over named directories opens from the listing. -/
theorem Mirrors.reopen (h : Mirrors s b) (config : Config) {b' : Broker}
    (hrun : b.reopen config s.listing = ⟨b', [], .ok ()⟩) :
    ∃ s', s.reopen config = ⟨s', [], .ok ()⟩ ∧ Mirrors s' b' := by
  have h₀ : Mirrors { config, topicsDir := s.topicsDir, disk := s.disk }
      { config, topicDirs := b.topicDirs, groupFiles := b.groupFiles } :=
    ⟨rfl, rfl, rfl, h.contents, h.made, h.listed⟩
  have hcount : ∀ e ∈ s.listing, b.dirCount e.1 = some e.2 := fun e he => ((h.lists.mem_iff _ _).mp he).2
  unfold Broker.reopen Broker.start at hrun
  rw [listing_sorted] at hrun
  have hsame : List.Forall₂ (fun (t : Name) (e : String × ℕ) => e.1 = t.1 ∧ e ∈ s.listing)
      (s.disk.listdir s.topicsDir) s.listing := by
    unfold Site.listing
    rw [List.forall₂_map_right_iff, List.forall₂_same]
    exact fun t ht => ⟨rfl, List.mem_map_of_mem ht⟩
  obtain ⟨s', hs', h', -⟩ := (lockstep_each
    (R := fun s' b' => Mirrors s' b' ∧ ∀ e ∈ s.listing, b'.dirCount e.1 = some e.2)
    (f := fun t : Name => (do
      let s ← read
      when (0 < s.partitionDirs t) (Site.openTopic t.1 (s.partitionDirs t)) : SiteM Unit))
    (g := fun e : String × ℕ => when (0 < e.2) (Broker.openTopic e.1 e.2)) hsame
    (by
      rintro t ⟨-, n⟩ s' b' ⟨rfl, hmem⟩ ⟨h', hl⟩
      exact lockstep_read (h'.openListed hl hmem))
    ⟨h₀, hcount⟩).run hrun
  exact ⟨s', hs', h'⟩

end Pylog.Topics
