import Mathlib.Data.Nat.ModEq
import Pylog.Base.Rounds
import Pylog.Topics.Runs

/-!
# Pylog.Topics.Balance — keyless records over the partitions of a topic (broker.py:159–173)

All topics draw their partitions from one counter, `_rr`.  The keyless records of a topic with `n`
partitions stay balanced exactly when no two records of one round of `n` are a multiple of `n` keyless
calls apart (`keyless_balanced_iff`); calls to other topics in between decide that.
-/

namespace Pylog.Topics

open Effect Effect.Handler Log Rounds

/-- The arguments of a call of `produce`. -/
structure Call where
  os : Answers := {}
  topic : String
  payload : Bytes
  key : Option String := none
  timestamp : Option ℤ := none
  now : ℤ
  deriving DecidableEq, Repr

namespace Call

def run (c : Call) : BrokerM Report :=
  Broker.produce c.os c.topic c.payload c.key c.timestamp c.now

/-- The topic is open, or `create_topic` opens it. -/
def opens (c : Call) (b : Broker) : Bool :=
  (when (b.topics.lookup c.topic = none) (Broker.createTopic c.os c.topic none) b).result.isOk

/-- The call takes a number from `_rr`. -/
def Numbered (c : Call) (b : Broker) : Prop := c.key = none ∧ c.opens b = true

instance (c : Call) (b : Broker) : Decidable (c.Numbered b) := inferInstanceAs (Decidable (_ ∧ _))

/-- The call stores a record without a key in the topic. -/
def Stores (c : Call) (topic : String) (b : Broker) : Prop :=
  c.topic = topic ∧ c.key = none ∧ (c.run b).result.isOk = true

instance (c : Call) (topic : String) (b : Broker) : Decidable (c.Stores topic b) :=
  inferInstanceAs (Decidable (_ ∧ _ ∧ _))

end Call

/-- The broker after the calls. -/
def Broker.after (b : Broker) (calls : List Call) : Broker := calls.foldl (fun b c => (c.run b).state) b

/-- The partition reported for the call, if it stores a record without a key in the topic. -/
def Call.routed (c : Call) (topic : String) (b : Broker) : List ℕ :=
  match (c.run b).result with
  | .ok report => if c.topic = topic ∧ c.key = none then [report.partition] else []
  | .error _ => []

/-- The partitions reported for the keyless records of a topic, in the order of the calls. -/
def keyless (topic : String) : Broker → List Call → List ℕ
  | _, [] => []
  | b, c :: calls => c.routed topic b ++ keyless topic (c.run b).state calls

/-- For each keyless record of a topic, how many numbers were taken before its own, from `k` on. -/
def numbers (topic : String) : Broker → ℕ → List Call → List ℕ
  | _, _, [] => []
  | b, k, c :: calls =>
    (if c.Stores topic b then [k] else []) ++
      numbers topic (c.run b).state (if c.Numbered b then k + 1 else k) calls

/-- In every topic, any two partitions have got as many keyless records, give or take one. -/
def KeylessBalanced (b : Broker) (calls : List Call) : Prop :=
  ∀ t n, (b.after calls).count t = some n → ∀ i < n, ∀ j < n,
    (keyless t b calls).count i ≤ (keyless t b calls).count j + 1

/-- No two keyless records of a topic that are in one round of its `n` partitions have a multiple of
`n` keyless calls, to whatever topic, from one up to the other. -/
def RoundsApart (b : Broker) (calls : List Call) : Prop :=
  ∀ t n, (b.after calls).count t = some n → ∀ j k, j < k → j / n = k / n →
    ∀ x y, (numbers t b 0 calls)[j]? = some x → (numbers t b 0 calls)[k]? = some y → ¬ n ∣ y - x

/-! ### One call -/

variable {b b' : Broker} {c : Call} {t topic : String} {n : ℕ}

/-- Opening partitions changes no topic and no counter. -/
theorem openPartitions_keeps (name : String) : ∀ is,
    Keeps (fun s => s.topics = b.topics ∧ s.rr = b.rr) (Broker.openPartitions name is)
  | [] => keeps_pure _
  | i :: is => by
    refine keeps_bind (fun s hs => ?_) fun p =>
      keeps_bind (openPartitions_keeps name is) fun ps => keeps_pure _
    unfold Broker.openPartition
    dsimp only
    split <;> exact hs

/-- A topic that was not open is open when `_open_topic` returns; the others stay. -/
theorem openTopic_counts (hnone : b.count topic = none) (n : ℕ) :
    (Broker.openTopic topic n b).state.rr = b.rr ∧
    (∀ t m, b.count t = some m → (Broker.openTopic topic n b).state.count t = some m) ∧
    ((Broker.openTopic topic n b).result.isOk = true →
      ∃ m, (Broker.openTopic topic n b).state.count topic = some m) := by
  obtain ⟨htopics, hrr⟩ := openPartitions_keeps (b := b) topic (List.range n) b ⟨rfl, rfl⟩
  unfold Broker.openTopic
  cases hx : Broker.openPartitions topic (List.range n) b with
  | mk b₁ o rp =>
    rw [hx] at htopics hrr
    have hsame : ∀ t, b₁.count t = b.count t := count_congr htopics
    cases rp with
    | error e =>
      rw [bind_error hx]
      exact ⟨hrr, fun t m h => (hsame t).trans h, fun h => by cases h⟩
    | ok ps =>
      rw [bind_eq hx]
      have hcount := count_withTopic b₁ topic ps
      refine ⟨hrr, fun t m h => ?_, fun _ => ⟨ps.length, (hcount topic).trans (if_pos rfl)⟩⟩
      have hne : t ≠ topic := by
        rintro rfl
        rw [hnone] at h
        cases h
      exact ((hcount t).trans (if_neg hne)).trans ((hsame t).trans h)

/-- `create_topic` keeps the topics there are, and leaves the new one open when it returns. -/
theorem createTopic_counts (os : Answers) (numPartitions : Option ℤ) :
    (Broker.createTopic os topic numPartitions b).state.rr = b.rr ∧
    (∀ t m, b.count t = some m →
      (Broker.createTopic os topic numPartitions b).state.count t = some m) ∧
    ((Broker.createTopic os topic numPartitions b).result.isOk = true →
      ∃ m, (Broker.createTopic os topic numPartitions b).state.count topic = some m) := by
  unfold Broker.createTopic
  rw [read_bind]
  split_ifs with hopen hlt
  · exact ⟨rfl, fun _ _ h => h, fun h => by cases h⟩
  · exact ⟨rfl, fun _ _ h => h, fun h => by cases h⟩
  · by_cases hmakes : os.makes = false
    · rw [bind_error (when_eq_of_pos hmakes _ b)]
      exact ⟨rfl, fun _ _ h => h, fun h => by cases h⟩
    · rw [bind_eq (when_eq_of_neg hmakes _ b)]
      exact openTopic_counts (count_eq_none.mpr (Option.not_isSome_iff_eq_none.mp hopen)) _

/-- What `produce` does before it routes the record. -/
theorem Call.opens_counts (c : Call) (b : Broker) :
    let r := when (b.topics.lookup c.topic = none) (Broker.createTopic c.os c.topic none) b
    r.state.rr = b.rr ∧ (∀ t m, b.count t = some m → r.state.count t = some m) ∧
      (r.result.isOk = true → ∃ m, r.state.count c.topic = some m) := by
  by_cases hnone : b.topics.lookup c.topic = none
  · rw [when_eq_of_pos hnone]
    exact createTopic_counts c.os none
  · rw [when_eq_of_neg hnone]
    obtain ⟨parts, hparts⟩ := Option.ne_none_iff_exists'.mp hnone
    exact ⟨rfl, fun _ _ h => h, fun _ => ⟨parts.length, count_of_lookup hparts⟩⟩

/-- A method of a partition changes neither the number of partitions nor the counter. -/
theorem onPartition_counts {α : Type} (x : LogM α) (topic : String) (i : ℕ) (b : Broker) :
    (Broker.onPartition topic i x b).state.rr = b.rr ∧
    (∀ t, (Broker.onPartition topic i x b).state.count t = b.count t) ∧
    ((Broker.onPartition topic i x b).result.isOk = true → ∃ p, b.partitionAt topic i = some p) := by
  cases hp : b.partitionAt topic i with
  | none =>
    unfold Broker.onPartition
    rw [hp]
    exact ⟨rfl, fun _ => rfl, fun h => by cases h⟩
  | some p =>
    cases hx : x p with
    | mk p' out r =>
      rw [onPartition_run hp hx]
      refine ⟨rfl, fun t => ?_, fun _ => ⟨p, rfl⟩⟩
      obtain ⟨n, hn, -⟩ := exists_count hp
      exact count_put hn t

/-- The write of a record, with the report. -/
theorem report_counts (x : LogM ℕ) (topic : String) (i : ℕ) (b : Broker) :
    let r := (Broker.onPartition topic i x >>= fun offset => pure ⟨topic, i, offset⟩ : BrokerM Report) b
    r.state.rr = b.rr ∧ (∀ t, r.state.count t = b.count t) ∧
      ∀ report, r.result = .ok report → report.partition = i ∧ ∃ p, b.partitionAt topic i = some p := by
  obtain ⟨hrr, hcount, hpart⟩ := onPartition_counts x topic i b
  cases hx : Broker.onPartition topic i x b with
  | mk b₁ o r =>
    rw [hx] at hrr hcount hpart
    cases r with
    | error e =>
      rw [bind_error hx]
      exact ⟨hrr, hcount, fun _ h => by cases h⟩
    | ok offset =>
      rw [bind_eq hx]
      refine ⟨hrr, hcount, fun report h => ?_⟩
      cases h
      exact ⟨rfl, hpart rfl⟩

/-- A call keeps the topics open, a keyless one moves the counter by one if its topic is there, and
its record goes where the counter stood. -/
theorem Call.run_spec (c : Call) (b : Broker) :
    (c.run b).state.rr = (if c.Numbered b then b.rr + 1 else b.rr) ∧
    (∀ t n, b.count t = some n → (c.run b).state.count t = some n) ∧
    ∀ report, (c.run b).result = .ok report → c.key = none → c.Numbered b ∧
      ∃ n, 0 < n ∧ (c.run b).state.count c.topic = some n ∧ report.partition = b.rr % n := by
  obtain ⟨hrr, hcounts, hopened⟩ := c.opens_counts b
  obtain ⟨b₁, o, r, hx⟩ : ∃ b₁ o r, when (b.topics.lookup c.topic = none)
      (Broker.createTopic c.os c.topic none) b = ⟨b₁, o, r⟩ := ⟨_, _, _, rfl⟩
  have hnumbered : c.Numbered b ↔ c.key = none ∧ r.isOk = true := by
    unfold Call.Numbered Call.opens
    rw [hx]
  rw [hx] at hrr hcounts hopened
  dsimp only at hrr hcounts hopened
  unfold Call.run Broker.produce
  rw [read_bind]
  cases r with
  | error e =>
    have hnot : ¬c.Numbered b := fun h => by cases (hnumbered.mp h).2
    rw [bind_error hx, if_neg hnot]
    exact ⟨hrr, hcounts, fun _ h => by cases h⟩
  | ok _ =>
    obtain ⟨n, hn⟩ := hopened rfl
    obtain ⟨parts, hparts, rfl⟩ := Option.map_eq_some_iff.mp hn
    rw [bind_eq hx, read_bind, hparts, Option.getD_some]
    cases hkey : c.key with
    | some k =>
      rw [bind_eq (show Broker.route (some k) parts.length b₁ = ⟨b₁, [], .ok _⟩ from rfl)]
      obtain ⟨hrr', hcount', -⟩ := report_counts
        (Partition.append c.payload (c.timestamp.getD c.now)) c.topic
        (Broker.keyIndex k parts.length) b₁
      refine ⟨hrr'.trans ?_, fun t m h => (hcount' t).trans (hcounts t m h), fun _ _ h => by cases h⟩
      have hnot : ¬c.Numbered b := fun h => by
        have hnone := (hnumbered.mp h).1
        rw [hkey] at hnone
        cases hnone
      rw [if_neg hnot, hrr]
    | none =>
      have hnum : c.Numbered b := hnumbered.mpr ⟨hkey, rfl⟩
      rw [bind_eq (show Broker.route none parts.length b₁ =
        ⟨{ b₁ with rr := b₁.rr + 1 }, [], .ok (b₁.rr % parts.length)⟩ from rfl)]
      obtain ⟨hrr', hcount', hreport⟩ := report_counts
        (Partition.append c.payload (c.timestamp.getD c.now)) c.topic (b₁.rr % parts.length)
        { b₁ with rr := b₁.rr + 1 }
      refine ⟨hrr'.trans ?_, fun t m h => (hcount' t).trans (hcounts t m h), fun report h _ => ?_⟩
      · rw [if_pos hnum, ← hrr]
      · obtain ⟨hp, p, hpart⟩ := hreport report h
        refine ⟨hnum, parts.length, ?_, (hcount' c.topic).trans hn, by rw [hp, hrr]⟩
        -- there is a partition at the index
        unfold Broker.partitionAt at hpart
        dsimp only at hpart
        rw [hparts, Option.bind_some] at hpart
        have := (List.getElem?_eq_some_iff.mp hpart).1
        omega

/-- A keyless record of the topic goes where the counter stands. -/
theorem Call.routed_spec (c : Call) (t : String) (b : Broker) :
    (c.Stores t b ∧ c.Numbered b ∧ ∃ n, 0 < n ∧ (c.run b).state.count t = some n ∧
      c.routed t b = [b.rr % n]) ∨ (¬c.Stores t b ∧ c.routed t b = []) := by
  obtain ⟨-, -, hstored⟩ := c.run_spec b
  unfold Call.Stores Call.routed
  cases hr : (c.run b).result with
  | error e => exact .inr ⟨fun h => (by cases h.2.2), rfl⟩
  | ok report =>
    dsimp only
    split_ifs with hc
    · obtain ⟨rfl, hkey⟩ := hc
      obtain ⟨hnum, n, hn, hcount, hp⟩ := hstored report hr hkey
      exact .inl ⟨⟨rfl, hkey, rfl⟩, hnum, n, hn, hcount, by rw [hp]⟩
    · exact .inr ⟨fun h => hc ⟨h.1, h.2.1⟩, rfl⟩

/-! ### Runs of calls -/

variable {calls : List Call}

/-- Open topics keep their number of partitions. -/
theorem after_count (hn : b.count t = some n) (calls : List Call) :
    (b.after calls).count t = some n := by
  induction calls generalizing b with
  | nil => exact hn
  | cons c calls ih => exact ih ((c.run_spec b).2.1 t n hn)

theorem after_take_count {m : ℕ} (hn : (b.after (calls.take m)).count t = some n) :
    (b.after calls).count t = some n := by
  have h := after_count hn (calls.drop m)
  unfold Broker.after at h
  rwa [← List.foldl_append, List.take_append_drop] at h

/-- The records of a topic are in its partitions. -/
theorem keyless_lt {i : ℕ} (hi : i ∈ keyless t b calls) :
    ∃ n, (b.after calls).count t = some n ∧ i < n := by
  induction calls generalizing b with
  | nil => cases hi
  | cons c calls ih =>
    unfold keyless at hi
    rcases List.mem_append.mp hi with hi | hi
    · rcases c.routed_spec t b with ⟨-, -, n, hn, hcount, hr⟩ | ⟨-, hr⟩
      · rw [hr, List.mem_singleton] at hi
        exact ⟨n, after_count (b := (c.run b).state) hcount calls, hi ▸ Nat.mod_lt _ hn⟩
      · rw [hr] at hi
        cases hi
    · exact ih hi

/-- The partition of a keyless record is its number, counted from where the counter stood. -/
theorem keyless_eq {start k : ℕ} (hrr : b.rr = start + k) (hn : (b.after calls).count t = some n) :
    keyless t b calls = (numbers t b k calls).map fun x => (start + x) % n := by
  induction calls generalizing b k with
  | nil => rfl
  | cons c calls ih =>
    have hrr' := (c.run_spec b).1
    unfold keyless numbers
    rw [List.map_append]
    congr 1
    · rcases c.routed_spec t b with ⟨hs, -, n', -, hcount, hr⟩ | ⟨hs, hr⟩
      · have hend : (b.after (c :: calls)).count t = some n' := after_count (b := (c.run b).state) hcount calls
        obtain rfl : n' = n := Option.some.inj (hend.symm.trans hn)
        rw [hr, if_pos hs, hrr]
        rfl
      · rw [hr, if_neg hs]
        rfl
    · refine ih ?_ hn
      rw [hrr', hrr]
      split_ifs <;> rfl

/-- Later records have larger numbers. -/
theorem numbers_sorted : ∀ (calls : List Call) {b : Broker} {k : ℕ},
    (∀ x ∈ numbers t b k calls, k ≤ x) ∧ (numbers t b k calls).Pairwise (· < ·)
  | [], _, _ => ⟨by simp [numbers], List.Pairwise.nil⟩
  | c :: calls, b, k => by
    obtain ⟨hle, hsorted⟩ := numbers_sorted calls (b := (c.run b).state)
      (k := if c.Numbered b then k + 1 else k)
    unfold numbers
    rcases c.routed_spec t b with ⟨hs, hnum, -⟩ | ⟨hs, -⟩
    · rw [if_pos hnum] at hle hsorted ⊢
      rw [if_pos hs, List.singleton_append]
      refine ⟨fun x hx => ?_, List.pairwise_cons.mpr ⟨fun x hx => hle x hx, hsorted⟩⟩
      rcases List.mem_cons.mp hx with rfl | hx
      · exact le_rfl
      · exact (Nat.le_succ k).trans (hle x hx)
    · rw [if_neg hs, List.nil_append]
      refine ⟨fun x hx => le_trans ?_ (hle x hx), hsorted⟩
      split_ifs <;> omega

/-- The records after some of the calls are the first of all, … -/
theorem keyless_take (t : String) (b : Broker) (calls : List Call) (m : ℕ) :
    ∃ m', keyless t b (calls.take m) = (keyless t b calls).take m' := by
  induction calls generalizing b m with
  | nil => exact ⟨0, by rw [List.take_nil]; rfl⟩
  | cons c calls ih =>
    cases m with
    | zero => exact ⟨0, rfl⟩
    | succ m =>
      obtain ⟨m', hm⟩ := ih (c.run b).state m
      refine ⟨(c.routed t b).length + m', ?_⟩
      rw [List.take_succ_cons]
      unfold keyless
      rw [hm, List.take_length_add_append]

/-- … and any number of them. -/
theorem keyless_reaches (t : String) (b : Broker) (calls : List Call) (m : ℕ) :
    ∃ m', keyless t b (calls.take m') = (keyless t b calls).take m := by
  induction calls generalizing b m with
  | nil => exact ⟨0, List.take_nil.symm⟩
  | cons c calls ih =>
    rcases c.routed_spec t b with ⟨-, -, n, -, -, hr⟩ | ⟨-, hr⟩
    · cases m with
      | zero => exact ⟨0, rfl⟩
      | succ m =>
        obtain ⟨m', hm⟩ := ih (c.run b).state m
        refine ⟨m' + 1, ?_⟩
        rw [List.take_succ_cons]
        unfold keyless
        rw [hr, hm]
        rfl
    · obtain ⟨m', hm⟩ := ih (c.run b).state m
      refine ⟨m' + 1, ?_⟩
      rw [List.take_succ_cons]
      unfold keyless
      rw [hr, hm]
      rfl

/-- The partitions of a topic are balanced all along exactly when the numbers of its records are
apart. -/
theorem keyless_spread_iff (hn : (b.after calls).count t = some n) :
    (∀ m, Balanced (Finset.range n) ((keyless t b calls).take m)) ↔
      ∀ j k, j < k → j / n = k / n → ∀ x y, (numbers t b 0 calls)[j]? = some x →
        (numbers t b 0 calls)[k]? = some y → ¬n ∣ y - x := by
  have hx : ∀ i ∈ keyless t b calls, i ∈ Finset.range n := by
    intro i hi
    obtain ⟨n', hn', hlt⟩ := keyless_lt hi
    obtain rfl : n' = n := Option.some.inj (hn'.symm.trans hn)
    exact Finset.mem_range.mpr hlt
  rw [balanced_iff_spread hx, Finset.card_range, keyless_eq (Nat.add_zero b.rr).symm hn]
  refine forall₄_congr fun j k hjk hround => ?_
  -- two numbers lead to one partition when their difference is a multiple of `n`
  have hsame : ∀ x y, (numbers t b 0 calls)[j]? = some x → (numbers t b 0 calls)[k]? = some y →
      ((b.rr + x) % n = (b.rr + y) % n ↔ n ∣ y - x) := by
    intro x y hjx hky
    obtain ⟨hj, rfl⟩ := List.getElem?_eq_some_iff.mp hjx
    obtain ⟨hk, rfl⟩ := List.getElem?_eq_some_iff.mp hky
    have hlt := List.pairwise_iff_getElem.mp (numbers_sorted calls).2 j k hj hk hjk
    have hmod := Nat.modEq_iff_dvd' (n := n) (Nat.add_le_add_left hlt.le b.rr)
    rw [Nat.add_sub_add_left] at hmod
    exact hmod
  constructor
  · intro h x y hjx hky hdvd
    refine h _ (by rw [List.getElem?_map, hjx]; rfl) ?_
    rw [List.getElem?_map, hky, Option.map_some]
    exact congrArg some ((hsame x y hjx hky).mpr hdvd).symm
  · intro h i hi hi'
    rw [List.getElem?_map, Option.map_eq_some_iff] at hi hi'
    obtain ⟨x, hjx, rfl⟩ := hi
    obtain ⟨y, hky, heq⟩ := hi'
    exact h x y hjx hky ((hsame x y hjx hky).mp heq.symm)

/-- **Keyless records stay balanced, after every call, exactly when the rounds of every topic are
apart.** -/
theorem keyless_balanced_iff (b : Broker) (calls : List Call) :
    (∀ m, KeylessBalanced b (calls.take m)) ↔ RoundsApart b calls := by
  constructor
  · intro h t n hn
    refine (keyless_spread_iff hn).mp fun m => ?_
    obtain ⟨m', hm⟩ := keyless_reaches t b calls m
    rw [← hm]
    intro i hi j hj
    cases hc : (b.after (calls.take m')).count t with
    | some n' =>
      obtain rfl : n' = n := Option.some.inj ((after_take_count hc).symm.trans hn)
      exact h m' t n' hc i (Finset.mem_range.mp hi) j (Finset.mem_range.mp hj)
    | none =>
      -- a topic that is not open yet has no records
      rcases List.eq_nil_or_concat (keyless t b (calls.take m')) with hnil | ⟨l, x, hl⟩
      · rw [hnil]
        exact Nat.zero_le _
      · obtain ⟨n', hn', -⟩ := keyless_lt (i := x) (by rw [hl]; simp)
        rw [hc] at hn'
        cases hn'
  · intro h m t n hn i hi j hj
    have hend := after_take_count hn
    obtain ⟨m', hm⟩ := keyless_take t b calls m
    rw [hm]
    exact (keyless_spread_iff hend).mpr (h t n hend) m' i (Finset.mem_range.mpr hi) j
      (Finset.mem_range.mpr hj)

/-- Keyless records for two new topics of three partitions, in turn `a`, `b`, `b`, `a`: both records
of `a` go to its first partition. -/
theorem keyless_unbalanced :
    let calls : List Call := ["a", "b", "b", "a"].map fun t => { topic := t, payload := [65], now := 0 }
    keyless "a" (History.init {}).broker calls = [0, 0] ∧
      ¬KeylessBalanced (History.init {}).broker calls := by
  intro calls
  have hkeyless : keyless "a" (History.init {}).broker calls = [0, 0] := by decide +kernel
  refine ⟨hkeyless, fun h => ?_⟩
  have := h "a" 3 (by decide +kernel) 0 (by omega) 1 (by omega)
  rw [hkeyless] at this
  exact absurd this (by decide)

end Pylog.Topics
