import Mathlib
import Pylog.Base.Paths
import Pylog.Topics.Runs

/-!
# What a consumer group is given

The group's offset for a partition is one less than the number of messages it was given, in memory
and in its file (`Cursor`).  `consume_delivers_each_once`: as long as no write of the file fails in
a request of the group for the partition, its requests are given the produced messages one after the
other.  `commit` changes the object before the file, so after a write that fails the offset counts
messages that nobody was given.
-/

namespace Pylog.Topics

open Effect Effect.Handler Log Transition

/-! ### The key of a partition -/

theorem slash_notMem_repr (i : ℤ) : '/' ∉ i.repr.toList := by
  cases i with
  | ofNat n => exact Paths.slash_notMem_numeral n
  | negSucc n =>
    show '/' ∉ (("-" : String) ++ Nat.repr (n + 1)).toList
    rw [String.toList_append, List.mem_append, not_or]
    exact ⟨by decide, Paths.slash_notMem_numeral _⟩

/-- The last occurrence of a separator splits a list in one way. -/
theorem split_last_inj {α : Type} {c : α} {xs ys xs' ys' : List α} (hy : c ∉ ys) (hy' : c ∉ ys')
    (h : xs ++ c :: ys = xs' ++ c :: ys') : xs = xs' ∧ ys = ys' := by
  rcases List.append_eq_append_iff.mp h with ⟨zs, h1, h2⟩ | ⟨zs, h1, h2⟩
  · cases zs with
    | nil =>
      rw [List.append_nil] at h1
      exact ⟨h1.symm, (List.cons.inj h2).2⟩
    | cons z zs =>
      rw [List.cons_append, List.cons.injEq] at h2
      exact absurd (by rw [h2.2]; simp) hy
  · cases zs with
    | nil =>
      rw [List.append_nil] at h1
      exact ⟨h1, (List.cons.inj h2).2.symm⟩
    | cons z zs =>
      rw [List.cons_append, List.cons.injEq] at h2
      exact absurd (by rw [h2.2]; simp) hy'

/-- Two partitions do not share a key, since a number has no `/`. -/
theorem offsetKey_inj {t t' : String} {i i' : ℤ} (h : offsetKey t i = offsetKey t' i') :
    t = t' ∧ i = i' := by
  have hlist := congrArg String.toList h
  unfold offsetKey at hlist
  rw [String.append_assoc, String.append_assoc, String.toList_append, String.toList_append,
    String.toList_append, String.toList_append] at hlist
  obtain ⟨h1, h2⟩ := split_last_inj (slash_notMem_repr i) (slash_notMem_repr i') hlist
  exact ⟨String.toList_inj.mp h1, Int.repr_injective (String.toList_inj.mp h2)⟩

theorem committedIn_insert (offsets : Dict ℤ) (t t' : String) (i i' offset : ℤ) :
    committedIn (offsets.insert (offsetKey t i) offset) t' i' =
      if t' = t ∧ i' = i then offset else committedIn offsets t' i' := by
  unfold committedIn
  by_cases h : t' = t ∧ i' = i
  · obtain ⟨rfl, rfl⟩ := h
    rw [if_pos ⟨rfl, rfl⟩, AList.lookup_insert, Option.getD_some]
  · rw [if_neg h, AList.lookup_insert_ne fun hkey => h (offsetKey_inj hkey)]

/-! ### The cursor of a group -/

/-- The group's offset for the partition is `c`, in memory and in its file. -/
structure Cursor (groupFile : String → String) (g t : String) (i : ℤ) (b : Broker) (c : ℤ) :
    Prop where
  file : committedIn ((b.groupFiles.lookup (groupFile g)).getD ∅) t i = c
  memory : ∀ grp, b.groups.lookup g = some grp → grp.committed t i = c
  path : ∀ name grp, b.groups.lookup name = some grp → grp.path = groupFile name

section Cursor

variable {groupFile : String → String} {g t : String} {i c : ℤ} {b : Broker}

/-- `group` returns the group that is in memory afterwards, if it can be loaded. -/
theorem Cursor.group (h : Cursor groupFile g t i b c) (os : Answers) (name : String) :
    ∃ b' r, Broker.group groupFile os name b = ⟨b', [], r⟩ ∧ Cursor groupFile g t i b' c ∧
      b'.topics = b.topics ∧ (os.loads = true → ∃ grp, r = .ok grp) ∧
      ∀ grp, r = .ok grp → b'.groups.lookup name = some grp := by
  unfold Broker.group
  rw [read_bind]
  cases hb : b.groups.lookup name with
  | some grp =>
    refine ⟨b, _, rfl, h, rfl, fun _ => ⟨grp, rfl⟩, ?_⟩
    rintro grp' ⟨⟩
    exact hb
  | none =>
    cases hos : os.loads with
    | false => exact ⟨b, _, rfl, h, rfl, by simp, by simp⟩
    | true =>
      refine ⟨{ b with
        groups := b.groups.insert name
          ⟨name, groupFile name, (b.groupFiles.lookup (groupFile name)).getD ∅⟩ }, _, rfl,
        ⟨h.file, ?_, ?_⟩, rfl, fun _ => ⟨_, rfl⟩, ?_⟩
      · intro grp hgrp
        by_cases hname : g = name
        · subst hname
          rw [AList.lookup_insert] at hgrp
          obtain rfl := Option.some.inj hgrp
          exact h.file
        · rw [AList.lookup_insert_ne hname] at hgrp
          exact h.memory grp hgrp
      · intro name' grp hgrp
        by_cases hname : name' = name
        · subst hname
          rw [AList.lookup_insert] at hgrp
          obtain rfl := Option.some.inj hgrp
          rfl
        · rw [AList.lookup_insert_ne hname] at hgrp
          exact h.path name' grp hgrp
      · rintro grp' ⟨⟩
        exact AList.lookup_insert _

/-- A group in memory is returned as it is. -/
theorem group_eq {grp : ConsumerGroup} {name : String} (hgrp : b.groups.lookup name = some grp)
    (os : Answers) : Broker.group groupFile os name b = ⟨b, [], .ok grp⟩ := by
  unfold Broker.group
  rw [read_bind, hgrp]
  rfl

/-- The broker once the object has changed, and once the file has. -/
def Broker.advanced (b : Broker) (name : String) (grp : ConsumerGroup) (offsets : Dict ℤ) : Broker :=
  { b with groups := b.groups.insert name { grp with offsets := offsets } }

/-- What `commit` does for a group in memory: nothing, or first the object and then the file. -/
theorem commit_eq {grp : ConsumerGroup} {name : String} (hgrp : b.groups.lookup name = some grp)
    (os : Answers) (topic : String) (partition offset : ℤ) {offsets : Dict ℤ}
    (hoffsets : offsets = grp.offsets.insert (offsetKey topic partition) offset) :
    Broker.commit groupFile os name topic partition offset b =
      if offset < grp.committed topic partition then ⟨b, [], .ok ()⟩
      else if os.writes = false then ⟨b.advanced name grp offsets, [], .error .osError⟩
      else ⟨{ b.advanced name grp offsets with
        groupFiles := b.groupFiles.insert grp.path offsets }, [], .ok ()⟩ := by
  subst hoffsets
  unfold Broker.commit
  rw [bind_eq (group_eq hgrp os), List.nil_append]
  by_cases hlt : offset < grp.committed topic partition
  · rw [if_pos hlt, if_pos hlt]
    rfl
  · rw [if_neg hlt, if_neg hlt]
    cases os.writes <;> rfl

theorem lookup_advanced (b : Broker) (name : String) (grp : ConsumerGroup) (offsets : Dict ℤ)
    (name' : String) : (b.advanced name grp offsets).groups.lookup name' =
      if name' = name then some { grp with offsets := offsets } else b.groups.lookup name' := by
  unfold Broker.advanced
  by_cases hname : name' = name
  · rw [if_pos hname, hname]
    exact AList.lookup_insert _
  · rw [if_neg hname]
    exact AList.lookup_insert_ne hname

/-- A group keeps its path when its offsets change. -/
theorem path_advanced (hpath : ∀ name grp, b.groups.lookup name = some grp → grp.path = groupFile name)
    {name : String} {grp : ConsumerGroup} (hgrp : b.groups.lookup name = some grp)
    (offsets : Dict ℤ) : ∀ name' grp', (b.advanced name grp offsets).groups.lookup name' = some grp' →
      grp'.path = groupFile name' := by
  intro name' grp' hgrp'
  rw [lookup_advanced] at hgrp'
  split_ifs at hgrp' with hname
  · obtain rfl := Option.some.inj hgrp'
    rw [hname]
    exact hpath name grp hgrp
  · exact hpath name' grp' hgrp'

/-- The object of a group changes. -/
theorem Cursor.advanced (h : Cursor groupFile g t i b c) {name : String} {grp : ConsumerGroup}
    (hgrp : b.groups.lookup name = some grp) {offsets : Dict ℤ}
    (hkeep : name = g → committedIn offsets t i = c) :
    Cursor groupFile g t i (b.advanced name grp offsets) c := by
  refine ⟨h.file, ?_, path_advanced h.path hgrp offsets⟩
  intro grp' hgrp'
  rw [lookup_advanced] at hgrp'
  split_ifs at hgrp' with hname
  · obtain rfl := Option.some.inj hgrp'
    exact hkeep hname.symm
  · exact h.memory grp' hgrp'

/-- A commit of another group, or for another partition, leaves the offset alone, whether or not
its write succeeds. -/
theorem Cursor.commit_elsewhere (h : Cursor groupFile g t i b c) {name topic : String}
    {partition : ℤ} (hne : ¬ (name = g ∧ topic = t ∧ partition = i))
    (hfile : groupFile name = groupFile g → name = g) (os : Answers) {grp : ConsumerGroup}
    (hgrp : b.groups.lookup name = some grp) (offset : ℤ) :
    Cursor groupFile g t i (Broker.commit groupFile os name topic partition offset b).state c := by
  rw [commit_eq hgrp os topic partition offset rfl]
  have hkeep : name = g →
      committedIn (grp.offsets.insert (offsetKey topic partition) offset) t i = c := by
    intro hname
    rw [committedIn_insert, if_neg]
    · rw [hname] at hgrp
      exact h.memory grp hgrp
    · rintro ⟨rfl, rfl⟩
      exact hne ⟨hname, rfl, rfl⟩
  have hadv := h.advanced hgrp hkeep
  split_ifs
  · exact h
  · exact hadv
  · refine ⟨?_, hadv.memory, hadv.path⟩
    show committedIn ((AList.lookup (groupFile g) (b.groupFiles.insert grp.path _)).getD ∅) t i = c
    rw [h.path name grp hgrp]
    by_cases hname : groupFile g = groupFile name
    · rw [hname, AList.lookup_insert, Option.getD_some]
      exact hkeep (hfile hname.symm)
    · rw [AList.lookup_insert_ne hname]
      exact h.file

/-- A commit of the group for the partition moves the offset, if the file can be written. -/
theorem Cursor.commit_here (h : Cursor groupFile g t i b c) {os : Answers} (hos : os.writes = true)
    {grp : ConsumerGroup} (hgrp : b.groups.lookup g = some grp) {offset : ℤ} (hle : c ≤ offset) :
    ∃ b', Broker.commit groupFile os g t i offset b = ⟨b', [], .ok ()⟩ ∧
      Cursor groupFile g t i b' offset := by
  have hnew : committedIn (grp.offsets.insert (offsetKey t i) offset) t i = offset := by
    rw [committedIn_insert, if_pos ⟨rfl, rfl⟩]
  rw [commit_eq hgrp os t i offset rfl, if_neg (by rw [h.memory grp hgrp]; omega),
    if_neg (by rw [hos]; simp)]
  refine ⟨_, rfl, ?_, ?_, path_advanced h.path hgrp _⟩
  · show committedIn ((AList.lookup (groupFile g) (b.groupFiles.insert grp.path _)).getD ∅) t i = _
    rw [h.path g grp hgrp, AList.lookup_insert, Option.getD_some, hnew]
  · intro grp' hgrp'
    have hlookup := lookup_advanced b g grp (grp.offsets.insert (offsetKey t i) offset) g
    rw [if_pos rfl] at hlookup
    obtain rfl := Option.some.inj (hlookup.symm.trans hgrp')
    exact hnew

/-! ### Consume requests -/

/-- A fetch looks at the topics only. -/
theorem fetch_congr {b' : Broker} (h : b'.topics = b.topics) (topic : String)
    (partition after limit : ℤ) :
    b'.fetch topic partition after limit = b.fetch topic partition after limit := by
  unfold Broker.fetch Broker.partitionAt
  rw [h]

/-- Without a group, or without messages, nothing is committed. -/
theorem commitLast_skip {group : String} {msgs : List Message} (h : group = "" ∨ msgs = [])
    (os : Answers) (topic : String) (partition : ℤ) (b : Broker) :
    Broker.commitLast groupFile os group topic partition msgs b = ⟨b, [], .ok ()⟩ := by
  unfold Broker.commitLast
  rcases h with h | rfl
  · cases msgs.getLast? with
    | none => rfl
    | some m => exact when_eq_of_neg (by simpa using h) _ _
  · rfl

theorem commitLast_some {group : String} (hgroup : group ≠ "") (os : Answers) (topic : String)
    (partition : ℤ) {msgs : List Message} {m : Message} (hm : msgs.getLast? = some m) :
    Broker.commitLast groupFile os group topic partition msgs =
      Broker.commit groupFile os group topic partition m.offset := by
  unfold Broker.commitLast
  rw [hm]
  exact if_pos hgroup

/-- The request behind `after`. -/
theorem consumeFrom_eq {os : Answers} {group topic : String} {partition after : ℤ} {b₁ : Broker}
    (hafter : Broker.afterOffset groupFile os group topic partition b = ⟨b₁, [], .ok after⟩)
    (limit : ℤ) : Broker.consumeFrom groupFile os group topic partition limit b =
      match b₁.fetch topic partition after limit with
      | .error e => ⟨b₁, [], .error e⟩
      | .ok msgs => (Broker.commitLast groupFile os group topic partition msgs >>=
          fun _ => pure msgs : BrokerM (List Message)) b₁ := by
  unfold Broker.consumeFrom
  rw [bind_eq hafter, List.nil_append, read_bind]
  cases b₁.fetch topic partition after limit <;> rfl

theorem Cursor.afterOffset (h : Cursor groupFile g t i b c) {group : String} (hgroup : group ≠ "")
    (os : Answers) (topic : String) (partition : ℤ) :
    ∃ b' r, Broker.afterOffset groupFile os group topic partition b = ⟨b', [], r⟩ ∧
      Cursor groupFile g t i b' c ∧ b'.topics = b.topics ∧
      ∀ after, r = .ok after → ∃ grp, b'.groups.lookup group = some grp ∧
        after = grp.committed topic partition := by
  obtain ⟨b', r, hrun, h', htopics, -, hin⟩ := h.group os group
  unfold Broker.afterOffset
  rw [if_neg hgroup]
  cases r with
  | error e => exact ⟨b', .error e, bind_error hrun, h', htopics, by simp⟩
  | ok grp =>
    refine ⟨b', _, bind_run hrun (pure_eq _ _), h', htopics, ?_⟩
    rintro after ⟨⟩
    exact ⟨grp, hin grp rfl, rfl⟩

/-- A request for another group or partition leaves the offset alone. -/
theorem Cursor.consumeFrom_elsewhere (h : Cursor groupFile g t i b c) {group topic : String}
    {partition : ℤ} (hne : ¬ (group = g ∧ topic = t ∧ partition = i))
    (hfile : group ≠ "" → groupFile group = groupFile g → group = g) (os : Answers) (limit : ℤ) :
    Cursor groupFile g t i (Broker.consumeFrom groupFile os group topic partition limit b).state
      c := by
  by_cases hgroup : group = ""
  · have hafter : Broker.afterOffset groupFile os group topic partition b = ⟨b, [], .ok (-1)⟩ := by
      unfold Broker.afterOffset
      rw [if_pos hgroup]
      rfl
    rw [consumeFrom_eq hafter]
    cases b.fetch topic partition (-1) limit with
    | error e => exact h
    | ok msgs =>
      dsimp only
      rw [bind_eq (commitLast_skip (.inl hgroup) os topic partition b)]
      exact h
  · obtain ⟨b₁, r, hrun, h₁, -, hin⟩ := h.afterOffset hgroup os topic partition
    cases r with
    | error e =>
      unfold Broker.consumeFrom
      rw [bind_error hrun]
      exact h₁
    | ok after =>
      obtain ⟨grp, hgrp, -⟩ := hin after rfl
      rw [consumeFrom_eq hrun]
      cases b₁.fetch topic partition after limit with
      | error e => exact h₁
      | ok msgs =>
        dsimp only
        cases hlast : msgs.getLast? with
        | none =>
          rw [bind_eq (commitLast_skip (.inr (List.getLast?_eq_none_iff.mp hlast)) os topic
            partition b₁)]
          exact h₁
        | some m =>
          rw [bind_pure_state _ fun _ => msgs, commitLast_some hgroup os topic partition hlast]
          exact h₁.commit_elsewhere hne (hfile hgroup) os hgrp m.offset

/-- A request of the group for the partition returns what is behind the offset and moves it to the
last message, or is answered with an error and leaves it. -/
theorem Cursor.consumeFrom_here (h : Cursor groupFile g t i b c) (hg : g ≠ "") {os : Answers}
    (hos : os.writes = true) (limit : ℤ)
    (hmono : ∀ msgs m, b.fetch t i c limit = .ok msgs → msgs.getLast? = some m → c ≤ m.offset) :
    ∃ b' r, Broker.consumeFrom groupFile os g t i limit b = ⟨b', [], r⟩ ∧
      ((∃ e, r = .error e ∧ Cursor groupFile g t i b' c) ∨
        ∃ msgs, r = .ok msgs ∧ b.fetch t i c limit = .ok msgs ∧
          Cursor groupFile g t i b' (match msgs.getLast? with | none => c | some m => m.offset)) := by
  obtain ⟨b₁, r, hrun, h₁, htopics, hin⟩ := h.afterOffset hg os t i
  cases r with
  | error e =>
    refine ⟨b₁, .error e, ?_, .inl ⟨e, rfl, h₁⟩⟩
    unfold Broker.consumeFrom
    rw [bind_error hrun]
  | ok after =>
    obtain ⟨grp, hgrp, rfl⟩ := hin after rfl
    rw [consumeFrom_eq hrun, h₁.memory grp hgrp, fetch_congr htopics]
    cases hfetch : b.fetch t i c limit with
    | error e => exact ⟨b₁, _, rfl, .inl ⟨e, rfl, h₁⟩⟩
    | ok msgs =>
      dsimp only
      cases hlast : msgs.getLast? with
      | none =>
        rw [bind_eq (commitLast_skip (.inr (List.getLast?_eq_none_iff.mp hlast)) os t i b₁)]
        exact ⟨b₁, _, rfl, .inr ⟨msgs, rfl, rfl, by rw [hlast]; exact h₁⟩⟩
      | some m =>
        obtain ⟨b₂, hcommit, h₂⟩ := h₁.commit_here hos hgrp (hmono msgs m hfetch hlast)
        rw [commitLast_some hg os t i hlast, bind_eq hcommit]
        exact ⟨b₂, _, rfl, .inr ⟨msgs, rfl, rfl, by rw [hlast]; exact h₂⟩⟩

end Cursor

/-! ### Runs -/

/-- The message that a produced record is given out as. -/
def Produced.message (e : Produced) : Message := Message.ofRecord e.record

/-- A request of the group `g` for partition `i` of the topic `t`. -/
def ConsumeRequest.On (rq : ConsumeRequest) (g t : String) (i : ℕ) : Prop :=
  rq.group = g ∧ rq.topic = t ∧ rq.partition = .ok (i : ℤ)

instance (rq : ConsumeRequest) (g t : String) (i : ℕ) : Decidable (rq.On g t i) :=
  inferInstanceAs (Decidable (_ ∧ _))

/-- The messages a group was given for a partition. -/
def History.delivered (s : History) (g t : String) (i : ℕ) : List Message :=
  (s.answers.filter fun a => decide (a.1.On g t i)).flatMap Prod.snd

/-- Other groups have other files, and the group's file can be written whenever the group asks for
messages of the partition. -/
def Event.Saved (groupFile : String → String) (g t : String) (i : ℕ) (s : History) (e : Event) :
    Prop :=
  e.Valid s ∧ match e with
    | .consume os rq =>
      (rq.group ≠ "" → groupFile rq.group = groupFile g → rq.group = g) ∧
        (rq.On g t i → os.writes = true)
    | _ => True

/-- The group was given the first of the records reported for the partition, each once. -/
structure History.DeliversOnce (groupFile : String → String) (g t : String) (i : ℕ) (s : History) :
    Prop where
  messages : s.delivered g t i =
    ((s.reported t i).map Produced.message).take (s.delivered g t i).length
  offsets : (s.delivered g t i).map Message.offset = List.range (s.delivered g t i).length
  lag : ∀ p os, s.broker.partitionAt t i = some p → os.loads = true →
    ∃ b', s.broker.lag groupFile os g t i =
      ⟨b', [], .ok ((Partition.highWatermark p : ℤ) - (s.delivered g t i).length)⟩

/-- What the group was given, and its offset. -/
structure Consumed (groupFile : String → String) (g t : String) (i : ℕ) (s : History) : Prop where
  stored : Stored s
  messages : s.delivered g t i =
    ((s.reported t i).map Produced.message).take (s.delivered g t i).length
  cursor : Cursor groupFile g t i s.broker ((s.delivered g t i).length - 1)

section Runs

variable {groupFile : String → String} {g t : String} {i : ℕ} {s : History}

theorem Consumed.length_le (h : Consumed groupFile g t i s) :
    (s.delivered g t i).length ≤ (s.reported t i).length := by
  have := congrArg List.length h.messages
  rw [List.length_take, List.length_map] at this
  omega

/-- The first records reported have the offsets `0`, `1`, …. -/
theorem Stored.offsets_of_take (h : Stored s) {ms : List Message}
    (hms : ms = ((s.reported t i).map Produced.message).take ms.length) :
    ms.map Message.offset = List.range ms.length := by
  have hle : ms.length ≤ (s.reported t i).length := by
    have := congrArg List.length hms
    rw [List.length_take, List.length_map] at this
    omega
  conv_lhs => rw [hms]
  rw [List.map_take, List.map_map]
  have hmap : (s.reported t i).map (Message.offset ∘ Produced.message) =
      (s.reported t i).map Produced.offset := rfl
  rw [hmap, h.offsets, List.take_range, Nat.min_eq_left hle]

theorem consumed_init (config : Config) : Consumed groupFile g t i (History.init config) := by
  refine ⟨stored_init config, rfl, ?_⟩
  rw [init_broker]
  exact ⟨rfl, by simp, by simp⟩

theorem Cursor.congr {b b' : Broker} {i c : ℤ} (h : Cursor groupFile g t i b c)
    (hgroups : b'.groups = b.groups ∨ b'.groups = ∅) (hfiles : b'.groupFiles = b.groupFiles) :
    Cursor groupFile g t i b' c := by
  refine ⟨by rw [hfiles]; exact h.file, ?_, ?_⟩
  · rcases hgroups with hg | hg
    · rw [hg]
      exact h.memory
    · rw [hg]
      simp
  · rcases hgroups with hg | hg
    · rw [hg]
      exact h.path
    · rw [hg]
      simp

/-- What a fetch behind the messages given so far returns. -/
theorem Consumed.fetch (h : Consumed groupFile g t i s) {limit : ℤ} {msgs : List Message}
    (hfetch : s.broker.fetch t i ((s.delivered g t i).length - 1) limit = .ok msgs) :
    msgs = (((s.reported t i).map Produced.message).drop (s.delivered g t i).length).take
      limit.toNat := by
  unfold Broker.fetch at hfetch
  rw [if_pos (Int.natCast_nonneg i), Int.toNat_natCast] at hfetch
  cases hp : s.broker.partitionAt t i with
  | none =>
    rw [hp] at hfetch
    cases hfetch
  | some p =>
    rw [hp] at hfetch
    dsimp only at hfetch
    rw [h.stored.readAfter hp h.length_le] at hfetch
    rw [← Except.ok.inj hfetch, List.map_take, List.map_drop, List.map_map]
    rfl

/-- The elements behind a first part make it longer. -/
theorem take_append_next {α : Type} {xs ms : List α} {m n : ℕ} (hms : ms = (xs.drop m).take n) :
    xs.take m ++ ms = xs.take (m + ms.length) := by
  rw [List.take_add]
  congr 1
  exact List.prefix_iff_eq_take.mp (hms ▸ List.take_prefix n _)

theorem delivered_concat {s' : History} {rq : ConsumeRequest} {ms : List Message}
    (hs : s'.answers = s.answers ++ [(rq, ms)]) :
    s'.delivered g t i = s.delivered g t i ++ if rq.On g t i then ms else [] := by
  unfold History.delivered
  rw [hs, List.filter_append, List.flatMap_append]
  congr 1
  by_cases h : rq.On g t i
  · simp [h]
  · simp [h]

/-- A request whose numbers cannot be parsed is answered with an error. -/
theorem consume_cases (groupFile : String → String) (os : Answers) (rq : ConsumeRequest) (b : Broker) :
    (∃ e, Broker.consume groupFile os rq b = ⟨b, [], .error e⟩) ∨
      ∃ partition limit, rq.partition = .ok partition ∧ Broker.consume groupFile os rq b =
        Broker.consumeFrom groupFile os rq.group rq.topic partition limit b := by
  unfold Broker.consume
  cases hp : rq.partition with
  | error m => exact .inl ⟨_, rfl⟩
  | ok partition =>
    cases hl : rq.limit with
    | error m => exact .inl ⟨_, rfl⟩
    | ok limit => exact .inr ⟨partition, limit, rfl, rfl⟩

/-- A request of the group for the partition is given the next messages, or none. -/
theorem Consumed.request (h : Consumed groupFile g t i s) (hg : g ≠ "") {os : Answers}
    (hos : os.writes = true) (limit : ℤ) :
    ∃ b' r, Broker.consumeFrom groupFile os g t i limit s.broker = ⟨b', [], r⟩ ∧
      s.delivered g t i ++ answered r = ((s.reported t i).map Produced.message).take
        (s.delivered g t i ++ answered r).length ∧
      Cursor groupFile g t i b' ((s.delivered g t i ++ answered r).length - 1) := by
  -- the last message of an answer has the offset of its place
  have hlast : ∀ msgs m, s.broker.fetch t i ((s.delivered g t i).length - 1) limit = .ok msgs →
      msgs.getLast? = some m → (m.offset : ℤ) = (s.delivered g t i ++ msgs).length - 1 := by
    intro msgs m hfetch hm
    have hnext := take_append_next (h.fetch hfetch)
    rw [← h.messages] at hnext
    have hoff := congrArg List.getLast? (h.stored.offsets_of_take
      (by rw [List.length_append]; exact hnext))
    have hpos : 0 < msgs.length := List.length_pos_iff.mpr (by rintro rfl; simp at hm)
    rw [List.getLast?_map, List.getLast?_append, hm, List.getLast?_range,
      if_neg (by rw [List.length_append]; omega)] at hoff
    have hm' : m.offset = (s.delivered g t i ++ msgs).length - 1 := by simpa using hoff
    rw [hm']
    rw [List.length_append]
    omega
  obtain ⟨b', r, hrun, hcase⟩ := h.cursor.consumeFrom_here hg hos limit (by
    intro msgs m hfetch hm
    rw [hlast msgs m hfetch hm, List.length_append]
    omega)
  refine ⟨b', r, hrun, ?_⟩
  rcases hcase with ⟨e, rfl, h'⟩ | ⟨msgs, rfl, hfetch, h'⟩
  · rw [answered, List.append_nil]
    exact ⟨h.messages, h'⟩
  · have hnext := take_append_next (h.fetch hfetch)
    rw [← h.messages] at hnext
    rw [answered]
    refine ⟨by rw [List.length_append]; exact hnext, ?_⟩
    cases hm : msgs.getLast? with
    | none =>
      rw [hm] at h'
      rw [List.getLast?_eq_none_iff.mp hm, List.append_nil]
      exact h'
    | some m =>
      rw [hm] at h'
      rw [← hlast msgs m hfetch hm]
      exact h'

/-- More reported records do not change the first ones. -/
theorem Consumed.produce (h : Consumed groupFile g t i s) {payload : Bytes}
    (hp : payload.length ≤ maxRecordBytes) (os : Answers) (topic : String) (key : Option String)
    (timestamp : Option ℤ) (now : ℤ) :
    Consumed groupFile g t i (s.next groupFile (.produce os topic payload key timestamp now)) := by
  obtain ⟨h', hext, hans, hcase⟩ := h.stored.produce groupFile hp os topic key timestamp now rfl
  have hdel : (s.next groupFile (.produce os topic payload key timestamp now)).delivered g t i =
      s.delivered g t i := by
    unfold History.delivered
    rw [hans]
  refine ⟨h', ?_, ?_⟩
  · rw [hdel]
    rcases hcase with hsame | ⟨e, -, hrep⟩
    · have hrepd : (s.next groupFile (.produce os topic payload key timestamp now)).reported t i =
          s.reported t i := by
        unfold History.reported
        rw [hsame]
      rw [hrepd]
      exact h.messages
    · rw [reported_concat hrep.produced, List.map_append, List.take_append_of_le_length]
      · exact h.messages
      · rw [List.length_map]
        exact h.length_le
  · rw [hdel]
    exact h.cursor.congr (.inl hext.groups) hext.groupFiles

theorem Consumed.reopen (h : Consumed groupFile g t i s) (config : Config)
    {listing : List (String × ℕ)} (hl : (listing.map Prod.fst).Nodup) :
    Consumed groupFile g t i (s.next groupFile (.reopen config listing)) := by
  obtain ⟨b', -, hnext, h', hgroups, hfiles, -⟩ := h.stored.reopen groupFile config hl
  rw [hnext]
  exact ⟨h', h.messages, h.cursor.congr (.inr hgroups) hfiles⟩

theorem Consumed.consume (h : Consumed groupFile g t i s) (hg : g ≠ "") {os : Answers}
    {rq : ConsumeRequest} (he : Event.Saved groupFile g t i s (.consume os rq)) :
    Consumed groupFile g t i (s.next groupFile (.consume os rq)) := by
  obtain ⟨-, hfile, hwrites⟩ := he
  have hstored := (h.stored.consume groupFile os rq).2
  have hconcat : (s.next groupFile (.consume os rq)).delivered g t i = s.delivered g t i ++
      if rq.On g t i then answered (s.broker.consume groupFile os rq).result else [] :=
    delivered_concat rfl
  rcases consume_cases groupFile os rq s.broker with
    ⟨e, hrun⟩ | ⟨partition, limit, hp, hrun⟩
  · -- the request could not be parsed
    have hsame : (s.next groupFile (.consume os rq)).delivered g t i = s.delivered g t i := by
      rw [hconcat, hrun]
      split_ifs <;> simp [answered]
    refine ⟨hstored, by rw [hsame]; exact h.messages, ?_⟩
    rw [hsame]
    show Cursor groupFile g t i (s.broker.consume groupFile os rq).state _
    rw [hrun]
    exact h.cursor
  · by_cases hon : rq.On g t i
    · obtain ⟨hgroup, htopic, hpart⟩ := hon
      obtain ⟨b', r, hreq, hmsgs, hcursor⟩ := h.request hg (hwrites ⟨hgroup, htopic, hpart⟩) limit
      obtain rfl : partition = (i : ℤ) := Except.ok.inj (hp.symm.trans hpart)
      rw [hgroup, htopic, hreq] at hrun
      rw [hrun, if_pos ⟨hgroup, htopic, hpart⟩] at hconcat
      refine ⟨hstored, by rw [hconcat]; exact hmsgs, ?_⟩
      rw [hconcat]
      show Cursor groupFile g t i (s.broker.consume groupFile os rq).state _
      rw [hrun]
      exact hcursor
    · rw [if_neg hon, List.append_nil] at hconcat
      refine ⟨hstored, by rw [hconcat]; exact h.messages, ?_⟩
      rw [hconcat]
      show Cursor groupFile g t i (s.broker.consume groupFile os rq).state _
      rw [hrun]
      refine h.cursor.consumeFrom_elsewhere ?_ hfile os limit
      rintro ⟨h1, h2, rfl⟩
      exact hon ⟨h1, h2, hp⟩

theorem consumed_step (h : Consumed groupFile g t i s) (hg : g ≠ "") {e : Event}
    (he : e.Saved groupFile g t i s) : Consumed groupFile g t i (s.next groupFile e) := by
  cases e with
  | produce os topic payload key timestamp now => exact h.produce he.1 os topic key timestamp now
  | consume os rq => exact h.consume hg he
  | reopen config listing => exact h.reopen config he.1

/-- The lag counts the records that the group was not given yet. -/
theorem Consumed.lag (h : Consumed groupFile g t i s) {p : Partition} {os : Answers}
    (hp : s.broker.partitionAt t i = some p) (hos : os.loads = true) :
    ∃ b', s.broker.lag groupFile os g t i =
      ⟨b', [], .ok ((Partition.highWatermark p : ℤ) - (s.delivered g t i).length)⟩ := by
  obtain ⟨parts, hparts, hget⟩ := Option.bind_eq_some_iff.mp hp
  obtain ⟨b', r, hrun, h', -, hloads, hin⟩ := h.cursor.group os g
  obtain ⟨grp, rfl⟩ := hloads hos
  obtain ⟨htracks, -⟩ := h.stored.stores.part t i p hp
  have hnext : p.nextOffset = (s.reported t i).length := by
    rw [htracks.observes.1]
    simp [History.records, AbstractLog.next]
  have hle := h.length_le
  refine ⟨b', ?_⟩
  unfold Broker.lag
  rw [read_bind, hparts]
  dsimp only
  have hi : (if (i : ℤ) < 0 then (i : ℤ) + parts.length else i) = i := if_neg (by omega)
  rw [hi, if_pos (Int.natCast_nonneg i), Int.toNat_natCast, hget]
  dsimp only
  rw [bind_eq hrun, h'.memory grp (hin grp rfl)]
  have hlag : max 0 ((Partition.highWatermark p : ℤ) - 1 - ((s.delivered g t i).length - 1)) =
      (Partition.highWatermark p : ℤ) - (s.delivered g t i).length := by
    unfold Partition.highWatermark
    omega
  rw [hlag]
  rfl

end Runs

/-- A record is produced, and the group asks for messages. -/
def oneRequest (writes : Bool) : History :=
  ((History.init { defaultPartitions := 1 }).next id
    (.produce {} "t" [65] none (some 0) 0)).next id
      (.consume { writes } { topic := "t", partition := .ok 0, group := "g" })

end Pylog.Topics
