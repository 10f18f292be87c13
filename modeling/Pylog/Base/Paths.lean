import Mathlib.Data.Finset.Option
import Mathlib.Data.Finset.Sort
import Mathlib.Data.String.Basic

/-!
# Paths — strings that lead through directories

A directory is the list of the names that lead to it from the root, so it has one form only.  A path
is a string of names between slashes; `resolve base p` walks along it from the directory `base`.
There are no links.  `resolve_join` says what joining two paths means.

A `DirTree` is the set of directories there are, with the contents of each.
-/

namespace Paths

/-- A name that a directory can have within another. -/
def IsName (c : String) : Prop := c ≠ "" ∧ '/' ∉ c.toList ∧ c ≠ "." ∧ c ≠ ".."

instance (c : String) : Decidable (IsName c) := inferInstanceAs (Decidable (_ ∧ _))

abbrev Name := { c : String // IsName c }

abbrev Place := List Name

/-- A path that starts at the root. -/
def Absolute (p : String) : Prop := p.toList.head? = some '/'

instance (p : String) : Decidable (Absolute p) := inferInstanceAs (Decidable (_ = _))

/-- `os.path.join(a, b)`. -/
def join (a b : String) : String :=
  if Absolute b then b
  else if a = "" ∨ a.toList.getLast? = some '/' then a ++ b
  else a ++ "/" ++ b

/-- What stands between the slashes; an empty name and `.` lead nowhere. -/
def split (cs : List Char) : List String :=
  ((cs.splitOn '/').map String.ofList).filter fun c => decide (c ≠ "" ∧ c ≠ ".")

def components (p : String) : List String := split p.toList

/-- One step of a walk; the root is its own parent. -/
def enter (place : Place) (c : String) : Place :=
  if h : IsName c then place ++ [⟨c, h⟩] else if c = ".." then place.dropLast else place

def origin (base : Place) (p : String) : Place := if Absolute p then [] else base

/-- The directory a path leads to. -/
def resolve (base : Place) (p : String) : Place := (components p).foldl enter (origin base p)

/-- The directories on the way. -/
def passed (base : Place) (p : String) : List Place := (components p).scanl enter (origin base p)

variable {a b : String} {base : Place}

/-! ### Names and joined paths -/

theorem split_append (as bs : List Char) : split (as ++ '/' :: bs) = split as ++ split bs := by
  unfold split
  rw [List.splitOn_append_cons_self, List.map_append, List.filter_append]

theorem split_snoc (as : List Char) : split (as ++ ['/']) = split as := by
  rw [split_append]
  exact List.append_nil _

theorem slash_notMem_numeral (n : ℕ) : '/' ∉ n.repr.toList := by
  intro h
  rw [Nat.toList_repr] at h
  exact absurd (Nat.isDigit_of_mem_toDigits (by decide) (by decide) h) (by decide)

theorem IsName.not_absolute (h : IsName a) : ¬ Absolute a := fun habs =>
  h.2.1 (List.mem_of_mem_head? habs)

theorem IsName.components (h : IsName a) : components a = [a] := by
  unfold Paths.components split
  rw [List.splitOn_eq_singleton h.2.1, List.map_singleton, String.ofList_toList]
  exact List.filter_eq_self.mpr (by simpa using ⟨h.1, h.2.2.1⟩)

theorem enter_name (h : IsName a) : enter base a = base ++ [⟨a, h⟩] := by
  unfold enter
  rw [dif_pos h]

theorem resolve_name (h : IsName a) : resolve base a = base ++ [⟨a, h⟩] := by
  unfold resolve origin
  rw [if_neg h.not_absolute, h.components]
  exact enter_name h

theorem passed_name (h : IsName a) : passed base a = [base, base ++ [⟨a, h⟩]] := by
  unfold passed origin
  rw [if_neg h.not_absolute, h.components, List.scanl_singleton, enter_name h]

/-- Joined to a relative path, a path is walked first. -/
theorem components_join (hb : ¬ Absolute b) : components (join a b) = components a ++ components b := by
  unfold join
  rw [if_neg hb]
  split_ifs with ha
  · rcases ha with rfl | ha
    · rw [String.empty_append]
      rfl
    · obtain ⟨as, has⟩ := List.getLast?_eq_some_iff.mp ha
      unfold components
      rw [String.toList_append, has, List.append_assoc, List.singleton_append, split_append,
        split_snoc]
  · unfold components
    rw [String.toList_append, String.toList_append, List.append_assoc]
    exact split_append _ _

theorem origin_join (hb : ¬ Absolute b) : origin base (join a b) = origin base a := by
  have habs : Absolute (join a b) ↔ Absolute a := by
    unfold join
    rw [if_neg hb]
    by_cases ha : a = ""
    · rw [if_pos (.inl ha), ha, String.empty_append]
      exact iff_of_false hb (by decide)
    · have hne : a.toList ≠ [] := fun h => ha (String.toList_eq_nil_iff.mp h)
      unfold Absolute
      split_ifs
      · rw [String.toList_append, List.head?_append_of_ne_nil _ hne]
      · rw [String.toList_append, String.toList_append, List.append_assoc,
          List.head?_append_of_ne_nil _ hne]
  unfold origin
  simp only [habs]

/-- A joined path leads where its parts lead one after the other. -/
theorem resolve_join (base : Place) (a b : String) :
    resolve base (join a b) = resolve (resolve base a) b := by
  by_cases hb : Absolute b
  · unfold join
    rw [if_pos hb]
    unfold resolve origin
    rw [if_pos hb, if_pos hb]
  · unfold resolve
    rw [components_join hb, origin_join hb, List.foldl_append]
    congr 1
    unfold origin
    rw [if_neg hb]

theorem passed_join (base : Place) (hb : ¬ Absolute b) :
    passed base (join a b) = passed base a ++ (passed (resolve base a) b).tail := by
  unfold passed
  rw [components_join hb, origin_join hb, List.scanl_append]
  unfold resolve
  rw [show origin ((components a).foldl enter (origin base a)) b =
    (components a).foldl enter (origin base a) from if_neg hb]

/-! ### Trees of directories -/

/-- The directories there are, and what is in each beside other directories. -/
structure DirTree (α : Type) where
  dirs : Finset Place
  contents : Place → α

namespace DirTree

variable {α : Type} {t : DirTree α} {d : Place}

/-- `os.makedirs(p, exist_ok=True)`. -/
def makedirs (t : DirTree α) (base : Place) (p : String) : DirTree α :=
  { t with dirs := t.dirs ∪ (passed base p).toFinset }

def write (t : DirTree α) (d : Place) (x : α) : DirTree α :=
  { t with contents := Function.update t.contents d x }

/-- The directories within `d`. -/
def children (t : DirTree α) (d : Place) : Finset Name :=
  t.dirs.biUnion fun e => if e.dropLast = d then e.getLast?.toFinset else ∅

/-- `sorted(os.listdir(d))`, the directories alone. -/
def listdir (t : DirTree α) (d : Place) : List Name := (t.children d).sort

/-- Nothing is in `d`. -/
def Bare (t : DirTree α) (d : Place) (empty : α) : Prop :=
  ∀ c e, d ++ c :: e ∉ t.dirs ∧ t.contents (d ++ c :: e) = empty

theorem mem_makedirs {p : String} {e : Place} :
    e ∈ (t.makedirs base p).dirs ↔ e ∈ t.dirs ∨ e ∈ passed base p := by
  unfold makedirs
  rw [Finset.mem_union, List.mem_toFinset]

theorem mem_children {c : Name} : c ∈ t.children d ↔ d ++ [c] ∈ t.dirs := by
  unfold children
  rw [Finset.mem_biUnion]
  constructor
  · rintro ⟨e, he, hc⟩
    split_ifs at hc with hd
    · rw [Option.mem_toFinset, Option.mem_def] at hc
      obtain ⟨e', rfl⟩ := List.getLast?_eq_some_iff.mp hc
      rw [List.dropLast_concat] at hd
      rwa [← hd]
    · exact absurd hc (Finset.notMem_empty c)
  · intro h
    exact ⟨d ++ [c], h, by simp⟩

theorem mem_listdir {c : Name} : c ∈ t.listdir d ↔ d ++ [c] ∈ t.dirs := by
  unfold listdir
  rw [Finset.mem_sort, mem_children]

theorem nodup_listdir (t : DirTree α) (d : Place) : (t.listdir d).Nodup := Finset.sort_nodup _ _

theorem sorted_listdir (t : DirTree α) (d : Place) : (t.listdir d).Pairwise (· ≤ ·) :=
  Finset.pairwise_sort _ _

theorem Bare.listdir {x : α} (h : t.Bare d x) : t.listdir d = [] := by
  rw [List.eq_nil_iff_forall_not_mem]
  intro c hc
  exact (h c []).1 (mem_listdir.mp hc)

end DirTree

end Paths
