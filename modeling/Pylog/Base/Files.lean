import Mathlib.Data.List.Basic
import Mathlib.Tactic.Common

/-!
# Files, in-order file operations and crashes

A directory is the list of its files in the order of their creation, each name once.  A program's
file operations reach the disk in order; a crash leaves the operations before it and, if it falls
into a write, the first bytes of that write (`cut`).
-/

namespace Files

variable {κ β : Type}

/-- The files of a directory: name and contents. -/
abbrev Dir (κ β : Type) := List (κ × List β)

inductive Op (κ β : Type)
  /-- Open for writing: an empty file of that name. -/
  | create (k : κ)
  /-- A write at the end of the file. -/
  | append (k : κ) (bs : List β)
  | truncate (k : κ) (size : ℕ)
  | remove (k : κ)
  deriving DecidableEq, Repr

namespace Dir

variable [DecidableEq κ]

def names (d : Dir κ β) : List κ := d.map Prod.fst

def get : Dir κ β → κ → Option (List β)
  | [], _ => none
  | (k', c) :: d, k => if k' = k then some c else get d k

def put : Dir κ β → κ → List β → Dir κ β
  | [], k, bs => [(k, bs)]
  | (k', c) :: d, k, bs => if k' = k then (k, bs) :: d else (k', c) :: put d k bs

def erase : Dir κ β → κ → Dir κ β
  | [], _ => []
  | (k', c) :: d, k => if k' = k then d else (k', c) :: erase d k

/-- What an operation makes of the directory. -/
def perform (d : Dir κ β) : Op κ β → Dir κ β
  | .create k => d.put k []
  | .append k bs => d.put k ((d.get k).getD [] ++ bs)
  | .truncate k size => d.put k (((d.get k).getD []).take size)
  | .remove k => d.erase k

variable {pre post : Dir κ β} {k : κ} {c c' : List β}

theorem get_eq_none : ∀ {d : Dir κ β}, k ∉ d.names → d.get k = none
  | [], _ => rfl
  | (k', c) :: d, h => by
    simp only [names, List.map_cons, List.mem_cons, not_or] at h
    rw [get, if_neg (fun e => h.1 e.symm)]
    exact get_eq_none h.2

theorem get_mid : ∀ {pre : Dir κ β}, k ∉ pre.names → get (pre ++ (k, c) :: post) k = some c
  | [], _ => by simp [get]
  | (k', c') :: pre, h => by
    simp only [names, List.map_cons, List.mem_cons, not_or] at h
    rw [List.cons_append, get, if_neg (fun e => h.1 e.symm)]
    exact get_mid h.2

theorem put_mid : ∀ {pre : Dir κ β}, k ∉ pre.names →
    put (pre ++ (k, c) :: post) k c' = pre ++ (k, c') :: post
  | [], _ => by simp [put]
  | (k', c'') :: pre, h => by
    simp only [names, List.map_cons, List.mem_cons, not_or] at h
    rw [List.cons_append, put, if_neg (fun e => h.1 e.symm), put_mid h.2, List.cons_append]

theorem put_new : ∀ {d : Dir κ β}, k ∉ d.names → d.put k c = d ++ [(k, c)]
  | [], _ => rfl
  | (k', c') :: d, h => by
    simp only [names, List.map_cons, List.mem_cons, not_or] at h
    rw [put, if_neg (fun e => h.1 e.symm), put_new h.2, List.cons_append]

theorem mem_names_put {n : κ} : ∀ {d : Dir κ β}, n ∈ (d.put k c).names → n = k ∨ n ∈ d.names
  | [], h => by simpa [put, names] using h
  | (k', c') :: d, h => by
    by_cases hk : k' = k
    · rw [put, if_pos hk] at h
      simpa [names, hk] using h
    · rw [put, if_neg hk] at h
      simp only [names, List.map_cons, List.mem_cons] at h ⊢
      rcases h with h | h
      · exact .inr (.inl h)
      · exact (mem_names_put h).imp_right .inr

@[simp] theorem get_put (c : List β) : ∀ d : Dir κ β, (d.put k c).get k = some c
  | [] => by simp [put, get]
  | (k', c') :: d => by
    by_cases hk : k' = k
    · simp [put, get, hk]
    · simp [put, get, hk, get_put c d]

theorem put_self : ∀ {d : Dir κ β}, d.get k = some c → d.put k c = d
  | [], h => by simp [get] at h
  | (k', c') :: d, h => by
    by_cases hk : k' = k
    · rw [get, if_pos hk] at h
      cases h
      rw [put, if_pos hk, hk]
    · rw [get, if_neg hk] at h
      rw [put, if_neg hk, put_self h]

theorem erase_mid : ∀ {pre : Dir κ β}, k ∉ pre.names →
    erase (pre ++ (k, c) :: post) k = pre ++ post
  | [], _ => by simp [erase]
  | (k', c') :: pre, h => by
    simp only [names, List.map_cons, List.mem_cons, not_or] at h
    rw [List.cons_append, erase, if_neg (fun e => h.1 e.symm), erase_mid h.2, List.cons_append]

/-- The other files stay as they are. -/
theorem get_erase_of_ne {n : κ} (hn : k ≠ n) : ∀ d : Dir κ β, (d.erase k).get n = d.get n
  | [] => rfl
  | (k', c) :: d => by
    by_cases hk : k' = k
    · rw [erase, if_pos hk, get, if_neg (fun e => hn (hk.symm.trans e))]
    · rw [erase, if_neg hk, get, get, get_erase_of_ne hn d]

theorem names_erase_sublist : ∀ d : Dir κ β, (d.erase k).names.Sublist d.names
  | [] => List.Sublist.slnil
  | (k', c) :: d => by
    by_cases hk : k' = k
    · rw [erase, if_pos hk]
      exact List.sublist_cons_self _ _
    · rw [erase, if_neg hk]
      exact (names_erase_sublist d).cons_cons _

theorem notMem_names_erase : ∀ {d : Dir κ β}, d.names.Nodup → k ∉ (d.erase k).names
  | [], _ => by simp [erase, names]
  | (k', c) :: d, h => by
    obtain ⟨h1, h2⟩ := List.nodup_cons.mp h
    by_cases hk : k' = k
    · rw [erase, if_pos hk]
      rwa [hk] at h1
    · rw [erase, if_neg hk]
      intro hmem
      rcases List.mem_cons.mp hmem with rfl | hmem
      · exact hk rfl
      · exact notMem_names_erase h2 hmem

end Dir

/-! ### Crashes -/

section Crash

variable {ω : Type} (part : ℕ → ω → Option ω)

/-- What reached the disk of `ops` when the crash falls into operation `k`, of which the part
`part n` was done (`none`: nothing of it). -/
def cut (ops : List ω) (k n : ℕ) : List ω :=
  ops.take k ++ (ops.drop k).head?.toList.filterMap (part n)

@[simp] theorem cut_nil (k n : ℕ) : cut part [] k n = [] := by simp [cut]

theorem cut_zero (o : ω) (ops : List ω) (n : ℕ) : cut part (o :: ops) 0 n = (part n o).toList := by
  cases h : part n o <;> simp [cut, h]

@[simp] theorem cut_succ (o : ω) (ops : List ω) (k n : ℕ) :
    cut part (o :: ops) (k + 1) n = o :: cut part ops k n := by
  simp [cut]

/-- Where a crash of two blocks falls: into the first, or behind it. -/
theorem cut_append (xs ys : List ω) (k n : ℕ) :
    cut part (xs ++ ys) k n = cut part xs k n ∧ k < xs.length ∨
      ∃ k', cut part (xs ++ ys) k n = xs ++ cut part ys k' n := by
  rcases Nat.lt_or_ge k xs.length with hk | hk
  · refine .inl ⟨?_, hk⟩
    have hle : k ≤ xs.length := Nat.le_of_lt hk
    simp only [cut, List.take_append_of_le_length hle, List.drop_append_of_le_length hle]
    cases hd : xs.drop k with
    | nil =>
      have := congrArg List.length hd
      simp at this
      omega
    | cons o os => rfl
  · refine .inr ⟨k - xs.length, ?_⟩
    simp only [cut]
    rw [List.take_append, List.take_of_length_le hk, List.drop_append, List.drop_of_length_le hk]
    simp

/-! What holds wherever a crash falls. -/

variable {σ : Type} (perform : σ → ω → σ) {P Q : σ → Prop} {d : σ} {o : ω} {xs ys : List ω}

/-- Whatever a crash lets through of the operations leads from `d` to a state with `P`. -/
def EveryCut (P : σ → Prop) (d : σ) (ops : List ω) : Prop :=
  ∀ k n, P ((cut part ops k n).foldl perform d)

variable {part} {perform}

theorem EveryCut.mono (h : EveryCut part perform P d xs) (hPQ : ∀ d', P d' → Q d') :
    EveryCut part perform Q d xs := fun k n => hPQ _ (h k n)

theorem everyCut_nil (h : P d) : EveryCut part perform P d [] := by
  intro k n
  rwa [cut_nil]

/-- The crash comes before the operation, into it, or after it. -/
theorem everyCut_cons (h : P d) (hpart : ∀ n o', part n o = some o' → P (perform d o'))
    (hxs : EveryCut part perform P (perform d o) xs) : EveryCut part perform P d (o :: xs) := by
  rintro (_ | k) n
  · rw [cut_zero]
    cases ho : part n o with
    | none => exact h
    | some o' => exact hpart n o' ho
  · rw [cut_succ]
    exact hxs k n

theorem EveryCut.append (hxs : EveryCut part perform P d xs)
    (hys : EveryCut part perform P (xs.foldl perform d) ys) :
    EveryCut part perform P d (xs ++ ys) := by
  intro k n
  rcases cut_append part xs ys k n with ⟨hcut, -⟩ | ⟨k', hcut⟩
  · rw [hcut]
    exact hxs k n
  · rw [hcut, List.foldl_append]
    exact hys k' n

/-- What every operation keeps, and every part of one. -/
theorem everyCut_of_keeps : ∀ {xs : List ω} {d : σ}, P d →
    (∀ o ∈ xs, ∀ d, P d → P (perform d o) ∧ ∀ n o', part n o = some o' → P (perform d o')) →
    EveryCut part perform P d xs
  | [], _, h, _ => everyCut_nil h
  | o :: xs, d, h, hkeep => by
    obtain ⟨hwhole, hpart⟩ := hkeep o List.mem_cons_self d h
    exact everyCut_cons h hpart
      (everyCut_of_keeps hwhole fun o' ho' => hkeep o' (List.mem_cons_of_mem o ho'))

end Crash

end Files
