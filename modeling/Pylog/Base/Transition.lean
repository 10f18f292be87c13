import Mathlib.Data.List.Induction
import Mathlib.Order.Basic

/-!
# Runs of a system under a step condition

`Reach next ok s₀ s`: the state `s` is reached from `s₀` by steps `next s e` whose state before the
step and event satisfy `ok s e`.  `meets` is the executable form for a decidable condition.
-/

namespace Transition

variable {S E : Type}

/-- States reached from `s₀` by steps that meet `ok`. -/
inductive Reach (next : S → E → S) (ok : S → E → Prop) (s₀ : S) : S → Prop
  | refl : Reach next ok s₀ s₀
  | step {s : S} {e : E} : Reach next ok s₀ s → ok s e → Reach next ok s₀ (next s e)

variable {next : S → E → S} {ok ok' : S → E → Prop} {s₀ s s' : S}

/-- What holds at the start and is kept by every step holds in every state reached. -/
theorem Reach.inv (I : S → Prop) (h0 : I s₀)
    (hs : ∀ s e, Reach next ok s₀ s → I s → ok s e → I (next s e)) (h : Reach next ok s₀ s) : I s := by
  induction h with
  | refl => exact h0
  | step hr he ih => exact hs _ _ hr ih he

theorem Reach.mono (hok : ∀ s e, ok s e → ok' s e) (h : Reach next ok s₀ s) :
    Reach next ok' s₀ s := by
  induction h with
  | refl => exact .refl
  | step _ he ih => exact .step ih (hok _ _ he)

/-- A condition that the states reached imply can be added to every step. -/
theorem Reach.strengthen (hok : ∀ s e, Reach next ok s₀ s → ok s e → ok' s e)
    (h : Reach next ok s₀ s) : Reach next ok' s₀ s := by
  induction h with
  | refl => exact .refl
  | step hr he ih => exact .step ih (hok _ _ hr he)

theorem Reach.trans (h : Reach next ok s₀ s) (h' : Reach next ok s s') : Reach next ok s₀ s' := by
  induction h' with
  | refl => exact h
  | step _ he ih => exact .step ih he

/-- A run of a system with more state is a run of the system it extends. -/
theorem Reach.map {T : Type} {next' : T → E → T} {ok' : T → E → Prop} {t₀ t : T} (f : T → S)
    (hnext : ∀ t e, f (next' t e) = next (f t) e) (hok : ∀ t e, ok' t e → ok (f t) e)
    (h : Reach next' ok' t₀ t) : Reach next ok (f t₀) (f t) := by
  induction h with
  | refl => exact .refl
  | step _ he ih =>
    rw [hnext]
    exact .step ih (hok _ _ he)

/-- Every step of the run over a list of events meets the test. -/
def meets (next : S → E → S) (test : S → E → Bool) : S → List E → Bool
  | _, [] => true
  | s, e :: es => test s e && meets next test (next s e) es

theorem reach_of_meets {test : S → E → Bool} (htest : ∀ s e, test s e = true → ok s e) :
    ∀ (es : List E) (s : S), meets next test s es = true → Reach next ok s (es.foldl next s)
  | [], _, _ => .refl
  | e :: es, s, h => by
    unfold meets at h
    rw [Bool.and_eq_true] at h
    exact (Reach.step .refl (htest s e h.1)).trans (reach_of_meets htest es (next s e) h.2)

/-- Events that may happen in every state. -/
theorem reach_foldl : ∀ (es : List E) (s : S), (∀ e ∈ es, ∀ s, ok s e) →
    Reach next ok s (es.foldl next s)
  | [], _, _ => .refl
  | e :: es, s, h => (Reach.step .refl (h e List.mem_cons_self s)).trans
      (reach_foldl es (next s e) fun e' he' => h e' (List.mem_cons_of_mem e he'))

/-- Every step of the run over a list of events meets the condition. -/
def Along (next : S → E → S) (P : S → E → Prop) : S → List E → Prop
  | _, [] => True
  | s, e :: es => P s e ∧ Along next P (next s e) es

theorem along_concat {P : S → E → Prop} {e : E} : ∀ (es : List E) (s : S),
    Along next P s (es ++ [e]) ↔ Along next P s es ∧ P (es.foldl next s) e
  | [], s => ⟨fun h => ⟨trivial, h.1⟩, fun h => ⟨h.2, trivial⟩⟩
  | e' :: es, s => by
    show P s e' ∧ Along next P (next s e') (es ++ [e]) ↔ (P s e' ∧ Along next P (next s e') es) ∧ _
    rw [along_concat es (next s e'), and_assoc]
    rfl

theorem along_reach : ∀ (es : List E) (s : S), Along next ok s es → Reach next ok s (es.foldl next s)
  | [], _, _ => .refl
  | e :: es, s, h => (Reach.step .refl h.1).trans (along_reach es (next s e) h.2)

/-- What holds at the start and is kept by every event holds of every run with its events. -/
theorem along_inv (I : List E → S → Prop) (h0 : I [] s₀)
    (hs : ∀ es e, Along next ok s₀ es → ok (es.foldl next s₀) e → I es (es.foldl next s₀) →
      I (es ++ [e]) (next (es.foldl next s₀) e)) (es : List E) (h : Along next ok s₀ es) :
    I es (es.foldl next s₀) := by
  induction es using List.reverseRecOn with
  | nil => exact h0
  | append_singleton es e ih =>
    obtain ⟨hes, he⟩ := (along_concat es s₀).mp h
    rw [List.foldl_append]
    exact hs es e hes he (ih hes)

theorem along_of_meets {test : S → E → Bool} {P : S → E → Prop}
    (htest : ∀ s e, test s e = true → P s e) :
    ∀ (es : List E) (s : S), meets next test s es = true → Along next P s es
  | [], _, _ => trivial
  | e :: es, s, h => by
    unfold meets at h
    rw [Bool.and_eq_true] at h
    exact ⟨htest s e h.1, along_of_meets htest es (next s e) h.2⟩

/-- A condition on the events alone. -/
theorem along_of_forall {P : S → E → Prop} : ∀ (es : List E) (s : S), (∀ e ∈ es, ∀ s, P s e) →
    Along next P s es
  | [], _, _ => trivial
  | e :: es, s, h => ⟨h e List.mem_cons_self s,
      along_of_forall es (next s e) fun e' he' => h e' (List.mem_cons_of_mem e he')⟩

/-- Two conditions hold along the same runs when they agree under an invariant that the steps keep
which meet them. -/
theorem along_iff (I : S → Prop) {P Q : S → E → Prop} (hPQ : ∀ s e, I s → ok s e → (P s e ↔ Q s e))
    (hI : ∀ s e, I s → ok s e → Q s e → I (next s e)) :
    ∀ (es : List E) (s : S), I s → Along next ok s es → (Along next P s es ↔ Along next Q s es)
  | [], _, _, _ => Iff.rfl
  | e :: es, s, hs, hok => by
    show P s e ∧ _ ↔ Q s e ∧ _
    rw [hPQ s e hs hok.1]
    exact and_congr_right fun hq => along_iff I hPQ hI es (next s e) (hI s e hs hok.1 hq) hok.2

end Transition
