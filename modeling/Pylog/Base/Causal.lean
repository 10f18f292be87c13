import Mathlib.Data.List.Basic
import Mathlib.Data.List.Induction

/-!
# Traces whose events are justified by the events before them

`Causal J h`: every event `e` of the trace `h` satisfies `J h₁ e` for the part `h₁` before it.  The
property is closed under prefixes, so it also speaks about a trace that was cut off.
-/

namespace Trace

variable {ω : Type} {J K : List ω → ω → Prop} {h h₁ h₂ : List ω} {e : ω}

/-- Every event is justified by the trace before it. -/
def Causal (J : List ω → ω → Prop) (h : List ω) : Prop :=
  ∀ h₁ e h₂, h = h₁ ++ e :: h₂ → J h₁ e

theorem causal_nil : Causal J [] := by
  intro h₁ e h₂ he
  simp at he

theorem causal_concat : Causal J (h ++ [e]) ↔ Causal J h ∧ J h e := by
  constructor
  · intro hc
    refine ⟨?_, hc h e [] rfl⟩
    intro h₁ e' h₂ he
    exact hc h₁ e' (h₂ ++ [e]) (by rw [he]; simp)
  · rintro ⟨hc, hJ⟩ h₁ e' h₂ he
    rcases List.eq_nil_or_concat h₂ with rfl | ⟨t, x, rfl⟩
    · obtain ⟨rfl, hx⟩ := List.append_inj' he rfl
      cases hx
      exact hJ
    · have he' : h ++ [e] = (h₁ ++ e' :: t) ++ [x] := by rw [he]; simp
      obtain ⟨rfl, -⟩ := List.append_inj' he' rfl
      exact hc h₁ e' t rfl

theorem causal_concat₂ {a b : ω} :
    Causal J (h ++ [a, b]) ↔ Causal J h ∧ J h a ∧ J (h ++ [a]) b := by
  rw [List.append_cons, causal_concat, causal_concat, and_assoc]

theorem causal_concat₃ {a b c : ω} :
    Causal J (h ++ [a, b, c]) ↔ Causal J h ∧ J h a ∧ J (h ++ [a]) b ∧ J (h ++ [a, b]) c := by
  rw [List.append_cons, causal_concat₂, causal_concat, and_assoc, List.append_assoc]
  rfl

theorem causal_and : Causal (fun h e => J h e ∧ K h e) h ↔ Causal J h ∧ Causal K h :=
  ⟨fun hc => ⟨fun a e b he => (hc a e b he).1, fun a e b he => (hc a e b he).2⟩,
    fun hc a e b he => ⟨hc.1 a e b he, hc.2 a e b he⟩⟩

theorem Causal.take (hc : Causal J (h₁ ++ h₂)) : Causal J h₁ := by
  intro a e b he
  exact hc a e (b ++ h₂) (by rw [he]; simp)

/-- Events that are justified after every longer trace. -/
theorem Causal.extend (hc : Causal J h) (he : ∀ e ∈ h₁, ∀ h', h <+: h' → J h' e) :
    Causal J (h ++ h₁) := by
  induction h₁ using List.reverseRecOn with
  | nil => rwa [List.append_nil]
  | append_singleton h₁ e ih =>
    rw [← List.append_assoc]
    exact causal_concat.mpr ⟨ih fun e he' => he e (List.mem_append_left _ he'),
      he e (by simp) _ (List.prefix_append _ _)⟩

/-- The justification of an event of the trace, from the part before it. -/
theorem Causal.mem (hc : Causal J h) (he : e ∈ h) : ∃ h₁ h₂, h = h₁ ++ e :: h₂ ∧ J h₁ e := by
  obtain ⟨h₁, h₂, rfl⟩ := List.append_of_mem he
  exact ⟨h₁, h₂, rfl, hc h₁ e h₂ rfl⟩

end Trace
