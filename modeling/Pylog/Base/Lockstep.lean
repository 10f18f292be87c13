import Mathlib.Data.List.Forall2
import Pylog.Base.Handler

/-!
# Two handlers in lockstep

`Lockstep R x y s t`: run from `s` and from `t`, the code `x` and the code `y` emit the same effects
and end the same way, in states that `R` relates.  There is one rule for each way to compose
handlers, so code that does the same at two levels of a design is compared piece by piece.
-/

namespace Effect

open Handler

variable {σ τ ω ε α β γ δ : Type} {R R' : σ → τ → Prop} {s : σ} {t : τ}

def Lockstep (R : σ → τ → Prop) (x : Handler σ ω ε α) (y : Handler τ ω ε α) (s : σ) (t : τ) : Prop :=
  (x s).out = (y t).out ∧ (x s).result = (y t).result ∧ R (x s).state (y t).state

theorem Lockstep.mono {x : Handler σ ω ε α} {y : Handler τ ω ε α} (h : Lockstep R x y s t)
    (hR : ∀ s' t', R s' t' → R' s' t') : Lockstep R' x y s t :=
  ⟨h.1, h.2.1, hR _ _ h.2.2⟩

theorem lockstep_pure (a : α) (h : R s t) :
    Lockstep R (pure a : Handler σ ω ε α) (pure a) s t := ⟨rfl, rfl, h⟩

theorem lockstep_raise (e : ε) (h : R s t) :
    Lockstep R (raise e : Handler σ ω ε α) (raise e) s t := ⟨rfl, rfl, h⟩

/-- Only the first code reads its state. -/
theorem lockstep_read {f : σ → Handler σ ω ε α} {y : Handler τ ω ε α}
    (h : Lockstep R (f s) y s t) : Lockstep R (read >>= f) y s t := by
  unfold Lockstep
  rw [read_bind]
  exact h

/-- The rest is compared from the states the first parts leave; when these raise, nothing runs. -/
theorem Lockstep.bind {x : Handler σ ω ε α} {y : Handler τ ω ε α} {f : α → Handler σ ω ε β}
    {g : α → Handler τ ω ε β} (h : Lockstep R x y s t)
    (hf : ∀ a s' t', R s' t' → Lockstep R' (f a) (g a) s' t') (hR : ∀ s' t', R s' t' → R' s' t') :
    Lockstep R' (x >>= f) (y >>= g) s t := by
  obtain ⟨hout, hres, hstate⟩ := h
  cases hx : x s with
  | mk s' o r =>
    cases hy : y t with
    | mk t' o' r' =>
      rw [hx, hy] at hout hres hstate
      dsimp only at hout hres hstate
      subst hout hres
      cases r with
      | error e =>
        unfold Lockstep
        rw [bind_error hx, bind_error hy]
        exact ⟨rfl, rfl, hR _ _ hstate⟩
      | ok a =>
        obtain ⟨hout, hres, hstate⟩ := hf a s' t' hstate
        unfold Lockstep
        rw [bind_eq hx, bind_eq hy]
        exact ⟨congrArg (o ++ ·) hout, hres, hstate⟩

theorem lockstep_when {c d : Prop} [Decidable c] [Decidable d] {x : Handler σ ω ε Unit}
    {y : Handler τ ω ε Unit} (hcd : c ↔ d) (h : c → Lockstep R x y s t) (hR : R s t) :
    Lockstep R (when c x) (when d y) s t := by
  by_cases hc : c
  · unfold when
    rw [if_pos hc, if_pos (hcd.mp hc)]
    exact h hc
  · unfold when
    rw [if_neg hc, if_neg fun hd => hc (hcd.mpr hd)]
    exact lockstep_pure () hR

/-- Two loops over lists that `P` relates, element by element. -/
theorem lockstep_each {P : γ → δ → Prop} {f : γ → Handler σ ω ε Unit} {g : δ → Handler τ ω ε Unit}
    {as : List γ} {bs : List δ} (hl : List.Forall₂ P as bs)
    (hf : ∀ a b s' t', P a b → R s' t' → Lockstep R (f a) (g b) s' t') (h : R s t) :
    Lockstep R (each f as) (each g bs) s t := by
  induction hl generalizing s t with
  | nil => exact lockstep_pure () h
  | cons hab _ ih => exact (hf _ _ s t hab h).bind (fun _ _ _ h' => ih h') fun _ _ h' => h'

/-- What holds of the end of the second run. -/
theorem Lockstep.and {P : τ → Prop} {x : Handler σ ω ε α} {y : Handler τ ω ε α}
    (h : Lockstep R x y s t) (hP : P (y t).state) :
    Lockstep (fun s' t' => R s' t' ∧ P t') x y s t :=
  ⟨h.1, h.2.1, h.2.2, hP⟩

/-- The end of one run is an end of the other. -/
theorem Lockstep.run {x : Handler σ ω ε α} {y : Handler τ ω ε α} (h : Lockstep R x y s t) {t' : τ}
    {o : List ω} {r : Except ε α} (hy : y t = ⟨t', o, r⟩) : ∃ s', x s = ⟨s', o, r⟩ ∧ R s' t' := by
  obtain ⟨hout, hres, hstate⟩ := h
  rw [hy] at hout hres hstate
  refine ⟨(x s).state, ?_, hstate⟩
  rw [← show (x s).out = o from hout, ← show (x s).result = r from hres]

end Effect
