import Mathlib.Logic.Relation
import Mathlib.Order.Basic

/-!
# Handlers: stateful code that emits effects and may raise

`Handler σ ω ε α` is code over a state `σ` that emits effects `ω` in order and either returns an
`α` or raises an `ε`.  A raise keeps the state and the effects of everything done before it, as an
exception does in a language with mutable objects.

`Follows R x s h Q`: run from `s` after the effects `h`, the code `x` moves `(state, effects so
far)` along finitely many `R`-steps, also when it raises, and a normal end satisfies `Q`.  One
`Follows` lemma per function says what the code can do; every invariant of `R` is then an invariant
of the code (`Follows.inv`).
-/

namespace Effect

/-- What a call leaves behind: the state, the effects in order, and its result. -/
structure Outcome (σ ω ε α : Type) where
  state : σ
  out : List ω
  result : Except ε α

/-- Code over the state `σ` with effects `ω` and exceptions `ε`. -/
def Handler (σ ω ε α : Type) : Type := σ → Outcome σ ω ε α

namespace Handler

variable {σ ω ε α β : Type}

/-- The outcome of `x` followed by `f`; nothing of `f` runs when `x` raises. -/
def andThen (x : Handler σ ω ε α) (f : α → Handler σ ω ε β) : Handler σ ω ε β := fun s =>
  match (x s).result with
  | .error e => ⟨(x s).state, (x s).out, .error e⟩
  | .ok a => ⟨(f a (x s).state).state, (x s).out ++ (f a (x s).state).out,
      (f a (x s).state).result⟩

instance : Monad (Handler σ ω ε) where
  pure a := fun s => ⟨s, [], .ok a⟩
  bind := andThen

/-- Read the state. -/
def read : Handler σ ω ε σ := fun s => ⟨s, [], .ok s⟩

/-- Change the state. -/
def update (f : σ → σ) : Handler σ ω ε Unit := fun s => ⟨f s, [], .ok ()⟩

/-- Emit one effect. -/
def emit (o : ω) : Handler σ ω ε Unit := fun s => ⟨s, [o], .ok ()⟩

/-- Raise an exception. -/
def raise (e : ε) : Handler σ ω ε α := fun s => ⟨s, [], .error e⟩

/-- Run `x` only if `c` holds. -/
def when (c : Prop) [Decidable c] (x : Handler σ ω ε Unit) : Handler σ ω ε Unit :=
  if c then x else pure ()

/-- Run `f` on the elements of a list, in order. -/
def each (f : β → Handler σ ω ε Unit) : List β → Handler σ ω ε Unit
  | [] => pure ()
  | b :: bs => do f b; each f bs

/-- Code that returned normally hands its value to the rest. -/
theorem bind_eq {x : Handler σ ω ε α} {f : α → Handler σ ω ε β} {s s' : σ} {o : List ω} {a : α}
    (hx : x s = ⟨s', o, .ok a⟩) :
    (x >>= f) s = ⟨(f a s').state, o ++ (f a s').out, (f a s').result⟩ := by
  show andThen x f s = _
  unfold andThen
  rw [hx]

theorem bind_run {x : Handler σ ω ε α} {f : α → Handler σ ω ε β} {s s' s'' : σ} {o o' : List ω}
    {a : α} {r : Except ε β} (hx : x s = ⟨s', o, .ok a⟩) (hf : f a s' = ⟨s'', o', r⟩) :
    (x >>= f) s = ⟨s'', o ++ o', r⟩ := by
  rw [bind_eq hx, hf]

/-- Nothing runs after an exception. -/
theorem bind_error {x : Handler σ ω ε α} {f : α → Handler σ ω ε β} {s s' : σ} {o : List ω} {e : ε}
    (hx : x s = ⟨s', o, .error e⟩) : (x >>= f) s = ⟨s', o, .error e⟩ := by
  show andThen x f s = _
  unfold andThen
  rw [hx]

/-- What ran before a normal end ended normally. -/
theorem bind_ok {x : Handler σ ω ε α} {f : α → Handler σ ω ε β} {s s'' : σ} {o : List ω} {b : β}
    (h : (x >>= f) s = ⟨s'', o, .ok b⟩) :
    ∃ s' o₁ a o₂, x s = ⟨s', o₁, .ok a⟩ ∧ f a s' = ⟨s'', o₂, .ok b⟩ := by
  have hbind : (x >>= f) s = andThen x f s := rfl
  rw [hbind] at h
  unfold andThen at h
  cases hx : x s with
  | mk s' o₁ r =>
    rw [hx] at h
    cases r with
    | error e => cases h
    | ok a =>
      cases hf : f a s' with
      | mk s₂ o₂ r₂ =>
        dsimp only at h
        rw [hf] at h
        cases h
        exact ⟨s', o₁, a, o₂, rfl, hf⟩

/-- One element more. -/
theorem each_concat {f : β → Handler σ ω ε Unit} {b : β} {s' s'' : σ} {o' : List ω}
    {r : Except ε Unit} (hb : f b s' = ⟨s'', o', r⟩) : ∀ {bs : List β} {s : σ} {o : List ω},
    each f bs s = ⟨s', o, .ok ()⟩ → each f (bs ++ [b]) s = ⟨s'', o ++ o', r⟩
  | [], s, o, h => by
    cases h
    show andThen (f b) (fun _ => pure ()) s' = _
    unfold andThen
    rw [hb]
    cases r with
    | ok u => exact congrArg₂ (fun o r => (⟨s'', o, r⟩ : Outcome σ ω ε Unit)) (List.append_nil o') rfl
    | error e => rfl
  | b' :: bs, s, o, h => by
    obtain ⟨s₁, o₁, u, o₂, hhead, htail⟩ := bind_ok h
    have hrest := each_concat hb htail
    have hout : o = o₁ ++ o₂ := by
      have := h.symm.trans (bind_run hhead htail)
      exact congrArg Outcome.out this
    refine (bind_run hhead hrest).trans ?_
    rw [hout, List.append_assoc]

/-- An exception comes from the first part or, after that returned, from the rest. -/
theorem bind_raised {x : Handler σ ω ε α} {f : α → Handler σ ω ε β} {s : σ} {e : ε}
    (h : ((x >>= f) s).result = .error e) :
    (x s).result = .error e ∨ ∃ s' o a, x s = ⟨s', o, .ok a⟩ ∧ (f a s').result = .error e ∧
      ((x >>= f) s).state = (f a s').state := by
  cases hx : x s with
  | mk s' o r =>
    cases r with
    | error e' =>
      rw [bind_error hx] at h
      exact .inl (by rw [Except.error.inj h])
    | ok a =>
      rw [bind_eq hx] at h
      exact .inr ⟨s', o, a, rfl, h, by rw [bind_eq hx]⟩

theorem pure_eq (a : α) (s : σ) : (pure a : Handler σ ω ε α) s = ⟨s, [], .ok a⟩ := rfl

theorem bind_assoc {γ : Type} (x : Handler σ ω ε α) (f : α → Handler σ ω ε β)
    (g : β → Handler σ ω ε γ) : (x >>= fun a => f a >>= g) = (x >>= f) >>= g := by
  funext s
  show andThen x (fun a => andThen (f a) g) s = andThen (andThen x f) g s
  unfold andThen
  cases (x s).result with
  | error e => rfl
  | ok a =>
    dsimp only
    cases (f a (x s).state).result with
    | error e => rfl
    | ok b =>
      dsimp only
      rw [List.append_assoc]

theorem bind_pure_state (x : Handler σ ω ε α) (f : α → β) (s : σ) :
    ((x >>= fun a => pure (f a) : Handler σ ω ε β) s).state = (x s).state := by
  show (andThen x (fun a => pure (f a)) s).state = _
  unfold andThen
  cases (x s).result <;> rfl

theorem bind_pure_result (x : Handler σ ω ε α) (f : α → β) (s : σ) :
    ((x >>= fun a => pure (f a) : Handler σ ω ε β) s).result = (x s).result.map f := by
  show (andThen x (fun a => pure (f a)) s).result = _
  unfold andThen
  cases (x s).result <;> rfl

theorem bind_pure_error {x : Handler σ ω ε α} {f : α → β} {s : σ} {e : ε}
    (h : ((x >>= fun a => pure (f a) : Handler σ ω ε β) s).result = .error e) :
    (x s).result = .error e := by
  rw [bind_pure_result] at h
  cases hx : (x s).result with
  | error e' =>
    rw [hx] at h
    rw [Except.error.inj h]
  | ok a =>
    rw [hx] at h
    cases h

theorem read_bind (f : σ → Handler σ ω ε β) (s : σ) : (read >>= f) s = f s s := rfl

theorem update_bind (g : σ → σ) (f : Unit → Handler σ ω ε β) (s : σ) :
    (update g >>= f) s = f () (g s) := rfl

theorem update_pure (g : σ → σ) (a : α) (s : σ) :
    ((update g >>= fun _ => pure a) : Handler σ ω ε α) s = ⟨g s, [], .ok a⟩ := rfl

theorem update_run {g : σ → σ} {f : Unit → Handler σ ω ε β} {s s' : σ} {o : List ω}
    {r : Except ε β} (h : f () (g s) = ⟨s', o, r⟩) : (update g >>= f) s = ⟨s', o, r⟩ := h

theorem when_eq_of_neg {c : Prop} [Decidable c] (hc : ¬ c) (x : Handler σ ω ε Unit) (s : σ) :
    when c x s = ⟨s, [], .ok ()⟩ := by
  rw [when, if_neg hc, pure_eq]

theorem when_eq_of_pos {c : Prop} [Decidable c] (hc : c) (x : Handler σ ω ε Unit) (s : σ) :
    when c x s = x s := by
  rw [when, if_pos hc]

end Handler

open Handler Relation

variable {σ ω ε α β : Type} {R : σ × List ω → σ × List ω → Prop}

/-- `x`, run from `s` after the effects `h`, moves along `R`-steps and a normal end satisfies `Q`. -/
def Follows (R : σ × List ω → σ × List ω → Prop) (x : Handler σ ω ε α) (s : σ) (h : List ω)
    (Q : α → σ → List ω → Prop) : Prop :=
  ReflTransGen R (s, h) ((x s).state, h ++ (x s).out) ∧
    ∀ a, (x s).result = .ok a → Q a (x s).state (h ++ (x s).out)

theorem Follows.mono {x : Handler σ ω ε α} {s : σ} {h : List ω} {Q Q' : α → σ → List ω → Prop}
    (hx : Follows R x s h Q) (hQ : ∀ a s' h', Q a s' h' → Q' a s' h') : Follows R x s h Q' :=
  ⟨hx.1, fun a ha => hQ _ _ _ (hx.2 a ha)⟩

/-- Code that moves along steps moves along any larger relation. -/
theorem Follows.weaken {R' : σ × List ω → σ × List ω → Prop} {x : Handler σ ω ε α} {s : σ} {h : List ω}
    {Q : α → σ → List ω → Prop} (hx : Follows R x s h Q) (hR : ∀ p q, R p q → R' p q) :
    Follows R' x s h Q :=
  ⟨ReflTransGen.mono hR _ _ hx.1, hx.2⟩

/-- Every invariant of the steps is an invariant of the code, raised exceptions included. -/
theorem Follows.inv {x : Handler σ ω ε α} {s : σ} {h : List ω} {Q : α → σ → List ω → Prop}
    (hx : Follows R x s h Q) (I : σ → List ω → Prop)
    (hR : ∀ p q, R p q → I p.1 p.2 → I q.1 q.2) (h0 : I s h) :
    I (x s).state (h ++ (x s).out) := by
  have key : ∀ q, ReflTransGen R (s, h) q → I q.1 q.2 := by
    intro q hq
    induction hq with
    | refl => exact h0
    | tail _ hbc ih => exact hR _ _ hbc ih
  exact key _ hx.1

theorem follows_pure {a : α} {s : σ} {h : List ω} {Q : α → σ → List ω → Prop} (hQ : Q a s h) :
    Follows R (pure a : Handler σ ω ε α) s h Q := by
  refine ⟨?_, ?_⟩
  · show ReflTransGen R (s, h) (s, h ++ [])
    rw [List.append_nil]
  · intro b hb
    show Q b s (h ++ [])
    rw [List.append_nil]
    cases hb
    exact hQ

theorem follows_bind {x : Handler σ ω ε α} {f : α → Handler σ ω ε β} {s : σ} {h : List ω}
    {Q : α → σ → List ω → Prop} {Q' : β → σ → List ω → Prop} (hx : Follows R x s h Q)
    (hf : ∀ a s' h', Q a s' h' → Follows R (f a) s' h' Q') : Follows R (x >>= f) s h Q' := by
  have hbind : (x >>= f) s = andThen x f s := rfl
  cases hr : (x s).result with
  | error e =>
    have he : (x >>= f) s = ⟨(x s).state, (x s).out, .error e⟩ := by
      rw [hbind]; unfold andThen; rw [hr]
    unfold Follows
    rw [he]
    exact ⟨hx.1, fun a ha => by cases ha⟩
  | ok a =>
    have he : (x >>= f) s = ⟨(f a (x s).state).state, (x s).out ++ (f a (x s).state).out,
        (f a (x s).state).result⟩ := by
      rw [hbind]; unfold andThen; rw [hr]
    obtain ⟨h1, h2⟩ := hf a _ _ (hx.2 a hr)
    unfold Follows
    rw [he]
    dsimp only
    rw [← List.append_assoc]
    exact ⟨hx.1.trans h1, h2⟩

/-- Reading the state hands it to the rest of the code. -/
theorem follows_read {f : σ → Handler σ ω ε β} {s : σ} {h : List ω} {Q : β → σ → List ω → Prop}
    (hf : Follows R (f s) s h Q) : Follows R (read >>= f) s h Q := hf

/-- Code whose whole effect is one `R`-step. -/
theorem follows_step {x : Handler σ ω ε α} {s : σ} {h : List ω} {Q : α → σ → List ω → Prop}
    (hR : R (s, h) ((x s).state, h ++ (x s).out))
    (hQ : ∀ a, (x s).result = .ok a → Q a (x s).state (h ++ (x s).out)) : Follows R x s h Q :=
  ⟨ReflTransGen.single hR, hQ⟩

theorem follows_of_eq {x : Handler σ ω ε α} {s s' : σ} {h o : List ω} {a : α}
    {Q : α → σ → List ω → Prop} (he : x s = ⟨s', o, .ok a⟩) (hR : R (s, h) (s', h ++ o))
    (hQ : Q a s' (h ++ o)) : Follows R x s h Q := by
  refine follows_step ?_ ?_
  · rw [he]; exact hR
  · intro b hb
    rw [he] at hb ⊢
    cases hb
    exact hQ

theorem follows_congr {x y : Handler σ ω ε α} {s : σ} {h : List ω} {Q : α → σ → List ω → Prop}
    (he : x s = y s) (hy : Follows R y s h Q) : Follows R x s h Q := by
  unfold Follows
  rw [he]
  exact hy

theorem follows_of_eq_nil {x : Handler σ ω ε α} {s s' : σ} {h : List ω} {a : α}
    {Q : α → σ → List ω → Prop} (he : x s = ⟨s', [], .ok a⟩) (hR : R (s, h) (s', h))
    (hQ : Q a s' h) : Follows R x s h Q := by
  refine follows_of_eq he ?_ ?_
  · rwa [List.append_nil]
  · rwa [List.append_nil]

/-- The effects of `x` come after those before it. -/
theorem Follows.grows {x : Handler σ ω ε α} {s : σ} {h : List ω} {Q : α → σ → List ω → Prop}
    (hx : Follows R x s h Q) : Follows R x s h (fun a s' h' => Q a s' h' ∧ h <+: h') :=
  ⟨hx.1, fun a ha => ⟨hx.2 a ha, List.prefix_append _ _⟩⟩

theorem follows_update {f : σ → σ} {s : σ} {h : List ω} {Q : Unit → σ → List ω → Prop}
    (hR : R (s, h) (f s, h)) (hQ : Q () (f s) h) :
    Follows R (update f : Handler σ ω ε Unit) s h Q := by
  refine follows_step ?_ ?_
  · show R (s, h) (f s, h ++ [])
    rwa [List.append_nil]
  · intro a _
    show Q () (f s) (h ++ [])
    rwa [List.append_nil]

theorem follows_emit {o : ω} {s : σ} {h : List ω} {Q : Unit → σ → List ω → Prop}
    (hR : R (s, h) (s, h ++ [o])) (hQ : Q () s (h ++ [o])) :
    Follows R (emit o : Handler σ ω ε Unit) s h Q :=
  follows_step hR fun _ _ => hQ

theorem follows_raise {e : ε} {s : σ} {h : List ω} {Q : α → σ → List ω → Prop} :
    Follows R (raise e : Handler σ ω ε α) s h Q := by
  refine ⟨?_, fun a ha => by cases ha⟩
  show ReflTransGen R (s, h) (s, h ++ [])
  rw [List.append_nil]

theorem follows_ite {c : Prop} [Decidable c] {x y : Handler σ ω ε α} {s : σ} {h : List ω}
    {Q : α → σ → List ω → Prop} (hx : c → Follows R x s h Q) (hy : ¬ c → Follows R y s h Q) :
    Follows R (if c then x else y) s h Q := by
  by_cases hc : c
  · rw [if_pos hc]; exact hx hc
  · rw [if_neg hc]; exact hy hc

theorem follows_when {c : Prop} [Decidable c] {x : Handler σ ω ε Unit} {s : σ} {h : List ω}
    {Q : Unit → σ → List ω → Prop} (hx : c → Follows R x s h Q) (hn : ¬ c → Q () s h) :
    Follows R (when c x) s h Q :=
  follows_ite hx fun hc => follows_pure (hn hc)

/-- A loop over a list keeps what every iteration keeps. -/
theorem follows_each {f : β → Handler σ ω ε Unit} (I : σ → List ω → Prop) :
    ∀ (bs : List β) (s : σ) (h : List ω), I s h →
      (∀ b ∈ bs, ∀ s h, I s h → Follows R (f b) s h (fun _ s' h' => I s' h')) →
      Follows R (each f bs) s h (fun _ s' h' => I s' h')
  | [], _, _, h0, _ => follows_pure h0
  | b :: bs, s, h, h0, hf => by
    refine follows_bind (hf b (by simp) s h h0) ?_
    intro _ s' h' hI
    exact follows_each I bs s' h' hI fun b' hb' => hf b' (by simp [hb'])

/-! ### Code that leaves a view of the state alone -/

section View

variable {γ τ : Type} {f : σ → γ}

/-- The code returns normally and leaves the view `f` of the state as it was. -/
def Calm (f : σ → γ) (x : Handler σ ω ε α) : Prop :=
  ∀ s, ∃ s' o a, x s = ⟨s', o, .ok a⟩ ∧ f s' = f s

/-- `x` from `s` ends as `y` from `t`, as far as the view and exceptions go. -/
structure EndsAs (f : σ → γ) (x : Handler σ ω ε α) (s : σ) (y : Handler σ ω ε β) (t : σ) : Prop where
  view : f (x s).state = f (y t).state
  error : ∀ e, (x s).result = .error e ↔ (y t).result = .error e

theorem calm_pure (a : α) : Calm f (pure a : Handler σ ω ε α) := fun s => ⟨s, [], a, rfl, rfl⟩

theorem calm_emit (o : ω) : Calm f (emit o : Handler σ ω ε Unit) := fun s => ⟨s, [o], (), rfl, rfl⟩

theorem calm_update {g : σ → σ} (hg : ∀ s, f (g s) = f s) :
    Calm f (update g : Handler σ ω ε Unit) := fun s => ⟨g s, [], (), rfl, hg s⟩

theorem calm_bind {x : Handler σ ω ε α} {g : α → Handler σ ω ε β} (hx : Calm f x)
    (hg : ∀ a, Calm f (g a)) : Calm f (x >>= g) := by
  intro s
  obtain ⟨s', o, a, hrun, hf⟩ := hx s
  obtain ⟨s'', o', b, hrun', hf'⟩ := hg a s'
  exact ⟨s'', o ++ o', b, bind_run hrun hrun', hf'.trans hf⟩

theorem calm_read {g : σ → Handler σ ω ε β} (hg : ∀ s, Calm f (g s)) : Calm f (read >>= g) :=
  fun s => hg s s

theorem calm_ite {c : Prop} [Decidable c] {x y : Handler σ ω ε α} (hx : Calm f x) (hy : Calm f y) :
    Calm f (if c then x else y) := by
  by_cases hc : c
  · rwa [if_pos hc]
  · rwa [if_neg hc]

theorem calm_when {c : Prop} [Decidable c] {x : Handler σ ω ε Unit} (hx : Calm f x) :
    Calm f (when c x) := calm_ite hx (calm_pure ())

theorem calm_each {g : β → Handler σ ω ε Unit} (hg : ∀ b, Calm f (g b)) :
    ∀ bs : List β, Calm f (each g bs)
  | [] => calm_pure ()
  | b :: bs => calm_bind (hg b) fun _ => calm_each hg bs

theorem EndsAs.refl (x : Handler σ ω ε α) (s : σ) : EndsAs f x s x s := ⟨rfl, fun _ => Iff.rfl⟩

theorem Calm.ends {x : Handler σ ω ε α} (hx : Calm f x) {s t : σ} (ht : f t = f s) :
    EndsAs f x s (pure () : Handler σ ω ε Unit) t := by
  obtain ⟨s', o, a, hrun, hf⟩ := hx s
  refine ⟨?_, fun e => ?_⟩
  · rw [hrun]
    exact hf.trans ht.symm
  · rw [hrun]
    simp [pure_eq]

/-- Calm code after `x` does not show. -/
theorem EndsAs.bind {x : Handler σ ω ε α} {g : α → Handler σ ω ε τ} {y : Handler σ ω ε β} {s t : σ}
    (h : EndsAs f x s y t) (hg : ∀ a, Calm f (g a)) : EndsAs f (x >>= g) s y t := by
  have hbind : (x >>= g) s = andThen x g s := rfl
  unfold andThen at hbind
  cases hr : (x s).result with
  | error e =>
    rw [hr] at hbind
    dsimp only at hbind
    refine ⟨?_, fun e' => ?_⟩
    · rw [hbind]
      exact h.view
    · rw [hbind, ← h.error e', hr]
      simp
  | ok a =>
    rw [hr] at hbind
    dsimp only at hbind
    obtain ⟨s', o, b, hrun, hf⟩ := hg a (x s).state
    refine ⟨?_, fun e' => ?_⟩
    · rw [hbind, hrun]
      exact hf.trans h.view
    · rw [hbind, hrun, ← h.error e', hr]
      simp

/-- Code that returned normally hands over to the rest. -/
theorem endsAs_of_run {x : Handler σ ω ε α} {g : α → Handler σ ω ε τ} {y : Handler σ ω ε β}
    {s s' t : σ} {o : List ω} {a : α} (hx : x s = ⟨s', o, .ok a⟩) (h : EndsAs f (g a) s' y t) :
    EndsAs f (x >>= g) s y t := by
  refine ⟨?_, fun e => ?_⟩
  · rw [bind_eq hx]
    exact h.view
  · rw [bind_eq hx]
    exact h.error e

/-- Two pieces of code with the same start. -/
theorem endsAs_after {x : Handler σ ω ε α} {g : α → Handler σ ω ε τ} {h : α → Handler σ ω ε β}
    {s s' : σ} {o : List ω} {a : α} (hx : x s = ⟨s', o, .ok a⟩)
    (hgh : EndsAs f (g a) s' (h a) s') : EndsAs f (x >>= g) s (x >>= h) s := by
  refine endsAs_of_run hx ⟨?_, fun e => ?_⟩
  · rw [bind_eq hx]
    exact hgh.view
  · rw [bind_eq hx]
    exact hgh.error e

theorem endsAs_read {g : σ → Handler σ ω ε α} {h : σ → Handler σ ω ε β} {s : σ}
    (hgh : EndsAs f (g s) s (h s) s) : EndsAs f (read >>= g) s (read >>= h) s :=
  ⟨hgh.view, hgh.error⟩

theorem endsAs_congr {x x' : Handler σ ω ε α} {y : Handler σ ω ε β} {s t : σ} (he : x s = x' s)
    (h : EndsAs f x' s y t) : EndsAs f x s y t := by
  refine ⟨?_, fun e => ?_⟩
  · rw [he]
    exact h.view
  · rw [he]
    exact h.error e

end View

/-! ### Code that keeps a fact of the state -/

section Keeps

variable {I : σ → Prop}

/-- The code keeps the fact, also when it raises. -/
def Keeps (I : σ → Prop) (x : Handler σ ω ε α) : Prop := ∀ s, I s → I (x s).state

theorem Keeps.run {x : Handler σ ω ε α} (hx : Keeps I x) {s s' : σ} {o : List ω} {r : Except ε α}
    (h : x s = ⟨s', o, r⟩) (hs : I s) : I s' := by
  have hstate := hx s hs
  rwa [h] at hstate

theorem keeps_pure (a : α) : Keeps I (pure a : Handler σ ω ε α) := fun _ h => h

theorem keeps_raise (e : ε) : Keeps I (raise e : Handler σ ω ε α) := fun _ h => h

theorem keeps_emit (o : ω) : Keeps I (emit o : Handler σ ω ε Unit) := fun _ h => h

theorem keeps_update {g : σ → σ} (hg : ∀ s, I s → I (g s)) :
    Keeps I (update g : Handler σ ω ε Unit) := hg

theorem keeps_bind {x : Handler σ ω ε α} {g : α → Handler σ ω ε β} (hx : Keeps I x)
    (hg : ∀ a, Keeps I (g a)) : Keeps I (x >>= g) := by
  intro s hs
  show I (andThen x g s).state
  unfold andThen
  cases hr : (x s).result with
  | error e => exact hx s hs
  | ok a => exact hg a _ (hx s hs)

theorem keeps_read {g : σ → Handler σ ω ε β} (hg : ∀ s, Keeps I (g s)) : Keeps I (read >>= g) :=
  fun s => hg s s

theorem keeps_when {c : Prop} [Decidable c] {x : Handler σ ω ε Unit} (hx : Keeps I x) :
    Keeps I (when c x) := by
  unfold when
  split_ifs
  · exact hx
  · exact keeps_pure ()

theorem keeps_each {g : β → Handler σ ω ε Unit} (hg : ∀ b, Keeps I (g b)) :
    ∀ bs : List β, Keeps I (each g bs)
  | [] => keeps_pure ()
  | b :: bs => keeps_bind (hg b) fun _ => keeps_each hg bs

end Keeps

/-! ### Normal and exceptional ends -/

section Ends

variable {Q Q' : α → σ → Prop} {E E' : σ → Prop} {s : σ}

/-- `x` run from `s` returns with `Q` or raises with `E`. -/
def Ends (x : Handler σ ω ε α) (s : σ) (Q : α → σ → Prop) (E : σ → Prop) : Prop :=
  match (x s).result with
  | .ok a => Q a (x s).state
  | .error _ => E (x s).state

theorem Ends.mono {x : Handler σ ω ε α} (h : Ends x s Q E) (hQ : ∀ a s', Q a s' → Q' a s')
    (hE : ∀ s', E s' → E' s') : Ends x s Q' E' := by
  unfold Ends at h ⊢
  cases hr : (x s).result with
  | ok a =>
    rw [hr] at h
    exact hQ a _ h
  | error e =>
    rw [hr] at h
    exact hE _ h

/-- Whatever the end, the state meets `I`. -/
theorem Ends.state {x : Handler σ ω ε α} {I : σ → Prop} (h : Ends x s (fun _ => I) I) :
    I (x s).state := by
  unfold Ends at h
  cases hr : (x s).result <;> rw [hr] at h <;> exact h

theorem Ends.of_ok {x : Handler σ ω ε α} {a : α} (h : Ends x s Q E) (hr : (x s).result = .ok a) :
    Q a (x s).state := by
  unfold Ends at h
  rwa [hr] at h

theorem ends_of_keeps {x : Handler σ ω ε α} {I : σ → Prop} (hx : Keeps I x) (hs : I s) :
    Ends x s (fun _ => I) I := by
  have h := hx s hs
  unfold Ends
  cases (x s).result <;> exact h

/-- Code that returns normally raises nothing. -/
theorem Ends.returns {x : Handler σ ω ε α} {γ : Type} {f : σ → γ} (h : Ends x s Q E) (hx : Calm f x) :
    Ends x s Q fun _ => False := by
  obtain ⟨s', o, a, hrun, -⟩ := hx s
  unfold Ends at h ⊢
  rw [hrun] at h ⊢
  exact h

theorem ends_pure {a : α} (h : Q a s) : Ends (pure a : Handler σ ω ε α) s Q E := h

theorem ends_update {g : σ → σ} {Q : Unit → σ → Prop} (h : Q () (g s)) :
    Ends (update g : Handler σ ω ε Unit) s Q E := h

theorem ends_raise {e : ε} (h : E s) : Ends (raise e : Handler σ ω ε α) s Q E := h

theorem ends_read {g : σ → Handler σ ω ε α} (h : Ends (g s) s Q E) : Ends (read >>= g) s Q E := h

theorem ends_bind {x : Handler σ ω ε α} {g : α → Handler σ ω ε β} {R : β → σ → Prop}
    (hx : Ends x s Q E) (hg : ∀ a s', Q a s' → Ends (g a) s' R E) : Ends (x >>= g) s R E := by
  unfold Ends at hx
  cases hrun : x s with
  | mk s' o r =>
    rw [hrun] at hx
    cases r with
    | ok a =>
      have h := hg a s' hx
      unfold Ends at h ⊢
      rwa [bind_eq hrun]
    | error e =>
      unfold Ends
      rwa [bind_error hrun]

theorem ends_ite {c : Prop} [Decidable c] {x y : Handler σ ω ε α} (hx : c → Ends x s Q E)
    (hy : ¬c → Ends y s Q E) : Ends (if c then x else y) s Q E := by
  split_ifs with hc
  · exact hx hc
  · exact hy hc

theorem ends_when {c : Prop} [Decidable c] {x : Handler σ ω ε Unit} {Q : Unit → σ → Prop}
    (hx : c → Ends x s Q E) (hs : ¬c → Q () s) : Ends (when c x) s Q E :=
  ends_ite hx fun hc => ends_pure (hs hc)

end Ends

/-! ### Code that emits only what a view of the state allows -/

section Stays

variable {γ : Type} {f : σ → γ} {A B : γ → ω → Prop} {s : σ}

/-- Run from `s` the code leaves the view `f` alone and emits what the view allows, also when it
raises. -/
structure Stays (f : σ → γ) (A : γ → ω → Prop) (x : Handler σ ω ε α) (s : σ) : Prop where
  view : f (x s).state = f s
  out : ∀ o ∈ (x s).out, A (f s) o

theorem Stays.weaken {x : Handler σ ω ε α} (hx : Stays f A x s) (hA : ∀ o, A (f s) o → B (f s) o) :
    Stays f B x s := ⟨hx.view, fun o ho => hA o (hx.out o ho)⟩

theorem stays_pure (a : α) : Stays f A (pure a : Handler σ ω ε α) s := ⟨rfl, fun _ ho => by cases ho⟩

theorem stays_raise (e : ε) : Stays f A (raise e : Handler σ ω ε α) s :=
  ⟨rfl, fun _ ho => by cases ho⟩

theorem stays_emit {o : ω} (ho : A (f s) o) : Stays f A (emit o : Handler σ ω ε Unit) s := by
  refine ⟨rfl, fun o' ho' => ?_⟩
  rw [List.mem_singleton.mp ho']
  exact ho

theorem stays_update {g : σ → σ} (hg : f (g s) = f s) :
    Stays f A (update g : Handler σ ω ε Unit) s := ⟨hg, fun _ ho => by cases ho⟩

theorem stays_bind {x : Handler σ ω ε α} {g : α → Handler σ ω ε β} (hx : Stays f A x s)
    (hg : ∀ a s', f s' = f s → Stays f A (g a) s') : Stays f A (x >>= g) s := by
  have hbind : (x >>= g) s = andThen x g s := rfl
  unfold andThen at hbind
  cases hr : (x s).result with
  | error e =>
    rw [hr] at hbind
    exact ⟨hbind ▸ hx.view, hbind ▸ hx.out⟩
  | ok a =>
    rw [hr] at hbind
    obtain ⟨hv, ho⟩ := hg a (x s).state hx.view
    refine ⟨hbind ▸ hv.trans hx.view, hbind ▸ fun o hmem => ?_⟩
    rcases List.mem_append.mp hmem with hmem | hmem
    · exact hx.out o hmem
    · exact hx.view ▸ ho o hmem

/-- Code that returned normally and emitted nothing hands over to the rest. -/
theorem stays_of_run {x : Handler σ ω ε α} {g : α → Handler σ ω ε β} (s' : σ) {a : α}
    (hx : x s = ⟨s', [], .ok a⟩) (hs : f s' = f s) (hg : Stays f A (g a) s') :
    Stays f A (x >>= g) s := by
  refine ⟨?_, fun o ho => ?_⟩
  · rw [bind_eq hx]
    exact hg.view.trans hs
  · rw [bind_eq hx, List.nil_append] at ho
    exact hs ▸ hg.out o ho

theorem stays_read {g : σ → Handler σ ω ε β} (hg : Stays f A (g s) s) : Stays f A (read >>= g) s :=
  ⟨hg.view, hg.out⟩

theorem stays_ite {c : Prop} [Decidable c] {x y : Handler σ ω ε α} (hx : c → Stays f A x s)
    (hy : ¬ c → Stays f A y s) : Stays f A (if c then x else y) s := by
  by_cases hc : c
  · rw [if_pos hc]; exact hx hc
  · rw [if_neg hc]; exact hy hc

theorem stays_when {c : Prop} [Decidable c] {x : Handler σ ω ε Unit} (hx : c → Stays f A x s) :
    Stays f A (when c x) s := stays_ite hx fun _ => stays_pure ()

theorem stays_each {g : β → Handler σ ω ε Unit} : ∀ (bs : List β) (s : σ),
    (∀ b ∈ bs, ∀ s', f s' = f s → Stays f A (g b) s') → Stays f A (each g bs) s
  | [], _, _ => stays_pure ()
  | b :: bs, s, hg => stays_bind (hg b List.mem_cons_self s rfl) fun _ s' hs' =>
    stays_each bs s' fun b' hb' s'' hs'' => hg b' (List.mem_cons_of_mem b hb') s'' (hs''.trans hs')

end Stays

end Effect
