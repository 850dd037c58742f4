import Mathlib

/-!
# Rules for stateful programs that may fail

`EStateM ε σ` is a state-passing program whose state survives a failure: what a program wrote
before it failed stays written, unless its caller restores it. This file has the equations that run
such a program one statement at a time, the inversion rules for a sequence, and the invariant rules
for a loop over a list.
-/

namespace Vanadium.Foundations.Program

open List

variable {ε σ α β : Type}

open EStateM (Result)

/-! ## Running one statement -/

@[simp] theorem pure_apply (a : α) (s : σ) :
    (pure a : EStateM ε σ α) s = Result.ok a s := rfl

@[simp] theorem get_apply (s : σ) : (get : EStateM ε σ σ) s = Result.ok s s := rfl

@[simp] theorem set_apply (s s' : σ) : (set s' : EStateM ε σ PUnit) s = Result.ok ⟨⟩ s' := rfl

@[simp] theorem throw_apply (e : ε) (s : σ) :
    (throw e : EStateM ε σ α) s = Result.error e s := rfl

@[simp] theorem modify_apply (f : σ → σ) (s : σ) :
    (modify f : EStateM ε σ PUnit) s = Result.ok ⟨⟩ (f s) := rfl

theorem bind_apply (x : EStateM ε σ α) (f : α → EStateM ε σ β) (s : σ) :
    (x >>= f) s = match x s with
      | Result.ok a s' => f a s'
      | Result.error e s' => Result.error e s' := rfl

variable {x : EStateM ε σ α} {f : α → EStateM ε σ β} {s s' s'' : σ} {a : α} {e : ε} {p : Prop}
  {l : List α} {g : σ → σ} {u : PUnit}

theorem bind_of_ok (h : x s = Result.ok a s') : (x >>= f) s = f a s' := by
  rw [bind_apply, h]

/-- A sequence that succeeds is two programs that succeed. -/
theorem bind_eq_ok_iff {b : β} :
    (x >>= f) s = Result.ok b s'' ↔ ∃ a s', x s = Result.ok a s' ∧ f a s' = Result.ok b s'' := by
  rw [bind_apply]
  constructor
  · intro h
    cases hx : x s with
    | ok a s' => rw [hx] at h; exact ⟨a, s', rfl, h⟩
    | error e s' => rw [hx] at h; cases h
  · rintro ⟨a, s', hx, hf⟩
    rw [hx]
    exact hf

/-- A sequence that fails does so in its first or in its second part. -/
theorem bind_eq_error_iff :
    (x >>= f) s = Result.error e s'' ↔
      x s = Result.error e s'' ∨ ∃ a s', x s = Result.ok a s' ∧ f a s' = Result.error e s'' := by
  rw [bind_apply]
  constructor
  · intro h
    cases hx : x s with
    | ok a s' => rw [hx] at h; exact Or.inr ⟨a, s', rfl, h⟩
    | error e' s' => rw [hx] at h; cases h; exact Or.inl rfl
  · rintro (hx | ⟨a, s', hx, hf⟩)
    · rw [hx]
    · rw [hx]
      exact hf

/-! ## Conditional statements -/

/-- Fail if a condition holds. -/
def failIf (p : Prop) [Decidable p] (e : ε) : EStateM ε σ PUnit := if p then throw e else pure ⟨⟩

/-- Run a statement only if a condition holds. -/
def onlyIf (p : Prop) [Decidable p] (x : EStateM ε σ PUnit) : EStateM ε σ PUnit :=
  if p then x else pure ⟨⟩

theorem failIf_eq_ok_iff [Decidable p] :
    failIf p e s = Result.ok u s' ↔ ¬p ∧ s' = s := by
  rw [failIf]
  by_cases hp : p <;> simp [hp, eq_comm]

theorem failIf_eq_error_iff [Decidable p] {e' : ε} :
    failIf p e s = Result.error e' s' ↔ p ∧ e' = e ∧ s' = s := by
  rw [failIf]
  by_cases hp : p <;> simp [hp, eq_comm]

theorem onlyIf_eq_ok_iff [Decidable p] {x : EStateM ε σ PUnit} :
    onlyIf p x s = Result.ok u s' ↔ (p ∧ x s = Result.ok u s') ∨ (¬p ∧ s' = s) := by
  rw [onlyIf]
  by_cases hp : p <;> simp [hp, eq_comm]

theorem onlyIf_eq_error_iff [Decidable p] {x : EStateM ε σ PUnit} :
    onlyIf p x s = Result.error e s' ↔ p ∧ x s = Result.error e s' := by
  rw [onlyIf]
  by_cases hp : p <;> simp [hp]

/-! ## Loops over a list -/

theorem forM_cons_apply (f : α → EStateM ε σ PUnit) (a : α) (l : List α) (s : σ) :
    (a :: l).forM f s = match f a s with
      | Result.ok _ s' => l.forM f s'
      | Result.error e s' => Result.error e s' := by
  rw [show (a :: l).forM f = (f a >>= fun _ ↦ l.forM f) from rfl, bind_apply]
  cases f a s <;> rfl

theorem forM_cons_eq_ok_iff {f : α → EStateM ε σ PUnit} :
    (a :: l).forM f s = Result.ok ⟨⟩ s'' ↔
      ∃ s', f a s = Result.ok ⟨⟩ s' ∧ l.forM f s' = Result.ok ⟨⟩ s'' := by
  rw [forM_cons_apply]
  constructor
  · intro h
    cases hf : f a s with
    | ok u s' => rw [hf] at h; exact ⟨s', rfl, h⟩
    | error e s' => rw [hf] at h; cases h
  · rintro ⟨s', hf, hl⟩
    rw [hf]
    exact hl

/-- A loop of checks passes when each check does. -/
theorem forM_except_ok {f : α → Except ε PUnit} (h : ∀ a ∈ l, f a = .ok ⟨⟩) :
    l.forM f = .ok ⟨⟩ := by
  induction l with
  | nil => rfl
  | cons a l ih =>
    obtain ⟨ha, hl⟩ := forall_mem_cons.mp h
    rw [show (a :: l).forM f = (f a >>= fun _ ↦ l.forM f) from rfl, ha]
    exact ih hl

/-! ## Collecting the results of a loop -/

/-- The loop that turns each element into a result or into nothing and stops at the first error. -/
def collect (f : α → Except ε (Option β)) : List α → Except ε (List β)
  | [] => .ok []
  | a :: l =>
    match f a with
    | .error e => .error e
    | .ok none => collect f l
    | .ok (some b) =>
      match collect f l with
      | .error e => .error e
      | .ok bs => .ok (b :: bs)

theorem collect_eq_ok_iff {f : α → Except ε (Option β)} {out : List β} :
    collect f l = .ok out ↔
      (∀ a ∈ l, ∃ r, f a = .ok r) ∧ out = l.filterMap fun a ↦ (f a).toOption.join := by
  induction l generalizing out with
  | nil =>
    rw [collect]
    simp [eq_comm]
  | cons a l ih =>
    rw [collect, forall_mem_cons]
    cases hf : f a with
    | error e => simp
    | ok r =>
      cases r with
      | none => simp [ih, hf, Except.toOption]
      | some b =>
        cases hl : collect f l with
        | error e =>
          have hno : ¬∀ a ∈ l, ∃ r, f a = .ok r := by
            intro hall
            rw [ih.mpr ⟨hall, rfl⟩] at hl
            cases hl
          simp [hno]
        | ok bs =>
          obtain ⟨hall, rfl⟩ := ih.mp hl
          simp only [Except.toOption, Except.ok.injEq, exists_eq', true_and]
          constructor
          · rintro rfl
            exact ⟨hall, by rw [filterMap_cons_some]; rw [hf]; rfl⟩
          · rintro ⟨-, rfl⟩
            rw [filterMap_cons_some]
            rw [hf]
            rfl

/-! ## What a program keeps, whether it fails or not -/

/-- The state in which a program stops. -/
def after (x : EStateM ε σ α) (s : σ) : σ :=
  match x s with
  | Result.ok _ s' => s'
  | Result.error _ s' => s'

theorem after_of_ok (h : x s = Result.ok a s') : after x s = s' := by
  rw [after, h]

/-- Whether a program goes through. -/
def passes (x : EStateM ε σ α) (s : σ) : Bool :=
  match x s with
  | Result.ok _ _ => true
  | Result.error _ _ => false

theorem eq_ok_of_passes {x : EStateM ε σ PUnit} (h : passes x s = true) :
    x s = Result.ok ⟨⟩ (after x s) := by
  rw [passes] at h
  rw [after]
  cases hx : x s with
  | ok a s' => rfl
  | error e s' => rw [hx] at h; cases h

theorem exists_error_of_not_passes (h : passes x s = false) :
    ∃ e, x s = Result.error e (after x s) := by
  rw [passes] at h
  rw [after]
  cases hx : x s with
  | ok a s' => rw [hx] at h; cases h
  | error e s' => exact ⟨e, rfl⟩

/-! ## Total correctness -/

/-- A program succeeds, and its result and the state it ends in have a property. -/
def Ensures (x : EStateM ε σ α) (s : σ) (Q : α → σ → Prop) : Prop :=
  ∃ a s', x s = Result.ok a s' ∧ Q a s'

namespace Ensures

variable {x : EStateM ε σ α} {f : α → EStateM ε σ β} {s : σ} {Q Q' : α → σ → Prop}
  {R : β → σ → Prop}

theorem mono (h : Ensures x s Q) (hQ : ∀ a s', Q a s' → Q' a s') : Ensures x s Q' := by
  obtain ⟨a, s', hx, ha⟩ := h
  exact ⟨a, s', hx, hQ a s' ha⟩

theorem pure {a : α} (h : Q a s) : Ensures (pure a : EStateM ε σ α) s Q := ⟨a, s, rfl, h⟩

/-- The second program runs on what the first one ends with. -/
theorem bind (h : Ensures x s fun a s' ↦ Ensures (f a) s' R) : Ensures (x >>= f) s R := by
  obtain ⟨a, s', hx, b, s'', hf, hb⟩ := h
  exact ⟨b, s'', bind_eq_ok_iff.mpr ⟨a, s', hx, hf⟩, hb⟩

theorem get {Q : σ → σ → Prop} (h : Q s s) : Ensures (get : EStateM ε σ σ) s Q := ⟨s, s, rfl, h⟩

theorem modify {Q : PUnit → σ → Prop} (h : Q ⟨⟩ (g s)) :
    Ensures (modify g : EStateM ε σ PUnit) s Q := ⟨⟨⟩, g s, rfl, h⟩

/-- A loop succeeds if every iteration succeeds and keeps an invariant. -/
theorem forM {γ : Type} {I : σ → Prop} {g : γ → EStateM ε σ PUnit} {l : List γ}
    (hstep : ∀ a ∈ l, ∀ t, I t → Ensures (g a) t fun _ ↦ I) (h : I s) :
    Ensures (l.forM g) s fun _ ↦ I := by
  induction l generalizing s with
  | nil => exact ⟨⟨⟩, s, rfl, h⟩
  | cons a l ih =>
    obtain ⟨ha, hl⟩ := forall_mem_cons.mp hstep
    exact .bind ((ha s h).mono fun _ t ht ↦ ih hl ht)

end Ensures

/-! ## Partial correctness -/

/-- If a program succeeds, its result and the state it ends in have a property. -/
def Returns (x : EStateM ε σ α) (s : σ) (Q : α → σ → Prop) : Prop :=
  ∀ a s', x s = Result.ok a s' → Q a s'

namespace Returns

variable {x : EStateM ε σ α} {f : α → EStateM ε σ β} {s : σ} {Q Q' : α → σ → Prop}
  {R : β → σ → Prop}

theorem mono (h : Returns x s Q) (hQ : ∀ a s', Q a s' → Q' a s') : Returns x s Q' :=
  fun a s' hx ↦ hQ a s' (h a s' hx)

theorem pure {a : α} (h : Q a s) : Returns (pure a : EStateM ε σ α) s Q := by
  rintro _ _ ⟨⟩
  exact h

theorem bind (h : Returns x s fun a s' ↦ Returns (f a) s' R) : Returns (x >>= f) s R := by
  intro b s'' hb
  obtain ⟨a, s', hx, hf⟩ := bind_eq_ok_iff.mp hb
  exact h a s' hx b s'' hf

theorem get {Q : σ → σ → Prop} (h : Q s s) : Returns (get : EStateM ε σ σ) s Q := by
  rintro _ _ ⟨⟩
  exact h

theorem modify {Q : PUnit → σ → Prop} (h : Q ⟨⟩ (g s)) :
    Returns (modify g : EStateM ε σ PUnit) s Q := by
  rintro _ _ ⟨⟩
  exact h

end Returns

theorem Ensures.returns {Q : α → σ → Prop} (h : Ensures x s Q) :
    Returns x s Q := by
  obtain ⟨a, s', hx, ha⟩ := h
  intro b s'' hb
  obtain ⟨⟩ := hx.symm.trans hb
  exact ha

theorem Ensures.and {Q Q' : α → σ → Prop} (h : Ensures x s Q)
    (h' : Returns x s Q') : Ensures x s fun a s' ↦ Q a s' ∧ Q' a s' := by
  obtain ⟨a, s', hx, ha⟩ := h
  exact ⟨a, s', hx, ha, h' a s' hx⟩

end Vanadium.Foundations.Program
