import StackCode.Proofs.Sequencing

/-!
# Computations that agree

Two computations agree if both succeed, with results that are related, or both fail.  Their errors
may differ.  Agreement passes from the steps of two computations to the whole, so two runs of a
stage on corresponding inputs are compared step by step.

## Main definitions

* `Agree`: both computations succeed with related results, or both fail.

## Main results

* `Agree.bind`, `Agree.widen`: one computation after another.
* `Agree.mapM`, `Agree.foldlM`, `Agree.forM`: a computation for each element of a list.
* `Agree.exists_ok_iff`: computations that agree succeed together.
-/

namespace StackCode

variable {ε ε' δ δ' α α' β β' : Type}

/-- Both computations succeed, with results in the relation `R`, or both fail. -/
inductive Agree (R : α → β → Prop) : Except ε α → Except δ β → Prop
  | ok {a : α} {b : β} (h : R a b) : Agree R (.ok a) (.ok b)
  | error (e : ε) (e' : δ) : Agree R (.error e) (.error e')

namespace Agree

variable {R R' : α → β → Prop} {x : Except ε α} {y : Except δ β}

theorem pure {a : α} {b : β} (h : R a b) :
    Agree R (pure a : Except ε α) (pure b : Except δ β) := .ok h

theorem refl (x : Except ε α) : Agree Eq x x := by
  cases x with
  | ok a => exact .ok rfl
  | error e => exact .error e e

theorem mono (h : Agree R x y) (hR : ∀ a b, R a b → R' a b) : Agree R' x y := by
  cases h with
  | ok h => exact .ok (hR _ _ h)
  | error e e' => exact .error e e'

theorem bind {S : α' → β' → Prop} {f : α → Except ε α'} {g : β → Except δ β'} (h : Agree R x y)
    (hnext : ∀ a b, R a b → Agree S (f a) (g b)) : Agree S (x >>= f) (y >>= g) := by
  cases h with
  | ok h => exact hnext _ _ h
  | error e e' => exact .error e e'

/-- The same continuation after computations with the same result. -/
theorem andThen {x y : Except ε α} (h : Agree Eq x y) (f : α → Except ε α') :
    Agree Eq (x >>= f) (y >>= f) := by
  refine h.bind ?_
  rintro a _ rfl
  exact refl (f a)

/-- Checks, and then what agrees. -/
theorem seq {P : α → β → Prop} {S : α' → β' → Prop} {x' : Except ε α'} {y' : Except δ β'}
    (h : Agree P x y) (hnext : Agree S x' y') : Agree S (x >>= fun _ => x') (y >>= fun _ => y') :=
  h.bind fun _ _ _ => hnext

theorem mapError {f : ε → ε'} {g : δ → δ'} (h : Agree R x y) :
    Agree R (x.mapError f) (y.mapError g) := by
  cases h with
  | ok h => exact .ok h
  | error e e' => exact .error (f e) (g e')

theorem widen {x : Checked ε α} {y : Checked δ β} {f : ε → ε'} {g : δ → δ'} (h : Agree R x y) :
    Agree R (x.widen f) (y.widen g) :=
  h.mapError

/-- Tests with the same outcome, and then what agrees. -/
theorem ite {c c' : Prop} [Decidable c] [Decidable c'] {x' : Except ε α} {y' : Except δ β}
    (hc : c ↔ c') (h : c → Agree R x y) (h' : ¬ c → Agree R x' y') :
    Agree R (if c then x else x') (if c' then y else y') := by
  by_cases hcond : c
  · rw [if_pos hcond, if_pos (hc.mp hcond)]
    exact h hcond
  · rw [if_neg hcond, if_neg (mt hc.mpr hcond)]
    exact h' hcond

theorem mapM {P : α → β → Prop} {S : α' → β' → Prop} {f : α → Except ε α'} {g : β → Except δ β'}
    {as : List α} {bs : List β} (hlists : List.Forall₂ P as bs)
    (h : ∀ a b, P a b → Agree S (f a) (g b)) :
    Agree (List.Forall₂ S) (as.mapM f) (bs.mapM g) := by
  induction hlists with
  | nil => exact .pure .nil
  | cons hab _ ih =>
    rw [List.mapM_cons, List.mapM_cons]
    exact (h _ _ hab).bind fun _ _ hfirst => ih.bind fun _ _ hrest => .pure (.cons hfirst hrest)

theorem foldlM {P : α → β → Prop} {S : α' → β' → Prop} {f : α' → α → Except ε α'}
    {g : β' → β → Except δ β'} {as : List α} {bs : List β} {s : α'} {s' : β'}
    (hlists : List.Forall₂ P as bs) (hstart : S s s')
    (h : ∀ a b s s', P a b → S s s' → Agree S (f s a) (g s' b)) :
    Agree S (as.foldlM f s) (bs.foldlM g s') := by
  induction hlists generalizing s s' with
  | nil => exact .pure hstart
  | cons hab _ ih =>
    rw [List.foldlM_cons, List.foldlM_cons]
    exact (h _ _ _ _ hab hstart).bind fun _ _ hnext => ih hnext

theorem forM {P : α → β → Prop} {f : α → Except ε PUnit} {g : β → Except δ PUnit}
    {as : List α} {bs : List β} (hlists : List.Forall₂ P as bs)
    (h : ∀ a b, P a b → Agree (fun _ _ => True) (f a) (g b)) :
    Agree (fun _ _ => True) (as.forM f) (bs.forM g) := by
  induction hlists with
  | nil => exact .pure trivial
  | cons hab _ ih => exact (h _ _ hab).bind fun _ _ _ => ih

/-- **Computations that agree succeed together.** -/
theorem exists_ok_iff (h : Agree R x y) : (∃ a, x = .ok a) ↔ ∃ b, y = .ok b := by
  cases h with
  | ok h => exact ⟨fun _ => ⟨_, rfl⟩, fun _ => ⟨_, rfl⟩⟩
  | error e e' => simp

theorem result {a : α} {b : β} (h : Agree R x y) (hx : x = .ok a) (hy : y = .ok b) : R a b := by
  subst hx hy
  cases h with
  | ok h => exact h

end Agree

end StackCode
