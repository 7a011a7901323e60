import StackCode.Proofs.Sequencing

/-!
# How computations end

A computation ends with a result or with an error.  `Ends` says which results and which errors there
can be.  It passes from the steps of a computation to the whole, so how a stage ends follows from
how its steps end.  An error of a computation over a type table should be a refusal, and not a
lookup of a type that the table does not have.

## Main definitions

* `Ends`: the ways a computation can end.
* `Fault.Refuses`: the input is refused, for a cause that has a property.

## Main results

* `Ends.ok_or_refuse`: the two ways a computation over a type table should end.
* `Ends.bind`, `Ends.mapError`: one computation after another.
* `Ends.mapM`, `Ends.foldlM`, `Ends.forM`: a computation for each element of a list.
-/

namespace StackCode

variable {ε δ α β : Type}

/-- The computation ends with a result that has the property `P`, or with an error that has the
property `Q`. -/
def Ends (P : α → Prop) (Q : ε → Prop) : Except ε α → Prop
  | .ok a => P a
  | .error e => Q e

/-- The input is refused, for a cause that has the property `Q`. -/
def Fault.Refuses (Q : ε → Prop) : Fault ε → Prop
  | refused cause => Q cause
  | dangling _ => False

namespace Ends

variable {P P' : α → Prop} {Q Q' : ε → Prop} {x : Except ε α}

theorem ok {a : α} (h : P a) : Ends P Q (.ok a) := h

theorem error {e : ε} (h : Q e) : Ends P Q (.error e) := h

theorem pure {a : α} (h : P a) : Ends P Q (pure a) := h

theorem refuse {Q : ε → Prop} {cause : ε} (h : Q cause) :
    Ends P (Fault.Refuses Q) (Checked.refuse cause) := h

theorem of_eq_ok {a : α} (hx : x = .ok a) (ha : P a) : Ends P Q x := by
  rw [hx]
  exact ha

/-- How a computation ends, said of its result and its error. -/
theorem iff_forall :
    Ends P Q x ↔ (∀ a, x = .ok a → P a) ∧ ∀ e, x = .error e → Q e := by
  cases x <;> simp [Ends]

theorem result {a : α} (h : Ends P Q x) (hx : x = .ok a) : P a := (iff_forall.mp h).1 a hx

theorem cause {e : ε} (h : Ends P Q x) (hx : x = .error e) : Q e := (iff_forall.mp h).2 e hx

/-- A computation over a type table that ends with a result or a refusal. -/
theorem ok_or_refuse {x : Checked ε α} (h : Ends P (Fault.Refuses Q) x) :
    (∃ a, x = .ok a ∧ P a) ∨ ∃ cause, x = Checked.refuse cause ∧ Q cause := by
  cases x with
  | ok a => exact .inl ⟨a, rfl, h⟩
  | error fault =>
    cases fault with
    | refused cause => exact .inr ⟨cause, rfl, h⟩
    | dangling type => exact h.elim

/-- A computation that succeeds if there is no cause to refuse, and refuses for a cause otherwise,
is determined by the causes there are. -/
theorem ok_iff_and_error_iff {x : Checked ε α}
    (h : Ends (fun _ => ∀ cause, ¬ Q cause) (Fault.Refuses Q) x)
    (hunique : ∀ cause cause', Q cause → Q cause' → cause = cause') :
    ((∃ a, x = .ok a) ↔ ∀ cause, ¬ Q cause) ∧
      ∀ fault, x = .error fault ↔ ∃ cause, Q cause ∧ fault = .refused cause := by
  rcases h.ok_or_refuse with ⟨a, rfl, hnone⟩ | ⟨cause, rfl, hcause⟩
  · refine ⟨iff_of_true ⟨a, rfl⟩ hnone, fun fault => iff_of_false nofun ?_⟩
    rintro ⟨cause, hcause, -⟩
    exact hnone cause hcause
  · refine ⟨iff_of_false nofun fun hnone => hnone cause hcause, fun fault => ⟨?_, ?_⟩⟩
    · rintro ⟨⟩
      exact ⟨cause, hcause, rfl⟩
    · rintro ⟨cause', hcause', rfl⟩
      rw [hunique cause' cause hcause' hcause]
      rfl

theorem mono (h : Ends P Q x) (hP : ∀ a, P a → P' a) (hQ : ∀ e, Q e → Q' e) : Ends P' Q' x :=
  iff_forall.mpr ⟨fun a ha => hP a (h.result ha), fun e he => hQ e (h.cause he)⟩

/-- What is known of the result of a computation may be used. -/
theorem weaken (h : Ends P Q x) (hP : ∀ a, x = .ok a → P a → P' a) : Ends P' Q x :=
  iff_forall.mpr ⟨fun a ha => hP a ha (h.result ha), fun _ he => h.cause he⟩

/-- A sequence ends as its second part does, if its first ends well. -/
theorem bind {R : β → Prop} {f : α → Except ε β} (h : Ends P Q x)
    (hf : ∀ a, P a → Ends R Q (f a)) : Ends R Q (x >>= f) := by
  cases x with
  | ok a => exact hf a h
  | error e => exact h

theorem mapError {Q : δ → Prop} {f : ε → δ} (h : Ends P (fun e => Q (f e)) x) :
    Ends P Q (x.mapError f) := by
  cases x with
  | ok a => exact h
  | error e => exact h

theorem widen {x : Checked ε α} {Q : ε → Prop} {Q' : δ → Prop} {f : ε → δ}
    (h : Ends P (Fault.Refuses Q) x) (hf : ∀ cause, Q cause → Q' (f cause)) :
    Ends P (Fault.Refuses Q') (x.widen f) := by
  refine mapError (h.mono (fun _ ha => ha) fun fault hfault => ?_)
  cases fault with
  | refused cause => exact hf cause hfault
  | dangling type => exact hfault

theorem mapM {R : α → β → Prop} {f : α → Except ε β} {l : List α}
    (h : ∀ a ∈ l, Ends (R a) Q (f a)) : Ends (List.Forall₂ R l) Q (l.mapM f) := by
  induction l with
  | nil => exact .pure .nil
  | cons a l ih =>
    obtain ⟨ha, hl⟩ := List.forall_mem_cons.mp h
    rw [List.mapM_cons]
    exact ha.bind fun b hb => (ih hl).bind fun rest hrest => .pure (.cons hb hrest)

/-- A fold ends well if each step keeps the property. -/
theorem foldlM {R : β → Prop} {f : β → α → Except ε β} {l : List α} {b : β} (hb : R b)
    (h : ∀ a ∈ l, ∀ b, R b → Ends R Q (f b a)) : Ends R Q (l.foldlM f b) := by
  induction l generalizing b with
  | nil => exact .pure hb
  | cons a l ih =>
    obtain ⟨ha, hl⟩ := List.forall_mem_cons.mp h
    rw [List.foldlM_cons]
    exact (ha b hb).bind fun b' hb' => ih hb' hl

theorem forM {f : α → Except ε PUnit} {l : List α} (h : ∀ a ∈ l, Ends (fun _ => True) Q (f a)) :
    Ends (fun _ => True) Q (l.forM f) := by
  induction l with
  | nil => exact .pure trivial
  | cons a l ih =>
    obtain ⟨ha, hl⟩ := List.forall_mem_cons.mp h
    exact ha.bind fun _ _ => ih hl

end Ends

end StackCode
