import StackCode.Proofs.Typing.Order

/-!
# Typing rules below a recorded stack

The solver runs each typing rule on the merge of all stacks that reach an instruction; a single
path reaches it with a stack below that merge.  A rule that succeeds on the merge succeeds on the
stack of the path as well, with results below, unless it has to look behind an operand that is null
on the path.  The rules are built from a few operations on the stack, and the relation between the
two runs is built along with them.

## Main definitions

* `TypeTable.Follows`: a computation keeps pace with one on a higher stack.
* `Instr.addressOperand?`: the operand an instruction looks behind.
* `NullAccess`: an instruction refused because it looks behind null.

## Main results

* `TypingContext.results_carriesOver`: the typing rule of every instruction carries over to lower
  stacks.
* `TypingContext.step_below`: a step on a lower stack succeeds with a lower stack, or is refused
  for a null access.
-/

namespace StackCode

/-- The stack without this many values from its top. -/
def OperandStack.dropTop {α : Type} (s : OperandStack α) (n : Nat) : OperandStack α :=
  ⟨s.topDown.drop n⟩

namespace Operands

variable {α β : Type} {s r : OperandStack TypeId}

theorem bind_run_eq_ok {m : Operands α} {f : α → Operands β} {b : β} :
    (m >>= f) s = .ok (b, r) ↔ ∃ a s', m s = .ok (a, s') ∧ f a s' = .ok (b, r) := by
  show (m s >>= fun x => f x.1 x.2) = .ok (b, r) ↔ _
  rw [bind_eq_ok]
  exact ⟨fun ⟨(a, s'), h, h'⟩ => ⟨a, s', h, h'⟩, fun ⟨a, s', h, h'⟩ => ⟨(a, s'), h, h'⟩⟩

theorem bind_run_of_ok {m : Operands α} {f : α → Operands β} {a : α} (h : m s = .ok (a, r)) :
    (m >>= f) s = f a r := by
  show (m s >>= fun x => f x.1 x.2) = _
  rw [h]
  rfl

theorem bind_run_of_error {m : Operands α} {f : α → Operands β} {e : Fault Violation}
    (h : m s = .error e) : (m >>= f) s = .error e := by
  show (m s >>= fun x => f x.1 x.2) = _
  rw [h]
  rfl

theorem pure_run_eq_ok {a b : α} : (pure a : Operands α) s = .ok (b, r) ↔ a = b ∧ s = r := by
  show (Except.ok (a, s) : Checked Violation _) = .ok (b, r) ↔ _
  simp

theorem require_eq_ok {condition : Bool} {v : Violation} {u : Unit} :
    require condition v s = .ok (u, r) ↔ condition = true ∧ s = r := by
  cases condition with
  | true => exact pure_run_eq_ok.trans (by simp)
  | false => exact ⟨fun h => (nomatch h), fun h => (nomatch h.1)⟩

theorem ask_eq_ok {query : Checked Violation α} {a : α} :
    ask query s = .ok (a, r) ↔ query = .ok a ∧ s = r := by
  show (query >>= fun a => pure (a, s)) = .ok (a, r) ↔ _
  rw [bind_eq_ok]
  constructor
  · rintro ⟨b, hb, h⟩
    cases pure_eq_ok.mp h
    exact ⟨hb, rfl⟩
  · rintro ⟨hb, rfl⟩
    exact ⟨a, hb, rfl⟩

theorem pop_eq_ok {a : TypeId} : pop s = .ok (a, r) ↔ s = r.push a := by
  obtain ⟨_ | ⟨x, l⟩⟩ := s
  · constructor <;> intro h <;> cases h
  · obtain ⟨below⟩ := r
    show (Except.ok (x, (⟨l⟩ : OperandStack TypeId)) : Checked Violation _) = _ ↔ _
    simp [OperandStack.push]

end Operands

namespace TypeTable

open Operands

variable {t : TypeTable}

theorem StackBelow.dropTop {s s' : OperandStack TypeId} (h : t.StackBelow s s') (n : Nat) :
    t.StackBelow (s.dropTop n) (s'.dropTop n) :=
  List.forall₂_drop n h

/-- Values that lie below each other are pushed on stacks that do. -/
theorem StackBelow.pushAll {s s' : OperandStack TypeId} {values values' : List TypeId}
    (hs : t.StackBelow s s') (hvalues : List.Forall₂ t.Below values values') :
    t.StackBelow (s.pushAll values) (s'.pushAll values') := by
  refine .of_bottomUp ?_
  rw [OperandStack.bottomUp_pushAll, OperandStack.bottomUp_pushAll]
  exact List.rel_append (List.forall₂_reverse_iff.mpr hs) hvalues

/-- The operands that may be null where a rule needs an address: for each, its depth in the stack
and what the rule expects of it. -/
abbrev NullChecks := List (Nat × Expectation)

/-- A refusal of one of these operands because it is null. -/
def NullChecks.Refuses (checks : NullChecks) (s : OperandStack TypeId) (e : Fault Violation) :
    Prop :=
  ∃ check ∈ checks, s.topDown[check.1]? = some .null ∧
    e = .refused (.typeMismatch check.2 .null)

/-- The same operands, seen from a stack with `n` values more on top. -/
def NullChecks.deepen (checks : NullChecks) (n : Nat) : NullChecks :=
  checks.map fun (depth, expected) => (depth + n, expected)

section Follows

variable {α β : Type} {n k : Nat} {checks checks' : NullChecks} {R : α → α → Prop}
  {Q : β → β → Prop} {m m' : Operands α} {f f' : α → Operands β}

/-- Where `m'` succeeds on a stack and `m` runs on one below it, both take `n` operands and answer
related values, or `m` refuses one of the operands `checks` because it is null. -/
def Follows (t : TypeTable) (n : Nat) (checks : NullChecks) (R : α → α → Prop)
    (m m' : Operands α) : Prop :=
  ∀ ⦃s s' r' a'⦄, t.StackBelow s s' → m' s' = .ok (a', r') →
    (r' = s'.dropTop n ∧ ∃ a, m s = .ok (a, s.dropTop n) ∧ R a a') ∨
      ∃ e, m s = .error e ∧ checks.Refuses s e

/-- **Sequences follow each other** if their parts do.  The second part looks `n` values less deep,
having lost the operands of the first. -/
theorem Follows.bind (h : t.Follows n checks R m m')
    (hf : ∀ a a', R a a' → t.Follows k checks' Q (f a) (f' a')) :
    t.Follows (n + k) (checks ++ checks'.deepen n) Q (m >>= f) (m' >>= f') := by
  intro s s' r' b' hs hrun
  obtain ⟨a', mid', hm', hf'⟩ := bind_run_eq_ok.mp hrun
  have hdrop (s : OperandStack TypeId) : (s.dropTop n).dropTop k = s.dropTop (n + k) := by
    simp [OperandStack.dropTop]
  rcases h hs hm' with ⟨rfl, a, hm, hR⟩ | ⟨e, hm, check, hmem, hnull, he⟩
  · rcases hf a a' hR (hs.dropTop n) hf' with ⟨rfl, b, hfa, hQ⟩ | ⟨e, hfa, check, hmem, hnull, he⟩
    · refine .inl ⟨hdrop s', b, ?_, hQ⟩
      rw [bind_run_of_ok hm, hfa, hdrop]
    · refine .inr ⟨e, by rw [bind_run_of_ok hm, hfa], (check.1 + n, check.2), ?_, ?_, he⟩
      · exact List.mem_append_right _ (List.mem_map_of_mem hmem)
      · rw [← hnull, Nat.add_comm]
        exact List.getElem?_drop.symm
  · exact .inr ⟨e, bind_run_of_error hm, check, List.mem_append_left _ hmem, hnull, he⟩

/-- A part that leaves the stack alone, before any other. -/
theorem Follows.query (h : t.Follows 0 [] R m m')
    (hf : ∀ a a', R a a' → t.Follows k checks Q (f a) (f' a')) :
    t.Follows k checks Q (m >>= f) (m' >>= f') := by
  have hbind := h.bind hf
  have hdeepen : checks.deepen 0 = checks := List.map_id checks
  rwa [Nat.zero_add, List.nil_append, hdeepen] at hbind

/-- A part that looks behind no operand, after any other. -/
theorem Follows.andThen (h : t.Follows n checks R m m')
    (hf : ∀ a a', R a a' → t.Follows k [] Q (f a) (f' a')) :
    t.Follows (n + k) checks Q (m >>= f) (m' >>= f') := by
  have hbind := h.bind hf
  rwa [show NullChecks.deepen [] n = [] from rfl, List.append_nil] at hbind

/-- A part that looks behind an operand, after one that takes the `n` operands above it. -/
theorem Follows.under {d : Nat} {expected : Expectation} (h : t.Follows n [] R m m')
    (hf : ∀ a a', R a a' → t.Follows k [(d, expected)] Q (f a) (f' a')) :
    t.Follows (n + k) [(d + n, expected)] Q (m >>= f) (m' >>= f') :=
  h.bind hf

theorem Follows.weaken {P : α → α → Prop} (h : t.Follows n checks R m m')
    (hR : ∀ a a', R a a' → P a a') : t.Follows n checks P m m' := by
  intro s s' r' a' hs hrun
  rcases h hs hrun with ⟨hr', a, hm, ha⟩ | hnull
  · exact .inl ⟨hr', a, hm, hR a a' ha⟩
  · exact .inr hnull

theorem Follows.pure {a a' : α} (h : R a a') : t.Follows 0 [] R (pure a) (pure a') := by
  intro s s' r' b' hs hrun
  obtain ⟨rfl, rfl⟩ := pure_run_eq_ok.mp hrun
  exact .inl ⟨rfl, a, rfl, h⟩

/-- A refusal is followed by anything. -/
theorem Follows.refuse {v : Violation} : t.Follows n checks R m (refuse v) :=
  fun _ _ _ _ _ hrun => (nomatch hrun)

/-- A requirement that is met on the higher stack is met on the lower one. -/
theorem Follows.require {b b' : Bool} {v v' : Violation} (h : b' = true → b = true) :
    t.Follows 0 [] (fun _ _ => b' = true) (require b v) (require b' v') := by
  intro s s' r' a' hs hrun
  obtain ⟨hb', rfl⟩ := require_eq_ok.mp hrun
  exact .inl ⟨rfl, (), require_eq_ok.mpr ⟨h hb', rfl⟩, hb'⟩

/-- Questions about types have one answer on both sides. -/
theorem Follows.ask (query : Checked Violation α) :
    t.Follows 0 [] (fun a a' => a = a' ∧ query = .ok a') (ask query) (ask query) := by
  intro s s' r' a' hs hrun
  obtain ⟨hquery, rfl⟩ := ask_eq_ok.mp hrun
  exact .inl ⟨rfl, a', ask_eq_ok.mpr ⟨hquery, rfl⟩, rfl, hquery⟩

/-- The values on top of both stacks lie below each other. -/
theorem Follows.pop : t.Follows 1 [] t.Below pop pop := by
  rintro ⟨l⟩ s' r' a' hs hrun
  obtain rfl := pop_eq_ok.mp hrun
  obtain ⟨a, below, ha, -, rfl⟩ := List.forall₂_cons_right_iff.mp hs
  exact .inl ⟨rfl, a, rfl, ha⟩

theorem Follows.get : t.Follows 0 [] t.StackBelow get get := by
  intro s s' r' a' hs hrun
  cases hrun
  exact .inl ⟨rfl, s, rfl, hs⟩

end Follows

/-! ### Lookups and operands -/

section Operands

/-- A value is refused as an address on both sides or on neither. -/
theorem refuseAddress_follows {use : AddressUse} {type : TypeId} :
    t.Follows 0 [] (fun _ _ => True) (t.refuseAddress use type) (t.refuseAddress use type) := by
  refine (Follows.ask _).query ?_
  rintro carries _ ⟨rfl, -⟩
  cases carries with
  | true => exact .refuse
  | false => exact .pure trivial

theorem valueOf_follows {type : TypeId} :
    t.Follows 0 [] Eq (t.valueOf type) (t.valueOf type) := by
  unfold valueOf
  split
  · exact .pure rfl
  · refine (Follows.ask _).query ?_
    rintro onStack _ ⟨rfl, -⟩
    exact .pure rfl

theorem addressOf_follows {type : TypeId} :
    t.Follows 0 [] Eq (t.addressOf type) (t.addressOf type) := by
  refine (Follows.ask _).query ?_
  rintro carries _ ⟨rfl, -⟩
  cases carries with
  | true => exact .refuse
  | false =>
    dsimp only
    cases t.referenceTo? type with
    | none => exact .refuse
    | some reference =>
      refine (Follows.ask _).query ?_
      rintro onStack _ ⟨rfl, -⟩
      exact .pure rfl

/-- Null, or a reference. -/
def Nullable (t : TypeTable) (type : TypeId) : Prop := type = .null ∨ t.IsReference type

theorem isNullable_answer {a : TypeId} {s r : OperandStack TypeId} {b : Bool}
    (h : t.isNullable a s = .ok (b, r)) : (b = true ↔ t.Nullable a) ∧ s = r := by
  unfold isNullable at h
  by_cases hnull : a = .null
  · obtain ⟨rfl, rfl⟩ := pure_run_eq_ok.mp (if_pos hnull ▸ h)
    exact ⟨iff_of_true rfl (.inl hnull), rfl⟩
  · obtain ⟨hquery, rfl⟩ := ask_eq_ok.mp (if_neg hnull ▸ h)
    refine ⟨⟨?_, fun hnullable => ?_⟩, rfl⟩
    · rintro rfl
      exact .inr (isReference_eq_true.mp hquery)
    · rw [isReference_eq_true.mpr (hnullable.resolve_left hnull)] at hquery
      exact (Except.ok.inj hquery).symm

theorem isNullable_follows {a a' : TypeId} (ha : t.Below a a') :
    t.Follows 0 [] (fun b b' => (b = true ↔ t.Nullable a) ∧ (b' = true ↔ t.Nullable a'))
      (t.isNullable a) (t.isNullable a') := by
  intro s s' r' b' hs hrun
  obtain ⟨hb', rfl⟩ := isNullable_answer hrun
  cases ha with
  | refl =>
    have hsame : t.isNullable a s = .ok (b', s) := by
      unfold isNullable at hrun ⊢
      split_ifs at hrun ⊢
      · exact pure_run_eq_ok.mpr ⟨(pure_run_eq_ok.mp hrun).1, rfl⟩
      · exact ask_eq_ok.mpr ⟨(ask_eq_ok.mp hrun).1, rfl⟩
    exact .inl ⟨rfl, b', hsame, hb', hb'⟩
  | null => exact .inl ⟨rfl, true, rfl, iff_of_true rfl (.inl rfl), hb'⟩

/-- Two operands of a class without references are the same on both stacks. -/
theorem popPair_follows {expected : Expectation} {inClass : TypeId → Bool}
    (hclass : ∀ a, inClass a = true → ¬ t.IsReference a) :
    t.Follows 2 [] Eq (popPair expected inClass) (popPair expected inClass) := by
  refine Follows.pop.andThen (k := 1) fun right right' hright => ?_
  refine Follows.pop.andThen (k := 0) fun left left' hleft => ?_
  refine (Follows.require fun h => ?_).query fun _ _ hleft' => ?_
  · rwa [hleft.eq_of_not_isReference (hclass left' h)]
  obtain rfl := hleft.eq_of_not_isReference (hclass left' hleft')
  refine (Follows.require fun h => ?_).query fun _ _ _ => .pure rfl
  obtain rfl := of_decide_eq_true h
  exact decide_eq_true (hright.eq_of_not_isReference (hclass left hleft')).symm

theorem expectAssignable_eq_ok {value type : TypeId} {s r : OperandStack TypeId} {u : Unit} :
    t.expectAssignable value type s = .ok (u, r) ↔ t.Assignable value type ∧ s = r := by
  rw [expectAssignable, bind_run_eq_ok, ← assignable_eq_true]
  constructor
  · rintro ⟨allowed, mid, hask, hrequire⟩
    obtain ⟨hquery, rfl⟩ := ask_eq_ok.mp hask
    obtain ⟨rfl, rfl⟩ := require_eq_ok.mp hrequire
    exact ⟨hquery, rfl⟩
  · rintro ⟨hquery, rfl⟩
    exact ⟨true, s, ask_eq_ok.mpr ⟨hquery, rfl⟩, require_eq_ok.mpr ⟨rfl, rfl⟩⟩

variable (hprim : t.HasPrimitives)
include hprim

theorem HasPrimitives.not_isReference_of_isNumeric {a : TypeId} (h : a.isNumeric = true) :
    ¬ t.IsReference a := by
  rcases of_decide_eq_true h with rfl | rfl | rfl | rfl
  · exact hprim.not_isReference .int32
  · exact hprim.not_isReference .int64
  · exact hprim.not_isReference .float32
  · exact hprim.not_isReference .float64

theorem HasPrimitives.not_isReference_of_isInteger {a : TypeId} (h : a.isInteger = true) :
    ¬ t.IsReference a := by
  rcases of_decide_eq_true h with rfl | rfl
  · exact hprim.not_isReference .int32
  · exact hprim.not_isReference .int64

/-- What lies below an assignable value is assignable. -/
theorem expectAssignable_follows {a a' type : TypeId} (ha : t.Below a a') :
    t.Follows 0 [] (fun _ _ => True) (t.expectAssignable a type) (t.expectAssignable a' type) := by
  intro s s' r' u hs hrun
  obtain ⟨hassignable, rfl⟩ := expectAssignable_eq_ok.mp hrun
  have hlower := hassignable.of_below hprim ha
  exact .inl ⟨rfl, (), expectAssignable_eq_ok.mpr ⟨hlower, rfl⟩, trivial⟩

theorem expectLocation_follows {location type : TypeId} :
    t.Follows 0 [] (fun _ _ => True) (t.expectLocation location type)
      (t.expectLocation location type) := by
  refine (Follows.ask _).query ?_
  rintro standIn _ ⟨rfl, -⟩
  exact expectAssignable_follows hprim (.refl standIn)

theorem popIndex_follows : t.Follows 1 [] (fun _ _ => True) popIndex popIndex := by
  refine Follows.pop.andThen (k := 0) fun index index' hindex => ?_
  refine (Follows.require fun h => ?_).weaken fun _ _ _ => trivial
  obtain rfl := of_decide_eq_true h
  exact decide_eq_true (hindex.eq_of_not_isReference (hprim.not_isReference .int32))

/-- Null in place of a reference keeps operands comparable.  Null is comparable to null and to
references, and is no reference itself. -/
theorem popEqualityPair_follows :
    t.Follows 2 [] (fun _ _ => True) t.popEqualityPair t.popEqualityPair := by
  refine Follows.pop.andThen (k := 1) fun right right' hright => ?_
  refine Follows.pop.andThen (k := 0) fun left left' hleft => ?_
  refine (isNullable_follows hleft).query fun leftNullable leftNullable' ⟨hln, hln'⟩ => ?_
  refine (Follows.require fun h => ?_).query fun _ _ hclass => ?_
  · rw [Bool.or_eq_true, hln'] at h
    rw [Bool.or_eq_true, hln]
    cases hleft with
    | refl => exact h
    | null => exact .inr (.inl rfl)
  refine (isNullable_follows hright).query fun rightNullable rightNullable' ⟨hrn, hrn'⟩ => ?_
  refine (Follows.require fun h => ?_).weaken fun _ _ _ => trivial
  simp only [Bool.or_eq_true, Bool.and_eq_true, decide_eq_true_eq, hln, hln', hrn, hrn'] at h ⊢
  cases hleft with
  | refl =>
    cases hright with
    | refl => exact h
    | null href =>
      rcases h with (rfl | ⟨rfl, -⟩) | ⟨rfl, -⟩
      · exact .inr ⟨rfl, .inr href⟩
      · exact .inl (.inl rfl)
      · exact absurd href (hprim.not_isReference .null)
  | null hleft' =>
    cases hright with
    | refl =>
      rcases h with (rfl | ⟨rfl, -⟩) | ⟨rfl, -⟩
      · exact .inl (.inr ⟨rfl, .inr hleft'⟩)
      · exact absurd hleft' (hprim.not_isReference .null)
      · exact .inl (.inl rfl)
    | null => exact .inl (.inl rfl)

theorem popEach_follows {params : List TypeId} :
    t.Follows params.length [] (fun _ _ => True)
      (params.forM fun param => do t.expectAssignable (← pop) param)
      (params.forM fun param => do t.expectAssignable (← pop) param) := by
  induction params with
  | nil => exact .pure trivial
  | cons param params ih =>
    rw [List.length_cons, Nat.add_comm]
    have hfirst : t.Follows 1 [] (fun _ _ => True) (do t.expectAssignable (← pop) param)
        (do t.expectAssignable (← pop) param) :=
      Follows.pop.andThen (k := 0) fun a a' ha => expectAssignable_follows hprim ha
    exact hfirst.andThen fun _ _ _ => ih

/-- Arguments that lie below accepted ones are accepted. -/
theorem popArguments_follows {params : List TypeId} :
    t.Follows params.length [] (fun _ _ => True) (t.popArguments params)
      (t.popArguments params) := by
  refine Follows.get.query fun s s' hs => ?_
  rw [hs.size_eq]
  refine (Follows.require id).query fun _ _ _ => ?_
  rw [← List.length_reverse]
  exact popEach_follows hprim

omit hprim in
/-- Looking behind an operand is where null in place of a reference can be refused. -/
theorem lookBehind_follows {expected : Expectation}
    {lookup : TypeId → Checked Violation (Option TypeId)} (hnull : lookup .null = .ok none) :
    let look : Operands TypeId := do
      let address ← pop
      match ← ask (lookup address) with
      | some found => return found
      | none => refuse (.typeMismatch expected address)
    t.Follows 1 [(0, expected)] Eq look look := by
  intro look s s' r' found hs hrun
  simp only [look] at hrun ⊢
  obtain ⟨address', mid', hpop', hlook'⟩ := bind_run_eq_ok.mp hrun
  obtain rfl := pop_eq_ok.mp hpop'
  obtain ⟨l⟩ := s
  obtain ⟨address, below, haddress, -, rfl⟩ := List.forall₂_cons_right_iff.mp hs
  cases haddress with
  | refl =>
    obtain ⟨found?, _, hask, hfound⟩ := bind_run_eq_ok.mp hlook'
    obtain ⟨hlookup, rfl⟩ := ask_eq_ok.mp hask
    cases found? with
    | none => cases hfound
    | some found =>
      cases hfound
      refine .inl ⟨rfl, found, ?_, rfl⟩
      exact bind_run_eq_ok.mpr ⟨address', ⟨below⟩, rfl, bind_run_eq_ok.mpr
        ⟨some found, ⟨below⟩, ask_eq_ok.mpr ⟨hlookup, rfl⟩, rfl⟩⟩
  | null =>
    refine .inr ⟨.refused (.typeMismatch expected .null), ?_, _, List.mem_singleton_self _, rfl,
      rfl⟩
    rw [bind_run_of_ok (show pop ⟨.null :: below⟩ = .ok (.null, ⟨below⟩) from rfl),
      bind_run_of_ok (ask_eq_ok.mpr ⟨hnull, rfl⟩)]
    rfl

/-- Taking a reference can be refused on the lower stack only for a null on top. -/
theorem popReference_follows : t.Follows 1 [(0, .reference)] Eq t.popReference t.popReference :=
  lookBehind_follows (referent?_eq_ok.mpr ⟨_, hprim .null, rfl⟩)

theorem popContainer_follows : t.Follows 1 [(0, .container)] Eq t.popContainer t.popContainer :=
  lookBehind_follows (bind_eq_ok.mpr ⟨_, kind_eq_ok.mpr (hprim .null), rfl⟩)

end Operands

end TypeTable

/-! ### Instructions -/

/-- The operand an instruction looks behind: its depth in the stack and what is expected of it. -/
def Instr.addressOperand? : Instr → Option (Nat × Expectation)
  | .typed .loadIndirect _ => some (0, .reference)
  | .typed .storeIndirect _ => some (1, .reference)
  | .typed .loadElement _ | .typed .elementAddress _ => some (1, .container)
  | .typed .storeElement _ => some (2, .container)
  | _ => none

/-- The instruction is refused because the operand it looks behind is null. -/
def NullAccess (instr : Instr) (s : OperandStack TypeId) (e : Fault Violation) : Prop :=
  ∃ depth expected, instr.addressOperand? = some (depth, expected) ∧
    s.topDown[depth]? = some .null ∧ e = .refused (.typeMismatch expected .null)

namespace TypingContext

open Operands TypeTable

variable {c : TypingContext} (hprim : c.types.HasPrimitives)

/-- The rule of an instruction carries over to lower stacks, with lower results, unless one of the
operands `checks` is null there. -/
def CarriesOver (c : TypingContext) (checks : NullChecks) (rule : Operands (List TypeId)) : Prop :=
  ∃ n, c.types.Follows n checks (List.Forall₂ c.types.Below) rule rule

theorem resultsBelow_of_eq {results results' : List TypeId} (h : results = results') :
    List.Forall₂ c.types.Below results results' :=
  h ▸ List.forall₂_same.mpr fun a _ => .refl a

theorem popNumber_carriesOver {expected : Expectation} {inClass : TypeId → Bool}
    (hclass : ∀ a, inClass a = true → ¬ c.types.IsReference a) :
    let rule : Operands (List TypeId) := do
      let operand ← pop
      require (inClass operand) (.typeMismatch expected operand)
      return [operand]
    c.CarriesOver [] rule := by
  refine ⟨_, Follows.pop.andThen (k := 0) fun a a' ha => ?_⟩
  refine (Follows.require fun h => ?_).query fun _ _ _ => .pure (.cons ha .nil)
  rwa [ha.eq_of_not_isReference (hclass a' h)]

theorem truthTest_follows :
    let test : Operands Unit := do
      let operand ← pop
      let nullable ← c.types.isNullable operand
      require (operand.isInteger || nullable) (.typeMismatch .condition operand)
    c.types.Follows 1 [] (fun _ _ => True) test test := by
  refine Follows.pop.andThen (k := 0) fun a a' ha => ?_
  refine (isNullable_follows ha).query fun nullable nullable' ⟨hnullable, hnullable'⟩ => ?_
  refine (Follows.require fun h => ?_).weaken fun _ _ _ => trivial
  rw [Bool.or_eq_true, hnullable'] at h
  rw [Bool.or_eq_true, hnullable]
  cases ha with
  | refl => exact h
  | null => exact .inr (.inl rfl)

/-- The end of a return: there is nothing left to take. -/
def leaveNothing : Operands (List TypeId) := do
  let depth := (← get).size
  require (depth = 0) (.stackNotEmpty depth)
  return []

/-- A return takes the result, which is no address, and leaves nothing. -/
theorem plain_ret (c : TypingContext) :
    c.plain .ret =
      if c.decl.result ≠ .void then do
        c.types.refuseAddress .returned c.decl.result
        c.types.expectAssignable (← pop) c.decl.result
        leaveNothing
      else leaveNothing :=
  rfl

theorem leaveNothing_follows :
    c.types.Follows 0 [] (List.Forall₂ c.types.Below) leaveNothing leaveNothing := by
  refine Follows.get.query fun s s' hs => ?_
  rw [hs.size_eq]
  exact (Follows.require id).query fun _ _ _ => .pure .nil

include hprim

/-- Rules of instructions without operands carry over to lower stacks. -/
theorem plain_carriesOver (op : PlainOp) : c.CarriesOver [] (c.plain op) := by
  have hnumeric (a : TypeId) := hprim.not_isReference_of_isNumeric (a := a)
  have hinteger (a : TypeId) := hprim.not_isReference_of_isInteger (a := a)
  cases op with
  | nop => exact ⟨_, .pure .nil⟩
  | null => exact ⟨_, .pure (resultsBelow_of_eq rfl)⟩
  | dup => exact ⟨_, Follows.pop.andThen fun a a' ha => .pure (.cons ha (.cons ha .nil))⟩
  | pop => exact ⟨_, Follows.pop.andThen fun _ _ _ => .pure .nil⟩
  | neg => exact popNumber_carriesOver hnumeric
  | not => exact popNumber_carriesOver hinteger
  | arith op =>
    exact ⟨_, (popPair_follows hnumeric).andThen fun _ _ h =>
      .pure (resultsBelow_of_eq (by rw [h]))⟩
  | integer op =>
    exact ⟨_, (popPair_follows hinteger).andThen fun _ _ h =>
      .pure (resultsBelow_of_eq (by rw [h]))⟩
  | compareUn op =>
    exact ⟨_, (popPair_follows hinteger).andThen fun _ _ _ => .pure (resultsBelow_of_eq rfl)⟩
  | compare op =>
    cases op with
    | equal =>
      exact ⟨_, (popEqualityPair_follows hprim).andThen fun _ _ _ => .pure (resultsBelow_of_eq rfl)⟩
    | _ => exact ⟨_, (popPair_follows hnumeric).andThen fun _ _ _ => .pure (resultsBelow_of_eq rfl)⟩
  | ret =>
    rw [plain_ret]
    split
    · refine ⟨1, refuseAddress_follows.query fun _ _ _ => ?_⟩
      refine Follows.pop.andThen (k := 0) fun a a' ha => ?_
      exact (expectAssignable_follows hprim ha).query fun _ _ _ => leaveNothing_follows
    · exact ⟨_, leaveNothing_follows⟩

theorem access_carriesOver (a : Access) (vars : List Variable) (index : Nat) :
    c.CarriesOver [] (c.access a vars index) := by
  unfold access
  cases vars[index]? with
  | none => exact ⟨0, .refuse⟩
  | some v =>
    cases a with
    | load => exact ⟨_, valueOf_follows.weaken fun _ _ => resultsBelow_of_eq⟩
    | address => exact ⟨_, addressOf_follows.weaken fun _ _ => resultsBelow_of_eq⟩
    | store =>
      refine ⟨_, Follows.pop.andThen (k := 0) fun _ _ hvalue => ?_⟩
      exact (expectAssignable_follows hprim hvalue).query fun _ _ _ => .pure .nil

theorem fieldAccess_carriesOver (a : Access) (ref : FieldRef) :
    c.CarriesOver [] (c.fieldAccess a ref) := by
  unfold fieldAccess
  split
  · cases a with
    | load =>
      refine ⟨_, Follows.pop.andThen (k := 0) fun _ _ howner => ?_⟩
      refine (expectAssignable_follows hprim howner).query fun _ _ _ => ?_
      exact valueOf_follows.weaken fun _ _ => resultsBelow_of_eq
    | address =>
      refine ⟨_, Follows.pop.andThen (k := 0) fun _ _ howner => ?_⟩
      refine (expectAssignable_follows hprim howner).query fun _ _ _ => ?_
      exact addressOf_follows.weaken fun _ _ => resultsBelow_of_eq
    | store =>
      refine ⟨2, refuseAddress_follows.query fun _ _ _ => ?_⟩
      refine Follows.pop.andThen (k := 1) fun _ _ hvalue => ?_
      refine Follows.pop.andThen (k := 0) fun _ _ howner => ?_
      refine (expectAssignable_follows hprim howner).query fun _ _ _ => ?_
      exact (expectAssignable_follows hprim hvalue).query fun _ _ _ => .pure .nil
  · exact ⟨0, .refuse⟩

theorem funcOp_carriesOver (op : FuncOp) (func : FuncRef) :
    c.CarriesOver [] (c.funcOp op func) := by
  unfold funcOp
  cases c.program.function? func with
  | none => exact ⟨0, .refuse⟩
  | some callee =>
    cases op with
    | call =>
      refine ⟨_, (popArguments_follows hprim).andThen (k := 0) fun _ _ _ => ?_⟩
      exact valueOf_follows.weaken fun _ _ => resultsBelow_of_eq
    | newObject =>
      refine ⟨callee.paramTypes.tail.length, (Follows.ask _).query ?_⟩
      rintro object? _ ⟨rfl, -⟩
      cases object? with
      | none => exact .refuse
      | some object =>
        refine (popArguments_follows hprim).andThen (k := 0) fun _ _ _ => ?_
        exact valueOf_follows.weaken fun _ _ => resultsBelow_of_eq
    | loadFunction =>
      refine ⟨0, (Follows.ask _).query ?_⟩
      rintro onStack _ ⟨rfl, -⟩
      exact .pure (resultsBelow_of_eq rfl)

/-- Rules of instructions with a type carry over to lower stacks, unless they look behind a null.
How many operands an indirect call takes depends on its function type. -/
theorem typeOp_carriesOver (op : TypeOp) (type : TypeId) :
    c.CarriesOver (Instr.addressOperand? (.typed op type)).toList (c.typeOp op type) := by
  cases op with
  | convert =>
    refine ⟨_, Follows.pop.andThen (k := 0) fun a a' ha => ?_⟩
    refine (Follows.require fun h => ?_).query fun _ _ _ => ?_
    · rwa [ha.eq_of_not_isReference (hprim.not_isReference_of_isNumeric h)]
    refine (Follows.require id).query fun _ _ _ => ?_
    exact valueOf_follows.weaken fun _ _ => resultsBelow_of_eq
  | loadIndirect =>
    refine ⟨_, (popReference_follows hprim).andThen (k := 0) ?_⟩
    rintro location _ rfl
    refine (expectLocation_follows hprim).query fun _ _ _ => ?_
    exact valueOf_follows.weaken fun _ _ => resultsBelow_of_eq
  | storeIndirect =>
    refine ⟨2, refuseAddress_follows.query fun _ _ _ => ?_⟩
    refine Follows.pop.under (k := 1) fun _ _ hvalue => ?_
    refine (popReference_follows hprim).andThen (k := 0) ?_
    rintro location _ rfl
    refine (expectLocation_follows hprim).query fun _ _ _ => ?_
    exact (expectAssignable_follows hprim hvalue).query fun _ _ _ => .pure .nil
  | loadElement =>
    refine ⟨_, (popIndex_follows hprim).under (k := 1) fun _ _ _ => ?_⟩
    refine (popContainer_follows hprim).andThen (k := 0) ?_
    rintro element _ rfl
    refine (expectLocation_follows hprim).query fun _ _ _ => ?_
    exact valueOf_follows.weaken fun _ _ => resultsBelow_of_eq
  | storeElement =>
    refine ⟨3, refuseAddress_follows.query fun _ _ _ => ?_⟩
    refine Follows.pop.under (k := 2) fun _ _ hvalue => ?_
    refine (popIndex_follows hprim).under (k := 1) fun _ _ _ => ?_
    refine (popContainer_follows hprim).andThen (k := 0) ?_
    rintro element _ rfl
    refine (expectLocation_follows hprim).query fun _ _ _ => ?_
    exact (expectAssignable_follows hprim hvalue).query fun _ _ _ => .pure .nil
  | elementAddress =>
    refine ⟨_, (popIndex_follows hprim).under (k := 1) fun _ _ _ => ?_⟩
    refine (popContainer_follows hprim).andThen (k := 0) ?_
    rintro element _ rfl
    refine (expectLocation_follows hprim).query fun _ _ _ => ?_
    exact addressOf_follows.weaken fun _ _ => resultsBelow_of_eq
  | callIndirect =>
    by_cases hfunction : ∃ params result, c.types.HasKind type (.function params result)
    · obtain ⟨params, result, hkind⟩ := hfunction
      refine ⟨1 + params.length, (Follows.ask _).query ?_⟩
      rintro kind _ ⟨rfl, hanswer⟩
      obtain rfl := hkind.unique (kind_eq_ok.mp hanswer)
      refine Follows.pop.andThen fun _ _ hcallee => ?_
      refine (expectAssignable_follows hprim hcallee).query fun _ _ _ => ?_
      refine (popArguments_follows hprim).andThen (k := 0) fun _ _ _ => ?_
      exact valueOf_follows.weaken fun _ _ => resultsBelow_of_eq
    · refine ⟨0, (Follows.ask _).query ?_⟩
      rintro kind _ ⟨rfl, hanswer⟩
      cases kind with
      | function params result => exact absurd ⟨_, _, kind_eq_ok.mp hanswer⟩ hfunction
      | _ => exact .refuse

/-- The test of a branch carries over to lower stacks. -/
theorem test_follows (condition : Condition) :
    ∃ n, c.types.Follows n [] (fun _ _ => True) (c.test condition) (c.test condition) := by
  cases condition with
  | isTrue | isFalse => exact ⟨_, truthTest_follows⟩
  | equal | notEqual => exact ⟨_, popEqualityPair_follows hprim⟩
  | ordered order =>
    exact ⟨_, (popPair_follows fun _ => hprim.not_isReference_of_isNumeric).andThen
      fun _ _ _ => .pure trivial⟩
  | orderedUn order =>
    exact ⟨_, (popPair_follows fun _ => hprim.not_isReference_of_isInteger).andThen
      fun _ _ _ => .pure trivial⟩

/-- The typing rule of every instruction carries over to lower stacks, unless the operand it looks
behind is null. -/
theorem results_carriesOver (instr : Instr) :
    c.CarriesOver instr.addressOperand?.toList (c.results instr) := by
  cases instr with
  | plain op => exact plain_carriesOver hprim op
  | constant value => exact ⟨_, .pure (resultsBelow_of_eq rfl)⟩
  | argument a index => exact access_carriesOver hprim a c.decl.params index
  | localVar a index => exact access_carriesOver hprim a c.decl.locals index
  | field a ref => exact fieldAccess_carriesOver hprim a ref
  | function op func => exact funcOp_carriesOver hprim op func
  | typed op type => exact typeOp_carriesOver hprim op type
  | jump target => exact ⟨_, .pure .nil⟩
  | branch condition target =>
    obtain ⟨n, htest⟩ := test_follows hprim condition
    exact ⟨_, htest.andThen fun _ _ _ => .pure .nil⟩

/-- **A step below a recorded stack** succeeds like the step on the recorded stack, with a stack
below the one it leaves, or is refused for a null access. -/
theorem step_below {instr : Instr} {s s' out' : OperandStack TypeId} {effect' : Effect TypeId}
    (hs : c.types.StackBelow s s') (h : c.step instr s' = .ok (effect', out')) :
    (∃ effect out, c.step instr s = .ok (effect, out) ∧ c.types.StackBelow out out') ∨
      ∃ e, c.step instr s = .error e ∧ NullAccess instr s e := by
  obtain ⟨⟨results', rest'⟩, hresults', hleft⟩ := bind_eq_ok.mp h
  cases pure_eq_ok.mp hleft
  obtain ⟨n, hfollows⟩ := results_carriesOver hprim instr
  rcases hfollows hs hresults' with ⟨rfl, results, hresults, hbelow⟩ | ⟨e, he, hrefuses⟩
  · refine .inl ⟨_, _, bind_eq_ok.mpr ⟨_, hresults, rfl⟩, ?_⟩
    exact (hs.dropTop n).pushAll hbelow
  · refine .inr ⟨e, ?_, ?_⟩
    · rw [step, he]
      rfl
    · obtain ⟨check, hmem, hnull, rfl⟩ := hrefuses
      exact ⟨check.1, check.2, Option.mem_toList.mp hmem, hnull, rfl⟩

end TypingContext

end StackCode
