import StackCode.Proofs.Dataflow.Fixpoint
import StackCode.Proofs.Types.Lookup
import StackCode.Typing.Merge

/-!
# The order of stack types

Null may stand wherever a reference may, so it lies below every reference type; no other two types
are comparable.  Stacks are compared position by position, and stacks of different heights are not
comparable.  Merging two stacks gives a stack above both.

## Main definitions

* `TypeTable.Below`, `TypeTable.StackBelow`: the order on types and on stacks.

## Main results

* `TypeTable.mergeStacks_upper`: a merge lies above both stacks.
* `TypeTable.mergeStacks_of_bounded`: stacks with an upper bound merge below it.
* `TypingContext.bounds`: the order bounds the merges of the typing analysis.
-/

namespace StackCode

namespace TypeTable

variable {t : TypeTable}

/-- A type lies below itself, and null below every reference type. -/
inductive Below (t : TypeTable) : TypeId → TypeId → Prop
  | refl (a : TypeId) : Below t a a
  | null {b : TypeId} (h : t.IsReference b) : Below t .null b

theorem Below.trans {a b c : TypeId} (hab : t.Below a b) (hbc : t.Below b c) : t.Below a c := by
  cases hab with
  | refl => exact hbc
  | null hb =>
    cases hbc with
    | refl => exact .null hb
    | null hc => exact .null hc

theorem Below.antisymm {a b : TypeId} (hab : t.Below a b) (hba : t.Below b a) : a = b := by
  cases hab with
  | refl => rfl
  | null =>
    cases hba with
    | refl => rfl
    | null => rfl

/-- Only null lies below null. -/
theorem Below.eq_null {a : TypeId} (h : t.Below a .null) : a = .null := by
  cases h with
  | refl => rfl
  | null => rfl

theorem Below.eq_of_not_isReference {a b : TypeId} (h : t.Below a b) (hb : ¬ t.IsReference b) :
    a = b := by
  cases h with
  | refl => rfl
  | null href => exact absurd href hb

/-- Null may be stored wherever a reference may. -/
theorem Assignable.of_below {a b target : TypeId} (hprim : t.HasPrimitives)
    (h : t.Assignable b target) (hab : t.Below a b) : t.Assignable a target := by
  cases hab with
  | refl => exact h
  | null href =>
    obtain ⟨standIn, hclass, rfl | ⟨rfl, hstandIn⟩ | ⟨rfl, -⟩⟩ := h
    · exact ⟨b, hclass, .inr (.inl ⟨rfl, href⟩)⟩
    · exact ⟨standIn, hclass, .inr (.inl ⟨rfl, hstandIn⟩)⟩
    · exact absurd href (hprim.not_isReference .int32)

/-- Stacks of one height, the types of the first each below those of the second. -/
def StackBelow (t : TypeTable) (s s' : OperandStack TypeId) : Prop :=
  List.Forall₂ t.Below s.topDown s'.topDown

theorem StackBelow.refl (s : OperandStack TypeId) : t.StackBelow s s :=
  List.forall₂_same.mpr fun a _ => .refl a

theorem StackBelow.trans {s s' s'' : OperandStack TypeId} (h : t.StackBelow s s')
    (h' : t.StackBelow s' s'') : t.StackBelow s s'' := by
  obtain ⟨l⟩ := s
  obtain ⟨l'⟩ := s'
  obtain ⟨l''⟩ := s''
  simp only [StackBelow] at h h' ⊢
  induction h generalizing l'' with
  | nil => exact h'
  | cons hab _ ih =>
    obtain ⟨c, rest, hbc, hrest, rfl⟩ := List.forall₂_cons_left_iff.mp h'
    exact .cons (hab.trans hbc) (ih rest hrest)

theorem StackBelow.antisymm {s s' : OperandStack TypeId} (h : t.StackBelow s s')
    (h' : t.StackBelow s' s) : s = s' := by
  obtain ⟨l⟩ := s
  obtain ⟨l'⟩ := s'
  simp only [StackBelow, OperandStack.mk.injEq] at h h' ⊢
  induction h with
  | nil => rfl
  | cons hab _ ih =>
    obtain ⟨hba, hrest⟩ := List.forall₂_cons.mp h'
    rw [hab.antisymm hba, ih hrest]

theorem StackBelow.size_eq {s s' : OperandStack TypeId} (h : t.StackBelow s s') :
    s.size = s'.size :=
  List.Forall₂.length_eq h

theorem StackBelow.of_bottomUp {s s' : OperandStack TypeId}
    (h : List.Forall₂ t.Below s.bottomUp s'.bottomUp) : t.StackBelow s s' :=
  List.forall₂_reverse_iff.mp h

/-- A stack below the empty stack, or above it, is empty. -/
theorem StackBelow.eq_empty {s : OperandStack TypeId} (h : t.StackBelow .empty s) :
    s = .empty := by
  obtain ⟨l⟩ := s
  cases h
  rfl

/-- Two types that join are the same, or one is null and the other a reference. -/
theorem joinPosition_cases {a b joined : TypeId} (h : t.joinPosition a b = .ok joined) :
    (a = b ∧ joined = a) ∨ (a = .null ∧ t.IsReference b ∧ joined = b) ∨
      (b = .null ∧ t.IsReference a ∧ joined = a) := by
  obtain ⟨joined?, hjoin, h⟩ := bind_eq_ok.mp h
  cases joined? with
  | none => cases h
  | some j =>
    obtain rfl := pure_eq_ok.mp h
    unfold join? at hjoin
    by_cases hab : a = b
    · rw [if_pos hab, pure_eq_ok, Option.some.injEq] at hjoin
      exact .inl ⟨hab, hjoin.symm⟩
    · rw [if_neg hab] at hjoin
      by_cases ha : a = .null
      · have hb : ¬ b = .null := fun hb => hab (ha.trans hb.symm)
        obtain ⟨isRef, href, hjoin⟩ := bind_eq_ok.mp (if_pos ha ▸ hjoin)
        cases isRef with
        | false =>
          dsimp only at hjoin
          rw [if_neg Bool.false_ne_true, if_neg hb] at hjoin
          cases pure_eq_ok.mp hjoin
        | true =>
          cases pure_eq_ok.mp hjoin
          exact .inr (.inl ⟨ha, isReference_eq_true.mp href, rfl⟩)
      · dsimp only at hjoin
        rw [if_neg ha] at hjoin
        by_cases hb : b = .null
        · obtain ⟨isRef, href, hjoin⟩ := bind_eq_ok.mp (if_pos hb ▸ hjoin)
          cases isRef with
          | false => cases pure_eq_ok.mp hjoin
          | true =>
            cases pure_eq_ok.mp hjoin
            exact .inr (.inr ⟨hb, isReference_eq_true.mp href, rfl⟩)
        · rw [if_neg hb] at hjoin
          cases pure_eq_ok.mp hjoin

theorem joinPosition_upper {a b joined : TypeId} (h : t.joinPosition a b = .ok joined) :
    t.Below a joined ∧ t.Below b joined := by
  rcases joinPosition_cases h with ⟨rfl, rfl⟩ | ⟨rfl, href, rfl⟩ | ⟨rfl, href, rfl⟩
  · exact ⟨.refl _, .refl _⟩
  · exact ⟨.null href, .refl _⟩
  · exact ⟨.refl _, .null href⟩

theorem joined_upper {recorded incoming joined : List TypeId}
    (hlength : recorded.length = incoming.length)
    (h : List.Forall₂ (fun (ab : TypeId × TypeId) j => t.joinPosition ab.1 ab.2 = .ok j)
      (recorded.zip incoming) joined) :
    List.Forall₂ t.Below recorded joined ∧ List.Forall₂ t.Below incoming joined := by
  induction recorded generalizing incoming joined with
  | nil =>
    obtain rfl := List.length_eq_zero_iff.mp hlength.symm
    cases h
    exact ⟨.nil, .nil⟩
  | cons a rest ih =>
    cases incoming with
    | nil => simp at hlength
    | cons b rest' =>
      rw [List.zip_cons_cons, List.forall₂_cons_left_iff] at h
      obtain ⟨j, joined', hj, hrest, rfl⟩ := h
      obtain ⟨ha, hb⟩ := joinPosition_upper hj
      obtain ⟨hrest₁, hrest₂⟩ := ih (by simpa using hlength) hrest
      exact ⟨.cons ha hrest₁, .cons hb hrest₂⟩

/-- **A merge is an upper bound** of the recorded and the incoming stack. -/
theorem mergeStacks_upper {recorded incoming merged : OperandStack TypeId}
    (h : t.mergeStacks recorded incoming = .ok merged) :
    t.StackBelow recorded merged ∧ t.StackBelow incoming merged := by
  unfold mergeStacks at h
  split at h
  · rename_i hsize
    obtain ⟨joined, hjoined, hmerged⟩ := bind_eq_ok.mp h
    obtain ⟨hrecorded, hincoming⟩ := joined_upper (by simpa using hsize) (mapM_eq_ok.mp hjoined)
    obtain rfl := pure_eq_ok.mp hmerged
    exact ⟨.of_bottomUp (by simpa using hrecorded), .of_bottomUp (by simpa using hincoming)⟩
  · cases h

/-- Two types below a third join below it.  If they differ, one is null and the other is the bound,
a reference. -/
theorem joinPosition_of_bounded {a b bound : TypeId} (ha : t.Below a bound)
    (hb : t.Below b bound) : ∃ joined, t.joinPosition a b = .ok joined ∧ t.Below joined bound := by
  by_cases hab : a = b
  · refine ⟨a, ?_, ha⟩
    simp [joinPosition, join?, hab, bind, Except.bind, pure, Except.pure]
  · cases ha with
    | refl =>
      cases hb with
      | refl => exact absurd rfl hab
      | null href =>
        refine ⟨a, ?_, .refl a⟩
        simp [joinPosition, join?, hab, isReference_eq_true.mpr href, bind, Except.bind, pure,
          Except.pure]
    | null href =>
      cases hb with
      | refl =>
        refine ⟨b, ?_, .refl b⟩
        simp [joinPosition, join?, hab, isReference_eq_true.mpr href, bind, Except.bind, pure,
          Except.pure]
      | null => exact absurd rfl hab

theorem joined_of_bounded {recorded incoming bound : List TypeId}
    (hrecorded : List.Forall₂ t.Below recorded bound)
    (hincoming : List.Forall₂ t.Below incoming bound) :
    ∃ joined, List.Forall₂ (fun (ab : TypeId × TypeId) j => t.joinPosition ab.1 ab.2 = .ok j)
      (recorded.zip incoming) joined ∧ List.Forall₂ t.Below joined bound := by
  induction hrecorded generalizing incoming with
  | nil =>
    cases hincoming
    exact ⟨[], .nil, .nil⟩
  | cons ha _ ih =>
    cases hincoming with
    | cons hb hincoming =>
      obtain ⟨j, hj, hbound⟩ := joinPosition_of_bounded ha hb
      obtain ⟨joined, hjoined, hrest⟩ := ih hincoming
      exact ⟨j :: joined, .cons hj hjoined, .cons hbound hrest⟩

/-- **A merge is the least upper bound**: two stacks below a third merge below it. -/
theorem mergeStacks_of_bounded {recorded incoming bound : OperandStack TypeId}
    (hrecorded : t.StackBelow recorded bound) (hincoming : t.StackBelow incoming bound) :
    ∃ merged, t.mergeStacks recorded incoming = .ok merged ∧ t.StackBelow merged bound := by
  obtain ⟨joined, hjoined, hbound⟩ := joined_of_bounded
    (List.forall₂_reverse_iff.mpr hrecorded) (List.forall₂_reverse_iff.mpr hincoming)
  refine ⟨.ofBottomUp joined, ?_, .of_bottomUp ?_⟩
  · rw [mergeStacks, if_pos (hrecorded.size_eq.trans hincoming.size_eq.symm)]
    exact bind_eq_ok.mpr ⟨joined, mapM_eq_ok.mpr hjoined, rfl⟩
  · rw [OperandStack.bottomUp_ofBottomUp]
    exact hbound

end TypeTable

/-- Null below references bounds the merges of the typing analysis. -/
theorem TypingContext.bounds (c : TypingContext) (func : FuncRef) :
    (c.analysis func).Bounds c.types.StackBelow where
  refl := .refl
  trans := .trans
  recorded_le h := (TypeTable.mergeStacks_upper (Checked.widen_eq_ok.mp h)).1
  incoming_le h := (TypeTable.mergeStacks_upper (Checked.widen_eq_ok.mp h)).2

end StackCode
