import StackCode.Dataflow.Solver
import StackCode.Typing.Transfer

/-!
# Typing of bodies

The typing rules as an analysis for the solver.  Stacks of types merge position by position, null
giving way to a reference; a position whose types have no common type is an error, and the lowest
such position is reported.  A merge that changes the recorded stack replaces a null, so the number
of nulls bounds the changes.

## Main definitions

* `TypeTable.mergeStacks`: merges two stacks of types.
* `TypingContext.visit`: the typing rule as a visit of the solver.
* `TypingContext.analysis`: the analysis of a function.
-/

namespace StackCode

namespace TypeTable

/-- The type of a stack position where two paths meet. -/
def joinPosition (t : TypeTable) (recorded incoming : TypeId) : Checked Violation TypeId := do
  match ← t.join? recorded incoming with
  | some joined => return joined
  | none => .refuse (.incompatibleJoin recorded incoming)

/-- Merges a stack into a recorded one, from the bottom up. -/
def mergeStacks (t : TypeTable) (recorded incoming : OperandStack TypeId) :
    Checked Violation (OperandStack TypeId) :=
  if recorded.size = incoming.size then do
    let joined ← (recorded.bottomUp.zip incoming.bottomUp).mapM fun (a, b) => t.joinPosition a b
    return .ofBottomUp joined
  else .refuse (.stackHeightMismatch recorded.size incoming.size)

/-- The number of nulls. -/
def nulls (types : List TypeId) : Nat := types.countP (· = .null)

/-- A join keeps the recorded type, or replaces a null by something else. -/
theorem joinPosition_eq_or {t : TypeTable} {a b joined : TypeId}
    (h : t.joinPosition a b = .ok joined) : joined = a ∨ a = .null ∧ joined ≠ .null := by
  unfold joinPosition join? at h
  by_cases hab : a = b
  · simp [hab, bind, Except.bind, pure, Except.pure] at h
    exact .inl (hab ▸ h.symm)
  · by_cases ha : a = .null
    · subst ha
      have hb : b ≠ .null := fun h => hab h.symm
      refine .inr ⟨rfl, ?_⟩
      cases href : (t.isReference b : Checked Violation Bool) with
      | error e => simp [hab, href, bind, Except.bind] at h
      | ok isRef =>
        cases isRef <;>
          simp [hab, href, hb, bind, Except.bind, pure, Except.pure, Checked.refuse] at h
        exact h ▸ hb
    · by_cases hb : b = .null
      · subst hb
        cases href : (t.isReference a : Checked Violation Bool) with
        | error e => simp [ha, href, bind, Except.bind] at h
        | ok isRef =>
          cases isRef <;> simp [ha, href, bind, Except.bind, pure, Except.pure, Checked.refuse] at h
          exact .inl h.symm
      · simp [hab, ha, hb, bind, Except.bind, pure, Except.pure, Checked.refuse] at h

/-- Joining position by position never adds a null, and removes one if it changes anything. -/
theorem nulls_joined {t : TypeTable} {recorded incoming joined : List TypeId}
    (hlength : recorded.length = incoming.length)
    (h : (recorded.zip incoming).mapM (fun (a, b) => t.joinPosition a b) = .ok joined) :
    joined = recorded ∨ nulls joined < nulls recorded := by
  rw [← List.mapM'_eq_mapM] at h
  induction recorded generalizing incoming joined with
  | nil =>
    cases h
    exact .inl rfl
  | cons a rest ih =>
    cases incoming with
    | nil => simp at hlength
    | cons b rest' =>
      simp only [List.zip_cons_cons, List.mapM'_cons, bind, Except.bind] at h
      split at h
      · cases h
      · rename_i head hhead
        split at h
        · cases h
        · rename_i tail htail
          cases h
          have hrest := ih (by simpa using hlength) htail
          cases joinPosition_eq_or hhead with
          | inl heq =>
            cases hrest with
            | inl hsame => exact .inl (by rw [heq, hsame])
            | inr hlt =>
              refine .inr ?_
              simp only [nulls, List.countP_cons, heq] at hlt ⊢
              omega
          | inr hnull =>
            have hle : nulls tail ≤ nulls rest := by
              cases hrest with
              | inl hsame => exact Nat.le_of_eq (by rw [hsame])
              | inr hlt => exact Nat.le_of_lt hlt
            refine .inr ?_
            simp only [nulls] at hle
            simp only [nulls, List.countP_cons, hnull.1, hnull.2, decide_false, decide_true]
            simp
            omega

/-- A merge that changes the recorded stack leaves fewer nulls. -/
theorem nulls_mergeStacks {t : TypeTable} {recorded incoming merged : OperandStack TypeId}
    (h : t.mergeStacks recorded incoming = .ok merged) (hne : merged ≠ recorded) :
    nulls merged.bottomUp < nulls recorded.bottomUp := by
  unfold mergeStacks at h
  split at h
  · rename_i hsize
    simp only [bind, Except.bind] at h
    split at h
    · cases h
    · rename_i joined hjoined
      cases h
      rw [OperandStack.bottomUp_ofBottomUp]
      cases nulls_joined (by simpa using hsize) hjoined with
      | inl heq => exact absurd (by rw [heq, OperandStack.ofBottomUp_bottomUp]) hne
      | inr hlt => exact hlt
  · cases h

end TypeTable

namespace TypingContext

/-- Runs the typing rule of an instruction on a stack: what it takes and leaves, and the stack it
passes on. -/
def step (c : TypingContext) (instr : Instr) (s : OperandStack TypeId) :
    Checked Violation (Effect TypeId × OperandStack TypeId) := do
  let (results, rest) ← c.results instr s
  return (⟨s.above rest, results⟩, rest.pushAll results)

/-- The typing rule as a visit: every way out has the stack the instruction leaves. -/
def visit (c : TypingContext) (instr : Instr) (s : OperandStack TypeId) :
    Checked Violation (Visit TypeId) := do
  let (effect, left) ← c.step instr s
  return ⟨effect, instr.exits.map fun exit => (exit, left), []⟩

/-- The analysis of the function `func` of the context. -/
def analysis (c : TypingContext) (func : FuncRef) : Analysis TypeId (Fault VerifyError) where
  transfer index instr s := (c.visit instr s).widen (.located func index)
  merge target recorded incoming :=
    (c.types.mergeStacks recorded incoming).widen (.located func target)
  unresolved
    | index, .next => .refused (.located func index .fallsOffEnd)
    | index, .label l => .refused (.located func index (.badBranchTarget l))
  rank s := TypeTable.nulls s.bottomUp
  rank_merge h hne := TypeTable.nulls_mergeStacks (Checked.widen_eq_ok.1 h) hne

end TypingContext

end StackCode
