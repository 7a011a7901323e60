import StackCode.Proofs.Dataflow.VisitCounts
import StackCode.Proofs.Typing.Order

/-!
# Typing terminates

When stacks of types merge, nulls become references, and nothing else changes.  So the stack
recorded for an instruction is replaced at most as often as it has values, and the instruction is
visited at most once more.  This holds of every body and every table of labels, whether the body is
well-typed or not.

## Main definitions

* `TypeTable.Raised`: a stack in which nulls have become references.

## Main results

* `TypingContext.descends`: merges raise stacks.
* `TypingContext.visits_bounded`: the visits of typing a body.
-/

namespace StackCode

namespace TypeTable

variable {t : TypeTable} {s s' s'' : OperandStack TypeId}

/-- Nulls have become references, one at least, and nothing else has changed. -/
structure Raised (t : TypeTable) (s s' : OperandStack TypeId) : Prop where
  size_eq : s'.size = s.size
  below : t.StackBelow s s'
  raised : ∃ (k : Nat) (type : TypeId), s.bottomUp[k]? = some .null ∧ s'.bottomUp[k]? = some type ∧
    t.IsReference type ∧ type ≠ .null
  nulls_lt : nulls s'.bottomUp < nulls s.bottomUp

/-- Types that lie below others differ from them where there is a null. -/
theorem exists_null_of_below {types types' : List TypeId} (h : List.Forall₂ t.Below types types')
    (hne : types' ≠ types) :
    ∃ (k : Nat) (type : TypeId), types[k]? = some .null ∧ types'[k]? = some type ∧
      t.IsReference type ∧ type ≠ .null := by
  induction h with
  | nil => exact absurd rfl hne
  | @cons a b rest rest' hab _ ih =>
    by_cases heq : b = a
    · subst heq
      obtain ⟨k, type, hnull, htype, href, hne⟩ := ih fun hrest => hne (by rw [hrest])
      exact ⟨k + 1, type, hnull, htype, href, hne⟩
    · cases hab with
      | refl => exact absurd rfl heq
      | null href => exact ⟨0, b, rfl, rfl, href, heq⟩

/-- Raising is transitive: a null may be raised to a reference, which stays as it is. -/
theorem Raised.trans (h : t.Raised s s') (h' : t.Raised s' s'') : t.Raised s s'' where
  size_eq := h'.size_eq.trans h.size_eq
  below := h.below.trans h'.below
  raised := by
    obtain ⟨k, type, hnull, htype, href, hne⟩ := h.raised
    obtain ⟨type', htype', hbelow⟩ :=
      getElem?_of_forall₂ (List.forall₂_reverse_iff.mpr h'.below) htype
    cases hbelow with
    | refl => exact ⟨k, type, hnull, htype', href, hne⟩
    | null => exact absurd rfl hne
  nulls_lt := Nat.lt_trans h'.nulls_lt h.nulls_lt

/-- **A merge that changes the recorded stack raises it.** -/
theorem raised_of_mergeStacks {recorded incoming merged : OperandStack TypeId}
    (h : t.mergeStacks recorded incoming = .ok merged) (hne : merged ≠ recorded) :
    t.Raised recorded merged where
  size_eq := (mergeStacks_upper h).1.size_eq.symm
  below := (mergeStacks_upper h).1
  raised := by
    refine exists_null_of_below (List.forall₂_reverse_iff.mpr (mergeStacks_upper h).1) ?_
    intro heq
    exact hne (OperandStack.ext (List.reverse_injective heq))
  nulls_lt := nulls_mergeStacks h hne

end TypeTable

namespace TypingContext

/-- Typing raises the stacks it replaces, which lowers the number of nulls. -/
theorem descends (c : TypingContext) (func : FuncRef) :
    (c.analysis func).Descends c.types.Raised where
  trans := .trans
  merge h hne := TypeTable.raised_of_mergeStacks (Checked.widen_eq_ok.mp h) hne
  rank_lt h := h.nulls_lt
  size_eq h := h.size_eq
  rank_le s := by
    rw [← s.length_bottomUp]
    exact List.countP_le_length

/-- **Typing a body visits each instruction a bounded number of times.**  The run with marks has a
last state, with the verdict of the solver.  In each of its states the marked instructions are the
queued ones, each queued once.  An instruction with a stack has been visited, the visit it is queued
for included, at most once more often than the stack has values, and one without a stack has not
been visited.  A visit does what the solver does; it queues the instructions that get their first
stack or whose stack it raises, and only these. -/
theorem visits_bounded (c : TypingContext) (func : FuncRef) (body : Array Instr)
    (labels : Array Nat) :
    (∃ visits w, Worklist.Visited (c.analysis func) body labels visits w ∧
      Worklist.Stops (c.analysis func) body labels w ((c.analysis func).solve body labels) ∧
      ∀ visits' w', Worklist.Visited (c.analysis func) body labels visits' w' →
        visits' <+: visits) ∧
    ∀ visits w, Worklist.Visited (c.analysis func) body labels visits w →
      w.queue.Nodup ∧ (∀ i, w.queued.get i = true ↔ i ∈ w.queue) ∧
      (∀ (i : Nat) s, w.states[i]? = some (some s) →
        visits.count i + (if i ∈ w.queue then 1 else 0) ≤ s.size + 1) ∧
      (∀ i : Nat, (∀ s, w.states[i]? ≠ some (some s)) → i ∉ visits ∧ i ∉ w.queue) ∧
      ∀ index rest w', w.queue = index :: rest →
        Worklist.visit (c.analysis func) body labels index rest w = .ok w' →
        Progress.visit (c.analysis func) body labels index rest w.toProgress = .ok w'.toProgress ∧
        ∃ pushed, Progress.Advances c.types.Raised { w.toProgress with queue := rest }
          w'.toProgress pushed := by
  refine ⟨Worklist.exists_last_visit _ body labels, fun visits w hvisited => ?_⟩
  have hmarks := hvisited.marks
  have hcounted := hvisited.counted (c.descends func)
  refine ⟨hmarks.nodup, hmarks.marked, fun i s hs => ?_, hcounted.unrecorded, ?_⟩
  · exact Nat.le_trans (Nat.le_add_right _ _) (hcounted.recorded i s hs)
  · intro index rest w' hqueue hvisit
    have hprogress := Worklist.visit_toProgress hmarks hqueue hvisit
    exact ⟨hprogress, Progress.visit_advances (c.descends func) hprogress⟩

end TypingContext

end StackCode
