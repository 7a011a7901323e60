import StackCode.Proofs.Dataflow.Schedules

/-!
# The states of a run

A run looks up instructions that stand in its queue and instructions that a way out leads to.  Both
are instructions of the body, in every state that visits lead to.

## Main definitions

* `Progress.Reached`: the states that visits lead to, in any order.
* `Progress.InBounds`: a state that names instructions of the body only.

## Main results

* `Progress.Reached.inBounds`: visits stay inside the body.
* `Analysis.solve_ends`: a run carries on what its rules and merges do, and its errors are theirs.
-/

namespace StackCode

variable {α ε : Type} [DecidableEq α] {a : Analysis α ε} {body : Array Instr} {labels : Array Nat}

namespace Progress

/-- The states that visits of queued instructions lead to, in any order. -/
inductive Reached (a : Analysis α ε) (body : Array Instr) (labels : Array Nat) : Progress α → Prop
  | start : Reached a body labels (start body.size)
  | visit {p q : Progress α} {index : Nat} {before after : List Nat} (hp : Reached a body labels p)
      (hqueue : p.queue = before ++ index :: after)
      (hvisit : visit a body labels index (before ++ after) p = .ok q) : Reached a body labels q

/-- There is a place for each of `size` instructions, and only these are queued. -/
structure InBounds (size : Nat) (p : Progress α) : Prop where
  states : p.states.size = size
  effects : p.effects.size = size
  queue : ∀ i ∈ p.queue, i < size

variable {p q : Progress α} {size : Nat}

omit [DecidableEq α] in
theorem inBounds_start : (start size : Progress α).InBounds size where
  states := by simp [start]
  effects := by simp [start]
  queue i hi := by
    by_cases hzero : size = 0
    · simp [start, hzero] at hi
    · simp only [start, hzero, if_false, List.mem_singleton] at hi
      omega

omit [DecidableEq α] in
theorem InBounds.update (h : p.InBounds size) {target : Nat} (htarget : target < size)
    (stack : OperandStack α) : (p.update target stack).InBounds size where
  states := by simpa [Progress.update] using h.states
  effects := h.effects
  queue i hi := by
    simp only [Progress.update] at hi
    split at hi
    · exact h.queue i hi
    · rcases List.mem_append.mp hi with hi | hi
      · exact h.queue i hi
      · rwa [List.mem_singleton.mp hi]

theorem InBounds.record (h : p.InBounds size) {target : Nat} (htarget : target < size)
    {incoming : OperandStack α} (hrecord : p.record a target incoming = .ok q) :
    q.InBounds size := by
  unfold Progress.record at hrecord
  split at hrecord
  · cases hrecord
    exact h
  · cases hrecord
    exact h.update htarget _
  · split at hrecord
    · cases hrecord
    · split at hrecord
      · cases hrecord
        exact h
      · cases hrecord
        exact h.update htarget _

theorem InBounds.propagate (h : p.InBounds size) {index : Nat}
    {successors : List (Exit × OperandStack α)}
    (hpropagate : Progress.propagate a size labels index successors p = .ok q) :
    q.InBounds size := by
  induction successors generalizing p with
  | nil =>
    cases hpropagate
    exact h
  | cons successor successors ih =>
    unfold Progress.propagate at hpropagate
    split at hpropagate
    · cases hpropagate
    · rename_i target hresolve
      split at hpropagate
      · cases hpropagate
      · rename_i mid hrecord
        exact ih (h.record (Exit.resolve?_lt hresolve) hrecord) hpropagate

theorem InBounds.visit (h : p.InBounds body.size) {index : Nat} {rest : List Nat}
    (hrest : ∀ i ∈ rest, i < body.size)
    (hvisit : Progress.visit a body labels index rest p = .ok q) : q.InBounds body.size := by
  unfold Progress.visit at hvisit
  split at hvisit
  · split at hvisit
    · cases hvisit
    · refine InBounds.propagate ?_ hvisit
      exact ⟨h.states, by simpa using h.effects, hrest⟩
  · cases hvisit
    exact ⟨h.states, h.effects, hrest⟩

/-- **Visits stay inside the body.** -/
theorem Reached.inBounds (h : Reached a body labels p) : p.InBounds body.size := by
  induction h with
  | start => exact inBounds_start
  | @visit p q index before after _ hqueue hvisit ih =>
    refine ih.visit (fun i hi => ih.queue i ?_) hvisit
    rw [hqueue]
    rcases List.mem_append.mp hi with hi | hi
    · exact List.mem_append_left _ hi
    · exact List.mem_append_right _ (List.mem_cons_of_mem _ hi)

end Progress

/-- **A run carries on what its rules and merges do**, and its errors are theirs. -/
theorem Analysis.solve_ends {P : Nat → OperandStack α → Prop} {Q : ε → Prop}
    (ha : a.Carries body labels P Q) (hstart : 0 < body.size → P 0 .empty) :
    Ends (fun s => ∀ (i : Nat) stack, s.states[i]? = some (some stack) → P i stack) Q
      (a.solve body labels) := by
  have hrun {p : Progress α} (hp : Progress.Recorded P p) :
      Ends (Progress.Recorded P) Q (p.run a body labels) := by
    fun_induction Progress.run a body labels p with
    | case1 p hqueue => exact .ok hp
    | case2 p index rest hqueue e hvisit => exact .error ((hp.visit_ends ha).cause hvisit)
    | case3 p index rest hqueue q hvisit ih => exact ih ((hp.visit_ends ha).result hvisit)
  have hends := hrun (Progress.recorded_start hstart)
  unfold Analysis.solve
  split
  · rename_i e he
    exact .error (hends.cause he)
  · rename_i p hp
    exact .ok (hends.result hp)

end StackCode
