import StackCode.Proofs.Dataflow.Fixpoint

/-!
# Runs in any order

The solver visits the oldest entry of its queue.  Here a run may visit any entry, and the solver's
own run is one of these.  Every run that succeeds ends in a fixpoint.

An upper solution is an assignment of stacks that holds out against every visit below it: what
leaves an instruction on a stack below the assigned one arrives below an assigned one again.  No
order of visits gets past an upper solution.  So the only way for a run to fail is that the rule of
an instruction fails on a stack below the assigned one.

## Main definitions

* `Progress.Runs`: runs that visit queued instructions in any order.
* `Analysis.UpperSolution`: stacks that no run gets past.
* `Progress.Under`: a run that has not got past them.

## Main results

* `Progress.run_runs`: the solver's run is one of these.
* `Progress.Runs.fixpoint`: a run that succeeds ends in a fixpoint.
* `Progress.Runs.under`: no run gets past an upper solution.
-/

namespace StackCode

variable {α ε : Type}

namespace Progress

section Runs

variable [DecidableEq α] (a : Analysis α ε) (body : Array Instr) (labels : Array Nat)

/-- Runs that visit queued instructions in any order, until the queue is empty or a visit fails. -/
inductive Runs : Progress α → Except ε (Progress α) → Prop
  | done {p : Progress α} (hqueue : p.queue = []) : Runs p (.ok p)
  | fails {p : Progress α} {index : Nat} {before after : List Nat} {e : ε}
      (hqueue : p.queue = before ++ index :: after)
      (hvisit : visit a body labels index (before ++ after) p = .error e) : Runs p (.error e)
  | visits {p q : Progress α} {index : Nat} {before after : List Nat}
      {result : Except ε (Progress α)} (hqueue : p.queue = before ++ index :: after)
      (hvisit : visit a body labels index (before ++ after) p = .ok q) (hrest : Runs q result) :
      Runs p result

/-- Visiting the oldest entry first is one of the orders. -/
theorem run_runs (p : Progress α) : Runs a body labels p (run a body labels p) := by
  fun_induction run a body labels p with
  | case1 p hqueue => exact .done hqueue
  | case2 p index rest hqueue e hvisit =>
    exact .fails (show p.queue = [] ++ index :: rest from hqueue) hvisit
  | case3 p index rest hqueue q hvisit ih =>
    exact .visits (show p.queue = [] ++ index :: rest from hqueue) hvisit ih

variable {a body labels}

/-- A run that succeeds keeps what every visit keeps, and ends with an empty queue. -/
theorem Runs.preserves {P : Progress α → Prop}
    (hstep : ∀ {index before after p q}, P p → p.queue = before ++ index :: after →
      visit a body labels index (before ++ after) p = .ok q → P q)
    {p q : Progress α} (hp : P p) (h : Runs a body labels p (.ok q)) : P q ∧ q.queue = [] := by
  generalize hresult : (Except.ok q : Except ε (Progress α)) = result at h
  induction h with
  | done hqueue =>
    cases hresult
    exact ⟨hp, hqueue⟩
  | fails => cases hresult
  | visits hqueue hvisit _ ih => exact ih (hstep hp hqueue hvisit) hresult

end Runs

section Settling

variable {a : Analysis α ε} {le : OperandStack α → OperandStack α → Prop} {body : Array Instr}
  {labels : Array Nat} {p q : Progress α}

/-- The order of the queue does not matter to the invariant. -/
theorem Invariant.of_queue (hp : Invariant a le body labels p) {queue : List Nat}
    (hqueue : ∀ i ∈ p.queue, i ∈ queue) : Invariant a le body labels { p with queue } where
  size_states := hp.size_states
  size_effects := hp.size_effects
  start := hp.start
  settled i hi := hp.settled i fun hmem => hi (hqueue i hmem)
  unrecorded := hp.unrecorded

variable [DecidableEq α]

/-- A visit of any queued instruction keeps the invariant.  A visit does not read the queue, so the
instruction may as well stand first. -/
theorem Invariant.visit_any (hb : a.Bounds le) {index : Nat} {before after : List Nat}
    (hp : Invariant a le body labels p) (hqueue : p.queue = before ++ index :: after)
    (h : visit a body labels index (before ++ after) p = .ok q) : Invariant a le body labels q := by
  have hfirst : Invariant a le body labels { p with queue := index :: (before ++ after) } := by
    refine hp.of_queue fun i hi => ?_
    rw [hqueue] at hi
    simp only [List.mem_append, List.mem_cons] at hi ⊢
    rcases hi with hi | hi | hi
    · exact .inr (.inl hi)
    · exact .inl hi
    · exact .inr (.inr hi)
  exact visit_invariant hb hfirst rfl h

/-- **A run that succeeds ends in a fixpoint**, whatever its order. -/
theorem Runs.fixpoint (hb : a.Bounds le) (h : Runs a body labels (start body.size) (.ok q)) :
    Solution.Fixpoint a le body labels ⟨q.states, q.effects, q.findings⟩ := by
  obtain ⟨hq, hqueue⟩ := h.preserves (P := Invariant a le body labels)
    (fun hp hqueue hvisit => hp.visit_any hb hqueue hvisit) (invariant_start hb)
  refine ⟨hq.size_states, hq.size_effects, hq.start, fun index => ?_, hq.unrecorded⟩
  exact hq.settled index (by simp [hqueue])

end Settling

end Progress

/-- Stacks that no run gets past: stacks below them merge below them, and what leaves an instruction
on a stack below the assigned one arrives below an assigned one. -/
structure Analysis.UpperSolution (a : Analysis α ε) (le : OperandStack α → OperandStack α → Prop)
    (body : Array Instr) (labels : Array Nat) (upper : Array (Option (OperandStack α))) :
    Prop where
  start : 0 < body.size → ∃ s, upper[0]? = some (some s) ∧ le .empty s
  merge : ∀ {target recorded incoming s}, upper[target]? = some (some s) → le recorded s →
    le incoming s → ∃ merged, a.merge target recorded incoming = .ok merged ∧ le merged s
  leaves : ∀ {index instr stack s v}, body[index]? = some instr → upper[index]? = some (some s) →
    le stack s → a.transfer index instr stack = .ok v → ∀ exit out, (exit, out) ∈ v.successors →
      Progress.Arrives le body labels upper index exit out

namespace Progress

variable {a : Analysis α ε} {le : OperandStack α → OperandStack α → Prop} {body : Array Instr}
  {labels : Array Nat} {upper : Array (Option (OperandStack α))} {p : Progress α}

/-- The stack lies below the one assigned to the instruction. -/
def LiesUnder (le : OperandStack α → OperandStack α → Prop)
    (upper : Array (Option (OperandStack α))) (i : Nat) (stack : OperandStack α) : Prop :=
  ∃ s, upper[i]? = some (some s) ∧ le stack s

/-- Every recorded stack lies below the assigned one. -/
abbrev Under (le : OperandStack α → OperandStack α → Prop)
    (upper : Array (Option (OperandStack α))) (p : Progress α) : Prop :=
  Recorded (LiesUnder le upper) p

theorem under_start (hupper : a.UpperSolution le body labels upper) :
    Under le upper (start body.size) :=
  recorded_start hupper.start

variable [DecidableEq α]

/-- Taking in a stack below the assigned one succeeds. -/
theorem Under.record {target : Nat} {incoming s : OperandStack α}
    (hupper : a.UpperSolution le body labels upper) (hp : Under le upper p)
    (hs : upper[target]? = some (some s)) (hle : le incoming s) :
    ∃ q, p.record a target incoming = .ok q ∧ Under le upper q := by
  unfold Progress.record
  split
  · exact ⟨p, rfl, hp⟩
  · exact ⟨_, rfl, hp.update ⟨s, hs, hle⟩⟩
  · rename_i recorded hrecorded
    obtain ⟨s', hs', hle'⟩ := hp target recorded hrecorded
    cases hs.symm.trans hs'
    obtain ⟨merged, hmerge, hmerged⟩ := hupper.merge hs hle' hle
    rw [hmerge]
    dsimp only
    split
    · exact ⟨p, rfl, hp⟩
    · exact ⟨_, rfl, hp.update ⟨s, hs, hmerged⟩⟩

/-- Taking in stacks that all arrive below assigned ones succeeds. -/
theorem Under.propagate {index : Nat} {successors : List (Exit × OperandStack α)}
    (hupper : a.UpperSolution le body labels upper) (hp : Under le upper p)
    (harrives : ∀ exit out, (exit, out) ∈ successors →
      Arrives le body labels upper index exit out) :
    ∃ q, Progress.propagate a body.size labels index successors p = .ok q ∧ Under le upper q := by
  induction successors generalizing p with
  | nil => exact ⟨p, rfl, hp⟩
  | cons successor rest ih =>
    obtain ⟨exit, out⟩ := successor
    obtain ⟨target, s, hresolve, hs, hle⟩ := harrives exit out List.mem_cons_self
    obtain ⟨mid, hmid, hmidUnder⟩ := hp.record hupper hs hle
    obtain ⟨q, hq, hqUnder⟩ :=
      ih hmidUnder fun exit out hmem => harrives exit out (List.mem_cons_of_mem _ hmem)
    refine ⟨q, ?_, hqUnder⟩
    rw [Progress.propagate, hresolve]
    dsimp only
    rw [hmid]
    exact hq

/-- The rule of an instruction fails on a stack below the assigned one. -/
def FailsUnder (a : Analysis α ε) (le : OperandStack α → OperandStack α → Prop)
    (body : Array Instr) (upper : Array (Option (OperandStack α))) (index : Nat)
    (stack : OperandStack α) (e : ε) : Prop :=
  ∃ instr s, body[index]? = some instr ∧ upper[index]? = some (some s) ∧ le stack s ∧
    a.transfer index instr stack = .error e

/-- **A visit does not get past an upper solution**: it stays below, or the rule of the instruction
fails on the stack recorded for it. -/
theorem Under.visit (index : Nat) (rest : List Nat) (hp : Under le upper p)
    (hupper : a.UpperSolution le body labels upper) :
    (∃ q, Progress.visit a body labels index rest p = .ok q ∧ Under le upper q) ∨
      ∃ stack e, p.states[index]? = some (some stack) ∧ FailsUnder a le body upper index stack e ∧
        Progress.visit a body labels index rest p = .error e := by
  unfold Progress.visit
  split
  · rename_i instr stack hinstr hstack
    obtain ⟨s, hs, hle⟩ := hp index stack hstack
    cases htransfer : a.transfer index instr stack with
    | error e => exact .inr ⟨stack, e, hstack, ⟨instr, s, hinstr, hs, hle, htransfer⟩, rfl⟩
    | ok v =>
      refine .inl ?_
      exact Under.propagate (p := { p with
        effects := p.effects.setIfInBounds index (some v.effect)
        findings := p.findings ++ v.findings
        queue := rest }) hupper hp (hupper.leaves hinstr hs hle htransfer)
  · exact .inl ⟨_, rfl, hp⟩

/-- **No run gets past an upper solution**, whatever its order: it succeeds below, or the rule of an
instruction fails on a stack below the assigned one.  A property `P` that the visits of the run keep
holds at the end, and holds where the rule fails. -/
theorem Runs.under {P : Progress α → Prop} (hupper : a.UpperSolution le body labels upper)
    (hstep : ∀ {index rest p q}, P p → Progress.visit a body labels index rest p = .ok q → P q)
    {result : Except ε (Progress α)} (hp : Under le upper p) (hP : P p)
    (h : Runs a body labels p result) :
    (∃ q, result = .ok q ∧ Under le upper q ∧ P q) ∨
      ∃ q index stack e, P q ∧ q.states[index]? = some (some stack) ∧
        FailsUnder a le body upper index stack e ∧ result = .error e := by
  induction h with
  | @done p hqueue => exact .inl ⟨p, rfl, hp, hP⟩
  | @fails p index before after e hqueue hvisit =>
    rcases hp.visit index (before ++ after) hupper with
      ⟨q, hq, -⟩ | ⟨stack, e', hstack, hfails, he'⟩
    · cases hvisit.symm.trans hq
    · cases hvisit.symm.trans he'
      exact .inr ⟨p, index, stack, e, hP, hstack, hfails, rfl⟩
  | @visits p q index before after result hqueue hvisit hrest ih =>
    rcases hp.visit index (before ++ after) hupper with
      ⟨q', hq', hunder⟩ | ⟨stack, e', -, -, he'⟩
    · cases hvisit.symm.trans hq'
      exact ih hunder (hstep hP hvisit)
    · cases hvisit.symm.trans he'

end Progress

end StackCode
