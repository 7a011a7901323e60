import StackCode.Dataflow.Solver
import StackCode.Proofs.Agreement

/-!
# Runs in lockstep

Two analyses whose operands correspond, one to one, visit the instructions of a body in the same
order.  If they agree on every instruction and on every merge, they agree on the whole run: both
stop with an error, or they record corresponding stacks at every instruction.

## Main definitions

* `OperandStack.map`, `Effect.map`: stacks and effects of corresponding operands.
* `Analysis.Lockstep`: two analyses agree on every step.

## Main results

* `Analysis.Lockstep.solve`: they agree on the run.
-/

namespace StackCode

variable {α β ε δ : Type} {f : α → β}

namespace OperandStack

/-- The stack of the corresponding operands. -/
def map (f : α → β) (s : OperandStack α) : OperandStack β := ⟨s.topDown.map f⟩

@[simp] theorem map_empty : (empty : OperandStack α).map f = empty := rfl

@[simp] theorem size_map (s : OperandStack α) : (s.map f).size = s.size := List.length_map f

@[simp] theorem bottomUp_map (s : OperandStack α) : (s.map f).bottomUp = s.bottomUp.map f :=
  List.map_reverse.symm

theorem map_ofBottomUp (values : List α) : (ofBottomUp values).map f = ofBottomUp (values.map f) :=
  congrArg mk List.map_reverse

theorem map_pushAll (s : OperandStack α) (values : List α) :
    (s.pushAll values).map f = (s.map f).pushAll (values.map f) := by
  induction values generalizing s with
  | nil => rfl
  | cons value values ih => exact ih (s.push value)

theorem above_map (s below : OperandStack α) :
    (s.map f).above (below.map f) = (s.above below).map f := by
  rw [above, above, size_map, size_map]
  exact List.map_take.symm

/-- Stacks are told apart by an injective map. -/
theorem map_injective (hf : Function.Injective f) : Function.Injective (map f) := by
  rintro ⟨s⟩ ⟨s'⟩ h
  exact congrArg mk (List.map_injective_iff.mpr hf (mk.inj h))

end OperandStack

/-- The effect on corresponding operands. -/
def Effect.map (f : α → β) (e : Effect α) : Effect β := ⟨e.popped.map f, e.pushed.map f⟩

/-- A visit finds the effect and the stacks of another, on corresponding operands. -/
structure Visit.Mapped (f : α → β) (v : Visit α) (v' : Visit β) : Prop where
  effect : v'.effect = v.effect.map f
  successors : v'.successors = v.successors.map fun (exit, s) => (exit, s.map f)

/-- A state of a run has the stacks and effects of another, on corresponding operands, and the same
queue. -/
structure Progress.Mapped (f : α → β) (p : Progress α) (p' : Progress β) : Prop where
  states : p'.states = p.states.map (Option.map (OperandStack.map f))
  effects : p'.effects = p.effects.map (Option.map (Effect.map f))
  queue : p'.queue = p.queue

/-- A solution has the stacks and effects of another, on corresponding operands. -/
structure Solution.Mapped (f : α → β) (s : Solution α) (s' : Solution β) : Prop where
  states : s'.states = s.states.map (Option.map (OperandStack.map f))
  effects : s'.effects = s.effects.map (Option.map (Effect.map f))

/-- Two analyses agree on every instruction of two bodies and on every merge. -/
structure Analysis.Lockstep (f : α → β) (a : Analysis α ε) (a' : Analysis β δ)
    (body body' : Array Instr) : Prop where
  injective : Function.Injective f
  size : body'.size = body.size
  transfer : ∀ {index : Nat} {instr instr' : Instr} (s : OperandStack α),
    body[index]? = some instr → body'[index]? = some instr' →
    Agree (Visit.Mapped f) (a.transfer index instr s) (a'.transfer index instr' (s.map f))
  merge : ∀ (target : Nat) (recorded incoming : OperandStack α),
    Agree (fun m m' => m' = m.map f) (a.merge target recorded incoming)
      (a'.merge target (recorded.map f) (incoming.map f))

namespace Progress

variable {p : Progress α} {p' : Progress β}

theorem mapped_start (size : Nat) : Mapped f (start size) (start size) where
  states := by simp [start, Array.map_setIfInBounds]
  effects := by simp [start]
  queue := rfl

/-- Both record corresponding stacks. -/
theorem Mapped.update (h : Mapped f p p') (target : Nat) (s : OperandStack α) :
    Mapped f (p.update target s) (p'.update target (s.map f)) where
  states := by simp [Progress.update, h.states, Array.map_setIfInBounds]
  effects := h.effects
  queue := by simp [Progress.update, h.queue]

variable [DecidableEq α] {a : Analysis α ε} {body : Array Instr} {labels : Array Nat}

theorem run_of_nil (hqueue : p.queue = []) : p.run a body labels = .ok p := by
  rw [run]
  split
  · rfl
  · rename_i hcons
    cases hqueue.symm.trans hcons

/-- A run visits the oldest entry of its queue first. -/
theorem run_of_cons {index : Nat} {rest : List Nat} (hqueue : p.queue = index :: rest) :
    p.run a body labels =
      visit a body labels index rest p >>= fun q => q.run a body labels := by
  rw [run]
  split
  · rename_i hnil
    cases hqueue.symm.trans hnil
  · rename_i hcons
    cases hqueue.symm.trans hcons
    split
    · rename_i hv
      rw [hv]
      rfl
    · rename_i hv
      rw [hv]
      rfl

end Progress

namespace Analysis.Lockstep

variable [DecidableEq α] [DecidableEq β] {a : Analysis α ε} {a' : Analysis β δ}
  {body body' : Array Instr} {labels : Array Nat} {p : Progress α} {p' : Progress β} {index : Nat}

open Progress (Mapped)

variable (h : Lockstep f a a' body body')

include h

/-- Both take in a stack that reaches an instruction.  The queue grows on both sides or on neither,
because operands correspond one to one. -/
theorem record (hp : Mapped f p p') (target : Nat) (incoming : OperandStack α) :
    Agree (Mapped f) (p.record a target incoming) (p'.record a' target (incoming.map f)) := by
  have hstate : p'.states[target]? =
      (p.states[target]?).map (Option.map (OperandStack.map f)) := by
    rw [hp.states, Array.getElem?_map]
  unfold Progress.record
  rw [hstate]
  cases p.states[target]? with
  | none => exact .ok hp
  | some state =>
    cases state with
    | none => exact .ok (hp.update target incoming)
    | some recorded =>
      have hmerge := h.merge target recorded incoming
      dsimp only [Option.map_some]
      generalize a.merge target recorded incoming = x at hmerge ⊢
      generalize a'.merge target (recorded.map f) (incoming.map f) = y at hmerge ⊢
      cases hmerge with
      | error e e' => exact .error e e'
      | ok hmerged =>
        subst hmerged
        refine .ite (OperandStack.map_injective h.injective).eq_iff.symm (fun _ => .ok hp) ?_
        exact fun _ => .ok (hp.update target _)

/-- Both take in the stacks that leave an instruction. -/
theorem propagate {size : Nat} (hp : Mapped f p p') (successors : List (Exit × OperandStack α)) :
    Agree (Mapped f) (Progress.propagate a size labels index successors p)
      (Progress.propagate a' size labels index
        (successors.map fun (exit, s) => (exit, s.map f)) p') := by
  induction successors generalizing p p' with
  | nil => exact .ok hp
  | cons successor rest ih =>
    obtain ⟨exit, s⟩ := successor
    rw [List.map_cons, Progress.propagate, Progress.propagate]
    cases exit.resolve? size labels index with
    | none => exact .error _ _
    | some target =>
      have hrecord := h.record hp target s
      dsimp only
      generalize p.record a target s = x at hrecord ⊢
      generalize p'.record a' target (s.map f) = y at hrecord ⊢
      cases hrecord with
      | error e e' => exact .error e e'
      | ok hnext => exact ih hnext

/-- Both visit an instruction. -/
theorem visit (hp : Mapped f p p') (labels : Array Nat) (index : Nat) (rest : List Nat) :
    Agree (Mapped f) (Progress.visit a body labels index rest p)
      (Progress.visit a' body' labels index rest p') := by
  have hskip : Agree (Mapped f) (.ok { p with queue := rest } : Except ε (Progress α))
      (.ok { p' with queue := rest } : Except δ (Progress β)) := .ok ⟨hp.states, hp.effects, rfl⟩
  have hstate : p'.states[index]? = (p.states[index]?).map (Option.map (OperandStack.map f)) := by
    rw [hp.states, Array.getElem?_map]
  unfold Progress.visit
  rw [hstate]
  cases hinstr : body[index]? with
  | none =>
    have hinstr' : body'[index]? = none := by
      rw [Array.getElem?_eq_none_iff, h.size]
      exact Array.getElem?_eq_none_iff.mp hinstr
    rw [hinstr']
    exact hskip
  | some instr =>
    obtain ⟨instr', hinstr'⟩ : ∃ instr', body'[index]? = some instr' := by
      obtain ⟨hlt, -⟩ := Array.getElem?_eq_some_iff.mp hinstr
      exact ⟨_, Array.getElem?_eq_getElem (h.size ▸ hlt)⟩
    rw [hinstr']
    rcases p.states[index]? with _ | _ | s
    · exact hskip
    · exact hskip
    · have htransfer := h.transfer s hinstr hinstr'
      dsimp only [Option.map_some]
      generalize a.transfer index instr s = x at htransfer ⊢
      generalize a'.transfer index instr' (s.map f) = y at htransfer ⊢
      cases htransfer with
      | error e e' => exact .error e e'
      | @ok v v' hv =>
        have hvisited : Mapped f
            ⟨p.states, p.effects.setIfInBounds index (some v.effect), p.findings ++ v.findings,
              rest⟩
            ⟨p'.states, p'.effects.setIfInBounds index (some v'.effect),
              p'.findings ++ v'.findings, rest⟩ :=
          ⟨hp.states, by simp [hp.effects, hv.effect, Array.map_setIfInBounds], rfl⟩
        dsimp only
        rw [hv.successors, h.size]
        exact h.propagate hvisited v.successors

/-- Both run to the end, or stop. -/
theorem run (labels : Array Nat) (hp : Mapped f p p') :
    Agree (Mapped f) (p.run a body labels) (p'.run a' body' labels) := by
  fun_induction Progress.run a body labels p generalizing p' with
  | case1 p hqueue =>
    rw [Progress.run_of_nil (hp.queue.trans hqueue)]
    exact .ok hp
  | case2 p index rest hqueue e hv =>
    have hvisit := h.visit hp labels index rest
    rw [Progress.run_of_cons (hp.queue.trans hqueue)]
    rw [hv] at hvisit
    generalize Progress.visit a' body' labels index rest p' = y at hvisit ⊢
    cases hvisit with
    | error e e' => exact .error e e'
  | case3 p index rest hqueue q hv ih =>
    have hvisit := h.visit hp labels index rest
    rw [Progress.run_of_cons (hp.queue.trans hqueue)]
    rw [hv] at hvisit
    generalize Progress.visit a' body' labels index rest p' = y at hvisit ⊢
    cases hvisit with
    | ok hnext => exact ih hnext

/-- **Analyses that agree on every step agree on the run.** -/
theorem solve (labels : Array Nat) :
    Agree (Solution.Mapped f) (a.solve body labels) (a'.solve body' labels) := by
  have hrun := h.run labels (Progress.mapped_start body.size)
  unfold Analysis.solve
  rw [h.size]
  generalize (Progress.start body.size).run a body labels = x at hrun ⊢
  generalize (Progress.start body.size).run a' body' labels = y at hrun ⊢
  cases hrun with
  | error e e' => exact .error e e'
  | ok hp => exact .ok ⟨hp.states, hp.effects⟩

end Analysis.Lockstep

end StackCode
