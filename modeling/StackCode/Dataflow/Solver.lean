import StackCode.Dataflow.OperandStack
import StackCode.Diagnostic
import StackCode.Instr.Basic

/-!
# Stacks at every instruction

A worklist solver over operand stacks.  It records one stack for each instruction control can reach:
the stack before the instruction runs.  An analysis says what an instruction does to a stack and how
two stacks that meet at one instruction are merged; the solver starts with the empty stack before
the first instruction and visits instructions, oldest entry of the queue first, until nothing
changes.

An analysis brings a rank for stacks that falls whenever a merge changes the recorded stack.  So
every visit either records a first stack somewhere, or lowers the sum of the ranks, or shortens the
queue, and the solver is a total function.

## Main definitions

* `Effect`, `Visit`: what one visit of an instruction finds.
* `Analysis`: the domain of a run.
* `Progress`: the state of a run, with `Progress.record` and `Progress.visit`.
* `Analysis.solve`: the run.

## Main results

* `Progress.visit_lowers`: a visit lowers the measure of the run.
-/

namespace StackCode

/-- What an instruction takes off the stack and leaves on it. -/
structure Effect (α : Type) where
  /-- The values taken, top first. -/
  popped : List α
  /-- The values left, in the order they were pushed. -/
  pushed : List α
deriving DecidableEq, Repr

/-- A remark on an instruction that does not stop the work. -/
structure Finding where
  index : Nat
  diagnostic : Diagnostic
deriving DecidableEq, Repr

/-- What one visit of an instruction finds. -/
structure Visit (α : Type) where
  effect : Effect α
  /-- The ways out, each with the stack control leaves with. -/
  successors : List (Exit × OperandStack α)
  findings : List Finding
deriving DecidableEq, Repr

/-- The domain of a run over a body: how instructions act on stacks and how stacks merge. -/
structure Analysis (α ε : Type) where
  /-- Runs the instruction at an index on a stack. -/
  transfer : Nat → Instr → OperandStack α → Except ε (Visit α)
  /-- Merges a stack into the one recorded at an index. -/
  merge : (target : Nat) → (recorded incoming : OperandStack α) → Except ε (OperandStack α)
  /-- The error for a way out of an instruction that leads nowhere. -/
  unresolved : Nat → Exit → ε
  /-- A bound on how often the stack recorded at an index can still change. -/
  rank : OperandStack α → Nat
  rank_merge : ∀ {target : Nat} {recorded incoming merged : OperandStack α},
    merge target recorded incoming = .ok merged → merged ≠ recorded → rank merged < rank recorded

/-- The instruction a way out of the instruction at `index` leads to, in a body of `size`
instructions. -/
def Exit.resolve? (size : Nat) (labels : Array Nat) (index : Nat) : Exit → Option Nat
  | next => if index + 1 < size then some (index + 1) else none
  | label l =>
    match labels[l.index]? with
    | some target => if target < size then some target else none
    | none => none

/-- The state of a run. -/
structure Progress (α : Type) where
  /-- The stack recorded before each instruction. -/
  states : Array (Option (OperandStack α))
  /-- The effect of the latest visit of each instruction. -/
  effects : Array (Option (Effect α))
  findings : Array Finding
  /-- The instructions to visit, each once. -/
  queue : List Nat

namespace Progress

variable {α ε : Type}

/-- Nothing known about a body of `size` instructions but the empty stack at its start. -/
def start (size : Nat) : Progress α where
  states := (Array.replicate size none).setIfInBounds 0 (some .empty)
  effects := Array.replicate size none
  findings := #[]
  queue := if size = 0 then [] else [0]

/-- Records a stack before the instruction at `target`, which has to be visited then. -/
def update (p : Progress α) (target : Nat) (stack : OperandStack α) : Progress α :=
  { p with
    states := p.states.setIfInBounds target (some stack)
    queue := if target ∈ p.queue then p.queue else p.queue ++ [target] }

/-- Takes in a stack that reaches the instruction at `target`. -/
def record [DecidableEq α] (a : Analysis α ε) (p : Progress α) (target : Nat)
    (incoming : OperandStack α) : Except ε (Progress α) :=
  match p.states[target]? with
  | none => .ok p
  | some none => .ok (p.update target incoming)
  | some (some recorded) =>
    match a.merge target recorded incoming with
    | .error e => .error e
    | .ok merged => if merged = recorded then .ok p else .ok (p.update target merged)

/-- Takes in the stacks that leave the instruction at `index`, in order. -/
def propagate [DecidableEq α] (a : Analysis α ε) (size : Nat) (labels : Array Nat) (index : Nat) :
    List (Exit × OperandStack α) → Progress α → Except ε (Progress α)
  | [], p => .ok p
  | (exit, stack) :: rest, p =>
    match exit.resolve? size labels index with
    | none => .error (a.unresolved index exit)
    | some target =>
      match p.record a target stack with
      | .error e => .error e
      | .ok p => propagate a size labels index rest p

/-- Visits the instruction at `index`, leaving `rest` of the queue. -/
def visit [DecidableEq α] (a : Analysis α ε) (body : Array Instr) (labels : Array Nat)
    (index : Nat) (rest : List Nat) (p : Progress α) : Except ε (Progress α) :=
  match body[index]?, p.states[index]? with
  | some instr, some (some stack) =>
    match a.transfer index instr stack with
    | .error e => .error e
    | .ok v =>
      propagate a body.size labels index v.successors
        { p with
          effects := p.effects.setIfInBounds index (some v.effect)
          findings := p.findings ++ v.findings
          queue := rest }
  | _, _ => .ok { p with queue := rest }

/-! ## The measure of a run -/

/-- The number of places without a value. -/
def unrecorded {β : Type} : List (Option β) → Nat
  | [] => 0
  | none :: rest => unrecorded rest + 1
  | some _ :: rest => unrecorded rest

/-- The sum of the ranks of the values that are there. -/
def totalRank {β : Type} (rank : β → Nat) : List (Option β) → Nat
  | [] => 0
  | none :: rest => totalRank rank rest
  | some b :: rest => totalRank rank rest + rank b

theorem unrecorded_set_of_none {β : Type} {l : List (Option β)} {i : Nat} (b : β)
    (h : l[i]? = some none) : unrecorded (l.set i (some b)) + 1 = unrecorded l := by
  induction l generalizing i with
  | nil => simp at h
  | cons x rest ih =>
    cases i with
    | zero =>
      rw [List.getElem?_cons_zero, Option.some.injEq] at h
      subst h
      simp [unrecorded]
    | succ i => cases x <;> simp [unrecorded] <;> have := ih (i := i) (by simpa using h) <;> omega

theorem unrecorded_set_of_some {β : Type} {l : List (Option β)} {i : Nat} {c : β} (b : β)
    (h : l[i]? = some (some c)) : unrecorded (l.set i (some b)) = unrecorded l := by
  induction l generalizing i with
  | nil => simp at h
  | cons x rest ih =>
    cases i with
    | zero =>
      rw [List.getElem?_cons_zero, Option.some.injEq] at h
      subst h
      simp [unrecorded]
    | succ i => cases x <;> simp [unrecorded] <;> have := ih (i := i) (by simpa using h) <;> omega

theorem totalRank_set_of_some {β : Type} (rank : β → Nat) {l : List (Option β)} {i : Nat} {c : β}
    (b : β) (h : l[i]? = some (some c)) :
    totalRank rank (l.set i (some b)) + rank c = totalRank rank l + rank b := by
  induction l generalizing i with
  | nil => simp at h
  | cons x rest ih =>
    cases i with
    | zero =>
      rw [List.getElem?_cons_zero, Option.some.injEq] at h
      subst h
      simp [totalRank]
      omega
    | succ i => cases x <;> simp [totalRank] <;> have := ih (i := i) (by simpa using h) <;> omega

/-- `p` has more stacks recorded than `q`, or as many and of lower rank. -/
def Below (rank : OperandStack α → Nat) (p q : Progress α) : Prop :=
  unrecorded p.states.toList < unrecorded q.states.toList ∨
    unrecorded p.states.toList = unrecorded q.states.toList ∧
      totalRank rank p.states.toList < totalRank rank q.states.toList

theorem Below.trans {rank : OperandStack α → Nat} {p q r : Progress α} (h : Below rank p q)
    (h' : Below rank q r) : Below rank p r := by
  unfold Below at *
  omega

variable [DecidableEq α]

/-- Taking in a stack changes nothing or lowers the measure. -/
theorem record_lowers {a : Analysis α ε} {p q : Progress α} {target : Nat}
    {incoming : OperandStack α} (h : p.record a target incoming = .ok q) :
    q = p ∨ Below a.rank q p := by
  unfold record at h
  split at h
  · exact .inl (Except.ok.inj h).symm
  · rename_i hnone
    rw [← Array.getElem?_toList] at hnone
    have := unrecorded_set_of_none incoming hnone
    refine .inr (.inl ?_)
    rw [← Except.ok.inj h]
    simp only [update, Array.toList_setIfInBounds]
    omega
  · rename_i recorded hsome
    rw [← Array.getElem?_toList] at hsome
    split at h
    · cases h
    · rename_i merged hmerge
      split at h
      · exact .inl (Except.ok.inj h).symm
      · rename_i hne
        have hlt := a.rank_merge hmerge hne
        have hcount := unrecorded_set_of_some merged hsome
        have hrank := totalRank_set_of_some a.rank merged hsome
        refine .inr (.inr ?_)
        rw [← Except.ok.inj h]
        simp only [update, Array.toList_setIfInBounds]
        omega

/-- Taking in the stacks that leave an instruction changes nothing or lowers the measure. -/
theorem propagate_lowers {a : Analysis α ε} {size : Nat} {labels : Array Nat} {index : Nat}
    {successors : List (Exit × OperandStack α)} {p q : Progress α}
    (h : propagate a size labels index successors p = .ok q) : q = p ∨ Below a.rank q p := by
  induction successors generalizing p with
  | nil => exact .inl (Except.ok.inj h).symm
  | cons s rest ih =>
    unfold propagate at h
    split at h
    · cases h
    · split at h
      · cases h
      · rename_i hrecord
        cases record_lowers hrecord with
        | inl heq => exact heq ▸ ih h
        | inr hbelow =>
          cases ih h with
          | inl heq => exact .inr (heq ▸ hbelow)
          | inr hbelow' => exact .inr (hbelow'.trans hbelow)

/-- A visit lowers the measure, or changes no stack and shortens the queue. -/
theorem visit_lowers {a : Analysis α ε} {body : Array Instr} {labels : Array Nat} {index : Nat}
    {rest : List Nat} {p q : Progress α} (h : visit a body labels index rest p = .ok q) :
    q.states = p.states ∧ q.queue = rest ∨ Below a.rank q p := by
  unfold visit at h
  split at h
  · split at h
    · cases h
    · cases propagate_lowers h with
      | inl heq => exact .inl (heq ▸ ⟨rfl, rfl⟩)
      | inr hbelow => exact .inr hbelow
  · rw [← Except.ok.inj h]
    exact .inl ⟨rfl, rfl⟩

/-- Visits instructions until the queue is empty. -/
def run (a : Analysis α ε) (body : Array Instr) (labels : Array Nat) (p : Progress α) :
    Except ε (Progress α) :=
  match _hq : p.queue with
  | [] => .ok p
  | index :: rest =>
    match _hv : visit a body labels index rest p with
    | .error e => .error e
    | .ok q => run a body labels q
termination_by
  (unrecorded p.states.toList, totalRank a.rank p.states.toList, p.queue.length)
decreasing_by
  cases visit_lowers _hv with
  | inl hsame =>
    rw [hsame.1, hsame.2, _hq]
    exact .right _ (.right _ (by simp))
  | inr hbelow =>
    cases hbelow with
    | inl hlt => exact .left _ _ hlt
    | inr hrank =>
      rw [hrank.1]
      exact .right _ (.left _ _ hrank.2)

end Progress

/-- What a run finds. -/
structure Solution (α : Type) where
  /-- The stack before each instruction; nothing where control does not come. -/
  states : Array (Option (OperandStack α))
  /-- The effect of each instruction on its stack. -/
  effects : Array (Option (Effect α))
  /-- The remarks, in the order of the visits. -/
  findings : Array Finding

/-- Adds a remark after the run. -/
def Solution.addFinding {α : Type} (s : Solution α) (f : Finding) : Solution α :=
  { s with findings := s.findings.push f }

/-- Runs an analysis over a body; `labels` gives the instruction each label stands at. -/
def Analysis.solve {α ε : Type} [DecidableEq α] (a : Analysis α ε) (body : Array Instr)
    (labels : Array Nat) : Except ε (Solution α) :=
  match (Progress.start body.size).run a body labels with
  | .error e => .error e
  | .ok p => .ok ⟨p.states, p.effects, p.findings⟩

end StackCode
