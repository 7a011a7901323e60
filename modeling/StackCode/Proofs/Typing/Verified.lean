import Mathlib
import StackCode.Proofs.Program.Binding
import StackCode.Proofs.Typing.Order
import StackCode.Typing.Verify

/-!
# What verification promises

A verified body has a stack recorded before each instruction control can reach, the typing rule of
such an instruction succeeds on it, and the stack it leaves lies below the one recorded wherever
control can go next.

## Main definitions

* `FunctionDecl.Edge`: the ways control can pass between the instructions of a body.
* `TypedFunction.Covers`: the promise of verification for one body.

## Main results

* `TypedFunction.Covers.isReachable_iff`: stacks are recorded where control can go.
* `Program.verifyFunction_covers`: verification keeps its promise.
* `Program.function?_of_verify`: in a verified program every function is verified.
-/

namespace StackCode

/-- Control can pass from the instruction at `i` to the one at `j`: to the next one, unless the
instruction is a terminator, and to where the label of a branch stands. -/
inductive FunctionDecl.Edge (f : FunctionDecl) : Nat → Nat → Prop
  | next {i : Nat} {instr : Instr} (hinstr : f.body[i]? = some instr)
      (hnext : instr.isTerminator = false) : Edge f i (i + 1)
  | target {i j : Nat} {instr : Instr} {l : Label} (hinstr : f.body[i]? = some instr)
      (hlabel : instr.target? = some l) (htarget : f.labelTarget? l = some j) : Edge f i j

theorem Instr.label_mem_exits_iff {instr : Instr} {l : Label} :
    Exit.label l ∈ instr.exits ↔ instr.target? = some l := by
  cases instr with
  | plain op => cases op <;> simp [Instr.exits, Instr.target?]
  | _ => simp [Instr.exits, Instr.target?, eq_comm]

/-- Every edge is a way out of its instruction. -/
theorem FunctionDecl.Edge.exit {f : FunctionDecl} {i j : Nat} (h : f.Edge i j) :
    ∃ instr exit, f.body[i]? = some instr ∧ exit ∈ instr.exits ∧
      ∀ target, exit.resolve? f.body.size f.labels i = some target → target = j := by
  cases h with
  | next hinstr hnext =>
    refine ⟨_, .next, hinstr, (Instr.next_mem_exits_iff _).mpr hnext, fun target h => ?_⟩
    simp only [Exit.resolve?] at h
    split at h
    · exact (Option.some.inj h).symm
    · cases h
  | @target _ _ l hinstr hlabel htarget =>
    refine ⟨_, .label l, hinstr, Instr.label_mem_exits_iff.mpr hlabel, fun target h => ?_⟩
    rw [FunctionDecl.labelTarget?] at htarget
    simp only [Exit.resolve?, htarget] at h
    split at h
    · exact (Option.some.inj h).symm
    · cases h

/-- Every way out of an instruction is an edge. -/
theorem FunctionDecl.Edge.of_exit {f : FunctionDecl} {i j : Nat} {instr : Instr} {exit : Exit}
    (hinstr : f.body[i]? = some instr) (hexit : exit ∈ instr.exits)
    (h : exit.resolve? f.body.size f.labels i = some j) : f.Edge i j := by
  cases exit with
  | next =>
    simp only [Exit.resolve?] at h
    split at h
    · cases h
      exact .next hinstr ((Instr.next_mem_exits_iff _).mp hexit)
    · cases h
  | label l =>
    simp only [Exit.resolve?] at h
    split at h
    · rename_i target htarget
      split at h
      · cases h
        exact .target hinstr (Instr.label_mem_exits_iff.mp hexit) htarget
      · cases h
    · cases h

namespace TypedFunction

variable {typed : TypedFunction} {c : TypingContext}

/-- The stacks recorded for a body cover what its instructions do: control starts on the empty
stack, and what an instruction leaves lies below what is recorded where control goes. -/
structure Covers (typed : TypedFunction) (c : TypingContext) : Prop where
  size_states : typed.states.size = c.decl.body.size
  size_instrs : typed.instrs.size = c.decl.body.size
  start : 0 < c.decl.body.size → typed.states[0]? = some (some .empty)
  reached : ∀ {i instr s}, c.decl.body[i]? = some instr → typed.states[i]? = some (some s) →
    ∃ effect out, c.step instr s = .ok (effect, out) ∧
      typed.instrs[i]? = some (some ⟨instr, effect.popped.reverse, effect.pushed⟩) ∧
      ∀ j, c.decl.Edge i j → ∃ s', typed.states[j]? = some (some s') ∧ c.types.StackBelow out s'
  unreached : ∀ i : Nat, typed.states[i]? = some none → typed.instrs[i]? = some none
  /-- Stacks are recorded only where control can go. -/
  path : ∀ {i s}, typed.states[i]? = some (some s) → Relation.ReflTransGen c.decl.Edge 0 i

theorem getElem?_instrs_ofSolution {func : FuncRef} {body : Array Instr} {report : Bool}
    {s : Solution TypeId} {i : Nat} {instr : Instr} {effect : Option (Effect TypeId)}
    (hinstr : body[i]? = some instr) (heffect : s.effects[i]? = some effect) :
    (ofSolution func body report s).instrs[i]? =
      some (effect.map fun e => ⟨instr, e.popped.reverse, e.pushed⟩) := by
  have hvisited : (body.toList.zip s.effects.toList)[i]? = some (instr, effect) :=
    List.getElem?_zip_eq_some.mpr ⟨by simpa using hinstr, by simpa using heffect⟩
  simp only [ofSolution, List.getElem?_toArray, List.getElem?_map, hvisited, Option.map_some]

/-- A solution of the typing analysis covers the body. -/
theorem covers_ofSolution {func : FuncRef} {report : Bool} {s : Solution TypeId}
    (h : (c.analysis func).solve c.decl.body c.decl.labels = .ok s) :
    (ofSolution func c.decl.body report s).Covers c := by
  have hfix := Analysis.solve_fixpoint (c.bounds func) h
  refine ⟨hfix.size_states, ?_, fun hpos => ?_, fun {i instr stack} hinstr hstack => ?_,
    fun i hnone => ?_, fun {i stack} hstack => ?_⟩
  · simp [ofSolution, hfix.size_effects]
  · obtain ⟨stack, hstack, hle⟩ := hfix.start hpos
    rw [← hle.eq_empty]
    exact hstack
  · obtain ⟨v, hv, heffect, harrives⟩ := hfix.settled i instr stack hinstr hstack
    obtain ⟨⟨effect, out⟩, hstep, hvisit⟩ := bind_eq_ok.mp (Checked.widen_eq_ok.mp hv)
    cases pure_eq_ok.mp hvisit
    refine ⟨effect, out, hstep, getElem?_instrs_ofSolution hinstr heffect, fun j hedge => ?_⟩
    obtain ⟨instr', exit, hinstr', hexit, htarget⟩ := hedge.exit
    cases Option.some.inj (hinstr.symm.trans hinstr')
    obtain ⟨target, s', hresolve, hs', hle⟩ :=
      harrives exit out (List.mem_map_of_mem (f := fun exit => (exit, out)) hexit)
    exact ⟨s', htarget target hresolve ▸ hs', hle⟩
  · have hsize := (Array.getElem?_eq_some_iff.mp hnone).1
    obtain ⟨instr, hinstr⟩ : ∃ instr, c.decl.body[i]? = some instr :=
      ⟨_, Array.getElem?_eq_getElem (hfix.size_states ▸ hsize)⟩
    exact getElem?_instrs_ofSolution hinstr (hfix.unrecorded i hnone)
  · refine Analysis.solve_recorded .refl ?_ h hstack
    intro index instr stack v exit out target hpath hinstr hv hmem hresolve
    obtain ⟨⟨effect, out'⟩, -, hvisit⟩ := bind_eq_ok.mp (Checked.widen_eq_ok.mp hv)
    cases pure_eq_ok.mp hvisit
    obtain ⟨exit', hexit, heq⟩ := List.mem_map.mp hmem
    cases heq
    exact hpath.tail (.of_exit hinstr hexit hresolve)

theorem isReachable_eq_true {i : Nat} :
    typed.isReachable i = true ↔ ∃ s, typed.states[i]? = some (some s) := by
  unfold isReachable
  split
  · rename_i s hs
    exact iff_of_true rfl ⟨s, hs⟩
  · rename_i hnone
    exact iff_of_false Bool.false_ne_true fun ⟨s, hs⟩ => hnone s hs

theorem Covers.lt_of_isReachable {i : Nat} (h : typed.Covers c) (hi : typed.isReachable i = true) :
    i < c.decl.body.size := by
  obtain ⟨s, hs⟩ := isReachable_eq_true.mp hi
  exact h.size_states ▸ (Array.getElem?_eq_some_iff.mp hs).1

/-- An instruction is recorded only where a stack is. -/
theorem Covers.exists_state {i : Nat} {instr : TypedInstr} (h : typed.Covers c)
    (hinstr : typed.instrs[i]? = some (some instr)) : ∃ s, typed.states[i]? = some (some s) := by
  have hlt : i < typed.states.size := by
    rw [h.size_states, ← h.size_instrs]
    exact (Array.getElem?_eq_some_iff.mp hinstr).1
  obtain ⟨s?, hs?⟩ : ∃ s?, typed.states[i]? = some s? := ⟨_, Array.getElem?_eq_getElem hlt⟩
  cases s? with
  | none => cases hinstr.symm.trans (h.unreached i hs?)
  | some s => exact ⟨s, hs?⟩

/-- Control reaches where it can go from an instruction it reaches. -/
theorem Covers.isReachable_of_edge {i j : Nat} (h : typed.Covers c)
    (hi : typed.isReachable i = true) (hedge : c.decl.Edge i j) : typed.isReachable j = true := by
  obtain ⟨s, hs⟩ := isReachable_eq_true.mp hi
  obtain ⟨instr, hinstr⟩ : ∃ instr, c.decl.body[i]? = some instr :=
    ⟨_, Array.getElem?_eq_getElem (h.lt_of_isReachable hi)⟩
  obtain ⟨_, _, -, -, hflow⟩ := h.reached hinstr hs
  obtain ⟨s', hs', -⟩ := hflow j hedge
  exact isReachable_eq_true.mpr ⟨s', hs'⟩

/-- Control reaches an instruction exactly if there is a path to it. -/
theorem Covers.isReachable_iff {i : Nat} (h : typed.Covers c) (hnonempty : 0 < c.decl.body.size) :
    typed.isReachable i = true ↔ Relation.ReflTransGen c.decl.Edge 0 i := by
  constructor
  · intro hi
    obtain ⟨s, hs⟩ := isReachable_eq_true.mp hi
    exact h.path hs
  · intro hpath
    induction hpath with
    | refl => exact isReachable_eq_true.mpr ⟨_, h.start hnonempty⟩
    | tail _ hedge ih => exact h.isReachable_of_edge ih hedge

end TypedFunction

namespace Program

variable {p : Program} {config : VerifyConfig} {func : FuncRef} {decl : FunctionDecl}
  {typed : TypedFunction}

/-- **A verified body is covered** by the stacks recorded for it. -/
theorem verifyFunction_covers (hf : p.function? func = some decl)
    (hcode : decl.implementation = .code) (h : p.verifyFunction config func = .ok typed) :
    typed.Covers ⟨p, decl⟩ := by
  simp only [verifyFunction, hf, hcode] at h
  split at h
  · cases h
  · obtain ⟨solution, hsolve, htyped⟩ := bind_eq_ok.mp h
    cases pure_eq_ok.mp htyped
    exact TypedFunction.covers_ofSolution hsolve

/-- The verified form of a function is the one found for it. -/
theorem function?_of_verify {typing : TypedProgram} (h : p.verify config = .ok typing)
    (hf : p.function? func = some decl) :
    ∃ typed, typing.function? func = some typed ∧ p.verifyFunction config func = .ok typed := by
  obtain ⟨m, hm, hfunc⟩ := function?_eq_some.mp hf
  obtain ⟨modules, hmodules, htyping⟩ := bind_eq_ok.mp h
  cases pure_eq_ok.mp htyping
  have hmodule : p.moduleList[func.module.index]? = some (func.module, m) := by
    rw [getElem?_moduleList, hm]
    rfl
  obtain ⟨verified, hverified, hrun⟩ := getElem?_of_mapM hmodules hmodule
  obtain ⟨functions, hfunctions, hverified'⟩ := bind_eq_ok.mp hrun
  cases pure_eq_ok.mp hverified'
  obtain ⟨typed, htyped, hverify⟩ :=
    getElem?_of_mapM hfunctions (getElem?_functionsOf_index hfunc)
  refine ⟨typed, ?_, hverify⟩
  simp [TypedProgram.function?, hverified, htyped]

end Program

end StackCode
