import StackCode.Proofs.Dataflow.Schedules
import StackCode.Proofs.Typing.Paths

/-!
# The least certificate

A certificate assigns a stack to some instructions of a body so that every assigned instruction
passes its typing rule, and the stack it leaves fits the one assigned wherever control can go.  The
stacks that verification records are a certificate, and they lie below every other one: a position
holds null unless some path brings a reference to it.

## Main definitions

* `TypingContext.Passes`, `TypingContext.Certificate`: stacks that type a body.
* `TypingContext.TypesAs`: the types an instruction takes off a stack and leaves on it.
* `TypedFunction.remarks`: the remarks on instructions control does not reach.
* `TypedFunction.LeastTyping`: the least certificate and what goes with it.

## Main results

* `TypingContext.Certificate.upperSolution`: no run of the typing analysis gets past a certificate.
* `Program.least_certificate`: verification finds the least certificate.
-/

namespace StackCode

open Progress

/-- Wherever the first assignment has a stack, the second has one above it. -/
def TypeTable.StatesBelow (t : TypeTable) (states states' : Array (Option (OperandStack TypeId))) :
    Prop :=
  ∀ (i : Nat) s, states[i]? = some (some s) → LiesUnder t.StackBelow states' i s

namespace TypingContext

variable {c : TypingContext} {func : FuncRef} {instr : Instr} {s out : OperandStack TypeId}

theorem visit_eq_ok {v : Visit TypeId} :
    c.visit instr s = .ok v ↔ ∃ effect out, c.step instr s = .ok (effect, out) ∧
      v = ⟨effect, instr.exits.map fun exit => (exit, out), []⟩ := by
  unfold visit
  rw [bind_eq_ok]
  constructor
  · rintro ⟨⟨effect, out⟩, hstep, hv⟩
    exact ⟨effect, out, hstep, (pure_eq_ok.mp hv).symm⟩
  · rintro ⟨effect, out, hstep, rfl⟩
    exact ⟨(effect, out), hstep, rfl⟩

/-- A step takes values off the top, leaves what lies below them and puts values on top of that. -/
theorem step_splits (hprim : c.types.HasPrimitives) {effect : Effect TypeId}
    (h : c.step instr s = .ok (effect, out)) :
    ∃ kept, s.bottomUp = kept ++ effect.popped.reverse ∧ out.bottomUp = kept ++ effect.pushed := by
  obtain ⟨⟨results, rest⟩, hresults, hleft⟩ := bind_eq_ok.mp h
  cases pure_eq_ok.mp hleft
  obtain ⟨n, hfollows⟩ := results_carriesOver hprim instr
  refine ⟨rest.bottomUp, ?_, OperandStack.bottomUp_pushAll rest results⟩
  rcases hfollows (.refl s) hresults with ⟨rfl, -⟩ | ⟨e, herror, -⟩
  · have htaken : s.size - (s.dropTop n).size = min n s.topDown.length := by
      simp only [OperandStack.size, OperandStack.dropTop, List.length_drop]
      omega
    have habove : s.above (s.dropTop n) = s.topDown.take n := by
      rw [OperandStack.above, htaken, ← List.take_eq_take_min]
    dsimp only
    rw [habove, OperandStack.bottomUp, OperandStack.bottomUp, OperandStack.dropTop,
      ← List.reverse_append, List.take_append_drop]
  · cases hresults.symm.trans herror

/-- An instruction passes its rule on a stack, and each way out leads to an instruction with a stack
above the one control leaves with. -/
def Passes (c : TypingContext) (assigned : Array (Option (OperandStack TypeId))) (i : Nat)
    (instr : Instr) (s : OperandStack TypeId) : Prop :=
  ∃ v, c.visit instr s = .ok v ∧ ∀ exit out, (exit, out) ∈ v.successors →
    Arrives c.types.StackBelow c.decl.body c.decl.labels assigned i exit out

/-- Stacks that type a body: control starts with the empty stack, and every instruction with a stack
passes on it. -/
structure Certificate (c : TypingContext) (assigned : Array (Option (OperandStack TypeId))) :
    Prop where
  size_eq : assigned.size = c.decl.body.size
  start : assigned[0]? = some (some .empty)
  passes : ∀ {i instr s}, c.decl.body[i]? = some instr → assigned[i]? = some (some s) →
    c.Passes assigned i instr s

/-- The types of an instruction on a stack: the operands are what its rule takes off the top, the
results what it puts on the rest. -/
def TypesAs (c : TypingContext) (s : OperandStack TypeId) (typed : TypedInstr) : Prop :=
  ∃ v kept, c.visit typed.instr s = .ok v ∧ typed.operands = v.effect.popped.reverse ∧
    typed.results = v.effect.pushed ∧ s.bottomUp = kept ++ typed.operands ∧
    ∀ exit out, (exit, out) ∈ v.successors → out.bottomUp = kept ++ typed.results

/-- **No run gets past a certificate.** -/
theorem Certificate.upperSolution {assigned : Array (Option (OperandStack TypeId))}
    (func : FuncRef) (hprim : c.types.HasPrimitives) (h : c.Certificate assigned) :
    (c.analysis func).UpperSolution c.types.StackBelow c.decl.body c.decl.labels assigned where
  start _ := ⟨.empty, h.start, .refl _⟩
  merge _ hrecorded hincoming := by
    obtain ⟨merged, hmerged, hbelow⟩ := TypeTable.mergeStacks_of_bounded hrecorded hincoming
    exact ⟨merged, Checked.widen_eq_ok.mpr hmerged, hbelow⟩
  leaves hinstr hs hbelow hv exit out hmem := by
    obtain ⟨v', hv', harrives⟩ := h.passes hinstr hs
    obtain ⟨effect, out₁, hstep, rfl⟩ := visit_eq_ok.mp (Checked.widen_eq_ok.mp hv)
    obtain ⟨effect', out₁', hstep', rfl⟩ := visit_eq_ok.mp hv'
    obtain ⟨exit, hexit, heq⟩ := List.mem_map.mp hmem
    cases heq
    rcases c.step_below hprim hbelow hstep' with ⟨_, _, hsame, hout⟩ | ⟨e, herror, -⟩
    · cases hstep.symm.trans hsame
      obtain ⟨target, stack, hresolve, hstack, hle⟩ :=
        harrives exit out₁' (List.mem_map_of_mem (f := fun exit => (exit, out₁')) hexit)
      exact ⟨target, stack, hresolve, hstack, hout.trans hle⟩
    · cases hstep.symm.trans herror

/-- A fixpoint of the typing analysis is a certificate. -/
theorem certificate_of_fixpoint {solution : Solution TypeId} (hpos : 0 < c.decl.body.size)
    (h : solution.Fixpoint (c.analysis func) c.types.StackBelow c.decl.body c.decl.labels) :
    c.Certificate solution.states where
  size_eq := h.size_states
  start := by
    obtain ⟨stack, hstack, hle⟩ := h.start hpos
    rw [← hle.eq_empty]
    exact hstack
  passes hinstr hs := by
    obtain ⟨v, hv, -, harrives⟩ := h.settled _ _ _ hinstr hs
    exact ⟨v, Checked.widen_eq_ok.mp hv, harrives⟩

/-- The stacks the solver finds lie below every certificate. -/
theorem solve_below {solution : Solution TypeId} {assigned : Array (Option (OperandStack TypeId))}
    (hprim : c.types.HasPrimitives) (hassigned : c.Certificate assigned)
    (h : (c.analysis func).solve c.decl.body c.decl.labels = .ok solution) :
    c.types.StatesBelow solution.states assigned := by
  have hupper := hassigned.upperSolution func hprim
  unfold Analysis.solve at h
  split at h
  · cases h
  · rename_i p hrun
    cases h
    have hruns :=
      hrun ▸ run_runs (c.analysis func) c.decl.body c.decl.labels (start c.decl.body.size)
    rcases hruns.under (P := fun _ => True) hupper (fun _ _ => trivial) (under_start hupper) trivial
      with ⟨q, hq, hunder, -⟩ | ⟨_, _, _, _, _, _, _, herror⟩
    · cases hq
      exact hunder
    · cases herror

end TypingContext

namespace TypedFunction

variable {typed : TypedFunction} {c : TypingContext}

/-- The remarks on the instructions that control does not reach, first to last. -/
def remarks (typed : TypedFunction) (body : Array Instr) : List Finding :=
  (body.toList.zipIdx.filter fun (_, i) => !typed.isReachable i).map fun (instr, i) =>
    unreachableFinding typed.func i instr

/-- The least typing of a body: the recorded stacks are a certificate that lies below every other
one. -/
structure LeastTyping (typed : TypedFunction) (c : TypingContext) (report : Bool) : Prop where
  certificate : c.Certificate typed.states
  /-- There is a stack exactly where control can go. -/
  reached : ∀ i : Nat, (∃ s, typed.states[i]? = some (some s)) ↔
    Relation.ReflTransGen c.decl.Edge 0 i
  /-- The same instructions have a typed form. -/
  instrs : ∀ i : Nat, (∃ t, typed.instrs[i]? = some (some t)) ↔
    ∃ s, typed.states[i]? = some (some s)
  /-- The types of an instruction are those its rule takes and leaves on the recorded stack. -/
  typesAs : ∀ (i : Nat) instr s, c.decl.body[i]? = some instr →
    typed.states[i]? = some (some s) →
      ∃ t, typed.instrs[i]? = some (some t) ∧ t.instr = instr ∧ c.TypesAs s t
  findings : typed.findings = if report then (typed.remarks c.decl.body).toArray else #[]
  least : ∀ assigned, c.Certificate assigned → c.types.StatesBelow typed.states assigned

theorem Covers.typesAs (hprim : c.types.HasPrimitives) (h : typed.Covers c) {i : Nat}
    {instr : Instr} {s : OperandStack TypeId} (hinstr : c.decl.body[i]? = some instr)
    (hs : typed.states[i]? = some (some s)) :
    ∃ t, typed.instrs[i]? = some (some t) ∧ t.instr = instr ∧ c.TypesAs s t := by
  obtain ⟨effect, out, hstep, htyped, -⟩ := h.reached hinstr hs
  obtain ⟨kept, htaken, hleft⟩ := TypingContext.step_splits hprim hstep
  refine ⟨_, htyped, rfl, _, kept, TypingContext.visit_eq_ok.mpr ⟨effect, out, hstep, rfl⟩, rfl,
    rfl, htaken, ?_⟩
  intro exit out' hmem
  obtain ⟨_, -, heq⟩ := List.mem_map.mp hmem
  cases heq
  exact hleft

theorem Covers.instrs_iff (h : typed.Covers c) (i : Nat) :
    (∃ t, typed.instrs[i]? = some (some t)) ↔ ∃ s, typed.states[i]? = some (some s) := by
  constructor
  · rintro ⟨t, ht⟩
    have hi := (Array.getElem?_eq_some_iff.mp ht).1
    rw [h.size_instrs, ← h.size_states] at hi
    rcases hs : typed.states[i] with _ | s
    · have hnone := h.unreached i (hs ▸ Array.getElem?_eq_getElem hi)
      cases ht.symm.trans hnone
    · exact ⟨s, hs ▸ Array.getElem?_eq_getElem hi⟩
  · rintro ⟨s, hs⟩
    have hi := (Array.getElem?_eq_some_iff.mp hs).1
    rw [h.size_states] at hi
    obtain ⟨_, _, -, ht, -⟩ := h.reached (Array.getElem?_eq_getElem hi) hs
    exact ⟨_, ht⟩

/-- Listing what has no effect is listing what is not reached. -/
theorem filterMap_unreached (func : FuncRef) {reached : Nat → Bool} {body : List Instr}
    {effects : List (Option (Effect TypeId))} {start : Nat} (hlength : body.length = effects.length)
    (h : ∀ (i : Nat) effect, effects[i]? = some effect → effect.isSome = reached (start + i)) :
    ((body.zip effects).zipIdx start).filterMap (fun ((instr, effect), index) =>
        match effect with
        | none => some (unreachableFinding func index instr)
        | some _ => none) =
      ((body.zipIdx start).filter fun (_, i) => !reached i).map fun (instr, i) =>
        unreachableFinding func i instr := by
  induction body generalizing effects start with
  | nil => rfl
  | cons instr body ih =>
    cases effects with
    | nil => cases hlength
    | cons effect effects =>
      have hhead : effect.isSome = reached start := h 0 effect rfl
      have hrest : ∀ (i : Nat) effect, effects[i]? = some effect →
          effect.isSome = reached (start + 1 + i) := by
        intro i effect hi
        rw [Nat.add_assoc, Nat.add_comm 1 i]
        exact h (i + 1) effect hi
      rw [List.zip_cons_cons, List.zipIdx_cons, List.zipIdx_cons, List.filterMap_cons,
        List.filter_cons, ih (Nat.succ.inj hlength) hrest]
      cases effect with
      | none =>
        rw [Option.isSome_none] at hhead
        simp [← hhead]
      | some e =>
        rw [Option.isSome_some] at hhead
        simp [← hhead]

/-- The remarks of a verified body are those on instructions that control does not reach. -/
theorem findings_ofSolution {func : FuncRef} {report : Bool} {solution : Solution TypeId}
    (h : (c.analysis func).solve c.decl.body c.decl.labels = .ok solution) :
    (ofSolution func c.decl.body report solution).findings =
      if report then ((ofSolution func c.decl.body report solution).remarks c.decl.body).toArray
      else #[] := by
  have hfix := Analysis.solve_fixpoint (c.bounds func) h
  have hsilent : solution.findings = #[] := by
    refine Analysis.solve_findings (fun hv => ?_) h
    obtain ⟨_, _, -, rfl⟩ := TypingContext.visit_eq_ok.mp (Checked.widen_eq_ok.mp hv)
    rfl
  cases report with
  | false => exact hsilent
  | true =>
    have hreached : ∀ (i : Nat) effect, solution.effects.toList[i]? = some effect →
        effect.isSome = (ofSolution func c.decl.body true solution).isReachable (0 + i) := by
      intro i effect heffect
      rw [Array.getElem?_toList] at heffect
      have hi := (Array.getElem?_eq_some_iff.mp heffect).1
      rw [hfix.size_effects] at hi
      have hi' : i < solution.states.size := hfix.size_states ▸ hi
      have hstate := Array.getElem?_eq_getElem hi'
      have hinstr := Array.getElem?_eq_getElem hi
      rw [Nat.zero_add]
      cases hs : solution.states[i] with
      | none =>
        rw [hs] at hstate
        cases heffect.symm.trans (hfix.unrecorded i hstate)
        simp [isReachable, ofSolution, hstate]
      | some s =>
        rw [hs] at hstate
        obtain ⟨v, -, hv, -⟩ := hfix.settled i _ s hinstr hstate
        cases heffect.symm.trans hv
        simp [isReachable, ofSolution, hstate]
    have hlength : c.decl.body.toList.length = solution.effects.toList.length := by
      simp [hfix.size_effects]
    refine Eq.trans ?_ (congrArg List.toArray (filterMap_unreached func hlength hreached))
    show solution.findings ++ List.filterMap _ _ = _
    rw [hsilent]
    exact Array.toList_inj.mp Array.toList_appendList

end TypedFunction

namespace Program

variable {p : Program} {config : VerifyConfig} {func : FuncRef} {decl : FunctionDecl}
  {typed : TypedFunction}

/-- A verified body comes from a solution of its typing. -/
theorem verifyFunction_eq_ok (hf : p.function? func = some decl)
    (hcode : decl.implementation = .code) :
    p.verifyFunction config func = .ok typed ↔ decl.body.size ≤ config.maxInstructions ∧
      ∃ solution, ((TypingContext.mk p decl).analysis func).solve decl.body decl.labels =
          .ok solution ∧
        typed = .ofSolution func decl.body config.reportUnreachable solution := by
  simp only [verifyFunction, hf, hcode]
  split
  · rename_i hlong
    refine iff_of_false (fun h => ?_) fun h => by omega
    cases h
  · rename_i hshort
    rw [bind_eq_ok]
    constructor
    · rintro ⟨solution, hsolve, htyped⟩
      exact ⟨by omega, solution, hsolve, (pure_eq_ok.mp htyped).symm⟩
    · rintro ⟨-, solution, hsolve, rfl⟩
      exact ⟨solution, hsolve, rfl⟩

/-- The stacks recorded by verification are a certificate. -/
theorem certificate_of_verify (hf : p.function? func = some decl)
    (hcode : decl.implementation = .code) (hpos : 0 < decl.body.size)
    (h : p.verifyFunction config func = .ok typed) :
    (TypingContext.mk p decl).Certificate typed.states := by
  obtain ⟨-, solution, hsolve, rfl⟩ := (verifyFunction_eq_ok hf hcode).mp h
  exact TypingContext.certificate_of_fixpoint hpos
    (Analysis.solve_fixpoint ((TypingContext.mk p decl).bounds func) hsolve)

/-- **Verification finds the least certificate**, with the types of the instructions and the
remarks that belong to it. -/
theorem least_certificate (htypes : p.types.Built) (hbind : p.bind = .ok ())
    (hf : p.function? func = some decl) (hcode : decl.implementation = .code)
    (hverify : p.verifyFunction config func = .ok typed) :
    typed.LeastTyping ⟨p, decl⟩ config.reportUnreachable := by
  have hprim : (TypingContext.mk p decl).types.HasPrimitives := htypes.hasPrimitives
  have hcovers := verifyFunction_covers hf hcode hverify
  obtain ⟨m, hm, hfunc⟩ := function?_eq_some.mp hf
  have hpos := (boundCode_of_bind hbind hm hfunc hcode).nonempty
  have hcertificate := certificate_of_verify hf hcode hpos hverify
  obtain ⟨-, solution, hsolve, rfl⟩ := (verifyFunction_eq_ok hf hcode).mp hverify
  refine ⟨hcertificate, ?_, hcovers.instrs_iff, ?_, ?_, ?_⟩
  · intro i
    rw [← TypedFunction.isReachable_eq_true, hcovers.isReachable_iff hpos]
  · intro i instr s hinstr hs
    exact hcovers.typesAs hprim hinstr hs
  · exact TypedFunction.findings_ofSolution hsolve
  · intro assigned hassigned
    exact TypingContext.solve_below hprim hassigned hsolve

/-- Where null meets a reference, the least certificate has the reference. -/
theorem least_certificate_nullJoin :
    ∃ typed, nullJoin.verifyFunction {} ⟨⟨0⟩, 0⟩ = .ok typed ∧
      typed.LeastTyping ⟨nullJoin, nullJoinBody⟩ true := by
  have hverified : (nullJoin.verifyFunction {} ⟨⟨0⟩, 0⟩).toOption.isSome = true := by cbv
  cases hverify : nullJoin.verifyFunction {} ⟨⟨0⟩, 0⟩ with
  | error e => rw [hverify] at hverified; cases hverified
  | ok typed =>
    exact ⟨typed, rfl,
      least_certificate (.function .initial [] .void) (by cbv) rfl rfl hverify⟩

end Program

end StackCode
