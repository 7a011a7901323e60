import StackCode.Proofs.Code.Compiled
import StackCode.Proofs.Code.Frames
import StackCode.Proofs.Code.Returns
import StackCode.Proofs.Typing.Calls
import StackCode.Proofs.Typing.Certificate

/-!
# The calling convention

A caller hands its arguments over on its operand stack and finds the result there.  The function it
calls has a frame with room for its parameters and returns with one operation.  The two sides are
compiled apart, the caller from the types on its stack and the callee from its declaration, and they
agree on the slots that change hands.

## Main definitions

* `Program.HasConvention`: the convention of a function, as its code has it.
* `Program.AgreesAt`: a typed instruction agrees with the functions it can call.

## Main results

* `Program.exists_convention`: the convention of a function in terms of its declaration.
* `Program.calls_agree`: caller and callee agree.
-/

namespace StackCode

namespace Program

variable {p : Program} {typing : TypedProgram} {func : FuncRef} {decl : FunctionDecl}
  {config : VerifyConfig} {codegen : CodegenConfig} {compiled : List CompiledModule}

/-- The convention of a function, as its code has it: its frame has `args` slots for arguments, and
it returns with `ret` only. -/
structure HasConvention (p : Program) (typing : TypedProgram) (func : FuncRef)
    (decl : FunctionDecl) (args : Nat) (ret : SelectedOp) : Prop where
  frame : ∃ frame, Frame.ofFunction p.types decl (typing.statesOf func) = .ok frame ∧
    frame.argSlots.toNat = args
  returnOp : (p.types.returnOp? decl.result : Checked EncodeError _) = .ok (some ret)
  code : ∃ code, p.functionCode typing func decl = .ok code ∧
    code.descriptor.argSlots.toNat = args ∧
    ∀ ops ∈ code.instrs, ∀ op ∈ ops, op.opcode.isReturn = true → op = ret

/-- The function takes arguments of `args` slots and returns `result` slots. -/
def Exchanges (p : Program) (typing : TypedProgram) (func : FuncRef) (decl : FunctionDecl)
    (args result : Nat) : Prop :=
  ∃ ret, p.HasConvention typing func decl args ret ∧ ret.returnWidth? = some result

/-- The function of `func` that the typed instruction at `i` belongs to hands over what each
function it can call takes, and takes what that one hands back. -/
def AgreesAt (p : Program) (typing : TypedProgram) (func : FuncRef) (decl : FunctionDecl) (i : Nat)
    (typed : TypedInstr) : Prop :=
  match typed.instr with
  | .function .call g => ∃ callee args result, p.function? g = some callee ∧
      p.Exchanges typing g callee args result ∧
      p.types.HasTotalSlots typed.operands args ∧ p.types.HasTotalSlots typed.results result
  | .function .newObject g => ∃ ctor args slots code, p.function? g = some ctor ∧
      p.HasConvention typing g ctor (args + 1) (.bare .ret) ∧
      p.types.HasTotalSlots typed.operands args ∧
      p.functionCode typing func decl = .ok code ∧
      code.instrs[i]? = some [⟨.newobj, .funcSlots g slots⟩] ∧
      p.types.HasTotalSlots typed.results slots.toNat
  | .typed .callIndirect _ => ∃ values function, typed.operands = values ++ [function] ∧
      ∀ g callee, p.function? g = some callee →
        (p.types.verificationType callee.signature : Checked Violation _) = .ok function →
        ∃ args result, p.Exchanges typing g callee args result ∧
          p.types.HasTotalSlots values args ∧ p.types.HasTotalSlots typed.results result
  | _ => True

/-! ## The code of a function -/

/-- In a program whose modules all have code, every function has. -/
theorem exists_functionCode (h : p.compileModules typing codegen = .ok compiled)
    (hf : p.function? func = some decl) : ∃ code, p.functionCode typing func decl = .ok code := by
  obtain ⟨m, hm, hdecl⟩ := function?_eq_some.mp hf
  have hmodule : p.moduleList[func.module.index]? = some (func.module, m) := by
    rw [getElem?_moduleList, hm]
    rfl
  obtain ⟨cm, -, hcompile⟩ := getElem?_of_mapM h hmodule
  simp only [compileModule, hm] at hcompile
  split at hcompile
  · cases hcompile
  · obtain ⟨codes, hcodes, -⟩ := bind_eq_ok.mp hcompile
    obtain ⟨code, -, hcode⟩ := getElem?_of_mapM hcodes (getElem?_functionsOf_index hdecl)
    exact ⟨code, hcode⟩

/-- The returns in the code of a function are its return. -/
theorem returns_of_isCodeOf {code : FunctionCode} {ret : SelectedOp}
    (h : p.IsCodeOf typing func decl code)
    (hret : (p.types.returnOp? decl.result : Checked EncodeError _) = .ok (some ret)) :
    ∀ ops ∈ code.instrs, ∀ op ∈ ops, op.opcode.isReturn = true → op = ret := by
  have hsame {op : SelectedOp} {ε : Type}
      (hop : (p.types.returnOp? decl.result : Checked ε _) = .ok (some op)) : op = ret := by
    have hop' : (p.types.returnOp? decl.result : Checked EncodeError _) = .ok (some op) :=
      TypeTable.returnOp?_eq_ok.mpr (TypeTable.returnOp?_eq_ok.mp hop)
    exact Option.some.inj (Except.ok.inj (hop'.symm.trans hret))
  intro ops hops op hop hreturn
  rcases stub_or_select_of_isCodeOf h hops hop with
    ⟨id, ret', rfl | ⟨rfl, hret'⟩⟩ | ⟨-, frame, index, instr, operands, results, -, hselect⟩
  · cases hreturn
  · exact hsame hret'
  · exact hsame (SelectionContext.returnOp?_of_select hselect hop hreturn)

section

variable (htypes : p.types.Coherent) (hverify : p.verify config = .ok typing)
  (hcompile : p.compileModules typing codegen = .ok compiled)

include htypes hverify hcompile

/-- **The convention of a function in terms of its declaration.** -/
theorem exists_convention (hf : p.function? func = some decl) {slots : Nat}
    (hslots : p.types.HasSlots decl.result slots) (hlt : slots < 256) :
    ∃ args ret, p.HasConvention typing func decl args ret ∧
      p.types.HasTotalSlots decl.paramTypes args ∧ ret.returnWidth? = some slots := by
  obtain ⟨code, hcode⟩ := exists_functionCode hcompile hf
  have hisCode := isCodeOf_of_functionCode hverify hf hcode
  obtain ⟨ret, hret⟩ := htypes.exists_returnOp (ε := EncodeError) hslots hlt
  obtain ⟨frame, hframe, hdescriptor, -⟩ := hisCode.frame
  refine ⟨frame.argSlots.toNat, ret, ⟨⟨frame, hframe, rfl⟩, hret, code, hcode, ?_, ?_⟩, ?_, ?_⟩
  · rw [hdescriptor]
    rfl
  · exact returns_of_isCodeOf hisCode hret
  · exact Frame.ofFunction_argSlots hframe
  · exact htypes.returnWidth?_eq hret hslots

/-- What an instruction leaves when control goes on fits a frame.  The results lie on the stack that
is recorded for the next instruction. -/
theorem results_lt {typed : TypedFunction} {i : Nat} {instr : Instr} {s out : OperandStack TypeId}
    {effect : Effect TypeId} (hf : p.function? func = some decl)
    (hcode : decl.implementation = .code) (htyped : typing.function? func = some typed)
    (hinstr : decl.body[i]? = some instr) (hnext : instr.isTerminator = false)
    (hflow : ∀ j, decl.Edge i j → ∃ s', typed.states[j]? = some (some s') ∧
      p.types.StackBelow out s')
    (hstep : (TypingContext.mk p decl).step instr s = .ok (effect, out)) {slots : Nat}
    (hslots : p.types.HasTotalSlots effect.pushed slots) : slots < 256 := by
  obtain ⟨code, hfunctionCode⟩ := exists_functionCode hcompile hf
  obtain ⟨frame, hframe, -, -⟩ := (isCodeOf_of_functionCode hverify hf hfunctionCode).frame
  simp only [Frame.ofFunction, hcode, TypedProgram.statesOf, htyped] at hframe
  obtain ⟨s', hs', hbelow⟩ := hflow _ (.next hinstr hnext)
  have hmem : some s' ∈ typed.states.toList :=
    List.mem_of_getElem? ((Array.getElem?_toList ..).trans hs')
  obtain ⟨depth, hlt, hdepth⟩ := Frame.ofTyping_depth hframe hmem
  obtain ⟨kept, -, hout⟩ := TypingContext.step_splits (c := ⟨p, decl⟩) htypes.primitives hstep
  have hdepth' := htypes.hasTotalSlots_below hbelow hdepth
  rw [hout] at hdepth'
  obtain ⟨_, rest, -, hrest, hsum⟩ := TypeTable.hasTotalSlots_append.mp hdepth'
  rw [hslots.unique hrest]
  omega

/-- Arguments that fit the parameters of a function fill its frame. -/
theorem exchanges_of_fit {values : List TypeId} {slots : Nat}
    (hf : p.function? func = some decl)
    (hfit : List.Forall₂ p.types.Assignable values decl.paramTypes)
    (hslots : p.types.HasSlots decl.result slots) (hlt : slots < 256) :
    ∃ args, p.Exchanges typing func decl args slots ∧ p.types.HasTotalSlots values args := by
  obtain ⟨args, ret, hconvention, hparams, hwidth⟩ :=
    exists_convention htypes hverify hcompile hf hslots hlt
  exact ⟨args, ⟨ret, hconvention, hwidth⟩,
    hparams.of_forall₂ (fun hassign => htypes.hasSlots_of_assignable hassign) hfit⟩

/-- What verification records for an instruction that control reaches is a step, and what the step
leaves fits a frame. -/
theorem exists_step {typed : TypedFunction} {i : Nat} (hf : p.function? func = some decl)
    (hcode : decl.implementation = .code) (htyped : typing.function? func = some typed)
    (hreachable : typed.isReachable i = true) :
    ∃ instr s effect out, decl.body[i]? = some instr ∧
      typed.instrs[i]? = some (some ⟨instr, effect.popped.reverse, effect.pushed⟩) ∧
      (TypingContext.mk p decl).step instr s = .ok (effect, out) ∧
      (instr.isTerminator = false →
        ∀ slots, p.types.HasTotalSlots effect.pushed slots → slots < 256) := by
  obtain ⟨typed', htyped', hverifyFunction⟩ := function?_of_verify hverify hf
  cases htyped.symm.trans htyped'
  have hcovers := verifyFunction_covers hf hcode hverifyFunction
  obtain ⟨s, hs⟩ := TypedFunction.isReachable_eq_true.mp hreachable
  obtain ⟨instr, hinstr⟩ : ∃ instr, decl.body[i]? = some instr :=
    ⟨_, Array.getElem?_eq_getElem (hcovers.lt_of_isReachable hreachable)⟩
  obtain ⟨effect, out, hstep, hrecorded, hflow⟩ := hcovers.reached hinstr hs
  exact ⟨instr, s, effect, out, hinstr, hrecorded, hstep, fun hnext slots =>
    results_lt htypes hverify hcompile hf hcode htyped hinstr hnext hflow hstep⟩

section

variable {i : Nat} {s out : OperandStack TypeId} {effect : Effect TypeId}
  (hsmall : ∀ slots, p.types.HasTotalSlots effect.pushed slots → slots < 256)

include hsmall

theorem agreesAt_call {g : FuncRef} {callee : FunctionDecl} (hbind : p.bind = .ok ())
    (hg : p.function? g = some callee)
    (hstep : (TypingContext.mk p decl).step (.function .call g) s = .ok (effect, out)) :
    p.AgreesAt typing func decl i ⟨.function .call g, effect.popped.reverse, effect.pushed⟩ := by
  obtain ⟨hfit, hleaves⟩ := TypingContext.step_call hg hstep
  have hresult := TypeTable.contains_iff.mp (boundSignature_of_bind hbind hg).result
  obtain ⟨slots, hslots⟩ := TypeTable.exists_hasSlots hresult
  have hresults := htypes.hasTotalSlots_leaves hleaves hslots
  obtain ⟨args, hexchanges, hargs⟩ :=
    exchanges_of_fit htypes hverify hcompile hg hfit hslots (hsmall slots hresults)
  exact ⟨callee, args, slots, hg, hexchanges, hargs, hresults⟩

/-- The frame of a constructor has one more slot than a construction hands over: a machine puts the
reference to the new object there. -/
theorem agreesAt_newObject {g : FuncRef} {ctor : FunctionDecl} (hg : p.function? g = some ctor)
    (hstep : (TypingContext.mk p decl).step (.function .newObject g) s = .ok (effect, out))
    {code : FunctionCode} (hcode : p.functionCode typing func decl = .ok code) {frame : Frame}
    {ops : List SelectedOp} (hops : code.instrs[i]? = some ops)
    (hselect : (SelectionContext.mk p decl frame).select
      ⟨.function .newObject g, effect.popped.reverse, effect.pushed⟩ = .ok ops) :
    p.AgreesAt typing func decl i
      ⟨.function .newObject g, effect.popped.reverse, effect.pushed⟩ := by
  obtain ⟨this, others, object, hparams, hvoid, hthis, hfit, hleaves⟩ :=
    TypingContext.step_newObject hg hstep
  have hzero : p.types.HasSlots ctor.result 0 := by
    rw [hvoid]
    exact ⟨_, htypes.hasLayout_primitive .void, rfl⟩
  obtain ⟨total, ret, hconvention, htotal, -⟩ :=
    exists_convention htypes hverify hcompile hg hzero (by decide)
  obtain rfl : ret = .bare .ret := by
    rcases TypeTable.returnOp?_eq_ok.mp hconvention.returnOp with ⟨-, hret⟩ | ⟨hne, -⟩
    · exact hret
    · exact absurd hvoid hne
  rw [FunctionDecl.paramTypes, hparams, List.map_cons, TypeTable.hasTotalSlots_cons] at htotal
  obtain ⟨one, args, hone, hothers, rfl⟩ := htotal
  cases hone.unique (htypes.hasSlots_reference ⟨object, hthis⟩)
  rw [Nat.add_comm] at hconvention
  obtain ⟨op, hop, hlist⟩ := bind_eq_ok.mp hselect
  cases pure_eq_ok.mp hlist
  simp only [SelectionContext.funcOp, SelectionContext.objectType?, hg, hparams] at hop
  obtain ⟨object?, hobject, hop⟩ := bind_eq_ok.mp hop
  obtain ⟨kind, hkind, rfl⟩ := TypeTable.referent?_eq_ok.mp hobject
  cases hkind.unique hthis
  obtain ⟨slots, hslots, hop⟩ := bind_eq_ok.mp hop
  have hslots := TypeTable.slots_eq_ok.mp hslots
  have hresults := htypes.hasTotalSlots_leaves hleaves hslots
  rw [byteOperand, if_pos (hsmall slots hresults)] at hop
  cases pure_eq_ok.mp hop
  refine ⟨ctor, args, UInt8.ofNat slots, code, hg, hconvention, ?_, hcode, hops, ?_⟩
  · exact hothers.of_forall₂ (fun hassign => htypes.hasSlots_of_assignable hassign) hfit
  · rwa [UInt8.toNat_ofNat', Nat.mod_eq_of_lt (hsmall slots hresults)]

/-- A function that an indirect call can meet has a type of the same class as the type of the call,
so that its parameters and its result are of the same classes. -/
theorem agreesAt_callIndirect {type : TypeId} (hbind : p.bind = .ok ())
    (hstep : (TypingContext.mk p decl).step (.typed .callIndirect type) s = .ok (effect, out)) :
    p.AgreesAt typing func decl i
      ⟨.typed .callIndirect type, effect.popped.reverse, effect.pushed⟩ := by
  obtain ⟨params, result, values, function, hkind, hoperands, hfunction, hfit, hleaves⟩ :=
    TypingContext.step_callIndirect hstep
  refine ⟨values, function, hoperands, fun g callee hg hclass => ?_⟩
  have hsignature := (boundSignature_of_bind hbind hg).signature
  obtain ⟨hparams, hresult⟩ := htypes.sameClass_of_function hkind hsignature
    ⟨function, htypes.hasClass_of_assignable hkind hfunction,
      TypeTable.verificationType_eq_ok.mp hclass⟩
  obtain ⟨hknown, -⟩ := TypeTable.madeBelow_function.mp (htypes.madeBelow hkind)
  obtain ⟨slots, hslots⟩ := TypeTable.exists_hasSlots hknown
  have hresults := htypes.hasTotalSlots_leaves hleaves hslots
  have hfit' : List.Forall₂ p.types.Assignable values callee.paramTypes :=
    forall₂_trans (fun _ _ _ hassign hsame => hassign.of_sameClass hsame) hfit hparams
  obtain ⟨args, hexchanges, hargs⟩ := exchanges_of_fit htypes hverify hcompile hg hfit'
    (htypes.hasSlots_of_sameClass hresult hslots) (hsmall slots hresults)
  exact ⟨args, slots, hexchanges, hargs, hresults⟩

end

end

/-- **Caller and callee agree.** -/
theorem calls_agree {typed : TypedFunction} {i : Nat} (htypes : p.types.Built)
    (hbind : p.bind = .ok ()) (hverify : p.verify config = .ok typing)
    (hcompile : p.compileModules typing codegen = .ok compiled)
    (hf : p.function? func = some decl) (hcode : decl.implementation = .code)
    (htyped : typing.function? func = some typed) (hreachable : typed.isReachable i = true) :
    ∃ instr, decl.body[i]? = some instr.instr ∧ typed.instrs[i]? = some (some instr) ∧
      p.AgreesAt typing func decl i instr := by
  have htypes := htypes.coherent
  obtain ⟨instr, s, effect, out, hinstr, hrecorded, hstep, hsmall⟩ :=
    exists_step htypes hverify hcompile hf hcode htyped hreachable
  refine ⟨_, hinstr, hrecorded, ?_⟩
  obtain ⟨m, hm, hdecl⟩ := function?_eq_some.mp hf
  have hbound := boundCode_of_bind hbind hm hdecl hcode
  cases instr with
  | function op g =>
    obtain ⟨callee, hg⟩ := hbound.exists_callee hinstr
    cases op with
    | call => exact agreesAt_call htypes hverify hcompile (hsmall rfl) hbind hg hstep
    | newObject =>
      obtain ⟨code, hfunctionCode⟩ := exists_functionCode hcompile hf
      obtain ⟨frame, -, -, hselects⟩ := (isCodeOf_of_functionCode hverify hf hfunctionCode).frame
      simp only [Selects, hcode] at hselects
      obtain ⟨typed', htyped', hbody⟩ := hselects
      cases htyped.symm.trans htyped'
      obtain ⟨operands, results, ops, hrecorded', hselect, hops⟩ := hbody.reached hinstr hreachable
      cases hrecorded.symm.trans hrecorded'
      exact agreesAt_newObject htypes hverify hcompile (hsmall rfl) hg hstep hfunctionCode hops
        hselect
    | loadFunction => trivial
  | typed op type =>
    cases op with
    | callIndirect =>
      exact agreesAt_callIndirect htypes hverify hcompile (hsmall rfl) hbind hstep
    | _ => trivial
  | _ => trivial

/-- A constructor. -/
def pointInit : FunctionDecl where
  name := "init"
  params := [⟨"this", ⟨25⟩⟩, ⟨"scale", .int16⟩]
  locals := []
  result := .void
  signature := ⟨26⟩
  labels := #[]
  body := #[.plain .ret]
  implementation := .code
  zeroInit := false

/-- A function from a reference and a truth value. -/
def pointWeight : FunctionDecl where
  name := "weight"
  params := [⟨"point", ⟨25⟩⟩, ⟨"signed", .bool⟩]
  locals := []
  result := .int64
  signature := ⟨28⟩
  labels := #[]
  body := #[.constant (.int64 1), .plain .ret]
  implementation := .code
  zeroInit := false

/-- A body that calls a function on null, makes an object, and calls the function once more through
a type of unsigned integers. -/
def pointMain : FunctionDecl where
  name := "main"
  params := []
  locals := []
  result := .void
  signature := ⟨34⟩
  labels := #[]
  body := #[.plain .null, .constant (.int32 1), .function .call ⟨⟨0⟩, 1⟩, .plain .pop,
    .constant (.int32 3), .function .newObject ⟨⟨0⟩, 0⟩, .plain .pop, .plain .null,
    .constant (.int32 1), .function .loadFunction ⟨⟨0⟩, 1⟩, .typed .callIndirect ⟨32⟩, .plain .pop,
    .plain .ret]
  implementation := .code
  zeroInit := false

/-- A structure of 16 bytes, the types of its functions, and a type of the same class as one of
them. -/
def pointTypes : TypeTable :=
  let structs := (TypeTable.initial.declareStruct "Point"
    [("x", .uint8), ("y", .int32), ("z", .int64)]).1
  let signatures := ((structs.function [⟨25⟩, .int16] .void).1.function [⟨25⟩, .bool] .int64).1
  ((signatures.function [⟨25⟩, .uint8] .uint64).1.function [] .void).1

def points : Program where
  types := pointTypes
  modules := #[⟨"points", [], #[pointInit, pointWeight, pointMain], some 2⟩]

theorem points_built : points.types.Built := by
  simp only [points, pointTypes]
  apply_rules [TypeTable.Built.function, TypeTable.Built.declareStruct, TypeTable.Built.initial]

theorem points_bind : points.bind = .ok () := by
  decide +kernel

theorem points_compile : ∃ typing compiled typed, points.verify {} = .ok typing ∧
    points.compileModules typing {} = .ok compiled ∧ typing.function? ⟨⟨0⟩, 2⟩ = some typed ∧
    ∀ i ∈ [2, 5, 10], typed.isReachable i = true := by
  have hrun : ((points.verify {}).toOption.any fun typing =>
      (points.compileModules typing {}).toOption.any fun _ =>
        (typing.function? ⟨⟨0⟩, 2⟩).any fun typed => [2, 5, 10].all typed.isReachable) = true := by
    cbv
  obtain ⟨typing, hverify, hrun⟩ := (Option.any_eq_true _ _).mp hrun
  obtain ⟨compiled, hcompile, hrun⟩ := (Option.any_eq_true _ _).mp hrun
  obtain ⟨typed, htyped, hreachable⟩ := (Option.any_eq_true _ _).mp hrun
  exact ⟨typing, compiled, typed, toOption_eq_some.mp hverify, toOption_eq_some.mp hcompile, htyped,
    List.all_eq_true.mp hreachable⟩

/-- The three calls in the body agree with the functions they call. -/
theorem points_agree : ∃ typing compiled typed, points.types.Built ∧ points.bind = .ok () ∧
    points.verify {} = .ok typing ∧ points.compileModules typing {} = .ok compiled ∧
    typing.function? ⟨⟨0⟩, 2⟩ = some typed ∧
    ∀ i ∈ [2, 5, 10], typed.isReachable i = true ∧
      ∃ instr, pointMain.body[i]? = some instr.instr ∧ typed.instrs[i]? = some (some instr) ∧
        points.AgreesAt typing ⟨⟨0⟩, 2⟩ pointMain i instr := by
  obtain ⟨typing, compiled, typed, hverify, hcompile, htyped, hreachable⟩ := points_compile
  have hbind := points_bind
  have hmain : points.function? ⟨⟨0⟩, 2⟩ = some pointMain := rfl
  refine ⟨typing, compiled, typed, points_built, hbind, hverify, hcompile, htyped, fun i hi => ?_⟩
  exact ⟨hreachable i hi, calls_agree points_built hbind hverify hcompile hmain rfl htyped
    (hreachable i hi)⟩

end Program

end StackCode
