import StackCode.Proofs.Code.Frames
import StackCode.Proofs.Code.SlotEffects
import StackCode.Proofs.Program.Binding

/-!
# The depth of the operand stack

The descriptor of a function states the peak of its operand stack.  It is taken from the stacks that
verification recorded between the instructions, while a machine runs the operations selected for
them.  Most instructions become one operation, so that the machine sees no other stacks.  The chains
of operations selected for a conversion or for a branch on floating point numbers pass through
stacks that were not recorded.  With one exception these are no deeper than those before and after
the chain: a single precision number becomes an unsigned 32-bit integer by way of a 64-bit one.

## Main definitions

* `Program.depths?`: the depths that operations run through.
* `Program.Balances`: operations that take and leave slots, up to a peak.
* `Conversion.run?`: the types that a chain of conversions passes through.
* `Program.Carries`: operations that balance the types of an instruction.

## Main results

* `SelectionContext.select_carries`: the operations selected for an instruction take its operands
  and leave its results.
* `Program.depths_within_peak`: a verified body runs within the peak, with one exception.
* `Program.truncation_exceeds_peak`: the exception.
-/

namespace StackCode

namespace Program

variable {p : Program} {instr : Instr} {op : SelectedOp} {ops : List SelectedOp}
  {takes mid leaves peak : Nat}

/-- The depth of the operand stack after each of some operations, from a depth on; nothing if an
operation takes more slots than there are. -/
def depths? (p : Program) (instr : Instr) : List SelectedOp → (depth : Nat) → Option (List Nat)
  | [], _ => some []
  | op :: ops, depth => do
    let (takes, leaves) ← p.slotEffect? instr op
    if depth < takes then none
    else return (depth - takes + leaves) :: (← p.depths? instr ops (depth - takes + leaves))

/-- On any stack, the operations take slots off the top and leave others there, and the stack gets
`peak` slots deeper at most than what lies below these. -/
def Balances (p : Program) (instr : Instr) (ops : List SelectedOp) (takes leaves peak : Nat) :
    Prop :=
  ∀ kept, ∃ depths, p.depths? instr ops (kept + takes) = some depths ∧
    depths.getLastD (kept + takes) = kept + leaves ∧ ∀ depth ∈ depths, depth ≤ kept + peak

theorem Balances.nil (n peak : Nat) : p.Balances instr [] n n peak :=
  fun _ => ⟨[], rfl, rfl, List.forall_mem_nil _⟩

/-- **Operations in a row** pass on what they leave. -/
theorem Balances.cons (hop : p.slotEffect? instr op = some (takes, mid))
    (hops : p.Balances instr ops mid leaves peak) (hmid : mid ≤ peak) :
    p.Balances instr (op :: ops) takes leaves peak := by
  intro kept
  obtain ⟨depths, hdepths, hlast, hpeak⟩ := hops kept
  refine ⟨(kept + mid) :: depths, ?_, ?_, List.forall_mem_cons.mpr ⟨by omega, hpeak⟩⟩
  · have hlt : ¬ kept + takes < takes := by omega
    simp [depths?, hop, hlt, hdepths]
  · rwa [List.getLastD_cons]

theorem Balances.single (hop : p.slotEffect? instr op = some (takes, leaves)) :
    p.Balances instr [op] takes leaves leaves :=
  .cons hop (.nil leaves leaves) (Nat.le_refl _)

end Program

/-! ### Chains of conversions -/

namespace Conversion

/-- The class that a chain of conversions leads to, and the most slots that a number on the way
takes; nothing if a conversion does not take what the one before it leaves. -/
def run? : Numeric → List Conversion → Option (Numeric × Nat)
  | n, [] => some (n, 0)
  | n, c :: cs =>
    if c.source = n then (run? c.result cs).map fun (m, peak) => (m, max c.result.slots peak)
    else none

/-- A chain of conversions runs from the slots of its source to those of its target. -/
theorem balances_of_run {p : Program} {instr : Instr} {n m : Numeric} {cs : List Conversion}
    {peak bound : Nat} (h : run? n cs = some (m, peak)) (hbound : peak ≤ bound) :
    p.Balances instr (cs.map fun c => .bare (.conv c)) n.slots m.slots bound := by
  induction cs generalizing n peak with
  | nil =>
    cases h
    exact .nil _ _
  | cons c cs ih =>
    unfold run? at h
    split at h
    · rename_i hsource
      obtain ⟨⟨m', peak'⟩, hrun, hcons⟩ := Option.map_eq_some_iff.mp h
      cases hcons
      subst hsource
      have heffect : p.slotEffect? instr (.bare (.conv c)) =
          some (c.source.slots, c.result.slots) := rfl
      exact .cons heffect (ih hrun (by omega)) (by omega)
    · cases h

/-- The type of a conversion is a primitive. -/
theorem exists_primitive {type : TypeId} (h : type.isConversionTarget = true) :
    ∃ q ∈ Primitive.all, q.id = type := by
  obtain ⟨i⟩ := type
  have hle : i < 13 := Nat.lt_of_le_of_lt (of_decide_eq_true h).2 (by decide)
  have hids : ∀ i < 13, (Primitive.all.map Primitive.id)[i]? = some ⟨i⟩ := by decide
  exact List.mem_map.mp (List.mem_of_getElem? (hids i hle))

/-- Whether a chain of conversions fits the types it is selected for: it leads from the class of the
source to the slots of the target, and passes through no wider numbers, except on the way from
single precision to unsigned 32-bit integers. -/
def fits (source : TypeId) (target : Primitive) (cs : List Conversion) : Bool :=
  source.numeric?.any fun n => (run? n cs).any fun (m, peak) =>
    m.slots = target.layout.slots ∧
      (peak ≤ max n.slots m.slots ∨ source = .float32 ∧ target = .uint32 ∧ peak = 2)

/-- Every chain of the table fits: there are four sources, and each chain is run. -/
theorem fits_of_conversions? {source : TypeId} {target : Primitive} {cs : List Conversion}
    (hsource : source.isNumeric = true) (htarget : target ∈ Primitive.all)
    (h : conversions? source target.id = some cs) : fits source target cs = true := by
  have hall : ∀ source ∈ [TypeId.int32, .int64, .float32, .float64], ∀ target ∈ Primitive.all,
      (conversions? source target.id).all (fits source target) = true := by
    decide
  have hmem : source ∈ [TypeId.int32, .int64, .float32, .float64] := by
    simpa using of_decide_eq_true hsource
  have hfits := hall source hmem target htarget
  rwa [h] at hfits

end Conversion

/-! ### Selected operations -/

/-- The instruction that becomes a chain of operations with a wider number in the middle. -/
def TypedInstr.IsTruncation (typed : TypedInstr) : Prop :=
  typed.instr = .typed .convert .uint32 ∧ typed.operands = [.float32]

/-- The operations take the slots of the operands of an instruction and leave those of its results.
They need no other slots, unless the instruction is a truncation, which needs one more. -/
def Program.Carries (p : Program) (typed : TypedInstr) (ops : List SelectedOp) : Prop :=
  ∃ takes leaves peak, p.types.HasTotalSlots typed.operands takes ∧
    p.types.HasTotalSlots typed.results leaves ∧ p.Balances typed.instr ops takes leaves peak ∧
    (peak ≤ max takes leaves ∨ typed.IsTruncation ∧ peak = takes + 1)

theorem Program.carries_single {p : Program} {instr : Instr} {operands results : List TypeId}
    {op : SelectedOp} (h : p.types.Accounts operands results (p.slotEffect? instr op)) :
    p.Carries ⟨instr, operands, results⟩ [op] := by
  obtain ⟨takes, leaves, htakes, hleaves, heffect⟩ := h
  exact ⟨takes, leaves, leaves, htakes, hleaves, .single heffect, .inl (Nat.le_max_right _ _)⟩

theorem Program.carries_fixed {p : Program} {instr : Instr} {operands results : List TypeId}
    {op : SelectedOp} (h : p.types.Accounts operands results op.slotEffect?) :
    p.Carries ⟨instr, operands, results⟩ [op] := by
  obtain ⟨takes, leaves, htakes, hleaves, heffect⟩ := h
  exact carries_single ⟨takes, leaves, htakes, hleaves, slotEffect?_of_fixed heffect⟩

/-- An instruction for which one operation is selected. -/
theorem Program.carries_of_one {ε : Type} {p : Program} {instr : Instr}
    {operands results : List TypeId} {selected : Except ε SelectedOp} {ops : List SelectedOp}
    (h : (do return [← selected]) = Except.ok ops)
    (hop : ∀ op, selected = .ok op → p.types.Accounts operands results op.slotEffect?) :
    p.Carries ⟨instr, operands, results⟩ ops := by
  obtain ⟨op, hselected, hops⟩ := bind_eq_ok.mp h
  cases pure_eq_ok.mp hops
  exact carries_fixed (hop op hselected)

/-- The operands of a test are all of one size. -/
theorem TypeTable.TestRule.hasTotalSlots {t : TypeTable} {condition : Condition}
    {operands : List TypeId} (h : t.TestRule condition operands) (htypes : t.Coherent) {n : Nat}
    (hn : t.HasSlots (operands.headD .void) n) :
    t.HasTotalSlots operands (condition.operandCount * n) := by
  cases h with
  | isTrue | isFalse =>
    show t.HasTotalSlots _ (1 * n)
    rw [Nat.one_mul]
    exact hasTotalSlots_singleton.mpr hn
  | equal hab | notEqual hab =>
    show t.HasTotalSlots _ (2 * n)
    rw [Nat.two_mul]
    exact hasTotalSlots_pair hn (htypes.hasSlots_of_comparable hab hn)
  | ordered | orderedUn =>
    show t.HasTotalSlots _ (2 * n)
    rw [Nat.two_mul]
    exact hasTotalSlots_pair hn hn

namespace SelectionContext

open TypeTable Program

variable {c : SelectionContext} {operands results : List TypeId} {ops : List SelectedOp}
  (htypes : c.types.Coherent)

include htypes

/-- A branch tests its operands at once, or compares them first and tests the outcome. -/
theorem branch_carries {condition : Condition} {target : Label}
    (hrule : c.types.TestRule condition operands)
    (h : c.branch (operands.headD .void) condition target = .ok ops) :
    c.program.Carries ⟨.branch condition target, operands, []⟩ ops := by
  obtain ⟨n, hn, h⟩ := bind_eq_ok.mp h
  have htotal := hrule.hasTotalSlots htypes (htypes.hasSlots_operandClass hn)
  split at h
  · rename_i w hw
    cases pure_eq_ok.mp h
    have hslots : w.slots = n.slots := by
      cases n <;> cases hw <;> rfl
    exact carries_fixed ⟨_, 0, htotal, hasTotalSlots_nil, by rw [← hslots]; rfl⟩
  · split at h
    · rename_i comparison outcome htest
      cases pure_eq_ok.mp h
      have hcount : condition.operandCount = 2 ∧ outcome.operandCount = 1 := by
        unfold floatTest? at htest
        split at htest <;> cases htest <;> exact ⟨rfl, rfl⟩
      rw [hcount.1, Nat.two_mul] at htotal
      have hcompare : c.program.slotEffect? (.branch condition target)
          (.bare (.compare comparison n)) = some (n.slots + n.slots, 1) := rfl
      have hbranch : c.program.slotEffect? (.branch condition target)
          ⟨.branch outcome .w32 .short, .target target⟩ = some (1, 0) := by
        rw [show (1, 0) = (outcome.operandCount * IntWidth.w32.slots, 0) by rw [hcount.2]; rfl]
        rfl
      have hpos : 1 ≤ n.slots := by
        cases n <;> decide
      refine ⟨_, 0, 1, htotal, hasTotalSlots_nil, ?_, .inl (by omega)⟩
      exact .cons hcompare (.cons hbranch (.nil 0 1) (Nat.zero_le _)) (Nat.le_refl _)
    · cases h

/-- A conversion passes from class to class. -/
theorem convert_carries {source type : TypeId} (hsource : source.isNumeric = true)
    (htype : type.isConversionTarget = true) (hleaves : c.types.Leaves type results)
    (h : c.typeOp source type .convert = .ok ops) :
    c.program.Carries ⟨.typed .convert type, [source], results⟩ ops := by
  simp only [typeOp] at h
  split at h
  · rename_i cs hconversions
    cases pure_eq_ok.mp h
    obtain ⟨target, hmem, rfl⟩ := Conversion.exists_primitive htype
    have hfits := Conversion.fits_of_conversions? hsource hmem hconversions
    obtain ⟨n, hn, hfits⟩ := (Option.any_eq_true _ _).mp hfits
    obtain ⟨⟨m, peak⟩, hrun, hfits⟩ := (Option.any_eq_true _ _).mp hfits
    obtain ⟨hslots, hpeak⟩ := of_decide_eq_true hfits
    have hresults := htypes.hasTotalSlots_leaves hleaves (htypes.hasSlots_primitive target)
    refine ⟨n.slots, m.slots, peak, hasTotalSlots_singleton.mpr (htypes.hasSlots_numeric hn),
      hslots ▸ hresults, Conversion.balances_of_run hrun (Nat.le_refl _), ?_⟩
    rcases hpeak with hle | ⟨rfl, rfl, rfl⟩
    · exact .inl hle
    · cases hn
      exact .inr ⟨⟨rfl, rfl⟩, rfl⟩
  · cases h

/-- What is selected for an instruction with a type takes its operands and leaves its results. -/
theorem typed_carries {typeOp : TypeOp} {type : TypeId}
    (hrule : c.types.TypeRule type typeOp operands results)
    (h : c.typeOp (operands.headD .void) type typeOp = .ok ops) :
    c.program.Carries ⟨.typed typeOp type, operands, results⟩ ops := by
  by_cases hconvert : typeOp = .convert
  · subst hconvert
    cases hrule with
    | convert ha htype hleaves => exact convert_carries htypes ha htype hleaves h
  by_cases hcall : typeOp = .callIndirect
  · subst hcall
    cases pure_eq_ok.mp h
    exact carries_single (calli_accounts htypes hrule)
  obtain ⟨op, rfl, haccounts⟩ := memory_accounts htypes hrule hconvert hcall h
  exact carries_fixed haccounts

end SelectionContext

/-- **The operations selected for an instruction** take its operands and leave its results. -/
theorem SelectionContext.select_carries {p : Program} {decl : FunctionDecl} {frame : Frame}
    {instr : Instr} {operands results : List TypeId} {ops : List SelectedOp}
    (htypes : p.types.Coherent) (hbind : p.bind = .ok ())
    (hrule : (TypingContext.mk p decl).Rule instr operands results)
    (h : (SelectionContext.mk p decl frame).select ⟨instr, operands, results⟩ = .ok ops) :
    p.Carries ⟨instr, operands, results⟩ ops := by
  let c : SelectionContext := ⟨p, decl, frame⟩
  cases hrule with
  | plain hrule => exact Program.carries_of_one h fun _ => plain_accounts (c := c) htypes hrule
  | @constant value =>
    cases pure_eq_ok.mp h
    exact Program.carries_fixed (constant_accounts (c := c) htypes value)
  | argument hv hrule =>
    exact Program.carries_of_one h fun _ => variableAccess_accounts (c := c) htypes hv hrule
  | localVar hv hrule =>
    exact Program.carries_of_one h fun _ => variableAccess_accounts (c := c) htypes hv hrule
  | field hfield howner hrule =>
    exact Program.carries_of_one h fun _ =>
      fieldAccess_accounts (c := c) htypes hfield howner hrule
  | function hf hrule =>
    -- what a call takes depends on the program, and not on the operation alone
    obtain ⟨op, hop, hops⟩ := bind_eq_ok.mp h
    cases pure_eq_ok.mp hops
    have hsignature := (Program.boundSignature_of_bind hbind hf).signature
    exact Program.carries_single (funcOp_accounts (c := c) htypes hf hsignature hrule hop)
  | typed hrule => exact typed_carries (c := c) htypes hrule h
  | jump =>
    cases pure_eq_ok.mp h
    exact Program.carries_fixed .nothing
  | branch hrule => exact branch_carries (c := c) htypes hrule h

/-- A terminator leaves nothing. -/
theorem TypingContext.Rule.results_of_isTerminator {c : TypingContext} {instr : Instr}
    {operands results : List TypeId} (h : c.Rule instr operands results)
    (hterminator : instr.isTerminator = true) : results = [] := by
  cases h with
  | plain h =>
    cases h with
    | ret | retValue => rfl
    | _ => cases hterminator
  | jump => rfl
  | _ => cases hterminator

namespace Program

/-- **A verified body runs within the peak of its operand stack**, except that a truncation goes one
slot beyond the stack it starts with. -/
theorem depths_within_peak {p : Program} {config : VerifyConfig} {func : FuncRef}
    {decl : FunctionDecl} {typed : TypedFunction} {code : FunctionCode} {i : Nat}
    {s : OperandStack TypeId} (htypes : p.types.Built) (hbind : p.bind = .ok ())
    (hf : p.function? func = some decl) (hcode : decl.implementation = .code)
    (hverify : p.verifyFunction config func = .ok typed)
    (hlower : p.bodyCode func decl typed = .ok code) (hs : typed.states[i]? = some (some s)) :
    ∃ instr ops effect out depth depths, decl.body[i]? = some instr.instr ∧
      typed.instrs[i]? = some (some instr) ∧ code.instrs[i]? = some ops ∧
      (TypingContext.mk p decl).step instr.instr s = .ok (effect, out) ∧
      p.types.HasTotalSlots s.bottomUp depth ∧ p.depths? instr.instr ops depth = some depths ∧
      depth ≤ code.descriptor.maxStack.toNat ∧
      (∀ d ∈ depths, d ≤ code.descriptor.maxStack.toNat ∨ instr.IsTruncation ∧ d = depth + 1) ∧
      (instr.instr.isTerminator = false →
        p.types.HasTotalSlots out.bottomUp (depths.getLastD depth)) := by
  have htypes := htypes.coherent
  have hcovers := verifyFunction_covers hf hcode hverify
  obtain ⟨frame, hframe, hdescriptor, -, hselects, -⟩ := bodyCode_eq_ok hcovers hlower
  have hpeak {j : Nat} {s' : OperandStack TypeId} (hs' : typed.states[j]? = some (some s')) :
      ∃ depth ≤ frame.maxStack.toNat, p.types.HasTotalSlots s'.bottomUp depth :=
    Frame.peak_bounds (Frame.ofTyping_eq_ok hframe).2
      (List.mem_of_getElem? ((Array.getElem?_toList ..).trans hs'))
  obtain ⟨⟨instr, operands, results⟩, kept, effect, out, hinstr, hrecorded, hrule, hstep, hstack,
    hout, hflow⟩ := hcovers.exists_rule htypes.primitives hs
  have hreachable := TypedFunction.isReachable_eq_true.mpr ⟨s, hs⟩
  obtain ⟨_, _, ops, hrecorded', hselect, hops⟩ := hselects.reached hinstr hreachable
  cases hrecorded.symm.trans hrecorded'
  obtain ⟨takes, leaves, peak, htakes, hleaves, hbalances, hextra⟩ :=
    SelectionContext.select_carries htypes hbind hrule hselect
  -- below the operands lies what the instruction keeps
  obtain ⟨depth, hle, hdepth⟩ := hpeak hs
  have hsplit := hdepth
  rw [hstack] at hsplit
  obtain ⟨below, takes', hbelow, htakes', rfl⟩ := TypeTable.hasTotalSlots_append.mp hsplit
  cases htakes.unique htakes'
  have hresult : p.types.HasTotalSlots out.bottomUp (below + leaves) := by
    rw [hout]
    exact TypeTable.hasTotalSlots_append.mpr ⟨below, leaves, hbelow, hleaves, rfl⟩
  have hafter : below + leaves ≤ frame.maxStack.toNat := by
    cases hterminator : instr.isTerminator with
    | true =>
      -- nothing is left, so the stack has not grown
      obtain rfl := hrule.results_of_isTerminator hterminator
      have hzero := hleaves.unique TypeTable.hasTotalSlots_nil
      omega
    | false =>
      obtain ⟨s', hs', hlower⟩ := hflow _ (.next hinstr hterminator)
      obtain ⟨depth', hle', hdepth'⟩ := hpeak hs'
      rw [hresult.unique (htypes.hasTotalSlots_below hlower hdepth')]
      exact hle'
  obtain ⟨depths, hdepths, hlast, hbound⟩ := hbalances below
  have hmax : code.descriptor.maxStack = frame.maxStack := by
    rw [hdescriptor]
    rfl
  refine ⟨⟨instr, operands, results⟩, ops, effect, out, below + takes, depths, hinstr, hrecorded,
    hops, hstep, hdepth, hdepths, hmax ▸ hle, fun d hd => ?_, fun _ => hlast ▸ hresult⟩
  have hd := hbound d hd
  rw [hmax]
  rcases hextra with hpeak | ⟨htruncation, rfl⟩
  · left
    omega
  · by_cases hsame : d = below + takes + 1
    · exact .inr ⟨htruncation, hsame⟩
    · left
      omega

/-- The body that copies structures runs within its peak of eight slots. -/
theorem samples_within_peak : ∃ typed code, samples.types.Built ∧ samples.bind = .ok () ∧
    samples.verifyFunction {} ⟨⟨0⟩, 0⟩ = .ok typed ∧
    samples.bodyCode ⟨⟨0⟩, 0⟩ sampleMain typed = .ok code ∧ code.descriptor.maxStack = 8 ∧
    ∀ i < 18, ∃ s instr ops effect out depth depths, typed.states[i]? = some (some s) ∧
      sampleMain.body[i]? = some instr.instr ∧ typed.instrs[i]? = some (some instr) ∧
      code.instrs[i]? = some ops ∧
      (TypingContext.mk samples sampleMain).step instr.instr s = .ok (effect, out) ∧
      samples.types.HasTotalSlots s.bottomUp depth ∧
      samples.depths? instr.instr ops depth = some depths ∧
      depth ≤ code.descriptor.maxStack.toNat ∧
      (∀ d ∈ depths, d ≤ code.descriptor.maxStack.toNat ∨ instr.IsTruncation ∧ d = depth + 1) ∧
      (instr.instr.isTerminator = false →
        samples.types.HasTotalSlots out.bottomUp (depths.getLastD depth)) := by
  have hrun : ((samples.verifyFunction {} ⟨⟨0⟩, 0⟩).toOption.any fun typed =>
      (samples.bodyCode ⟨⟨0⟩, 0⟩ sampleMain typed).toOption.any fun code =>
        code.descriptor.maxStack = 8 ∧ (List.range 18).all typed.isReachable) = true := by
    cbv
  obtain ⟨typed, hverify, hrun⟩ := (Option.any_eq_true _ _).mp hrun
  obtain ⟨code, hlower, hrun⟩ := (Option.any_eq_true _ _).mp hrun
  obtain ⟨hpeak, hreachable⟩ := of_decide_eq_true hrun
  have hbind : samples.bind = .ok () := by decide
  have hverify := toOption_eq_some.mp hverify
  have hlower := toOption_eq_some.mp hlower
  refine ⟨typed, code, samples_built, hbind, hverify, hlower, hpeak, fun i hi => ?_⟩
  obtain ⟨s, hs⟩ := TypedFunction.isReachable_eq_true.mp
    (List.all_eq_true.mp hreachable i (List.mem_range.mpr hi))
  obtain ⟨instr, ops, effect, out, depth, depths, hdepths⟩ :=
    depths_within_peak samples_built hbind rfl rfl hverify hlower hs
  exact ⟨s, instr, ops, effect, out, depth, depths, hs, hdepths⟩

/-- A body that truncates a number. -/
def truncate : FunctionDecl where
  name := "truncate"
  params := []
  locals := []
  result := .void
  signature := ⟨24⟩
  labels := #[]
  body := #[.constant (.float32 1065353216), .typed .convert .uint32, .plain .pop, .plain .ret]
  implementation := .code
  zeroInit := false

def truncation : Program where
  types := (TypeTable.initial.function [] .void).1
  modules := #[⟨"main", [], #[truncate], none⟩]

/-- The stated peak is one slot, and the truncation puts two slots on the stack. -/
theorem truncation_exceeds_peak : ∃ typed code s ops, truncation.types.Built ∧
    truncation.bind = .ok () ∧ truncation.function? ⟨⟨0⟩, 0⟩ = some truncate ∧
    truncation.verifyFunction {} ⟨⟨0⟩, 0⟩ = .ok typed ∧
    truncation.bodyCode ⟨⟨0⟩, 0⟩ truncate typed = .ok code ∧
    typed.states[1]? = some (some s) ∧ code.instrs[1]? = some ops ∧
    truncation.types.HasTotalSlots s.bottomUp 1 ∧
    truncation.depths? (.typed .convert .uint32) ops 1 = some [2, 1] ∧
    code.descriptor.maxStack = 1 := by
  have hrun : ((truncation.verifyFunction {} ⟨⟨0⟩, 0⟩).toOption.any fun typed =>
      (truncation.bodyCode ⟨⟨0⟩, 0⟩ truncate typed).toOption.any fun code =>
        typed.states[1]? = some (some ⟨[.float32]⟩) ∧ code.descriptor.maxStack = 1 ∧
          code.instrs[1]?.any fun ops =>
            truncation.depths? (.typed .convert .uint32) ops 1 = some [2, 1]) = true := by
    cbv
  obtain ⟨typed, hverify, hrun⟩ := (Option.any_eq_true _ _).mp hrun
  obtain ⟨code, hlower, hrun⟩ := (Option.any_eq_true _ _).mp hrun
  obtain ⟨hs, hpeak, hrun⟩ := of_decide_eq_true hrun
  obtain ⟨ops, hops, hdepths⟩ := (Option.any_eq_true _ _).mp hrun
  have hbuilt : truncation.types.Built := .function .initial [] .void
  have hbind : truncation.bind = .ok () := by decide
  exact ⟨typed, code, _, ops, hbuilt, hbind, rfl, toOption_eq_some.mp hverify,
    toOption_eq_some.mp hlower, hs, hops,
    TypeTable.hasTotalSlots_singleton.mpr (hbuilt.coherent.hasSlots_primitive .float32),
    of_decide_eq_true hdepths, hpeak⟩

end Program

end StackCode
