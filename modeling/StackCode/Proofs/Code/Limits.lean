import Mathlib.Tactic.IntervalCases
import StackCode.Proofs.Code.Depths
import StackCode.Proofs.Code.Known

/-!
# The limits of selection

Every value that an instruction moves lies on the operand stack before the instruction or after it,
and the frame of a body has room for these stacks.  What fits a frame fits the operand fields of
operations, so in a verified body whose frame is found, selection fails only for what is not on the
stack: the place of a field in its object and the distance of elements in memory.  Of the operand
types that verification accepts, only the orders of floating point numbers that hold of equal
numbers have no branch.

## Main definitions

* `TypeTable.Limit`: the instructions without operations, and why there are none.
* `TypeTable.FailsAtLimit`: how a computation that knows these limits ends.
* `TypeTable.Small`: types whose values fit a frame.
* `Program.ReachesLimit`: the instructions of a body for which selection fails.

## Main results

* `SelectionContext.select_fails_at_limit`: selection fails at the limits only.
* `Program.selection_total_up_to_limits`: how selection for a verified body ends.
-/

namespace StackCode

/-- **The limits of selection**: instructions for which there are no operations. -/
inductive TypeTable.Limit (t : TypeTable) : TypedInstr → SelectionError → Prop
  /-- Floating point numbers are not branched on by the orders that hold of equal numbers. -/
  | floatOrder {order : Order} {target : Label} {type : TypeId} {results : List TypeId}
      (horder : order = .ge ∨ order = .le) (hfloat : type = .float32 ∨ type = .float64) :
      Limit t ⟨.branch (.ordered order) target, [type, type], results⟩ (.unsupportedOperand type)
  /-- A field lies too far from the start of its object. -/
  | fieldOffset {a : Access} {ref : FieldRef} {field : Field} {operands results : List TypeId}
      (hfield : t.field? ref.owner ref.index = some field) (hlarge : 65535 < field.offset) :
      Limit t ⟨.field a ref, operands, results⟩ (.valueTooLarge field.offset)
  /-- The elements whose address is taken are too large. -/
  | elementSize {type container element : TypeId} {layout : Layout} {others results : List TypeId}
      (hcontainer : t.HasElement container element) (hlayout : t.HasLayout element layout)
      (hlarge : 65535 < layout.size) :
      Limit t ⟨.typed .elementAddress type, container :: others, results⟩
        (.valueTooLarge layout.size)

/-- An instruction goes beyond one limit only. -/
theorem TypeTable.Limit.unique {t : TypeTable} {i : TypedInstr} {e e' : SelectionError}
    (h : t.Limit i e) (h' : t.Limit i e') : e = e' := by
  cases h with
  | floatOrder =>
    cases h'
    rfl
  | fieldOffset hfield =>
    cases h' with
    | fieldOffset hfield' => rw [Option.some.inj (hfield.symm.trans hfield')]
  | elementSize hcontainer hlayout =>
    cases h' with
    | elementSize hcontainer' hlayout' =>
      cases hcontainer.unique hcontainer'
      rw [hlayout.unique hlayout']

/-- Whether an instruction can go beyond a limit. -/
def Instr.isLimited : Instr → Bool
  | branch (.ordered _) _ | field .. | typed .elementAddress _ => true
  | _ => false

/-- Instructions of most forms have no limit of their own. -/
theorem TypeTable.not_limit {t : TypeTable} {i : TypedInstr} (h : i.instr.isLimited = false)
    (e : SelectionError) : ¬ t.Limit i e := by
  intro hlimit
  cases hlimit <;> cases h

/-- A computation for an instruction fails exactly if the instruction goes beyond a limit, and then
for this reason. -/
def TypeTable.FailsAtLimit {α : Type} (t : TypeTable) (i : TypedInstr)
    (x : Checked SelectionError α) : Prop :=
  Ends (fun _ => ∀ e, ¬ t.Limit i e) (Fault.Refuses (t.Limit i)) x

/-- Where there is no limit, selection succeeds. -/
theorem TypeTable.FailsAtLimit.of_succeeds {α : Type} {t : TypeTable} {i : TypedInstr}
    {x : Checked SelectionError α} (h : i.instr.isLimited = false)
    (hx : Ends (fun _ => True) (Fault.Refuses (t.Limit i)) x) : t.FailsAtLimit i x :=
  hx.weaken fun _ _ _ => not_limit h

/-! ## What fits -/

section Operands

variable {Q : Fault SelectionError → Prop} {value : Nat}

theorem byteOperand_fits (h : value < 256) : Ends (fun _ => True) Q (byteOperand value) :=
  .of_eq_ok (if_pos h) trivial

theorem wordOperand_fits (h : value < 65536) : Ends (fun _ => True) Q (wordOperand value) :=
  .of_eq_ok (if_pos h) trivial

/-- A number that is no half word is refused. -/
theorem wordOperand_eq_refuse (h : ¬ value < 65536) :
    wordOperand value = .refuse (.valueTooLarge value) :=
  if_neg h

theorem moveWidth_fits (h : value < 256) : Ends (fun _ => True) Q (moveWidth value) := by
  unfold moveWidth
  split
  · exact .ok trivial
  · exact .ok trivial
  · exact (byteOperand_fits h).bind fun _ _ => .pure trivial

end Operands

namespace TypeTable

variable {t : TypeTable} {type : TypeId} {Q : Fault SelectionError → Prop}

/-- The table has the type, and a frame has room for a value of it. -/
def Small (t : TypeTable) (type : TypeId) : Prop := ∃ slots < 256, t.HasSlots type slots

/-- What lies on a stack that fits a frame fits it too. -/
theorem HasTotalSlots.small {types : List TypeId} {total : Nat} (h : t.HasTotalSlots types total)
    (htotal : total < 256) : ∀ type ∈ types, t.Small type := by
  induction types generalizing total with
  | nil => exact List.forall_mem_nil _
  | cons type types ih =>
    obtain ⟨first, rest, hfirst, hrest, rfl⟩ := hasTotalSlots_cons.mp h
    exact List.forall_mem_cons.mpr ⟨⟨first, by omega, hfirst⟩, ih hrest (by omega)⟩

namespace Small

section

variable (h : t.Small type)

include h

theorem lt_size : type.index < t.size := by
  obtain ⟨slots, -, hslots⟩ := h
  exact hslots.lt_size

theorem slots_lt {slots : Nat} (hslots : t.HasSlots type slots) : slots < 256 := by
  obtain ⟨slots', hlt, hslots'⟩ := h
  rwa [hslots.unique hslots']

/-- A frame has no room for a value that is too large for an operand field. -/
theorem size_lt {layout : Layout} (hlayout : t.HasLayout type layout) : layout.size < 65536 := by
  have hlt : (layout.size + 3) / 4 < 256 := h.slots_lt ⟨layout, hlayout, rfl⟩
  omega

theorem typeWidth_fits : Ends (fun _ => True) Q (t.typeWidth type) :=
  (slots_ends h.lt_size).bind fun _ hslots => moveWidth_fits (h.slots_lt hslots)

theorem slotCell_fits : Ends (fun _ => True) Q (t.slotCell type) := by
  refine (kind_ends h.lt_size).bind fun _ _ => h.typeWidth_fits.bind fun _ _ => ?_
  split <;> exact .pure trivial

theorem loadCell_fits : Ends (fun _ => True) Q (t.loadCell type) := by
  refine (layout_ends h.lt_size).bind fun layout hlayout => (kind_ends h.lt_size).bind fun _ _ => ?_
  have hsize := wordOperand_fits (Q := Q) (h.size_lt hlayout)
  split <;> first | exact .pure trivial | exact hsize.bind fun _ _ => .pure trivial

theorem storeWidth_fits : Ends (fun _ => True) Q (t.storeWidth type) := by
  refine (layout_ends h.lt_size).bind fun layout hlayout => ?_
  have hsize := wordOperand_fits (Q := Q) (h.size_lt hlayout)
  split <;> first | exact .pure trivial | exact hsize.bind fun _ _ => .pure trivial

end

variable (htypes : t.Coherent)

include htypes

/-- A location is as small as the values stored in it. -/
theorem of_assignable {value : TypeId} (hassign : t.Assignable value type)
    (hvalue : t.Small value) : t.Small type := by
  obtain ⟨slots, hslots⟩ := exists_hasSlots hassign.lt_size
  exact ⟨slots, hvalue.slots_lt (htypes.hasSlots_of_assignable hassign hslots), hslots⟩

/-- A type is as small as its values on the stack. -/
theorem of_leaves {results : List TypeId} (hleaves : t.Leaves type results)
    (hresults : ∀ result ∈ results, t.Small result) : t.Small type := by
  rcases hleaves with ⟨rfl, -⟩ | ⟨-, stack, hstack, rfl⟩
  · exact ⟨0, by decide, htypes.hasSlots_primitive .void⟩
  · obtain ⟨slots, hslots⟩ := exists_hasSlots hstack.lt_size
    have hsmall := hresults stack List.mem_cons_self
    exact ⟨slots, hsmall.slots_lt (htypes.hasSlots_stack hstack hslots), hslots⟩

/-- A location is as small as the type it is accessed at. -/
theorem of_accessibleAs {location : TypeId} (haccess : t.AccessibleAs location type)
    (htype : t.Small type) : t.Small location := by
  obtain ⟨standIn, hclass, hassign⟩ := haccess
  obtain ⟨slots, hlt, hslots⟩ := htype
  obtain ⟨slots', hslots'⟩ := exists_hasSlots hclass.lt_size
  have hsame := (htypes.hasSlots_of_assignable hassign hslots).unique
    (htypes.hasSlots_class hclass hslots')
  exact ⟨slots', hsame ▸ hlt, hslots'⟩

end Small

/-! ## Classes of operands -/

theorem operandClass_numeric {n : Numeric} (hn : type.numeric? = some n) :
    t.operandClass type = .ok n := by
  rw [operandClass, hn]
  rfl

theorem exists_numeric (h : type.isNumeric = true) : ∃ n, type.numeric? = some n := by
  rcases of_decide_eq_true h with rfl | rfl | rfl | rfl <;> exact ⟨_, rfl⟩

theorem exists_intWidth (h : type.isInteger = true) :
    ∃ n w, type.numeric? = some n ∧ n.intWidth? = some w := by
  rcases of_decide_eq_true h with rfl | rfl <;> exact ⟨_, _, rfl, rfl⟩

theorem isNumeric_of_numeric? {n : Numeric} (hn : type.numeric? = some n) :
    type.isNumeric = true := by
  unfold TypeId.numeric? at hn
  split_ifs at hn with h1 h2 h3 h4
  · exact decide_eq_true (.inl h1)
  · exact decide_eq_true (.inr (.inl h2))
  · exact decide_eq_true (.inr (.inr (.inl h3)))
  · exact decide_eq_true (.inr (.inr (.inr h4)))

/-- Null and references are seen as 32-bit integers. -/
theorem HasPrimitives.operandClass_nullable (hprim : t.HasPrimitives) (h : t.Nullable type) :
    t.operandClass type = .ok .i32 := by
  have hnone : type.numeric? = none := by
    rcases h with rfl | href
    · rfl
    · refine Option.eq_none_iff_forall_ne_some.mpr fun n hn => ?_
      exact hprim.not_isReference_of_isNumeric (isNumeric_of_numeric? hn) href
  unfold operandClass
  rw [hnone]
  rcases h with rfl | href
  · rfl
  · dsimp only
    split
    · rfl
    · rw [isReference_eq_true.mpr href]
      rfl

/-- An instruction that takes integers finds their width. -/
theorem operandWidth_fits (h : type.isInteger = true) :
    Ends (fun _ => True) Q (t.operandWidth type) := by
  obtain ⟨n, w, hn, hw⟩ := exists_intWidth h
  refine Ends.bind (P := (· = n)) (.of_eq_ok (operandClass_numeric hn) rfl) ?_
  rintro _ rfl
  rw [hw]
  exact .pure trivial

theorem operandClass_fits (h : type.isNumeric = true) :
    Ends (fun _ => True) Q (t.operandClass type) := by
  obtain ⟨n, hn⟩ := exists_numeric h
  exact .of_eq_ok (operandClass_numeric hn) trivial

/-- Operands that can be compared have a class. -/
theorem Comparable.operandClass_fits (hprim : t.HasPrimitives) {a b : TypeId}
    (h : t.Comparable a b) : Ends (fun _ => True) Q (t.operandClass a) := by
  cases h with
  | number ha => exact TypeTable.operandClass_fits ha
  | nullable ha | nullRight ha => exact .of_eq_ok (hprim.operandClass_nullable ha) trivial
  | nullLeft => exact .of_eq_ok (hprim.operandClass_nullable (.inl rfl)) trivial

/-- Every number can be converted to every numeric type. -/
theorem exists_conversions {source : TypeId} (hsource : source.isNumeric = true)
    (htarget : type.isConversionTarget = true) : ∃ ops, conversions? source type = some ops := by
  have hall : ∀ source ∈ [TypeId.int32, .int64, .float32, .float64], ∀ target ∈ Primitive.all,
      target.id.isConversionTarget = true → (conversions? source target.id).isSome = true := by
    decide
  have hmem : source ∈ [TypeId.int32, .int64, .float32, .float64] := by
    simpa using of_decide_eq_true hsource
  obtain ⟨target, hprimitive, rfl⟩ := Conversion.exists_primitive htarget
  exact Option.isSome_iff_exists.mp (hall source hmem target hprimitive htarget)

theorem HasElement.containerPart_fits {container element : TypeId}
    (h : t.HasElement container element) :
    Ends (fun found => found.1 = element) Q (t.containerPart container) := by
  cases h with
  | span h => exact .of_eq_ok (bind_eq_ok.mpr ⟨_, kind_eq_ok.mpr h, rfl⟩) rfl
  | array h harray =>
    refine Ends.bind (P := (· = _)) (.of_eq_ok (kind_eq_ok.mpr h) rfl) ?_
    rintro _ rfl
    exact .of_eq_ok (bind_eq_ok.mpr ⟨_, kind_eq_ok.mpr harray, rfl⟩) rfl

end TypeTable

/-! ## Instructions -/

namespace SelectionContext

open TypeTable

variable {c : SelectionContext} {Q : Fault SelectionError → Prop} {operands results : List TypeId}
  {type : TypeId} (htypes : c.types.Coherent)
  (hoperands : ∀ operand ∈ operands, c.types.Small operand)
  (hresults : ∀ result ∈ results, c.types.Small result)

include htypes in
/-- A return of a small result is selected. -/
theorem plain_ret_fits (hsmall : c.types.Small c.decl.result) (operand : TypeId) :
    Ends (fun _ => True) Q (c.plain operand .ret) := by
  obtain ⟨slots, hlt, hslots⟩ := hsmall
  obtain ⟨op, hop⟩ := htypes.exists_returnOp hslots hlt
  exact .of_eq_ok (bind_eq_ok.mpr ⟨_, hop, rfl⟩) trivial

include htypes hoperands in
theorem plain_fits {op : PlainOp} (hrule : c.types.PlainRule c.decl.result op operands results) :
    Ends (fun _ => True) Q (c.plain (operands.headD .void) op) := by
  cases hrule with
  | nop | null => exact .pure trivial
  | arith ha | neg ha | compare ha => exact (operandClass_fits ha).bind fun _ _ => .pure trivial
  | equal hab => exact (hab.operandClass_fits htypes.primitives).bind fun _ _ => .pure trivial
  | integer ha | not ha | compareUn ha =>
    exact (operandWidth_fits ha).bind fun _ _ => .pure trivial
  | dup | pop =>
    exact (hoperands _ List.mem_cons_self).typeWidth_fits.bind fun _ _ => .pure trivial
  | ret hvoid =>
    have hnothing : c.types.Leaves c.decl.result [] := .inl ⟨hvoid, rfl⟩
    exact plain_ret_fits htypes (.of_leaves htypes hnothing (List.forall_mem_nil _)) _
  | retValue _ _ hvalue =>
    exact plain_ret_fits htypes (.of_assignable htypes hvalue (hoperands _ List.mem_cons_self)) _

include htypes hoperands hresults in
theorem variableAccess_fits {vars : List Variable} {slots : List UInt8} {index : Nat} {v : Variable}
    {a : Access} (hslots : slots.length = vars.length) (hv : vars[index]? = some v)
    (hrule : c.types.VariableRule v.type a operands results) :
    Ends (fun _ => True) Q (c.variableAccess vars slots[index]? index a) := by
  have hindex : index < slots.length := hslots ▸ (List.getElem?_eq_some_iff.mp hv).1
  simp only [variableAccess, List.getElem?_eq_getElem hindex, hv]
  cases hrule with
  | load hleaves =>
    exact (Small.of_leaves htypes hleaves hresults).typeWidth_fits.bind fun _ _ => .pure trivial
  | store hvalue =>
    have hsmall := Small.of_assignable htypes hvalue (hoperands _ List.mem_cons_self)
    exact hsmall.slotCell_fits.bind fun _ _ => .pure trivial
  | address => exact .pure trivial

include htypes hoperands hresults in
/-- What is read from a field or written to it fits; only the place of the field can be out of
range. -/
theorem fieldAccess_fails_at_limit {a : Access} {ref : FieldRef} {field : Field} {owner : TypeId}
    (hfield : c.types.field? ref.owner ref.index = some field)
    (hrule : c.types.FieldRule owner field.type a operands results) :
    c.types.FailsAtLimit ⟨.field a ref, operands, results⟩ (c.fieldAccess ref a) := by
  simp only [fieldAccess, hfield]
  by_cases hoffset : field.offset < 65536
  · have hnone : ∀ e, ¬ c.types.Limit ⟨.field a ref, operands, results⟩ e := by
      rintro e (_ | ⟨hfield', hlarge⟩)
      cases hfield.symm.trans hfield'
      omega
    refine (wordOperand_fits hoffset).bind fun _ _ => ?_
    cases hrule with
    | load _ hleaves =>
      refine (Small.of_leaves htypes hleaves hresults).loadCell_fits.bind fun _ _ => ?_
      split <;> exact .pure hnone
    | store _ _ hvalue =>
      have hsmall := Small.of_assignable htypes hvalue (hoperands _ (by simp))
      refine hsmall.storeWidth_fits.bind fun _ _ => ?_
      split <;> exact .pure hnone
    | address => exact .pure hnone
  · rw [wordOperand_eq_refuse hoffset]
    exact Ends.refuse (.fieldOffset hfield (by omega))

include htypes hresults in
theorem funcOp_fits {op : FuncOp} {func : FuncRef} {callee : FunctionDecl}
    (hf : c.program.function? func = some callee)
    (hrule : c.types.FuncRule callee op operands results) :
    Ends (fun _ => True) Q (c.funcOp func op) := by
  cases hrule with
  | call | loadFunction => exact .pure trivial
  | @newObject this others object _ _ hparams hthis _ hleaves =>
    have hobject : c.objectType? func = .ok (some object) := by
      simp only [objectType?, hf, hparams]
      exact referent?_eq_ok.mpr ⟨_, hthis, rfl⟩
    have hsmall := Small.of_leaves htypes hleaves hresults
    refine Ends.bind (P := (· = some object)) (.of_eq_ok hobject rfl) ?_
    rintro _ rfl
    refine (slots_ends hsmall.lt_size).bind fun _ hslots => ?_
    exact (byteOperand_fits (hsmall.slots_lt hslots)).bind fun _ _ => .pure trivial

include htypes in
theorem elementAccess_fits {container element : TypeId}
    (hcontainer : c.types.HasElement container element)
    (helement : c.types.AccessibleAs element type) (hsmall : c.types.Small type) (a : Access) :
    Ends (fun _ => True) Q (c.elementAccess container type a) := by
  have helement' := Small.of_accessibleAs htypes helement hsmall
  refine hcontainer.containerPart_fits.bind ?_
  rintro ⟨_, part⟩ rfl
  refine (layout_ends helement'.lt_size).bind fun layout hlayout => ?_
  refine (wordOperand_fits (helement'.size_lt hlayout)).bind fun _ _ => ?_
  cases a with
  | address => exact .pure trivial
  | load => exact hsmall.loadCell_fits.bind fun _ _ => .pure trivial
  | store => exact hsmall.storeWidth_fits.bind fun _ _ => .pure trivial

/-- The elements whose address is taken do not come to lie on the stack, so their size is not
bounded by the frame. -/
theorem elementAddress_fails_at_limit {container element : TypeId} {others : List TypeId}
    (hcontainer : c.types.HasElement container element)
    (helement : c.types.AccessibleAs element type) :
    c.types.FailsAtLimit ⟨.typed .elementAddress type, container :: others, results⟩
      (c.elementAccess container type .address) := by
  obtain ⟨standIn, hclass, -⟩ := helement
  refine hcontainer.containerPart_fits.bind ?_
  rintro ⟨_, part⟩ rfl
  refine (layout_ends hclass.lt_size).bind fun layout hlayout => ?_
  by_cases hsize : layout.size < 65536
  · refine (wordOperand_fits hsize).bind fun _ _ => .pure ?_
    rintro e (_ | _ | ⟨hcontainer', hlayout', hlarge⟩)
    cases hcontainer.unique hcontainer'
    cases hlayout.unique hlayout'
    omega
  · rw [wordOperand_eq_refuse hsize]
    exact Ends.refuse (.elementSize hcontainer hlayout (by omega))

include htypes hoperands hresults in
/-- Instructions with a type are selected, unless a number goes beyond its limit. -/
theorem typeOp_fails_at_limit {op : TypeOp} (hrule : c.types.TypeRule type op operands results) :
    c.types.FailsAtLimit ⟨.typed op type, operands, results⟩
      (c.typeOp (operands.headD .void) type op) := by
  cases hrule with
  | convert ha htype =>
    obtain ⟨ops, hops⟩ := exists_conversions ha htype
    simp only [typeOp, List.headD_cons, hops]
    exact .pure (not_limit rfl)
  | loadIndirect _ _ hleaves =>
    refine .of_succeeds rfl ((Small.of_leaves htypes hleaves hresults).loadCell_fits.bind ?_)
    intro _ _
    split <;> exact .pure trivial
  | storeIndirect _ _ _ hvalue =>
    have hsmall := Small.of_assignable htypes hvalue (hoperands _ (by simp))
    refine .of_succeeds rfl (hsmall.storeWidth_fits.bind fun _ _ => ?_)
    split <;> exact .pure trivial
  | loadElement hcontainer helement hleaves =>
    have hsmall := Small.of_leaves htypes hleaves hresults
    refine .of_succeeds rfl ((elementAccess_fits htypes hcontainer helement hsmall .load).bind ?_)
    exact fun _ _ => .pure trivial
  | storeElement _ hcontainer helement hvalue =>
    have hsmall := Small.of_assignable htypes hvalue (hoperands _ (by simp))
    refine .of_succeeds rfl ((elementAccess_fits htypes hcontainer helement hsmall .store).bind ?_)
    exact fun _ _ => .pure trivial
  | elementAddress hcontainer helement =>
    exact (elementAddress_fails_at_limit hcontainer helement).bind fun _ hnone => .pure hnone
  | callIndirect => exact .pure (not_limit rfl)

/-- A branch has operations if its operands have a width, or a comparison can stand before it. -/
theorem branch_fits {operand : TypeId} {condition : Condition} {target : Label} {n : Numeric}
    (hclass : c.types.operandClass operand = .ok n)
    (h : n.intWidth?.isSome = true ∨ (floatTest? condition).isSome = true) :
    Ends (fun _ => True) Q (c.branch operand condition target) := by
  refine Ends.bind (P := (· = n)) (.of_eq_ok hclass rfl) ?_
  rintro _ rfl
  split
  · exact .pure trivial
  · rename_i hnone
    obtain ⟨test, htest⟩ := Option.isSome_iff_exists.mp (h.resolve_left (by simp [hnone]))
    rw [htest]
    exact .pure trivial

theorem branch_integer_fits {condition : Condition} {target : Label} (h : type.isInteger = true) :
    Ends (fun _ => True) Q (c.branch type condition target) := by
  obtain ⟨n, w, hn, hw⟩ := exists_intWidth h
  exact branch_fits (operandClass_numeric hn) (.inl (by rw [hw]; rfl))

theorem branch_nullable_fits {condition : Condition} {target : Label} (htypes : c.types.Coherent)
    (h : c.types.Nullable type) : Ends (fun _ => True) Q (c.branch type condition target) :=
  branch_fits (htypes.primitives.operandClass_nullable h) (.inl rfl)

/-- A branch on numbers is selected if there is a test for them. -/
theorem branch_numeric_fits {condition : Condition} {target : Label} (h : type.isNumeric = true)
    (htest : (floatTest? condition).isSome = true) :
    Ends (fun _ => True) Q (c.branch type condition target) := by
  obtain ⟨n, hn⟩ := exists_numeric h
  exact branch_fits (operandClass_numeric hn) (.inr htest)

/-- Where equal numbers pass the test, floating point numbers have no branch. -/
theorem branch_ordered_fails_at_limit {order : Order} {target : Label} (h : type.isNumeric = true) :
    c.types.FailsAtLimit ⟨.branch (.ordered order) target, [type, type], results⟩
      (c.branch type (.ordered order) target) := by
  by_cases hinteger : type.isInteger = true
  · refine (branch_integer_fits hinteger).weaken ?_
    rintro _ - - e (⟨-, rfl | rfl⟩ | _)
    · cases hinteger
    · cases hinteger
  have hfloat : type = .float32 ∨ type = .float64 := by
    rcases of_decide_eq_true h with rfl | rfl | rfl | rfl
    · exact absurd rfl hinteger
    · exact absurd rfl hinteger
    · exact .inl rfl
    · exact .inr rfl
  have hrefuses (horder : order = .ge ∨ order = .le) :
      c.branch type (.ordered order) target = .refuse (.unsupportedOperand type) := by
    rcases horder with rfl | rfl <;> rcases hfloat with rfl | rfl <;> rfl
  cases order with
  | ge | le =>
    rw [hrefuses (by simp)]
    exact .refuse (.floatOrder (by simp) hfloat)
  | gt | lt =>
    refine (branch_numeric_fits h rfl).weaken ?_
    rintro _ - - e (⟨horder, -⟩ | _)
    simp at horder

include htypes in
/-- A branch is selected, unless there is no test for its operands.  Numbers that cannot be branched
on are compared first. -/
theorem branch_fails_at_limit {condition : Condition} {target : Label}
    (hrule : c.types.TestRule condition operands) :
    c.types.FailsAtLimit ⟨.branch condition target, operands, results⟩
      (c.branch (operands.headD .void) condition target) := by
  cases hrule with
  | isTrue h | isFalse h =>
    rcases h with hinteger | hnullable
    · exact .of_succeeds rfl (branch_integer_fits hinteger)
    · exact .of_succeeds rfl (branch_nullable_fits htypes hnullable)
  | equal h | notEqual h =>
    cases h with
    | number ha => exact .of_succeeds rfl (branch_numeric_fits ha rfl)
    | nullable ha | nullRight ha => exact .of_succeeds rfl (branch_nullable_fits htypes ha)
    | nullLeft => exact .of_succeeds rfl (branch_nullable_fits htypes (.inl rfl))
  | ordered h => exact branch_ordered_fails_at_limit h
  | orderedUn h => exact .of_succeeds rfl (branch_integer_fits h)

include hoperands hresults in
/-- **Selection fails at the limits only**, for instructions that a typing rule allows and whose
operands and results fit a frame. -/
theorem select_fails_at_limit (hbound : c.Bound) {instr : Instr}
    (hrule : (TypingContext.mk c.program c.decl).Rule instr operands results) :
    c.types.FailsAtLimit ⟨instr, operands, results⟩ (c.select ⟨instr, operands, results⟩) := by
  have htypes := hbound.types
  cases hrule with
  | plain hrule =>
    exact .of_succeeds rfl ((plain_fits htypes hoperands hrule).bind fun _ _ => .pure trivial)
  | constant => exact .pure (not_limit rfl)
  | argument hv hrule =>
    refine .of_succeeds rfl (Ends.bind ?_ fun _ (_ : True) => .pure trivial)
    exact variableAccess_fits htypes hoperands hresults hbound.paramSlots hv hrule
  | localVar hv hrule =>
    refine .of_succeeds rfl (Ends.bind ?_ fun _ (_ : True) => .pure trivial)
    exact variableAccess_fits htypes hoperands hresults hbound.localSlots hv hrule
  | field hfield _ hrule =>
    have haccess := fieldAccess_fails_at_limit htypes hoperands hresults hfield hrule
    exact haccess.bind fun _ hnone => .pure hnone
  | function hf hrule =>
    exact .of_succeeds rfl ((funcOp_fits htypes hresults hf hrule).bind fun _ _ => .pure trivial)
  | typed hrule => exact typeOp_fails_at_limit htypes hoperands hresults hrule
  | jump => exact .pure (not_limit rfl)
  | branch hrule => exact branch_fails_at_limit htypes hrule

end SelectionContext

/-! ## Bodies -/

/-- Control reaches the instruction at the index, and the instruction goes beyond a limit. -/
def Program.ReachesLimit (p : Program) (decl : FunctionDecl) (typed : TypedFunction) (index : Nat)
    (e : SelectionError) : Prop :=
  ∃ instr, Relation.ReflTransGen decl.Edge 0 index ∧ decl.body[index]? = some instr.instr ∧
    typed.instrs[index]? = some (some instr) ∧ p.types.Limit instr e

namespace Program

variable {p : Program} {config : VerifyConfig} {func : FuncRef} {decl : FunctionDecl}
  {typed : TypedFunction} {frame : Frame}

/-- The frame of a body has a slot for each of its variables. -/
theorem bound_of_ofTyping (htypes : p.types.Coherent) (hbind : p.bind = .ok ())
    (hf : p.function? func = some decl)
    (hframe : Frame.ofTyping p.types decl typed.states.toList = .ok frame) :
    (SelectionContext.mk p decl frame).Bound := by
  have hsignature := boundSignature_of_bind hbind hf
  have hvars : ∀ v ∈ decl.params ++ decl.locals, v.type.index < p.types.size :=
    fun v hv => TypeTable.contains_iff.mp (hsignature.vars v hv).1
  have hstates : ∀ s, some s ∈ typed.states.toList → p.types.Knows s.topDown := by
    intro s hs
    obtain ⟨depth, hlt, hdepth⟩ := Frame.ofTyping_depth hframe hs
    exact TypeTable.knows_reverse.mp fun type htype => (hdepth.small hlt type htype).lt_size
  obtain ⟨hparams, hlocals⟩ := (Frame.ofTyping_ends hvars hstates).result hframe
  exact ⟨htypes, hsignature, hparams, hlocals⟩

/-- What an instruction of a body takes and leaves lies on recorded stacks, which fit the frame. -/
theorem small_of_covers (htypes : p.types.Coherent) (hcovers : typed.Covers ⟨p, decl⟩)
    (hframe : Frame.ofTyping p.types decl typed.states.toList = .ok frame) {index : Nat}
    {instr : TypedInstr} (hinstr : typed.instrs[index]? = some (some instr)) :
    (TypingContext.mk p decl).Rule instr.instr instr.operands instr.results ∧
      (∀ operand ∈ instr.operands, p.types.Small operand) ∧
      ∀ result ∈ instr.results, p.types.Small result := by
  have hsmall {j : Nat} {s : OperandStack TypeId} (hs : typed.states[j]? = some (some s)) :
      ∃ depth < 256, p.types.HasTotalSlots s.bottomUp depth :=
    Frame.ofTyping_depth hframe (List.mem_of_getElem? ((Array.getElem?_toList ..).trans hs))
  obtain ⟨s, hs⟩ := hcovers.exists_state hinstr
  obtain ⟨instr', kept, effect, out, hbody, hrecorded, hrule, hstep, hstack, hout, hflow⟩ :=
    hcovers.exists_rule htypes.primitives hs
  cases hinstr.symm.trans hrecorded
  refine ⟨hrule, fun operand hoperand => ?_, fun result hresult => ?_⟩
  · obtain ⟨depth, hlt, hdepth⟩ := hsmall hs
    exact hdepth.small hlt operand (hstack ▸ List.mem_append_right _ hoperand)
  · cases hterminator : instr.instr.isTerminator with
    | true =>
      rw [hrule.results_of_isTerminator hterminator] at hresult
      cases hresult
    | false =>
      -- the stack after the instruction is recorded at the next, up to null for references
      obtain ⟨s', hs', hbelow⟩ := hflow _ (.next hbody hterminator)
      obtain ⟨depth, hlt, hdepth⟩ := hsmall hs'
      have hafter := htypes.hasTotalSlots_below hbelow hdepth
      exact hafter.small hlt result (hout ▸ List.mem_append_right _ hresult)

theorem getElem?_zipIdx_instrs {i : Nat} {x : Option TypedInstr × Nat} :
    typed.instrs.toList.zipIdx[i]? = some x ↔ typed.instrs[i]? = some x.1 ∧ x.2 = i := by
  obtain ⟨instr?, index⟩ := x
  simp [List.getElem?_zipIdx, eq_comm]

/-- In a frame that is found, the code of a body is what is selected for its instructions. -/
theorem bodyCode_eq (hframe : Frame.ofTyping p.types decl typed.states.toList = .ok frame) :
    p.bodyCode func decl typed = (do
      let instrs ← typed.instrs.toList.zipIdx.mapM fun x =>
        selectIfReached ⟨p, decl, frame⟩ func x.2 x.1
      return ⟨func, frame.descriptor decl.zeroInit, instrs, decl.labels⟩) := by
  simp only [bodyCode, hframe, Checked.widen_ok]
  refine congrArg (fun select => (do
    let instrs ← typed.instrs.toList.zipIdx.mapM select
    return ⟨func, frame.descriptor decl.zeroInit, instrs, decl.labels⟩ :
      Checked EncodeError FunctionCode)) ?_
  funext x
  cases x.1 <;> rfl

section Outcome

variable (htypes : p.types.Coherent) (hbind : p.bind = .ok ()) (hf : p.function? func = some decl)
  (hcovers : typed.Covers ⟨p, decl⟩)
  (hframe : Frame.ofTyping p.types decl typed.states.toList = .ok frame)

include htypes hbind hf hcovers hframe

/-- How selection for an instruction of a body ends. -/
theorem selectIfReached_fails_at_limit {index : Nat} {instr? : Option TypedInstr}
    (hinstr? : typed.instrs[index]? = some instr?) :
    Ends (fun _ => ∀ cause, ¬ ∃ e, p.ReachesLimit decl typed index e ∧ e.located func index = cause)
      (Fault.Refuses fun cause =>
        ∃ e, p.ReachesLimit decl typed index e ∧ e.located func index = cause)
      (selectIfReached ⟨p, decl, frame⟩ func index instr?) := by
  cases instr? with
  | none =>
    refine .pure ?_
    rintro _ ⟨e, ⟨instr, -, -, hinstr, -⟩, -⟩
    cases hinstr?.symm.trans hinstr
  | some instr =>
    obtain ⟨hrule, hoperands, hresults⟩ := small_of_covers htypes hcovers hframe hinstr?
    have hbound := bound_of_ofTyping htypes hbind hf hframe
    have hends := SelectionContext.select_fails_at_limit hoperands hresults hbound hrule
    obtain ⟨s, hs⟩ := hcovers.exists_state hinstr?
    obtain ⟨instr', _, _, _, hbody, hrecorded, -⟩ := hcovers.exists_rule htypes.primitives hs
    cases hinstr?.symm.trans hrecorded
    have hreaches {e : SelectionError} (he : p.types.Limit instr e) :
        p.ReachesLimit decl typed index e :=
      ⟨instr, hcovers.path hs, hbody, hinstr?, he⟩
    refine Ends.weaken (hends.widen fun e he => ⟨e, hreaches he, rfl⟩) fun ops hops hnone => ?_
    rintro _ ⟨e, ⟨instr', -, -, hinstr', he⟩, -⟩
    cases hinstr?.symm.trans hinstr'
    exact hnone e he

/-- Selection for an instruction of a body fails exactly at a limit. -/
theorem selectIfReached_iff_limit {index : Nat} {instr? : Option TypedInstr}
    (hinstr? : typed.instrs[index]? = some instr?) :
    ((∃ ops, selectIfReached ⟨p, decl, frame⟩ func index instr? = .ok ops) ↔
        ∀ e, ¬ p.ReachesLimit decl typed index e) ∧
      ∀ fault, selectIfReached ⟨p, decl, frame⟩ func index instr? = .error fault ↔
        ∃ e, p.ReachesLimit decl typed index e ∧ fault = .refused (e.located func index) := by
  have hends := selectIfReached_fails_at_limit htypes hbind hf hcovers hframe hinstr?
  obtain ⟨hok, herror⟩ := hends.ok_iff_and_error_iff (by
    rintro _ _ ⟨e, ⟨instr, -, -, hinstr, he⟩, rfl⟩ ⟨e', ⟨instr', -, -, hinstr', he'⟩, rfl⟩
    cases hinstr.symm.trans hinstr'
    rw [he.unique he'])
  refine ⟨hok.trans ?_, fun fault => (herror fault).trans ?_⟩
  · exact ⟨fun h e he => h _ ⟨e, he, rfl⟩, fun h _ ⟨e, he, _⟩ => h e he⟩
  · constructor
    · rintro ⟨_, ⟨e, he, rfl⟩, rfl⟩
      exact ⟨e, he, rfl⟩
    · rintro ⟨e, he, rfl⟩
      exact ⟨_, ⟨e, he, rfl⟩, rfl⟩

/-- Selection for a body succeeds exactly if no instruction goes beyond a limit. -/
theorem bodyCode_ok_iff_limit :
    (∃ code, p.bodyCode func decl typed = .ok code) ↔ ∀ i e, ¬ p.ReachesLimit decl typed i e := by
  have hselect {i : Nat} {instr? : Option TypedInstr} (hi : typed.instrs[i]? = some instr?) :=
    (selectIfReached_iff_limit htypes hbind hf hcovers hframe hi).1
  rw [bodyCode_eq hframe]
  simp only [bind_eq_ok, pure_eq_ok, mapM_eq_ok]
  constructor
  · rintro ⟨_, instrs, hinstrs, -⟩ i e he
    obtain ⟨instr, -, -, hinstr, -⟩ := id he
    have hi := (getElem?_zipIdx_instrs (x := (some instr, i))).mpr ⟨hinstr, rfl⟩
    obtain ⟨ops, -, hops⟩ := getElem?_of_forall₂ hinstrs hi
    exact (hselect hinstr).mp ⟨ops, hops⟩ e he
  · intro hnone
    obtain ⟨instrs, hinstrs⟩ := exists_forall₂_iff.mpr fun x hx => by
      obtain ⟨i, hi⟩ := List.mem_iff_getElem?.mp hx
      obtain ⟨hi, rfl⟩ := getElem?_zipIdx_instrs.mp hi
      exact (hselect hi).mpr (hnone _)
    exact ⟨_, instrs, hinstrs, rfl⟩

/-- Selection for a body fails with the error of the first instruction that goes beyond a limit. -/
theorem bodyCode_error_iff_limit {fault : Fault EncodeError} :
    p.bodyCode func decl typed = .error fault ↔
      ∃ i e, p.ReachesLimit decl typed i e ∧ (∀ j < i, ∀ e', ¬ p.ReachesLimit decl typed j e') ∧
        fault = .refused (e.located func i) := by
  have hselect {i : Nat} {instr? : Option TypedInstr} (hi : typed.instrs[i]? = some instr?) :=
    selectIfReached_iff_limit htypes hbind hf hcovers hframe hi
  rw [bodyCode_eq hframe, bind_eq_error]
  rw [or_iff_left (by rintro ⟨_, -, h⟩; cases h), mapM_eq_error]
  constructor
  · rintro ⟨i, ⟨instr?, _⟩, hi, hfails, hbefore⟩
    obtain ⟨hi, rfl⟩ := getElem?_zipIdx_instrs.mp hi
    obtain ⟨e, he, rfl⟩ := ((hselect hi).2 _).mp hfails
    refine ⟨_, e, he, fun j hj e' he' => ?_, rfl⟩
    obtain ⟨instr', -, -, hinstr', -⟩ := id he'
    have hj' := (getElem?_zipIdx_instrs (x := (some instr', j))).mpr ⟨hinstr', rfl⟩
    exact (hselect hinstr').1.mp (hbefore j hj _ hj') e' he'
  · rintro ⟨i, e, he, hbefore, rfl⟩
    obtain ⟨instr, -, -, hinstr, -⟩ := id he
    refine ⟨i, (some instr, i), getElem?_zipIdx_instrs.mpr ⟨hinstr, rfl⟩,
      ((hselect hinstr).2 _).mpr ⟨e, he, rfl⟩, fun j hj x hx => ?_⟩
    obtain ⟨hx, rfl⟩ := getElem?_zipIdx_instrs.mp hx
    exact (hselect hx).1.mpr (hbefore _ hj)

end Outcome

/-- **Selection is total up to its limits.**  For a verified body whose frame is found, selection
fails exactly if control reaches an instruction that goes beyond a limit, and it reports the first
of these instructions. -/
theorem selection_total_up_to_limits (htypes : p.types.Built) (hbind : p.bind = .ok ())
    (hf : p.function? func = some decl) (hcode : decl.implementation = .code)
    (hverify : p.verifyFunction config func = .ok typed)
    (hframe : Frame.ofTyping p.types decl typed.states.toList = .ok frame) :
    ((∃ code, p.bodyCode func decl typed = .ok code) ↔
        ∀ i e, ¬ p.ReachesLimit decl typed i e) ∧
      ∀ fault, p.bodyCode func decl typed = .error fault ↔
        ∃ i e, p.ReachesLimit decl typed i e ∧
          (∀ j < i, ∀ e', ¬ p.ReachesLimit decl typed j e') ∧
          fault = .refused (e.located func i) := by
  have hcovers := verifyFunction_covers hf hcode hverify
  exact ⟨bodyCode_ok_iff_limit htypes.coherent hbind hf hcovers hframe,
    fun fault => bodyCode_error_iff_limit htypes.coherent hbind hf hcovers hframe⟩

/-- A body with two branches that have no operations. -/
def orderings : FunctionDecl where
  name := "orderings"
  params := []
  locals := []
  result := .void
  signature := ⟨24⟩
  labels := #[6]
  body := #[.constant (.float64 0), .constant (.float64 0), .branch (.ordered .le) ⟨0⟩,
    .constant (.float32 0), .constant (.float32 0), .branch (.ordered .ge) ⟨0⟩, .plain .ret]
  implementation := .code
  zeroInit := false

def orders : Program where
  types := (TypeTable.initial.function [] .void).1
  modules := #[⟨"main", [], #[orderings], none⟩]

/-- The first of the two branches is reported. -/
theorem orders_limited : ∃ typed frame, orders.types.Built ∧ orders.bind = .ok () ∧
    orders.function? ⟨⟨0⟩, 0⟩ = some orderings ∧
    orders.verifyFunction {} ⟨⟨0⟩, 0⟩ = .ok typed ∧
    Frame.ofTyping orders.types orderings typed.states.toList = .ok frame ∧
    orders.ReachesLimit orderings typed 5 (.unsupportedOperand .float32) ∧
    orders.bodyCode ⟨⟨0⟩, 0⟩ orderings typed =
      .error (.refused (.unsupportedOperand ⟨⟨0⟩, 0⟩ 2 .float64)) := by
  have hrun : ((orders.verifyFunction {} ⟨⟨0⟩, 0⟩).toOption.any fun typed =>
      (Frame.ofTyping orders.types orderings typed.states.toList).toOption.any fun _ =>
        typed.instrs[2]? =
          some (some ⟨.branch (.ordered .le) ⟨0⟩, [.float64, .float64], []⟩) ∧
        typed.instrs[5]? =
          some (some ⟨.branch (.ordered .ge) ⟨0⟩, [.float32, .float32], []⟩)) = true := by
    cbv
  obtain ⟨typed, hverify, hrun⟩ := (Option.any_eq_true _ _).mp hrun
  obtain ⟨frame, hframe, hrun⟩ := (Option.any_eq_true _ _).mp hrun
  obtain ⟨hsecond, hfifth⟩ := of_decide_eq_true hrun
  have hverify := toOption_eq_some.mp hverify
  have hframe := toOption_eq_some.mp hframe
  have hbuilt : orders.types.Built := .function .initial [] .void
  have hbind : orders.bind = .ok () := by cbv
  have hpath {i : Nat} (hi : i ≤ 5) : Relation.ReflTransGen orderings.Edge 0 i := by
    induction i with
    | zero => exact .refl
    | succ i ih =>
      refine (ih (by omega)).tail ?_
      have hlt : i < 5 := hi
      interval_cases i <;> exact .next rfl rfl
  obtain ⟨-, herror⟩ := selection_total_up_to_limits hbuilt hbind rfl rfl hverify hframe
  refine ⟨typed, frame, hbuilt, hbind, rfl, hverify, hframe,
    ⟨_, hpath (by omega), rfl, hfifth, .floatOrder (.inl rfl) (.inl rfl)⟩,
    (herror _).mpr ⟨2, .unsupportedOperand .float64,
      ⟨_, hpath (by omega), rfl, hsecond, .floatOrder (.inr rfl) (.inr rfl)⟩, ?_, rfl⟩⟩
  rintro j hj e ⟨instr, -, hinstr, -, hlimit⟩
  refine TypeTable.not_limit ?_ e hlimit
  interval_cases j <;> rw [← Option.some.inj hinstr] <;> rfl

end Program

end StackCode
