import StackCode.Proofs.Typing.Rules

/-!
# Addresses stay on the stack

A reference or a span may point into a frame, so it must not outlive the call that made it.
Verification keeps addresses out of memory and out of results.  It tests the type an instruction
names or a location is declared with, while the value and the location are compared with that type
by their classes only.  A type whose values are no addresses shares its class with no type of
addresses, so the test speaks for all three.

## Main definitions

* `TypeTable.Sealed`: locations that never hold an address.
* `TypeTable.PointsInto`: the results of taking an address.
* `TypingContext.KeepsAddresses`: an instruction lets no address out.

## Main results

* `TypeTable.Coherent.addressFree_of_assignable`, `TypeTable.Coherent.addressFree_of_accessibleAs`:
  the tested type speaks for the value and for the location.
* `Program.no_address_escapes`: no instruction of a verified body lets an address out.
-/

namespace StackCode

namespace TypeTable

variable {t : TypeTable} {type standIn : TypeId}

/-- A location of this type holds no address, whatever type of its class it was declared with. -/
structure Sealed (t : TypeTable) (location : TypeId) : Prop where
  addressFree : t.AddressFree location
  declared : ∀ type, t.SameClass type location → t.AddressFree type

/-- The one result is a reference to a sealed location of the class of `type`. -/
def PointsInto (t : TypeTable) (type : TypeId) (results : List TypeId) : Prop :=
  ∃ address target, results = [address] ∧ t.HasKind address (.reference target) ∧
    t.SameClass type target ∧ t.AddressFree type ∧ t.Sealed target

@[simp] theorem carriesAddress_normalForm (t : TypeTable) (kind : TypeKind) :
    (t.normalForm kind).carriesAddress = kind.carriesAddress := by
  cases kind <;> rfl

namespace Coherent

theorem addressFree_primitive (h : t.Coherent) (p : Primitive) : t.AddressFree p.id :=
  ⟨_, h.primitives p, rfl⟩

/-- A class holds addresses exactly if the types it stands for do. -/
theorem addressFree_class (h : t.Coherent) (hclass : t.HasClass type standIn) :
    t.AddressFree standIn ↔ t.AddressFree type := by
  obtain ⟨kind, hkind⟩ := exists_hasKind hclass.lt_size
  have hstandIn := h.hasKind_class hkind hclass
  constructor
  · rintro ⟨kind', hkind', hfree⟩
    rw [hkind'.unique hstandIn, carriesAddress_normalForm] at hfree
    exact ⟨kind, hkind, hfree⟩
  · rintro ⟨kind', hkind', hfree⟩
    rw [hkind'.unique hkind] at hfree
    exact ⟨_, hstandIn, (carriesAddress_normalForm t kind).trans hfree⟩

theorem addressFree_of_sameClass (h : t.Coherent) {a b : TypeId} (hclass : t.SameClass a b)
    (hb : t.AddressFree b) : t.AddressFree a := by
  obtain ⟨standIn, ha, hb'⟩ := hclass
  exact (h.addressFree_class ha).mp ((h.addressFree_class hb').mpr hb)

theorem sealed_of_addressFree (h : t.Coherent) (hfree : t.AddressFree type) : t.Sealed type :=
  ⟨hfree, fun _ hclass => h.addressFree_of_sameClass hclass hfree⟩

/-- What may be stored in a location that holds no addresses is no address.  It is of the class of
the location, or null, or a 32-bit integer to be narrowed. -/
theorem addressFree_of_assignable (h : t.Coherent) {value : TypeId}
    (hassign : t.Assignable value type) (hfree : t.AddressFree type) : t.AddressFree value := by
  obtain ⟨standIn, hclass, rfl | ⟨rfl, -⟩ | ⟨rfl, -⟩⟩ := hassign
  · exact (h.addressFree_class hclass).mpr hfree
  · exact h.addressFree_primitive .null
  · exact h.addressFree_primitive .int32

/-- A location that can be accessed as a type without addresses holds none. -/
theorem addressFree_of_accessibleAs (h : t.Coherent) {location : TypeId}
    (haccess : t.AccessibleAs location type) (hfree : t.AddressFree type) :
    t.AddressFree location := by
  obtain ⟨standIn, hclass, hassign⟩ := haccess
  exact (h.addressFree_class hclass).mp (h.addressFree_of_assignable hassign hfree)

theorem pointsInto_of_addressOf (h : t.Coherent) {address : TypeId}
    (haddress : t.AddressOf type address) : t.PointsInto type [address] := by
  have hfree := haddress.addressFree
  obtain ⟨kind, hkind, -⟩ := hfree
  have hclass := hasClass_standIn hkind.lt_size
  refine ⟨address, t.standIn type, rfl, h.hasKind_addressOf haddress,
    ⟨_, hclass, h.hasClass_self hclass⟩, haddress.addressFree, h.sealed_of_addressFree ?_⟩
  exact (h.addressFree_class hclass).mpr haddress.addressFree

end Coherent

end TypeTable

namespace TypingContext

variable {c : TypingContext}

/-- An instruction with these operands and results lets no address out: it stores and returns none,
stores into sealed locations only, and takes the addresses of such locations only. -/
def KeepsAddresses (c : TypingContext) (typed : TypedInstr) : Prop :=
  match typed.instr with
  | .plain .ret => ∀ value ∈ typed.operands, c.types.AddressFree value
  | .argument .address index => ∃ v, c.decl.params[index]? = some v ∧
      c.types.PointsInto v.type typed.results
  | .localVar .address index => ∃ v, c.decl.locals[index]? = some v ∧
      c.types.PointsInto v.type typed.results
  | .field .address ref => ∃ field, c.types.field? ref.owner ref.index = some field ∧
      c.types.PointsInto field.type typed.results
  | .typed .elementAddress _ => ∃ container index element, typed.operands = [container, index] ∧
      c.types.HasElement container element ∧ c.types.PointsInto element typed.results
  | .field .store ref => ∃ object value field, typed.operands = [object, value] ∧
      c.types.field? ref.owner ref.index = some field ∧ c.types.Sealed field.type ∧
      c.types.AddressFree value
  | .typed .storeIndirect _ => ∃ address value location, typed.operands = [address, value] ∧
      c.types.HasKind address (.reference location) ∧ c.types.Sealed location ∧
      c.types.AddressFree value
  | .typed .storeElement _ => ∃ container index value element,
      typed.operands = [container, index, value] ∧ c.types.HasElement container element ∧
      c.types.Sealed element ∧ c.types.AddressFree value
  | _ => True

/-- **A rule lets no address out.** -/
theorem Rule.keepsAddresses {instr : Instr} {operands results : List TypeId}
    (h : c.Rule instr operands results) (htypes : c.types.Coherent) :
    c.KeepsAddresses ⟨instr, operands, results⟩ := by
  cases h with
  | plain h =>
    cases h with
    | ret => exact List.forall_mem_nil _
    | retValue _ hfree ha =>
      exact List.forall_mem_singleton.mpr (htypes.addressFree_of_assignable ha hfree)
    | _ => trivial
  | argument hv h =>
    cases h with
    | address haddress => exact ⟨_, hv, htypes.pointsInto_of_addressOf haddress⟩
    | _ => trivial
  | localVar hv h =>
    cases h with
    | address haddress => exact ⟨_, hv, htypes.pointsInto_of_addressOf haddress⟩
    | _ => trivial
  | field hfield _ h =>
    cases h with
    | load => trivial
    | store _ hfree hvalue =>
      exact ⟨_, _, _, rfl, hfield, htypes.sealed_of_addressFree hfree,
        htypes.addressFree_of_assignable hvalue hfree⟩
    | address _ haddress => exact ⟨_, hfield, htypes.pointsInto_of_addressOf haddress⟩
  | typed h =>
    cases h with
    | storeIndirect hfree haddress hlocation hvalue =>
      have hlocation' := htypes.addressFree_of_accessibleAs hlocation hfree
      exact ⟨_, _, _, rfl, haddress, htypes.sealed_of_addressFree hlocation',
        htypes.addressFree_of_assignable hvalue hfree⟩
    | storeElement hfree hcontainer helement hvalue =>
      have helement' := htypes.addressFree_of_accessibleAs helement hfree
      exact ⟨_, _, _, _, rfl, hcontainer, htypes.sealed_of_addressFree helement',
        htypes.addressFree_of_assignable hvalue hfree⟩
    | elementAddress hcontainer _ haddress =>
      exact ⟨_, _, _, rfl, hcontainer, htypes.pointsInto_of_addressOf haddress⟩
    | _ => trivial
  | _ => trivial

end TypingContext

namespace Program

/-- **No address escapes a verified body.** -/
theorem no_address_escapes {p : Program} {config : VerifyConfig} {func : FuncRef}
    {decl : FunctionDecl} {typed : TypedFunction} {i : Nat} {s : OperandStack TypeId}
    (htypes : p.types.Built) (hf : p.function? func = some decl)
    (hcode : decl.implementation = .code) (hverify : p.verifyFunction config func = .ok typed)
    (hs : typed.states[i]? = some (some s)) :
    ∃ instr kept, decl.body[i]? = some instr.instr ∧ typed.instrs[i]? = some (some instr) ∧
      s.bottomUp = kept ++ instr.operands ∧ (TypingContext.mk p decl).KeepsAddresses instr := by
  have hcovers := verifyFunction_covers hf hcode hverify
  obtain ⟨instr, kept, effect, out, hinstr, hrecorded, hrule, -, hstack, -⟩ :=
    hcovers.exists_rule htypes.hasPrimitives hs
  exact ⟨instr, kept, hinstr, hrecorded, hstack, hrule.keepsAddresses htypes.coherent⟩

/-- A body that takes an address of every kind, stores through them, some of it as unsigned integers
where signed ones are declared, and returns what it loads. -/
def cellMain : FunctionDecl where
  name := "main"
  params := [⟨"seed", .int16⟩]
  locals := [⟨"cell", ⟨24⟩⟩, ⟨"items", ⟨26⟩⟩]
  result := .uint32
  signature := ⟨28⟩
  labels := #[]
  body := #[.localVar .address 0, .constant (.int32 1), .field .store ⟨⟨24⟩, 1⟩,
    .localVar .address 0, .field .address ⟨⟨24⟩, 1⟩, .constant (.int32 2),
    .typed .storeIndirect .uint32, .localVar .address 1, .constant (.int32 3), .constant (.int32 4),
    .typed .storeElement .uint32, .argument .address 0, .plain .pop, .localVar .address 1,
    .constant (.int32 3), .typed .elementAddress .uint32, .typed .loadIndirect .int32, .plain .ret]
  implementation := .code
  zeroInit := true

def cells : Program where
  types :=
    let structs := (TypeTable.initial.declareStruct "Cell" [("tag", .uint8), ("value", .int32)]).1
    ((structs.array .int32 8).1.function [.int16] .uint32).1
  modules := #[⟨"cells", [], #[cellMain], none⟩]

theorem cells_built : cells.types.Built := by
  simp only [cells]
  apply_rules [TypeTable.Built.function, TypeTable.Built.array, TypeTable.Built.declareStruct,
    TypeTable.Built.initial]

/-- Every instruction of the body is reached and lets no address out. -/
theorem cells_no_address_escapes : ∃ typed, cells.types.Built ∧
    cells.function? ⟨⟨0⟩, 0⟩ = some cellMain ∧ cells.verifyFunction {} ⟨⟨0⟩, 0⟩ = .ok typed ∧
    ∀ i < 18, ∃ s instr kept, typed.states[i]? = some (some s) ∧
      cellMain.body[i]? = some instr.instr ∧ typed.instrs[i]? = some (some instr) ∧
      s.bottomUp = kept ++ instr.operands ∧
      (TypingContext.mk cells cellMain).KeepsAddresses instr := by
  have hrun : ((cells.verifyFunction {} ⟨⟨0⟩, 0⟩).toOption.any fun typed =>
      (List.range 18).all typed.isReachable) = true := by
    cbv
  obtain ⟨typed, hverify, hreachable⟩ := (Option.any_eq_true _ _).mp hrun
  have hverify := toOption_eq_some.mp hverify
  refine ⟨typed, cells_built, rfl, hverify, fun i hi => ?_⟩
  obtain ⟨s, hs⟩ := TypedFunction.isReachable_eq_true.mp
    (List.all_eq_true.mp hreachable i (List.mem_range.mpr hi))
  obtain ⟨instr, kept, hinstr, hrecorded, hstack, hkeeps⟩ :=
    no_address_escapes cells_built rfl rfl hverify hs
  exact ⟨s, instr, kept, hs, hinstr, hrecorded, hstack, hkeeps⟩

end Program

end StackCode
