import StackCode.Proofs.Code.Emitted

/-!
# Capabilities of listed code

The capabilities that code needs are those of its opcodes.  Emission writes the opcodes of placed
code as they are, so what is read from an image needs the same capabilities.

## Main definitions

* `Disassembly.features`: the capabilities that the operations of an image need.

## Main results

* `unionAll_features_of_lists`: listings need the capabilities of the code they list.
-/

namespace StackCode

/-- The capabilities that the operations of a function need. -/
def FunctionListing.features (listing : FunctionListing) : Features :=
  .unionAll (listing.ops.map fun placed => placed.op.opcode.features)

/-- The capabilities that the operations of an image need. -/
def Disassembly.features (d : Disassembly) : Features :=
  .unionAll (d.functions.map FunctionListing.features)

theorem Disassembly.mem_features {d : Disassembly} {bit : Nat} :
    bit ∈ d.features ↔ ∃ listing ∈ d.functions, ∃ placed ∈ listing.ops,
      bit ∈ placed.op.opcode.features := by
  simp [features, FunctionListing.features]

variable {F : FuncRef → Token → Prop}

theorem ListsCode.features_eq {code : PlacedCode} {listing : FunctionListing}
    (h : ListsCode F code listing) : code.features = listing.features := by
  refine congrArg Features.unionAll (forall₂_iff_map_eq.mp (h.emits.imp fun op placed hop => ?_))
  rw [hop.opcode]

/-- **Listings need the capabilities of the code they list.** -/
theorem unionAll_features_of_lists {placed : List PlacedCode} {d : Disassembly}
    (h : List.Forall₂ (ListsCode F) placed d.functions) :
    Features.unionAll (placed.map PlacedCode.features) = d.features :=
  congrArg Features.unionAll (forall₂_iff_map_eq.mp (h.imp fun _ _ hlists => hlists.features_eq))

end StackCode
