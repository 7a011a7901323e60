import StackCode.Proofs.Link.Patched

/-!
# Where fixups wait

A fixup is added when an operation is written that names a function of another module, and its
offset is that of the token of the operation.  Operations do not overlap, so the tokens of fixups do
not overlap either, and an operation is the place of the one fixup that was added for it or of none.

Each fact is found for operations first and then for functions, in the order they stand in.  A run
of operations takes up a range of offsets, and what is known of a run is kept when a run before or
after it is added, as its fixups are in another range.

## Main definitions

* `Fixup.IsFor`: the operation that a fixup is for.
* `Fixup.InRange`: fixups that wait in a range, in order and apart from each other.
* `ModuleScope.FixedAt`: an operation is the place of its own fixup only.

## Main results

* `ModuleScope.fixupsOf_inRange`: the fixups of functions are in order and apart.
* `ModuleScope.fixedAt_fixupsOf`: each operation of a module is the place of its own fixup only.
* `ModuleScope.exists_op_of_mem_fixupsOf`: every fixup waits at an operation.
-/

namespace StackCode

/-! ### What fixups are for -/

/-- An operand that names a function still does, in another way. -/
theorem Operand.Renames.func? {φ φ' τ τ' : Type} {F : φ → φ' → Prop} {T : τ → τ' → Prop}
    {a : Operand φ τ} {b : Operand φ' τ'} {f : φ} (h : a.Renames F T b) (hf : a.func? = some f) :
    ∃ f', b.func? = some f' ∧ F f f' := by
  cases h with
  | func h | funcSlots h =>
    cases hf
    exact ⟨_, rfl, h⟩
  | _ => cases hf

/-- The fixup is for an operation that names a function of another module: it has the function and
the position of the module in the import table. -/
structure Fixup.IsFor (f : Fixup) (s : ModuleScope) (op : SelectedOp) : Prop where
  names : SelectionContext.NamesFunction f.callee op
  other : f.callee.module ≠ s.module
  slot : s.importSlot? f.callee.module = some f.slot

/-- The opcode and the token of an operation that names a function. -/
theorem token_le_length {op : SelectedOp} {func : FuncRef} (hshape : op.WellShaped)
    (hnames : SelectionContext.NamesFunction func op) : 1 + Token.size ≤ op.length := by
  obtain ⟨opcode, operand⟩ := op
  have hlength : Token.size ≤ opcode.shape.length := by
    rcases hnames with h | ⟨slots, h⟩ <;> dsimp only at h <;> subst h <;>
      simp only [Operation.WellShaped] at hshape <;> revert hshape <;>
      cases opcode.shape <;> simp [Operand.fits, Shape.length, Token.size]
  exact Nat.add_le_add_left hlength 1

namespace ModuleScope

variable {s : ModuleScope} {f : Fixup}

theorem fixup?_eq_some {offset : Nat} {op : SelectedOp} (h : s.fixup? offset op = some f) :
    f.IsFor s op ∧ f.offset = offset + 1 := by
  unfold fixup? at h
  split at h
  · rename_i callee hoperand
    split at h
    · cases h
    · rename_i hother
      obtain ⟨slot, hslot, rfl⟩ := Option.map_eq_some_iff.mp h
      exact ⟨⟨.inl hoperand, hother, hslot⟩, rfl⟩
  · rename_i callee slots hoperand
    split at h
    · cases h
    · rename_i hother
      obtain ⟨slot, hslot, rfl⟩ := Option.map_eq_some_iff.mp h
      exact ⟨⟨.inr ⟨slots, hoperand⟩, hother, hslot⟩, rfl⟩
  · cases h

/-- The token that a fixup waits at has the position of the import, and no offset yet. -/
theorem func?_of_fixup? {code : PlacedCode} {base : Nat} {op : SelectedOp} {placed : PlacedOp}
    (hemit : Emits s.Names code base op placed) (h : s.fixup? placed.offset op = some f) :
    placed.op.operand.func? = some ⟨f.slot, 0⟩ := by
  obtain ⟨hfor, -⟩ := fixup?_eq_some h
  obtain ⟨⟨module, offset⟩, htoken, hnames⟩ := hemit.operand.func? hfor.names.func?_eq
  rcases hnames with ⟨hown, -⟩ | ⟨-, hslot, hzero⟩
  · exact absurd hown hfor.other
  · have hmodule := Option.some.inj (hslot.symm.trans (importSlot?_eq_some hfor.slot))
    cases UInt8.toNat_inj.mp hmodule
    cases hzero
    exact htoken

end ModuleScope

/-! ### Ranges of fixups -/

/-- The tokens of the fixups stand between two offsets, one after the other; an opcode comes before
each. -/
structure Fixup.InRange (start finish : Nat) (fixups : List Fixup) : Prop where
  bounds : ∀ f ∈ fixups, start < f.offset ∧ f.offset + Token.size ≤ finish
  apart : fixups.Pairwise fun f g => f.offset + Token.size ≤ g.offset

namespace Fixup.InRange

variable {start mid finish : Nat} {fixups others : List Fixup}

theorem nil (start finish : Nat) : Fixup.InRange start finish [] :=
  ⟨List.forall_mem_nil _, .nil⟩

theorem append (h : Fixup.InRange start mid fixups) (h' : Fixup.InRange mid finish others)
    (hstart : start ≤ mid) (hfinish : mid ≤ finish) :
    Fixup.InRange start finish (fixups ++ others) := by
  refine ⟨List.forall_mem_append.mpr ⟨fun f hf => ?_, fun f hf => ?_⟩,
    List.pairwise_append.mpr ⟨h.apart, h'.apart, fun f hf g hg => ?_⟩⟩
  · obtain ⟨hlower, hupper⟩ := h.bounds f hf
    exact ⟨hlower, Nat.le_trans hupper hfinish⟩
  · obtain ⟨hlower, hupper⟩ := h'.bounds f hf
    exact ⟨Nat.lt_of_le_of_lt hstart hlower, hupper⟩
  · exact Nat.le_of_lt (Nat.lt_of_le_of_lt (h.bounds f hf).2 (h'.bounds g hg).1)

theorem widen {start' : Nat} (h : Fixup.InRange start finish fixups) (hstart : start' ≤ start) :
    Fixup.InRange start' finish fixups :=
  ⟨fun f hf => ⟨Nat.lt_of_le_of_lt hstart (h.bounds f hf).1, (h.bounds f hf).2⟩, h.apart⟩

end Fixup.InRange

theorem PlacedCode.WellShaped.flatten {code : PlacedCode} (h : code.WellShaped) :
    ∀ op ∈ code.instrs.flatten, op.WellShaped := by
  intro op hop
  obtain ⟨ops, hops, hop⟩ := List.mem_flatten.mp hop
  exact h ops hops op hop

namespace ModuleScope

variable {s : ModuleScope} {F : FuncRef → Token → Prop} {start : Nat}

theorem fixup?_inRange {op : SelectedOp} (hshape : op.WellShaped) :
    Fixup.InRange start (start + op.length) (s.fixup? start op).toList := by
  cases hfixup : s.fixup? start op with
  | none => exact .nil _ _
  | some f =>
    obtain ⟨hfor, hoffset⟩ := fixup?_eq_some hfixup
    have hlength := token_le_length hshape hfor.names
    refine ⟨List.forall_mem_singleton.mpr ?_, List.pairwise_singleton _ _⟩
    omega

/-- The fixups of operations are in the range of the operations. -/
theorem fixupsFrom_inRange {ops : List SelectedOp} (hshape : ∀ op ∈ ops, op.WellShaped) :
    Fixup.InRange start (start + totalLength ops) (s.fixupsFrom start ops) := by
  induction ops generalizing start with
  | nil => exact .nil _ _
  | cons op ops ih =>
    obtain ⟨hop, hops⟩ := List.forall_mem_cons.mp hshape
    rw [fixupsFrom, totalLength, ← Nat.add_assoc]
    exact (fixup?_inRange hop).append (ih hops) (Nat.le_add_right _ _) (Nat.le_add_right _ _)

/-- The fixups of the code of a function are in the range of the function. -/
theorem fixupsFrom_inRange_of_written {code : PlacedCode} {listing : FunctionListing}
    {bytes : List UInt8} (hshape : code.WellShaped) (hwritten : listing.Written bytes)
    (hlists : ListsCode F code listing) :
    Fixup.InRange listing.offset (listing.offset + bytes.length)
      (s.fixupsFrom (listing.offset + Descriptor.size) code.instrs.flatten) := by
  rw [CompiledModule.length_of_written hwritten hlists, ← Nat.add_assoc]
  exact (fixupsFrom_inRange hshape.flatten).widen (Nat.le_add_right _ _)

/-- **The fixups of functions are in order and apart from each other**, in the range of the
functions. -/
theorem fixupsOf_inRange {codes : List PlacedCode} {listings : List FunctionListing}
    {bytes : List UInt8} (hshape : ∀ code ∈ codes, code.WellShaped)
    (hwritten : ListingsWritten start listings bytes)
    (hlists : List.Forall₂ (ListsCode F) codes listings) :
    Fixup.InRange start (start + bytes.length) (s.fixupsOf start codes) := by
  induction hlists generalizing start bytes with
  | nil => exact .nil _ _
  | @cons code listing codes listings hcode _ ih =>
    cases hwritten with
    | @cons _ bytes rest _ hlisting hrest =>
      obtain ⟨hshape, hshapes⟩ := List.forall_mem_cons.mp hshape
      have hlength := CompiledModule.length_of_written hlisting hcode
      rw [fixupsOf, List.length_append, Nat.add_assoc listing.offset Descriptor.size, ← hlength,
        ← Nat.add_assoc]
      exact (fixupsFrom_inRange_of_written hshape hlisting hcode).append (ih hshapes hrest)
        (Nat.le_add_right _ _) (Nat.le_add_right _ _)

end ModuleScope

/-! ### Ranges of operations -/

/-- Operations that follow each other start in their range.  Each has at least its opcode. -/
theorem Contiguous.bounds {start finish : Nat} {ops : List PlacedOp}
    (h : Contiguous start ops finish) :
    start ≤ finish ∧ ∀ op ∈ ops, start ≤ op.offset ∧ op.offset < finish := by
  induction h with
  | nil start => exact ⟨Nat.le_refl _, List.forall_mem_nil _⟩
  | @cons start finish op ops _ ih =>
    obtain ⟨hle, hops⟩ := ih
    have hlength : 0 < op.length := Nat.add_pos_left Nat.one_pos _
    refine ⟨by omega, List.forall_mem_cons.mpr ⟨?_, fun op' hop' => ?_⟩⟩
    · dsimp only
      omega
    · have hop' := hops op' hop'
      omega

/-- The operations of a function start in the range of the function. -/
theorem FunctionListing.Written.bounds {listing : FunctionListing} {bytes : List UInt8}
    (h : listing.Written bytes) :
    ∀ op ∈ listing.ops, listing.offset ≤ op.offset ∧ op.offset < listing.offset + bytes.length := by
  obtain ⟨code, hops, rfl⟩ := h
  intro op hop
  have hbounds := hops.contiguous.bounds.2 op hop
  have hlength : listing.descriptor.encode.length = Descriptor.size := rfl
  rw [List.length_append, hlength]
  omega

/-- The operations of functions that follow each other start in their range. -/
theorem ListingsWritten.le_offset {start : Nat} {listings : List FunctionListing}
    {bytes : List UInt8} (h : ListingsWritten start listings bytes) :
    ∀ listing ∈ listings, ∀ op ∈ listing.ops, start ≤ op.offset := by
  induction h with
  | nil => exact List.forall_mem_nil _
  | cons hlisting _ ih =>
    refine List.forall_mem_cons.mpr ⟨fun op hop => (hlisting.bounds op hop).1, ?_⟩
    exact fun listing hlisting op hop =>
      Nat.le_trans (Nat.le_add_right _ _) (ih listing hlisting op hop)

/-! ### The place of a fixup -/

namespace ModuleScope

variable {s : ModuleScope} {F : FuncRef → Token → Prop} {start : Nat} {f : Fixup}

/-- Of these fixups, the one that waits at the placed operation is the one that is added for it. -/
def FixedAt (s : ModuleScope) (fixups : List Fixup) (op : SelectedOp) (placed : PlacedOp) : Prop :=
  ∀ f, f ∈ fixups ∧ f.offset = placed.offset + 1 ↔ s.fixup? placed.offset op = some f

section FixedAt

variable {fixups others : List Fixup} {op : SelectedOp} {placed : PlacedOp}

theorem FixedAt.append_left (h : s.FixedAt fixups op placed)
    (hothers : ∀ f ∈ others, f.offset ≠ placed.offset + 1) :
    s.FixedAt (others ++ fixups) op placed := by
  intro f
  rw [← h f, List.mem_append, or_and_right]
  exact or_iff_right fun hf => hothers f hf.1 hf.2

theorem FixedAt.append_right (h : s.FixedAt fixups op placed)
    (hothers : ∀ f ∈ others, f.offset ≠ placed.offset + 1) :
    s.FixedAt (fixups ++ others) op placed := by
  intro f
  rw [← h f, List.mem_append, or_and_right]
  exact or_iff_left fun hf => hothers f hf.1 hf.2

theorem fixedAt_self (op : SelectedOp) (placed : PlacedOp) :
    s.FixedAt (s.fixup? placed.offset op).toList op placed := by
  intro f
  rw [Option.mem_toList]
  exact ⟨fun h => h.1, fun h => ⟨h, (fixup?_eq_some h).2⟩⟩

/-- Which fixup waits at an operation. -/
theorem FixedAt.find?_eq (h : s.FixedAt fixups op placed) :
    fixups.find? (fun f => f.offset = placed.offset + 1) = s.fixup? placed.offset op := by
  cases hfind : fixups.find? (fun f => f.offset = placed.offset + 1) with
  | none =>
    cases hfixup : s.fixup? placed.offset op with
    | none => rfl
    | some f =>
      obtain ⟨hf, hoffset⟩ := (h f).mpr hfixup
      exact absurd (decide_eq_true hoffset) (List.find?_eq_none.mp hfind f hf)
  | some f =>
    have hoffset := List.find?_some hfind
    exact ((h f).mp ⟨List.mem_of_find?_eq_some hfind, of_decide_eq_true hoffset⟩).symm

end FixedAt

section Ops

variable {code : PlacedCode} {base finish : Nat} {selected : List SelectedOp} {ops : List PlacedOp}

/-- Each operation of a run is the place of its own fixup only.  Fixups of later operations wait
after its end. -/
theorem fixedAt_fixupsFrom (hshape : ∀ op ∈ selected, op.WellShaped)
    (hcontiguous : Contiguous start ops finish)
    (hemits : List.Forall₂ (Emits F code base) selected ops) :
    List.Forall₂ (s.FixedAt (s.fixupsFrom start selected)) selected ops := by
  induction hemits generalizing start with
  | nil => exact .nil
  | @cons op _ selected _ hemit hemits ih =>
    cases hcontiguous with
    | @cons _ _ placed ops hrest =>
      obtain ⟨hop, hops⟩ := List.forall_mem_cons.mp hshape
      have hsame : placed.length = op.length := congrArg Opcode.length hemit.opcode
      have hlength : 0 < op.length := Nat.add_pos_left Nat.one_pos _
      rw [hsame] at hrest
      have hself : s.FixedAt (s.fixup? start op).toList op ⟨start, placed⟩ :=
        fixedAt_self op ⟨start, placed⟩
      rw [fixupsFrom]
      refine .cons (hself.append_right fun f hf => ?_)
        (forall₂_imp_of_mem (ih hops hrest) fun op' placed' hplaced' h => h.append_left ?_)
      · have hlower := ((fixupsFrom_inRange hops).bounds f hf).1
        dsimp only
        omega
      · intro f hf
        have hupper := ((fixup?_inRange hop).bounds f hf).2
        have hlower := (hrest.bounds.2 placed' hplaced').1
        omega

/-- A fixup of a run of operations waits at one of them. -/
theorem exists_op_of_mem_fixupsFrom (hcontiguous : Contiguous start ops finish)
    (hemits : List.Forall₂ (Emits F code base) selected ops)
    (h : f ∈ s.fixupsFrom start selected) :
    ∃ pair ∈ selected.zip ops, s.fixup? pair.2.offset pair.1 = some f := by
  induction hemits generalizing start with
  | nil => cases h
  | @cons op _ selected _ hemit _ ih =>
    cases hcontiguous with
    | @cons _ _ placed ops hrest =>
      have hsame : placed.length = op.length := congrArg Opcode.length hemit.opcode
      rw [hsame] at hrest
      rw [List.zip_cons_cons]
      rcases List.mem_append.mp h with h | h
      · exact ⟨_, List.mem_cons_self, Option.mem_toList.mp h⟩
      · obtain ⟨pair, hpair, hfixup⟩ := ih hrest h
        exact ⟨pair, List.mem_cons_of_mem _ hpair, hfixup⟩

end Ops

section Codes

variable {codes : List PlacedCode} {listings : List FunctionListing} {bytes : List UInt8}

/-- **Each operation of a module is the place of its own fixup only.**  The fixups of one function
are in its own range. -/
theorem fixedAt_fixupsOf (hshape : ∀ code ∈ codes, code.WellShaped)
    (hwritten : ListingsWritten start listings bytes)
    (hlists : List.Forall₂ (ListsCode F) codes listings) :
    List.Forall₂ (fun code listing =>
        List.Forall₂ (s.FixedAt (s.fixupsOf start codes)) code.instrs.flatten listing.ops)
      codes listings := by
  induction hlists generalizing start bytes with
  | nil => exact .nil
  | @cons code listing codes listings hcode hcodes ih =>
    cases hwritten with
    | @cons _ bytes rest _ hlisting hrest =>
      obtain ⟨hshape, hshapes⟩ := List.forall_mem_cons.mp hshape
      have hown := fixedAt_fixupsFrom (s := s) hshape.flatten hcode.contiguous hcode.emits
      rw [fixupsOf, Nat.add_assoc listing.offset Descriptor.size (totalLength _),
        ← CompiledModule.length_of_written hlisting hcode]
      refine .cons (forall₂_imp_of_mem hown fun op placed hplaced h => h.append_right ?_)
        (forall₂_imp_of_mem (ih hshapes hrest) fun code' listing' hlisting' h =>
          forall₂_imp_of_mem h fun op placed hplaced h => h.append_left ?_)
      · intro f hf
        have hlower := ((fixupsOf_inRange hshapes hrest hcodes).bounds f hf).1
        have hupper := (hlisting.bounds placed hplaced).2
        omega
      · intro f hf
        have hupper := ((fixupsFrom_inRange_of_written hshape hlisting hcode).bounds f hf).2
        have hlower := hrest.le_offset listing' hlisting' placed hplaced
        omega

/-- **Every fixup of a module waits at an operation.** -/
theorem exists_op_of_mem_fixupsOf (hwritten : ListingsWritten start listings bytes)
    (hlists : List.Forall₂ (ListsCode F) codes listings) (h : f ∈ s.fixupsOf start codes) :
    ∃ (k : Nat) (code : PlacedCode) (listing : FunctionListing) (pair : SelectedOp × PlacedOp),
      codes[k]? = some code ∧ listings[k]? = some listing ∧
        pair ∈ code.instrs.flatten.zip listing.ops ∧ s.fixup? pair.2.offset pair.1 = some f := by
  induction hlists generalizing start bytes with
  | nil => cases h
  | @cons code listing codes listings hcode _ ih =>
    cases hwritten with
    | @cons _ bytes rest _ hlisting hrest =>
      rw [fixupsOf, Nat.add_assoc _ Descriptor.size,
        ← CompiledModule.length_of_written hlisting hcode] at h
      rcases List.mem_append.mp h with h | h
      · obtain ⟨pair, hpair, hfixup⟩ := exists_op_of_mem_fixupsFrom hcode.contiguous hcode.emits h
        exact ⟨0, code, listing, pair, rfl, rfl, hpair, hfixup⟩
      · obtain ⟨k, code', listing', pair, hcode', hlisting', hpair, hfixup⟩ := ih hrest h
        exact ⟨k + 1, code', listing', pair, hcode', hlisting', hpair, hfixup⟩

end Codes

end ModuleScope

end StackCode
