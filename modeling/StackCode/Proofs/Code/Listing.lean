import StackCode.Proofs.Code.Compiled

/-!
# Listings of compiled functions

The listing of a function in an image has one group of operations for each of its instructions.
Each operation stands for the one selected, each group starts where the module says, and each label
is resolved to the instruction it stands at.  This holds of the image that is compiled and of the
one that is linked; they differ in what a token says of an imported function.

## Main definitions

* `StandsFor`: an operation of an image and the selected operation it stands for.
* `GroupsAt`: groups of operations that follow each other.
* `CompiledModule.LabelAt`: the offset a label is resolved to.
* `CompiledModule.Lists`: the listing of a function.

## Main results

* `CompiledModule.Holds.forall₂_lists`: what the listings of a compiled module list.
-/

namespace StackCode

/-- An operation of an image stands for a selected one.  A branch may be in its long form; functions
are named as `F` says and labels are resolved as `T` says. -/
structure StandsFor (F : FuncRef → Token → Prop) (T : Label → Nat → Prop) (op : SelectedOp)
    (placed : PlacedOp) : Prop where
  opcode : placed.op.opcode = op.opcode ∨ op.opcode.longForm? = some placed.op.opcode
  operand : op.operand.Renames F T placed.op.operand

/-- What is emitted for the final form of an operation stands for the operation. -/
theorem Emits.standsFor {F : FuncRef → Token → Prop} {T : Label → Nat → Prop} {code : PlacedCode}
    {base : Nat} {op final : SelectedOp} {placed : PlacedOp} (h : Emits F code base final placed)
    (hform : FinalForm op final) (hT : ∀ l offset, code.TargetAt base l offset → T l offset) :
    StandsFor F T op placed := by
  refine ⟨?_, ?_⟩
  · rw [h.opcode]
    exact hform.opcode
  · rw [← hform.operand]
    exact h.operand.imp (fun _ _ => id) fun l offset _ => hT l offset

/-! ### Groups of operations -/

/-- Groups of operations that follow each other without a gap from `start` to `finish`; `starts`
says where each group starts. -/
inductive GroupsAt : Nat → List Nat → List (List PlacedOp) → Nat → Prop
  | nil (start : Nat) : GroupsAt start [] [] start
  | cons {start mid finish : Nat} {starts : List Nat} {ops : List PlacedOp}
      {groups : List (List PlacedOp)} (hops : Contiguous start ops mid)
      (hrest : GroupsAt mid starts groups finish) :
      GroupsAt start (start :: starts) (ops :: groups) finish

namespace GroupsAt

variable {start finish : Nat} {starts : List Nat} {groups : List (List PlacedOp)}

/-- A group reaches from its start to that of the next. -/
theorem contiguous {i : Nat} {ops : List PlacedOp} (h : GroupsAt start starts groups finish)
    (hops : groups[i]? = some ops) :
    ∃ first last, starts[i]? = some first ∧ Contiguous first ops last ∧
      ∀ next, starts[i + 1]? = some next → next = last := by
  induction h generalizing i with
  | nil start => cases hops
  | @cons start mid finish starts ops' groups hops' hrest ih =>
    cases i with
    | zero =>
      cases hops
      refine ⟨start, mid, rfl, hops', fun next hnext => ?_⟩
      cases hrest with
      | nil => cases hnext
      | cons => exact (Option.some.inj hnext).symm
    | succ i => exact ih hops

theorem length_eq (h : GroupsAt start starts groups finish) : starts.length = groups.length := by
  induction h with
  | nil => rfl
  | cons _ _ ih => rw [List.length_cons, ih, List.length_cons]

end GroupsAt

theorem Contiguous.eq_of_nil {start finish : Nat} (h : Contiguous start [] finish) :
    finish = start := by
  cases h
  rfl

namespace Contiguous

variable {start finish : Nat} {ops : List PlacedOp}

theorem of_append {ops' : List PlacedOp} (h : Contiguous start (ops ++ ops') finish) :
    ∃ mid, Contiguous start ops mid ∧ Contiguous mid ops' finish := by
  induction ops generalizing start with
  | nil => exact ⟨start, .nil start, h⟩
  | cons op ops ih =>
    cases h with
    | cons hrest =>
      obtain ⟨mid, hops, hops'⟩ := ih hrest
      exact ⟨mid, .cons hops, hops'⟩

theorem eq_add_totalLength {F : FuncRef → Token → Prop} {code : PlacedCode} {base : Nat}
    {selected : List SelectedOp} (h : Contiguous start ops finish)
    (hemits : List.Forall₂ (Emits F code base) selected ops) :
    finish = start + totalLength selected := by
  induction hemits generalizing start with
  | nil =>
    cases h
    rfl
  | cons hemit _ ih =>
    cases h with
    | cons hrest =>
      rw [ih hrest, totalLength, ← Nat.add_assoc, Operation.length, Operation.length, hemit.opcode]

end Contiguous

/-- Emitted operations fall into groups that start as placement says. -/
theorem GroupsAt.of_contiguous {F : FuncRef → Token → Prop} {code : PlacedCode}
    {base start finish : Nat} {instrs : List (List SelectedOp)} {groups : List (List PlacedOp)}
    (h : Contiguous start groups.flatten finish)
    (hemits : List.Forall₂ (List.Forall₂ (Emits F code base)) instrs groups) :
    GroupsAt start (startsFrom start instrs) groups finish := by
  induction hemits generalizing start with
  | nil =>
    cases h
    exact .nil _
  | cons hops _ ih =>
    rw [List.flatten_cons] at h
    obtain ⟨mid, hgroup, hrest⟩ := h.of_append
    cases hgroup.eq_add_totalLength hops
    exact .cons hgroup (ih hrest)

namespace CompiledModule

/-- The offset of instruction `i` of function `k`. -/
def instructionOffset? (cm : CompiledModule) (k i : Nat) : Option Nat :=
  cm.instructionOffsets[k]?.bind (·[i]?)

/-- The offset of label `l` of function `k`. -/
def labelOffset? (cm : CompiledModule) (k : Nat) (l : Label) : Option Nat :=
  cm.labelOffsets[k]?.bind (·[l.index]?)

/-- A label of a function is resolved to the offset the module gives for it, which is that of the
instruction the label stands at. -/
structure LabelAt (cm : CompiledModule) (func : FuncRef) (decl : FunctionDecl) (l : Label)
    (offset : Nat) : Prop where
  labelOffset : cm.labelOffset? func.index l = some offset
  instructionOffset : ∃ target, decl.labels[l.index]? = some target ∧
    cm.instructionOffset? func.index target = some offset

/-- The listing of a function in an image of the module: its frame, and for each instruction a group
of operations that stand for the selected ones. -/
structure Lists (cm : CompiledModule) (p : Program) (typing : TypedProgram)
    (F : FuncRef → Token → Prop) (func : FuncRef) (decl : FunctionDecl) (listing : FunctionListing)
    (selected : List (List SelectedOp)) (groups : List (List PlacedOp)) : Prop where
  offset : cm.functionOffsets[func.index]? = some listing.offset
  frame : ∃ frame, Frame.ofFunction p.types decl (typing.statesOf func) = .ok frame ∧
    listing.descriptor = frame.descriptor decl.zeroInit ∧ p.Selects typing func decl frame selected
  ops : listing.ops = groups.flatten
  standsFor : List.Forall₂ (List.Forall₂ (StandsFor F (cm.LabelAt func decl))) selected groups
  groupsAt : ∃ starts finish, cm.instructionOffsets[func.index]? = some starts ∧
    GroupsAt (listing.offset + Descriptor.size) starts groups finish

variable {cm : CompiledModule} {p : Program} {typing : TypedProgram} {m : ModuleDecl}
  {placed : List PlacedCode} {listings : List FunctionListing}

/-- The label of a branch is resolved as the module says. -/
theorem Holds.labelAt {func : FuncRef} {decl : FunctionDecl} {code : FunctionCode}
    {code' : PlacedCode} {listing : FunctionListing} {l : Label} {offset : Nat}
    (h : cm.Holds p typing m placed listings) (hplaced : Placed code code')
    (hlabels : code.labels = decl.labels)
    (hzip : (placed.zip listings)[func.index]? = some (code', listing))
    (htarget : code'.TargetAt (listing.offset + Descriptor.size) l offset) :
    cm.LabelAt func decl l offset := by
  obtain ⟨relative, hrelative, rfl⟩ := htarget
  unfold PlacedCode.targetOffset? at hrelative
  split at hrelative
  · rename_i target hlabel
    refine ⟨?_, target, ?_, ?_⟩
    -- labels may also stand at the end of the code, but no branch goes there
    · have hpush : (code'.offsets.push code'.size)[target]? = some relative := by
        obtain ⟨hlt, rfl⟩ := Array.getElem?_eq_some_iff.mp hrelative
        exact Array.getElem?_push_lt hlt
      rw [labelOffset?, h.labelOffsets, List.getElem?_map, hzip]
      simp [PlacedCode.labelOffsets, hlabel, hpush]
    · rw [← hlabels, ← hplaced.labels, hlabel]
    · rw [instructionOffset?, h.instructionOffsets, List.getElem?_map, hzip]
      have hstart : (startsFrom (0 : Nat) code'.instrs)[target]? = some relative := by
        rw [← hplaced.offsets, Array.getElem?_toList, hrelative]
      show (startsFrom (listing.offset + Descriptor.size + 0) code'.instrs)[target]? = _
      rw [← map_add_startsFrom, List.getElem?_map, hstart]
      rfl
  · cases hrelative

/-- **The listings of a compiled module list its functions**; so do listings at the same offsets
whose tokens name functions in another way. -/
theorem Holds.forall₂_lists {F : FuncRef → Token → Prop} {listings' : List FunctionListing}
    (h : cm.Holds p typing m placed listings)
    (hlists : List.Forall₂ (ListsCode F) placed listings')
    (hoffsets : listings'.map FunctionListing.offset = listings.map FunctionListing.offset) :
    List.Forall₂ (fun f listing => ∃ selected groups,
        cm.Lists p typing F f.1 f.2 listing selected groups)
      (Program.functionsOf cm.module m) listings' := by
  refine List.forall₂_iff_get.mpr ⟨h.codes.length_eq.trans hlists.length_eq, fun k hk hk' => ?_⟩
  obtain ⟨⟨func, decl⟩, hf⟩ : ∃ f, (Program.functionsOf cm.module m)[k]? = some f :=
    ⟨_, List.getElem?_eq_getElem hk⟩
  obtain ⟨code', hcode', code, hcode, hplaced⟩ := getElem?_of_forall₂ h.codes hf
  obtain ⟨listing', hlisting', hcodeLists⟩ := getElem?_of_forall₂ hlists hcode'
  obtain ⟨groups, hflatten, hemits⟩ := exists_groups_of_forall₂ hcodeLists.emits
  obtain ⟨listing, hlisting, -⟩ := getElem?_of_forall₂ h.lists hcode'
  have hoffset : listing.offset = listing'.offset := by
    have hboth := congrArg (·[k]?) hoffsets
    simp only [List.getElem?_map, hlisting, hlisting', Option.map_some, Option.some.injEq] at hboth
    exact hboth.symm
  have hindex : k = func.index := by
    rw [Program.getElem?_functionsOf] at hf
    obtain ⟨_, -, hf⟩ := Option.map_eq_some_iff.mp hf
    cases hf
    rfl
  subst hindex
  have hzip : (placed.zip listings)[func.index]? = some (code', listing) :=
    List.getElem?_zip_eq_some.mpr ⟨hcode', hlisting⟩
  rw [List.get_eq_getElem, List.get_eq_getElem, (List.getElem?_eq_some_iff.mp hf).2,
    (List.getElem?_eq_some_iff.mp hlisting').2]
  refine ⟨code.instrs, groups, ?_, ?_, hflatten.symm, ?_, _, _, ?_,
    .of_contiguous (hflatten ▸ hcodeLists.contiguous) hemits⟩
  · rw [← Array.getElem?_toList, h.functionOffsets, List.getElem?_map, hlisting, ← hoffset]
    rfl
  · obtain ⟨frame, hframe, hdescriptor, hselects⟩ := hcode.frame
    refine ⟨frame, hframe, ?_, hselects⟩
    rw [hcodeLists.descriptor, hplaced.descriptor, hdescriptor]
  · refine forall₂_trans (fun ops ops' group hforms hgroup => ?_) hplaced.finalForm hemits
    refine forall₂_trans (fun op final op' hform hemit => ?_) hforms hgroup
    exact hemit.standsFor hform fun l offset htarget =>
      h.labelAt hplaced hcode.labels_eq hzip (hoffset ▸ htarget)
  · rw [h.instructionOffsets, List.getElem?_map, hzip, ← hoffset]
    rfl

end CompiledModule

end StackCode
