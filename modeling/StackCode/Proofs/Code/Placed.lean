import StackCode.Code.Placement
import StackCode.Proofs.Image.Codec
import StackCode.Proofs.Sequencing

/-!
# What placement keeps

Placement changes nothing but the form of branches, and the offset it finds for an instruction is
the length of all operations before it.

## Main definitions

* `FinalForm`: an operation and what placement makes of it.
* `totalLength`, `startsFrom`: the length of operations, and where groups of operations start.

## Main results

* `FunctionCode.placed_of_place`: what is known of placed code.
-/

namespace StackCode

/-- The final form of an operation: the operation itself, or a branch in its long form. -/
structure FinalForm (op final : SelectedOp) : Prop where
  opcode : final.opcode = op.opcode ∨ op.opcode.longForm? = some final.opcode
  operand : final.operand = op.operand

/-- The long form of a branch takes the same operands. -/
theorem FinalForm.wellShaped {op final : SelectedOp} (h : FinalForm op final)
    (hshape : op.WellShaped) : final.WellShaped := by
  obtain ⟨opcode, operand⟩ := final
  obtain ⟨hopcode, rfl⟩ := h
  rcases hopcode with rfl | hlong
  · exact hshape
  · obtain ⟨opcode', operand⟩ := op
    unfold Operation.WellShaped at hshape ⊢
    dsimp only at hlong hshape ⊢
    unfold Opcode.longForm? at hlong
    split at hlong <;> cases hlong <;> cases operand <;> cases hshape <;> rfl

/-- The length of operations one after the other. -/
def totalLength {φ τ : Type} : List (Operation φ τ) → Nat
  | [] => 0
  | op :: ops => op.length + totalLength ops

/-- Where groups of operations start that follow each other from `position` on. -/
def startsFrom {φ τ : Type} (position : Nat) : List (List (Operation φ τ)) → List Nat
  | [] => []
  | ops :: groups => position :: startsFrom (position + totalLength ops) groups

theorem totalLength_append {φ τ : Type} (a b : List (Operation φ τ)) :
    totalLength (a ++ b) = totalLength a + totalLength b := by
  induction a with
  | nil => exact (Nat.zero_add _).symm
  | cons op a ih => rw [List.cons_append, totalLength, ih, totalLength, Nat.add_assoc]

theorem map_add_startsFrom {φ τ : Type} (base position : Nat)
    (groups : List (List (Operation φ τ))) :
    (startsFrom position groups).map (base + ·) = startsFrom (base + position) groups := by
  induction groups generalizing position with
  | nil => rfl
  | cons ops groups ih => rw [startsFrom, List.map_cons, ih, startsFrom, Nat.add_assoc]

@[simp] theorem length_startsFrom {φ τ : Type} (position : Nat)
    (groups : List (List (Operation φ τ))) :
    (startsFrom position groups).length = groups.length := by
  induction groups generalizing position with
  | nil => rfl
  | cons ops groups ih => rw [startsFrom, List.length_cons, ih, List.length_cons]

/-- No group starts after the end. -/
theorem le_of_mem_startsFrom {φ τ : Type} {position offset : Nat}
    {groups : List (List (Operation φ τ))} (h : offset ∈ startsFrom position groups) :
    offset ≤ position + totalLength groups.flatten := by
  induction groups generalizing position with
  | nil => cases h
  | cons ops groups ih =>
    rw [List.flatten_cons, totalLength_append, ← Nat.add_assoc]
    rcases List.mem_cons.mp h with rfl | h
    · rw [Nat.add_assoc]
      exact Nat.le_add_right _ _
    · exact ih h

namespace PlacementContext

variable {c : PlacementContext}

theorem finalForm?_eq_some {offsets : Array Nat} {index position rest : Nat}
    {op final : SelectedOp} (h : c.finalForm? offsets index position rest op = some final) :
    FinalForm op final := by
  unfold finalForm? at h
  split at h
  · split at h
    · cases h
    · split at h
      · cases h
        exact ⟨.inl rfl, rfl⟩
      · obtain ⟨long, hlong, rfl⟩ := Option.map_eq_some_iff.mp h
        exact ⟨.inr hlong, rfl⟩
  · cases h
    exact ⟨.inl rfl, rfl⟩

/-- Placing operations keeps each up to the form of branches, and ends after all of them. -/
theorem placeOps_eq_some {offsets : Array Nat} {index position rest finish : Nat}
    {ops placed : List SelectedOp}
    (h : c.placeOps offsets index ops position rest = some (placed, finish)) :
    List.Forall₂ FinalForm ops placed ∧ finish = position + totalLength placed := by
  induction ops generalizing position rest placed with
  | nil =>
    cases h
    exact ⟨.nil, rfl⟩
  | cons op ops ih =>
    simp only [placeOps] at h
    split at h
    · cases h
    · rename_i final hfinal
      split at h
      · cases h
      · rename_i others finish' hothers
        cases h
        obtain ⟨hforms, rfl⟩ := ih hothers
        refine ⟨.cons (finalForm?_eq_some hfinal) hforms, ?_⟩
        rw [totalLength, Nat.add_assoc]

/-- Placing instructions one after the other, from a placement on.  Each starts where those before
it end. -/
theorem placeInstrs_eq_ok {instrs : List (List SelectedOp)} {p q : Placement}
    (h : instrs.foldlM c.placeInstr p = .ok q) :
    ∃ placed, List.Forall₂ (List.Forall₂ FinalForm) instrs placed ∧
      q.instrs.toList = p.instrs.toList ++ placed ∧
      q.offsets.toList = p.offsets.toList ++ startsFrom p.position placed ∧
      q.position = p.position + totalLength placed.flatten := by
  induction instrs generalizing p with
  | nil =>
    cases h
    exact ⟨[], .nil, (List.append_nil _).symm, (List.append_nil _).symm, rfl⟩
  | cons ops instrs ih =>
    rw [List.foldlM_cons] at h
    obtain ⟨mid, hmid, h⟩ := bind_eq_ok.mp h
    obtain ⟨offsets, before, position⟩ := p
    simp only [placeInstr] at hmid
    split at hmid
    · cases hmid
    · rename_i placedOps finish hplaceOps
      cases hmid
      obtain ⟨hforms, rfl⟩ := placeOps_eq_some hplaceOps
      obtain ⟨placed, hplaced, hinstrs, hoffsets, hposition⟩ := ih h
      refine ⟨placedOps :: placed, .cons hforms hplaced, ?_, ?_, ?_⟩
      · rw [hinstrs, Array.toList_push, List.append_assoc, List.singleton_append]
      · rw [hoffsets, Array.toList_push, List.append_assoc, List.singleton_append, startsFrom]
      · rw [hposition, List.flatten_cons, totalLength_append, Nat.add_assoc]

end PlacementContext

/-- What is known of placed code. -/
structure Placed (code : FunctionCode) (placed : PlacedCode) : Prop where
  descriptor : placed.descriptor = code.descriptor
  labels : placed.labels = code.labels
  finalForm : List.Forall₂ (List.Forall₂ FinalForm) code.instrs placed.instrs
  offsets : placed.offsets.toList = startsFrom 0 placed.instrs
  size : placed.size = totalLength placed.instrs.flatten

/-- Placed code has operands of the shapes its opcodes ask for, if the code has. -/
theorem Placed.wellShaped {code : FunctionCode} {placed : PlacedCode} (h : Placed code placed)
    (hshape : ∀ ops ∈ code.instrs, ∀ op ∈ ops, op.WellShaped) :
    ∀ ops ∈ placed.instrs, ∀ op ∈ ops, op.WellShaped := by
  intro ops hops op hop
  obtain ⟨ops', hops', hforms⟩ := mem_of_forall₂ h.finalForm hops
  obtain ⟨op', hop', hform⟩ := mem_of_forall₂ hforms hop
  exact hform.wellShaped (hshape ops' hops' op' hop')

/-- **Placement keeps its promise.** -/
theorem FunctionCode.placed_of_place {code : FunctionCode} {placed : PlacedCode}
    (h : code.place = .ok placed) : Placed code placed := by
  obtain ⟨q, hq, h⟩ := bind_eq_ok.mp h
  obtain ⟨_, -, h⟩ := bind_eq_ok.mp h
  cases pure_eq_ok.mp h
  obtain ⟨instrs, hforms, hinstrs, hoffsets, hposition⟩ :=
    PlacementContext.placeInstrs_eq_ok (mapError_eq_ok.mp hq)
  rw [List.nil_append] at hinstrs hoffsets
  subst hinstrs
  exact ⟨rfl, rfl, hforms, hoffsets, hposition.trans (Nat.zero_add _)⟩

end StackCode
