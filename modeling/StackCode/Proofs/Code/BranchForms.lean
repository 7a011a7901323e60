import StackCode.Proofs.Code.Outcome

/-!
# The forms of branches

Placement settles the form of a branch before it has placed what follows.  Of the code behind a
branch it knows the exact lengths; of the code ahead it knows how long that can get.  So the form of
a branch backward is decided by its displacement, and the form of a branch forward by its reach: how
far its target is when every branch on the way takes its long form.  The reach bounds the
displacement whatever forms the branches on the way do take, and a short branch fits.

## Main definitions

* `PlacedCode.boundaries`: the offsets of the instructions, and of the end.
* `PlacedCode.Branch`: a branch of placed code, with where it stands and where it goes.
* `PlacedCode.Branch.displacement`: the way from its end to its target.
* `PlacedCode.Branch.reach`: the greatest displacement a branch forward can get.
* `PlacedCode.Measured`, `PlacedCode.Settled`: offsets and forms are as they should be.

## Main results

* `Placed.measured`: the offset of an instruction is the length of all before it.
* `FunctionCode.settled_of_place`: what the form of a branch is decided by.
-/

namespace StackCode

/-! ### Lengths -/

/-- The long form of a branch takes one byte more, and has no longer form itself. -/
theorem Opcode.shape_of_longForm? {opcode long : Opcode} (h : opcode.longForm? = some long) :
    opcode.shape = .rel8 ∧ long.shape = .rel16 ∧ long.longForm? = none := by
  unfold longForm? at h
  split at h <;> cases h <;> exact ⟨rfl, rfl, rfl⟩

namespace Operation

variable {φ τ : Type}

theorem length_pos (op : Operation φ τ) : 0 < op.length :=
  Nat.lt_of_lt_of_le Nat.one_pos (Nat.le_add_right _ _)

/-- An operation with a long form can be as long as that. -/
theorem maxLength_of_longForm? {op : Operation φ τ} {long : Opcode}
    (h : op.opcode.longForm? = some long) : op.maxLength = long.length := by
  rw [maxLength, h]

theorem maxLength_of_none {op : Operation φ τ} (h : op.opcode.longForm? = none) :
    op.maxLength = op.length := by
  rw [maxLength, h, length]

theorem length_le_maxLength (op : Operation φ τ) : op.length ≤ op.maxLength := by
  cases h : op.opcode.longForm? with
  | none => exact Nat.le_of_eq (maxLength_of_none h).symm
  | some long =>
    obtain ⟨hshort, hlong, -⟩ := Opcode.shape_of_longForm? h
    rw [maxLength_of_longForm? h, length, Opcode.length, Opcode.length, hshort, hlong]
    decide

end Operation

/-- An operation gets no longer form than it could before it was placed. -/
theorem FinalForm.maxLength_eq {op final : SelectedOp} (h : FinalForm op final) :
    final.maxLength = op.maxLength := by
  rcases h.opcode with hsame | hlong
  · simp only [Operation.maxLength, hsame]
  · rw [Operation.maxLength_of_longForm? hlong,
      Operation.maxLength_of_none (Opcode.shape_of_longForm? hlong).2.2, Operation.length]

theorem maxLength_append (a b : List SelectedOp) :
    maxLength (a ++ b) = maxLength a + maxLength b := by
  induction a with
  | nil => exact (Nat.zero_add _).symm
  | cons op a ih => rw [List.cons_append, maxLength, ih, maxLength, Nat.add_assoc]

theorem totalLength_le_maxLength (ops : List SelectedOp) : totalLength ops ≤ maxLength ops := by
  induction ops with
  | nil => exact Nat.le_refl _
  | cons op ops ih => exact Nat.add_le_add op.length_le_maxLength ih

theorem sum_map_maxLength (instrs : List (List SelectedOp)) :
    (instrs.map maxLength).sum = maxLength instrs.flatten := by
  induction instrs with
  | nil => rfl
  | cons ops instrs ih =>
    rw [List.map_cons, List.sum_cons, ih, List.flatten_cons, maxLength_append]

/-- Placing operations does not change how long they can get. -/
theorem maxLength_of_forms {ops placed : List SelectedOp} (h : List.Forall₂ FinalForm ops placed) :
    maxLength placed = maxLength ops := by
  induction h with
  | nil => rfl
  | cons hop _ ih => rw [maxLength, maxLength, hop.maxLength_eq, ih]

theorem map_maxLength_of_forms {instrs placed : List (List SelectedOp)}
    (h : List.Forall₂ (List.Forall₂ FinalForm) instrs placed) :
    placed.map maxLength = instrs.map maxLength := by
  induction h with
  | nil => rfl
  | cons hops _ ih => rw [List.map_cons, List.map_cons, maxLength_of_forms hops, ih]

/-- An instruction starts where those before it end. -/
theorem getElem?_startsFrom {φ τ : Type} {groups : List (List (Operation φ τ))} {i : Nat}
    (h : i < groups.length) (position : Nat) :
    (startsFrom position groups)[i]? = some (position + totalLength (groups.take i).flatten) := by
  induction groups generalizing position i with
  | nil => cases h
  | cons ops groups ih =>
    cases i with
    | zero => rfl
    | succ i =>
      rw [startsFrom, List.getElem?_cons_succ, ih (Nat.lt_of_succ_lt_succ h), List.take_succ_cons,
        List.flatten_cons, totalLength_append, Nat.add_assoc]

/-- What stands between two instructions, the second not before the first. -/
theorem take_flatten_split {α : Type} (groups : List (List α)) {i j : Nat} (h : i ≤ j) :
    (groups.take j).flatten = (groups.take i).flatten ++ ((groups.take j).drop i).flatten := by
  rw [← List.flatten_append]
  conv_lhs => rw [← List.take_append_drop i (groups.take j)]
  rw [List.take_take, Nat.min_eq_left h]

/-! ### Offsets -/

namespace PlacedCode

/-- The offset of each instruction, and that of the end. -/
def boundaries (code : PlacedCode) : Array Nat := code.offsets.push code.size

/-- The offsets of the instructions are the lengths of all operations before them. -/
structure Measured (code : PlacedCode) : Prop where
  size : code.boundaries.size = code.instrs.length + 1
  offset : ∀ i ≤ code.instrs.length,
    code.boundaries[i]? = some (totalLength (code.instrs.take i).flatten)
  last : code.boundaries.back? = some (totalLength code.instrs.flatten)
  ascends : ∀ (i offset next : Nat), code.boundaries[i]? = some offset →
    code.boundaries[i + 1]? = some next → offset ≤ next

end PlacedCode

/-- Later instructions start later. -/
theorem totalLength_take_mono {φ τ : Type} (groups : List (List (Operation φ τ))) {i j : Nat}
    (h : i ≤ j) :
    totalLength (groups.take i).flatten ≤ totalLength (groups.take j).flatten := by
  rw [take_flatten_split groups h, totalLength_append]
  exact Nat.le_add_right _ _

namespace Placed

variable {code : FunctionCode} {placed : PlacedCode}

theorem getElem?_offsets (h : Placed code placed) {i : Nat} (hi : i < placed.instrs.length) :
    placed.offsets[i]? = some (totalLength (placed.instrs.take i).flatten) := by
  rw [← Array.getElem?_toList, h.offsets, getElem?_startsFrom hi, Nat.zero_add]

/-- **Offsets are exact.** -/
theorem measured (h : Placed code placed) : placed.Measured := by
  have hcount : placed.offsets.size = placed.instrs.length := by
    rw [h.size_offsets, h.finalForm.length_eq]
  have hsize : placed.boundaries.size = placed.instrs.length + 1 := by
    rw [PlacedCode.boundaries, Array.size_push, hcount]
  have hoffset : ∀ i ≤ placed.instrs.length,
      placed.boundaries[i]? = some (totalLength (placed.instrs.take i).flatten) := by
    intro i hi
    rcases Nat.lt_or_eq_of_le hi with hlt | rfl
    · rw [PlacedCode.boundaries, Array.getElem?_push, if_neg (by omega), h.getElem?_offsets hlt]
    · rw [PlacedCode.boundaries, ← hcount, Array.getElem?_push_size, hcount, List.take_length,
        h.size]
  refine ⟨hsize, hoffset, ?_, fun i offset next hi hnext => ?_⟩
  · rw [PlacedCode.boundaries, Array.back?_push, h.size]
  · have hlt : i + 1 < placed.boundaries.size := Array.getElem?_eq_some_iff.mp hnext |>.1
    rw [hsize] at hlt
    rw [hoffset i (by omega)] at hi
    rw [hoffset (i + 1) (by omega)] at hnext
    cases hi
    cases hnext
    exact totalLength_take_mono _ (Nat.le_succ i)

end Placed

/-! ### Branches -/

/-- The length of a branch in its short form. -/
def shortLength : Nat := 1 + Shape.rel8.length

/-- A branch of placed code: where it stands and where it goes. -/
structure PlacedCode.Branch (code : PlacedCode) where
  /-- The instruction it belongs to. -/
  index : Nat
  /-- The operations of the instruction before it. -/
  before : List SelectedOp
  op : SelectedOp
  /-- The operations of the instruction after it. -/
  after : List SelectedOp
  label : Label
  /-- The instruction it goes to. -/
  target : Nat
  /-- The offset of that instruction. -/
  offset : Nat
  stands : code.instrs[index]? = some (before ++ op :: after)
  operand : op.operand = .target label
  label_target : code.labels[label.index]? = some target
  target_offset : code.offsets[target]? = some offset

namespace PlacedCode.Branch

variable {code : PlacedCode}

/-- All operations of the code before the branch. -/
def preceding (b : code.Branch) : List SelectedOp :=
  (code.instrs.take b.index).flatten ++ b.before

/-- Where the branch starts. -/
def start (b : code.Branch) : Nat := totalLength b.preceding

/-- Whether the displacement is written in one byte. -/
def IsShort (b : code.Branch) : Prop := b.op.opcode.shape = .rel8

/-- The way to the target from where the branch would end if it had this length. -/
def displacementAt (b : code.Branch) (length : Nat) : Int := b.offset - (b.start + length : Nat)

/-- The way from the end of the branch to its target. -/
def displacement (b : code.Branch) : Int := b.displacementAt b.op.length

/-- The operations between the instruction of the branch and its target. -/
def between (b : code.Branch) : List SelectedOp :=
  ((code.instrs.take b.target).drop (b.index + 1)).flatten

/-- How far a branch forward has to go if every branch on the way takes its long form. -/
def reach (b : code.Branch) : Nat := maxLength b.after + maxLength b.between

/-- Short branches are all of one length. -/
theorem length_of_isShort (b : code.Branch) (h : b.IsShort) : b.op.length = shortLength := by
  rw [Operation.length, Opcode.length, h, shortLength]

theorem index_lt (b : code.Branch) : b.index < code.instrs.length :=
  (List.getElem?_eq_some_iff.mp b.stands).1

/-- The instructions up to that of the branch. -/
theorem take_index (b : code.Branch) :
    (code.instrs.take (b.index + 1)).flatten = b.preceding ++ b.op :: b.after := by
  rw [List.take_add_one, b.stands, Option.toList_some, List.flatten_append, List.flatten_singleton,
    preceding, List.append_assoc]

/-- A branch goes to an instruction of the code. -/
theorem target_lt (b : code.Branch) {source : FunctionCode} (h : Placed source code) :
    b.target < code.instrs.length := by
  rw [← h.finalForm.length_eq, ← h.size_offsets]
  exact (Array.getElem?_eq_some_iff.mp b.target_offset).1

/-- A branch goes to the start of its target. -/
theorem offset_eq (b : code.Branch) {source : FunctionCode} (h : Placed source code) :
    b.offset = totalLength (code.instrs.take b.target).flatten := by
  have hoffset := b.target_offset
  rw [h.getElem?_offsets (b.target_lt h)] at hoffset
  exact (Option.some.inj hoffset).symm

/-- A branch forward goes over the rest of its instruction and all up to its target. -/
theorem displacement_forward (b : code.Branch) {source : FunctionCode} (h : Placed source code)
    (hforward : b.index < b.target) :
    b.displacement = (totalLength b.after + totalLength b.between : Nat) := by
  have hoffset : b.offset =
      b.start + (b.op.length + totalLength b.after) + totalLength b.between := by
    rw [b.offset_eq h, take_flatten_split _ hforward, b.take_index, totalLength_append,
      totalLength_append, totalLength, start, between]
  rw [displacement, displacementAt, hoffset]
  omega

/-- The reach is the greatest displacement. -/
theorem displacement_le_reach (b : code.Branch) {source : FunctionCode} (h : Placed source code)
    (hforward : b.index < b.target) : 0 ≤ b.displacement ∧ b.displacement ≤ b.reach := by
  rw [b.displacement_forward h hforward]
  refine ⟨Int.natCast_nonneg _, Int.ofNat_le.mpr ?_⟩
  exact Nat.add_le_add (totalLength_le_maxLength _) (totalLength_le_maxLength _)

end PlacedCode.Branch

/-- The forms of the branches: a branch backward is short if its displacement fits in a byte, a
branch forward if its reach does. -/
structure PlacedCode.Settled (code : PlacedCode) : Prop where
  backward : ∀ b : code.Branch, b.target ≤ b.index →
    (b.IsShort ↔ fitsShort (b.displacementAt shortLength) = true)
  forward : ∀ b : code.Branch, b.index < b.target → (b.IsShort ↔ b.reach ≤ 127)
  short_fits : ∀ b : code.Branch, b.IsShort → fitsShort b.displacement = true

/-! ### Decisions -/

namespace PlacementContext

variable {c : PlacementContext}

/-- A branch that has a long form is short where it can stay so. -/
theorem shape_eq_rel8_iff {offsets : Array Nat} {index position rest : Nat}
    {op final : SelectedOp} {l : Label} (hl : op.operand = .target l)
    (hlong : ∃ long, op.opcode.longForm? = some long)
    (h : c.finalForm? offsets index position rest op = some final) :
    ∃ target, c.target? l = some target ∧ (final.opcode.shape = .rel8 ↔
      c.staysShort offsets index target (position + shortLength) rest = true) := by
  obtain ⟨long, hlong⟩ := hlong
  obtain ⟨hshort, hrel16, -⟩ := Opcode.shape_of_longForm? hlong
  have hlength : op.length = shortLength := by
    rw [Operation.length, Opcode.length, hshort, shortLength]
  simp only [finalForm?, hl, hlength] at h
  split at h
  · cases h
  · rename_i target htarget
    refine ⟨target, htarget, ?_⟩
    split at h
    · rename_i hstays
      cases h
      exact iff_of_true hshort hstays
    · rename_i hstays
      rw [hlong] at h
      cases h
      refine iff_of_false ?_ hstays
      rw [hrel16]
      decide

/-- The decision on an operation, among those of its instruction. -/
theorem placeOps_split {offsets : Array Nat} {index position finish : Nat}
    {ops before after : List SelectedOp} {final : SelectedOp}
    (h : c.placeOps offsets index ops position (maxLength ops) =
      some (before ++ final :: after, finish)) :
    ∃ op ∈ ops, FinalForm op final ∧
      c.finalForm? offsets index (position + totalLength before) (maxLength after) op =
        some final := by
  induction ops generalizing position before with
  | nil =>
    cases before <;> cases h
  | cons op ops ih =>
    simp only [placeOps, maxLength, Nat.add_sub_cancel_left] at h
    split at h
    · cases h
    · rename_i first hfirst
      split at h
      · cases h
      · rename_i others finish' hothers
        cases before with
        | nil =>
          cases h
          refine ⟨op, List.mem_cons_self, finalForm?_eq_some hfirst, ?_⟩
          rwa [totalLength, Nat.add_zero, maxLength_of_forms (placeOps_eq_some hothers).1]
        | cons _ before =>
          cases h
          obtain ⟨op', hop', hform, hfinal⟩ := ih hothers
          refine ⟨op', List.mem_cons_of_mem _ hop', hform, ?_⟩
          rwa [totalLength, ← Nat.add_assoc]

theorem placeInstr_eq_ok {p q : Placement} {group : List SelectedOp}
    (h : c.placeInstr p group = .ok q) :
    ∃ ops, c.placeOps (p.offsets.push p.position) p.instrs.size group p.position
        (maxLength group) = some (ops, q.position) ∧
      q.offsets = p.offsets.push p.position ∧ q.instrs = p.instrs.push ops := by
  simp only [placeInstr] at h
  split at h
  · cases h
  · rename_i ops finish hops
    cases h
    exact ⟨ops, hops, rfl, rfl⟩

/-- An instruction is placed after those before it, of which the offsets are known. -/
theorem placeInstrs_split {instrs before after : List (List SelectedOp)} {ops : List SelectedOp}
    {p q : Placement} (h : instrs.foldlM c.placeInstr p = .ok q)
    (hq : q.instrs.toList = p.instrs.toList ++ (before ++ ops :: after)) :
    ∃ offsets, ∃ group ∈ instrs, ∃ finish,
      offsets.toList = p.offsets.toList ++ startsFrom p.position (before ++ [ops]) ∧
      c.placeOps offsets (p.instrs.size + before.length) group
        (p.position + totalLength before.flatten) (maxLength group) = some (ops, finish) := by
  induction instrs generalizing p before with
  | nil =>
    cases h
    cases (List.append_eq_nil_iff.mp (List.self_eq_append_right.mp hq)).2
  | cons group instrs ih =>
    rw [List.foldlM_cons] at h
    obtain ⟨mid, hmid, h⟩ := bind_eq_ok.mp h
    obtain ⟨first, hfirst, hoffsets, hinstrs⟩ := placeInstr_eq_ok hmid
    obtain ⟨placed, -, hplaced, -⟩ := placeInstrs_eq_ok h
    rw [hplaced, hinstrs, Array.toList_push, List.append_assoc, List.append_cancel_left_eq] at hq
    cases before with
    | nil =>
      cases hq
      exact ⟨_, group, List.mem_cons_self, mid.position, Array.toList_push, hfirst⟩
    | cons _ before =>
      obtain ⟨rfl, rfl⟩ := List.cons.inj hq
      obtain ⟨offsets, group', hgroup', finish, hrecorded, hplace⟩ := ih h hplaced
      have hposition := (placeOps_eq_some hfirst).2
      rw [hoffsets, hposition, Array.toList_push, List.append_assoc] at hrecorded
      rw [hinstrs, hposition, Array.size_push, Nat.add_assoc, Nat.add_comm 1, Nat.add_assoc,
        ← totalLength_append] at hplace
      exact ⟨offsets, group', List.mem_cons_of_mem _ hgroup', finish, hrecorded, hplace⟩

end PlacementContext

namespace FunctionCode

variable {code : FunctionCode} {placed : PlacedCode}

/-- The greatest distance is that of the instructions in their longest forms. -/
theorem span_eq (h : Placed code placed) {index target : Nat} (hforward : index < target)
    (htarget : target ≤ placed.instrs.length) :
    code.context.span index target =
      maxLength ((placed.instrs.take target).drop (index + 1)).flatten := by
  have hsum : ∀ i ≤ target, code.context.bounds[i]?.getD 0 =
      maxLength (placed.instrs.take i).flatten := by
    intro i hi
    have hle : i ≤ (code.instrs.map maxLength).length := by
      rw [List.length_map, h.finalForm.length_eq]
      exact Nat.le_trans hi htarget
    rw [context, getElem?_prefixSums hle, Option.getD_some, ← map_maxLength_of_forms h.finalForm,
      ← List.map_take, sum_map_maxLength]
  rw [PlacementContext.span, hsum target (Nat.le_refl _), hsum (index + 1) hforward,
    take_flatten_split _ hforward, maxLength_append, Nat.add_sub_cancel_left]

/-- Placing code places its instructions one after the other. -/
theorem place_eq_ok (h : code.place = .ok placed) :
    ∃ q, code.instrs.foldlM code.context.placeInstr ⟨#[], #[], 0⟩ = .ok q ∧
      placed.instrs = q.instrs.toList := by
  obtain ⟨q, hq, h⟩ := bind_eq_ok.mp h
  obtain ⟨_, -, h⟩ := bind_eq_ok.mp h
  cases pure_eq_ok.mp h
  exact ⟨q, mapError_eq_ok.mp hq, rfl⟩

/-- A branch is short where placement finds that it can stay so. -/
theorem isShort_iff_staysShort (hclosed : code.Closed) (h : code.place = .ok placed)
    (b : placed.Branch) :
    ∃ offsets, offsets.toList = startsFrom 0 (placed.instrs.take (b.index + 1)) ∧
      (b.IsShort ↔ code.context.staysShort offsets b.index b.target (b.start + shortLength)
        (maxLength b.after) = true) := by
  obtain ⟨q, hq, hinstrs⟩ := place_eq_ok h
  have hsplit : placed.instrs =
      placed.instrs.take b.index ++ (b.before ++ b.op :: b.after) ::
        placed.instrs.drop (b.index + 1) := by
    have hget := (List.getElem?_eq_some_iff.mp b.stands).2
    rw [← hget, ← List.drop_eq_getElem_cons, List.take_append_drop]
  obtain ⟨offsets, group, hgroup, finish, hoffsets, hplace⟩ :=
    PlacementContext.placeInstrs_split hq (hinstrs.symm.trans hsplit)
  have hindex : (placed.instrs.take b.index).length = b.index :=
    List.length_take_of_le (Nat.le_of_lt b.index_lt)
  simp only [List.nil_append, Array.size_empty, Nat.zero_add, hindex] at hoffsets hplace
  obtain ⟨op, hop, hform, hfinal⟩ := PlacementContext.placeOps_split hplace
  have hl : op.operand = .target b.label := hform.operand.symm.trans b.operand
  have hlong := (hclosed group hgroup op hop b.label hl).2
  obtain ⟨target, htarget, hiff⟩ := PlacementContext.shape_eq_rel8_iff hl hlong hfinal
  have hlabel := (PlacementContext.target?_eq_some.mp htarget).1
  rw [show code.context.labels = placed.labels from (placed_of_place h).labels.symm,
    b.label_target] at hlabel
  cases hlabel
  rw [← totalLength_append] at hiff
  refine ⟨offsets, ?_, hiff⟩
  rw [List.take_add_one, b.stands]
  exact hoffsets

/-- **What the form of a branch is decided by.**  Forward, the displacement is within the reach;
backward, it is the one that was decided on. -/
theorem settled_of_place (hclosed : code.Closed) (h : code.place = .ok placed) :
    placed.Settled := by
  have hplaced := placed_of_place h
  have hbackward : ∀ b : placed.Branch, b.target ≤ b.index →
      (b.IsShort ↔ fitsShort (b.displacementAt shortLength) = true) := by
    intro b hle
    obtain ⟨offsets, hoffsets, hiff⟩ := isShort_iff_staysShort hclosed h b
    have htarget : offsets[b.target]? = some b.offset := by
      have hlt : b.target < (placed.instrs.take (b.index + 1)).length := by
        rw [List.length_take_of_le b.index_lt]
        exact Nat.lt_succ_of_le hle
      rw [← Array.getElem?_toList, hoffsets, getElem?_startsFrom hlt, List.take_take,
        Nat.min_eq_left (Nat.le_succ_of_le hle), Nat.zero_add, b.offset_eq hplaced]
    rw [hiff, PlacementContext.staysShort, if_pos hle, htarget]
    rfl
  have hforward : ∀ b : placed.Branch, b.index < b.target → (b.IsShort ↔ b.reach ≤ 127) := by
    intro b hlt
    obtain ⟨offsets, -, hiff⟩ := isShort_iff_staysShort hclosed h b
    rw [hiff, PlacementContext.staysShort, if_neg (Nat.not_le_of_lt hlt),
      span_eq hplaced hlt (Nat.le_of_lt (b.target_lt hplaced)), decide_eq_true_iff]
    rfl
  refine ⟨hbackward, hforward, fun b hshort => ?_⟩
  rcases Nat.lt_or_ge b.index b.target with hlt | hle
  · obtain ⟨hlo, hhi⟩ := b.displacement_le_reach hplaced hlt
    have hreach := (hforward b hlt).mp hshort
    exact decide_eq_true ⟨by omega, by omega⟩
  · have hfits := (hbackward b hle).mp hshort
    rwa [← b.length_of_isShort hshort] at hfits

end FunctionCode

end StackCode
