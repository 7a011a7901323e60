import StackCode.Proofs.Code.BranchForms

/-!
# Layout is exact

Emission writes every instruction where placement has put it.  So the displacement it writes for a
branch is the one between the offsets that placement found, and the short branches fit.  What is
left to overflow is a long branch, and emission reports the first that does.

## Main definitions

* `FunctionCode.placedLength`: the length of the code of a function, placed.
* `Emission.upTo`: what is written when some instructions are done.
* `PlacedCode.Branch.Overflows`: the displacement of a long branch does not fit.
* `PlacedCode.EmittedExactly`: what is written stands where it should, and what overflows is
  reported.

## Main results

* `FunctionCode.exists_place`: code that is not too long is placed.
* `Emission.exists_overflow_of_error`: an error of emission is the first branch that overflows.
* `FunctionCode.layout_exact`: layout is exact, and short branches never overflow.
-/

namespace StackCode

/-! ### Placement of code that is not too long -/

namespace FunctionCode

variable {code : FunctionCode}

/-- The length of the code of a function, with every branch in its final form. -/
def placedLength (code : FunctionCode) : Nat :=
  match code.instrs.foldlM code.context.placeInstr ⟨#[], #[], 0⟩ with
  | .ok placement => placement.position
  | .error _ => 0

/-- Code is placed if its branches stay within it and offsets fit in a word. -/
theorem exists_place (hclosed : code.Closed) (hlength : code.placedLength < wordLimit) :
    ∃ placed, code.place = .ok placed ∧ placed.size = code.placedLength := by
  obtain ⟨q, hq, -⟩ := exists_foldlM_eq_ok (P := fun _ => True) (f := code.context.placeInstr)
    (b := ⟨#[], #[], 0⟩) (fun ops hops p _ =>
      have ⟨q, hq⟩ := PlacementContext.exists_placeInstr (hclosed ops hops) p
      ⟨q, hq, trivial⟩) trivial
  have hfinish : code.placedLength = q.position := by rw [placedLength, hq]
  rw [hfinish] at hlength ⊢
  obtain ⟨instrs, -, -, hoffsets, hposition⟩ := PlacementContext.placeInstrs_eq_ok hq
  have hchecked : (q.offsets.push q.position).toList.forM (fun offset =>
      if offset < wordLimit then Except.ok ()
      else .error (EncodeError.functionOffsetOverflow code.func offset)) = .ok () := by
    refine forM_eq_ok.mpr fun offset hoffset => if_pos (Nat.lt_of_le_of_lt ?_ hlength)
    rw [Array.toList_push, hoffsets, List.nil_append] at hoffset
    rcases List.mem_append.mp hoffset with hmem | hmem
    · rw [hposition]
      exact le_of_mem_startsFrom hmem
    · exact Nat.le_of_eq (List.mem_singleton.mp hmem)
  exact ⟨_, bind_eq_ok.mpr ⟨q, mapError_eq_ok.mpr hq, bind_eq_ok.mpr ⟨(), hchecked, rfl⟩⟩, rfl⟩

end FunctionCode

/-! ### The order of branches -/

namespace PlacedCode.Branch

variable {code : PlacedCode}

/-- The displacement of a long branch does not fit in two bytes. -/
def Overflows (b : code.Branch) : Prop := ¬ b.IsShort ∧ fitsLong b.displacement = false

/-- The branch overflows, and none before it does. -/
def OverflowsFirst (b : code.Branch) : Prop :=
  b.Overflows ∧ ∀ b' : code.Branch, b'.start < b.start → ¬ b'.Overflows

/-- The code is what precedes the branch, the branch and what follows. -/
theorem flatten_eq (b : code.Branch) :
    ∃ following, code.instrs.flatten = b.preceding ++ b.op :: following := by
  have hsplit := take_flatten_split code.instrs b.index_lt
  rw [List.take_length, b.take_index, List.append_assoc, List.cons_append] at hsplit
  exact ⟨_, hsplit⟩

/-- Of two branches one precedes the other, or both are the same operation. -/
theorem precedes_or_eq (b b' : code.Branch) :
    (∃ rest, b.preceding = b'.preceding ++ b'.op :: rest) ∨
      (∃ rest, b'.preceding = b.preceding ++ b.op :: rest) ∨
      b'.preceding = b.preceding ∧ b'.op = b.op := by
  obtain ⟨following, hflatten⟩ := b.flatten_eq
  obtain ⟨following', hflatten'⟩ := b'.flatten_eq
  rw [hflatten'] at hflatten
  rcases List.append_eq_append_iff.mp hflatten with ⟨mid, hmid, hrest⟩ | ⟨mid, hmid, hrest⟩
  · cases mid with
    | nil => exact .inr (.inr ⟨by rw [hmid, List.append_nil], (List.cons.inj hrest).1⟩)
    | cons op mid => exact .inl ⟨mid, by rw [hmid, (List.cons.inj hrest).1]⟩
  · cases mid with
    | nil => exact .inr (.inr ⟨by rw [hmid, List.append_nil], (List.cons.inj hrest).1.symm⟩)
    | cons op mid => exact .inr (.inl ⟨mid, by rw [hmid, (List.cons.inj hrest).1]⟩)

/-- An operation starts before those after it. -/
theorem start_lt_of_precedes {b b' : code.Branch} {rest : List SelectedOp}
    (h : b.preceding = b'.preceding ++ b'.op :: rest) : b'.start < b.start := by
  have hpos := b'.op.length_pos
  rw [start, start, h, totalLength_append, totalLength]
  omega

/-- What starts before a branch precedes it. -/
theorem precedes_of_start_lt {b b' : code.Branch} (h : b'.start < b.start) :
    ∃ rest, b.preceding = b'.preceding ++ b'.op :: rest := by
  rcases precedes_or_eq b b' with hprecedes | ⟨rest, hrest⟩ | ⟨hsame, -⟩
  · exact hprecedes
  · exact absurd (start_lt_of_precedes hrest) (Nat.lt_asymm h)
  · rw [start, start, hsame] at h
    exact absurd h (Nat.lt_irrefl _)

/-- Branches of earlier instructions start earlier. -/
theorem start_lt_of_index_lt {b b' : code.Branch} (h : b'.index < b.index) :
    b'.start < b.start := by
  have hpos := b'.op.length_pos
  calc b'.start
    _ < totalLength (code.instrs.take (b'.index + 1)).flatten := by
      rw [b'.take_index, totalLength_append, totalLength, start]
      omega
    _ ≤ totalLength (code.instrs.take b.index).flatten := totalLength_take_mono _ h
    _ ≤ b.start := by
      rw [start, preceding, totalLength_append]
      exact Nat.le_add_right _ _

/-- Branches that start at one offset are reported alike. -/
theorem reported_eq {b b' : code.Branch} (h : b'.start = b.start) :
    b'.index = b.index ∧ b'.displacement = b.displacement := by
  refine ⟨?_, ?_⟩
  · rcases Nat.lt_trichotomy b'.index b.index with hlt | heq | hlt
    · exact absurd h (Nat.ne_of_lt (start_lt_of_index_lt hlt))
    · exact heq
    · exact absurd h.symm (Nat.ne_of_lt (start_lt_of_index_lt hlt))
  · have hop : b'.op = b.op := by
      rcases precedes_or_eq b b' with ⟨rest, hrest⟩ | ⟨rest, hrest⟩ | ⟨-, hop⟩
      · exact absurd h (Nat.ne_of_lt (start_lt_of_precedes hrest))
      · exact absurd h.symm (Nat.ne_of_lt (start_lt_of_precedes hrest))
      · exact hop
    have hoffset : b'.offset = b.offset := by
      have hlabel : b'.label = b.label :=
        Operand.target.inj (b'.operand.symm.trans (hop ▸ b.operand))
      have htarget : b'.target = b.target :=
        Option.some.inj (b'.label_target.symm.trans (hlabel ▸ b.label_target))
      exact Option.some.inj (b'.target_offset.symm.trans (htarget ▸ b.target_offset))
    rw [displacement, displacementAt, hoffset, h, hop]
    rfl

/-- At most one branch is the first to overflow. -/
theorem OverflowsFirst.start_eq {b b' : code.Branch} (h : b.OverflowsFirst)
    (h' : b'.OverflowsFirst) : b'.start = b.start := by
  rcases Nat.lt_trichotomy b'.start b.start with hlt | heq | hlt
  · exact absurd h'.1 (h.2 b' hlt)
  · exact heq
  · exact absurd h.1 (h'.2 b hlt)

end PlacedCode.Branch

/-! ### Displacements -/

namespace Operation

/-- A displacement that is written fits. -/
theorem fitsLong_of_encodeDisplacement {shape : Shape} {displacement : Int} {bytes : List UInt8}
    (hshape : shape ≠ .rel8) (h : encodeDisplacement shape displacement = .ok bytes) :
    fitsLong displacement = true := by
  unfold encodeDisplacement at h
  split at h
  · exact absurd rfl hshape
  · split at h
    · assumption
    · cases h

/-- A displacement is refused if it does not fit. -/
theorem encodeDisplacement_eq_error {shape : Shape} {displacement found : Int}
    (h : encodeDisplacement shape displacement = .error found) :
    found = displacement ∧ (shape = .rel8 → fitsShort displacement = false) ∧
      (shape ≠ .rel8 → fitsLong displacement = false) := by
  unfold encodeDisplacement at h
  split at h
  · split at h
    · cases h
    · rename_i hfits
      cases h
      exact ⟨rfl, fun _ => Bool.eq_false_iff.mpr hfits, fun hne => absurd rfl hne⟩
  · rename_i hne
    split at h
    · cases h
    · rename_i hfits
      cases h
      exact ⟨rfl, fun heq => absurd heq hne, fun _ => Bool.eq_false_iff.mpr hfits⟩

/-- An operation has no bytes only for its displacement. -/
theorem encode_eq_error {op : Operation Token Nat} {start : Nat} {displacement : Int}
    (h : op.encode start = .error displacement) :
    ∃ target : Nat, op.operand = .target target ∧
      encodeDisplacement op.opcode.shape ((target : Int) - (start + op.length : Nat)) =
        .error displacement := by
  obtain ⟨opcode, operand⟩ := op
  rcases bind_eq_error.mp h with hoperand | ⟨_, -, hrest⟩
  · cases operand with
    | target target => exact ⟨target, rfl, hoperand⟩
    | _ => cases hoperand
  · cases hrest

/-- A branch is written as the displacement to its target. -/
theorem encode_target {op : Operation Token Nat} {start target : Nat} {bytes : List UInt8}
    (hoperand : op.operand = .target target) (h : op.encode start = .ok bytes) :
    ∃ written, encodeDisplacement op.opcode.shape ((target : Int) - (start + op.length : Nat)) =
      .ok written := by
  obtain ⟨written, hwritten, -⟩ := bind_eq_ok.mp h
  rw [hoperand] at hwritten
  exact ⟨written, hwritten⟩

end Operation

/-! ### Emission -/

namespace PlacedCode

variable {code : PlacedCode}

/-- A label is resolved by the instruction it stands at. -/
theorem targetOffset?_eq_some {l : Label} {offset : Nat} (h : code.targetOffset? l = some offset) :
    ∃ target, code.labels[l.index]? = some target ∧ code.offsets[target]? = some offset := by
  unfold targetOffset? at h
  split at h
  · rename_i target htarget
    exact ⟨target, htarget, h⟩
  · cases h

/-- The label of a branch is resolved to its target. -/
theorem Branch.targetOffset?_eq (b : code.Branch) : code.targetOffset? b.label = some b.offset := by
  rw [targetOffset?, b.label_target]
  exact b.target_offset

/-- Displacements do not depend on where the code is written. -/
theorem Branch.displacement_from (b : code.Branch) (base : Nat) :
    ((base + b.offset : Nat) : Int) - (base + b.start + b.op.length : Nat) = b.displacement := by
  rw [displacement, displacementAt]
  omega

end PlacedCode

/-- Each operation of those written is encoded where the ones before it end. -/
theorem OpsWritten.encodes {F : FuncRef → Token → Prop} {code : PlacedCode} {base start : Nat}
    {front back : List SelectedOp} {op : SelectedOp} {listed : List PlacedOp} {bytes : List UInt8}
    (h : OpsWritten start listed bytes)
    (hemits : List.Forall₂ (Emits F code base) (front ++ op :: back) listed) :
    ∃ placed bytes', Emits F code base op placed ∧
      placed.op.encode (start + totalLength front) = .ok bytes' := by
  induction front generalizing start listed bytes with
  | nil =>
    cases hemits with
    | cons hop _ =>
      cases h with
      | cons _ hencode _ => exact ⟨_, _, hop, hencode⟩
  | cons first front ih =>
    cases hemits with
    | cons hfirst hrest =>
      cases h with
      | cons _ _ hwritten =>
        obtain ⟨placed, bytes', hop, hencode⟩ := ih hwritten hrest
        rw [Operation.length, hfirst.opcode, Nat.add_assoc] at hencode
        exact ⟨placed, bytes', hop, hencode⟩

namespace Emission

variable {s : ModuleScope} {code : PlacedCode} {e e' : Emission}

/-- Where the operations of the next function start, after its descriptor. -/
def base (e : Emission) : Nat := e.image.size + Descriptor.size

/-- The image with the descriptor of a function written. -/
def described (e : Emission) (code : PlacedCode) : Emission :=
  { e with image := e.image ++ code.descriptor.encode }

theorem size_described (e : Emission) (code : PlacedCode) :
    (e.described code).image.size = e.base := by
  rw [described, ← Array.length_toList, Array.toList_appendList, List.length_append,
    Array.length_toList]
  rfl

/-- What is written for the first `n` instructions of a function. -/
def upTo (s : ModuleScope) (e : Emission) (code : PlacedCode) (n : Nat) :
    Except EncodeError Emission :=
  (code.instrs.take n).zipIdx.foldlM (fun written (ops, index) =>
    ops.foldlM (fun written op => Emission.op s code e.base index written op) written)
    (e.described code)

theorem code_eq_upTo (s : ModuleScope) (e : Emission) (code : PlacedCode) :
    Emission.code s e code = upTo s e code code.instrs.length := by
  rw [upTo, List.take_length, ← size_described e code]
  rfl

/-- The first instructions of a function are appended to its descriptor. -/
theorem upTo_appends (hshape : code.WellShaped) {n : Nat} (h : upTo s e code n = .ok e') :
    ∃ listed bytes, Appends s code e.base (e.described code) e' (code.instrs.take n).flatten
      listed bytes :=
  instrs_appends (fun ops hops => hshape ops (List.mem_of_mem_take hops)) h

theorem size_upTo (hshape : code.WellShaped) {n : Nat} (h : upTo s e code n = .ok e') :
    e'.image.size = e.base + totalLength (code.instrs.take n).flatten := by
  obtain ⟨listed, bytes, happends⟩ := upTo_appends hshape h
  rw [happends.size_eq, size_described, happends.length]

theorem upTo_succ {i : Nat} {ops : List SelectedOp} (hops : code.instrs[i]? = some ops) :
    upTo s e code (i + 1) = upTo s e code i >>= fun written =>
      ops.foldlM (fun written op => Emission.op s code e.base i written op) written := by
  have hlength : (code.instrs.take i).length = i :=
    List.length_take_of_le (Nat.le_of_lt (List.getElem?_eq_some_iff.mp hops).1)
  rw [upTo, List.take_add_one, hops, Option.toList_some, List.zipIdx_append, List.foldlM_append,
    hlength, Nat.zero_add, List.zipIdx_singleton]
  simp only [List.foldlM_cons, List.foldlM_nil, bind_pure]
  rfl

/-- What is written for the first instructions stays. -/
theorem exists_upTo_of_le (hshape : code.WellShaped) {i n : Nat} (hle : i ≤ n)
    (h : upTo s e code n = .ok e') :
    ∃ mid rest, upTo s e code i = .ok mid ∧ e'.image.toList = mid.image.toList ++ rest := by
  have hsplit : code.instrs.take n = code.instrs.take i ++ (code.instrs.take n).drop i := by
    conv_lhs => rw [← List.take_append_drop i (code.instrs.take n)]
    rw [List.take_take, Nat.min_eq_left hle]
  rw [upTo, hsplit, List.zipIdx_append, List.foldlM_append] at h
  obtain ⟨mid, hmid, h⟩ := bind_eq_ok.mp h
  obtain ⟨listed, rest, happends⟩ := instrs_appends
    (fun ops hops => hshape ops (List.mem_of_mem_take (List.mem_of_mem_drop hops))) h
  exact ⟨mid, rest, hmid, happends.image⟩

/-- A branch that is written does not overflow. -/
theorem not_overflows_of_appends {b : code.Branch} {back : List SelectedOp}
    {listed : List PlacedOp} {bytes : List UInt8}
    (h : Appends s code e.base (e.described code) e' (b.preceding ++ b.op :: back) listed bytes) :
    ¬ b.Overflows := by
  rintro ⟨hlong, hfits⟩
  obtain ⟨placed, bytes', hemits, hencode⟩ := h.written.encodes h.emits
  have hoperand := hemits.operand
  rw [b.operand] at hoperand
  generalize hresolved : placed.op.operand = resolved at hoperand
  cases hoperand with
  | target htarget =>
    obtain ⟨offset, hoffset, rfl⟩ := htarget
    rw [b.targetOffset?_eq] at hoffset
    cases hoffset
    obtain ⟨written, hwritten⟩ := Operation.encode_target hresolved hencode
    rw [Operation.length, hemits.opcode, size_described] at hwritten
    have hfits' : fitsLong b.displacement = true := by
      rw [← b.displacement_from e.base]
      exact Operation.fitsLong_of_encodeDisplacement hlong hwritten
    rw [hfits] at hfits'
    cases hfits'

/-- Where all names are resolved, an operation is not written only for its displacement. -/
theorem op_eq_error {base index : Nat} {op : SelectedOp} {error : EncodeError}
    (hfunc : ∀ f, op.operand.func? = some f → s.Finds f)
    (htarget : ∀ l, op.operand = .target l → ∃ offset, code.targetOffset? l = some offset)
    (h : Emission.op s code base index e op = .error error) :
    ∃ l offset displacement, op.operand = .target l ∧ code.targetOffset? l = some offset ∧
      encodeDisplacement op.opcode.shape
        (((base + offset : Nat) : Int) - (e.image.size + op.length : Nat)) = .error displacement ∧
      error = .branchOverflow code.func index displacement := by
  rcases bind_eq_error.mp h with hoperand | ⟨resolved, hresolved, h⟩
  · exact (ModuleScope.operand_ends (Q := fun _ => False) hfunc htarget |>.cause hoperand).elim
  · split at h
    · cases h
    · rename_i displacement hencode
      cases h
      obtain ⟨target, rfl, hdisplacement⟩ := Operation.encode_eq_error hencode
      have hrenames := ModuleScope.operand_renames hresolved
      generalize hl : op.operand = operand at hrenames
      cases hrenames with
      | target htarget =>
        obtain ⟨offset, hoffset, rfl⟩ := htarget
        exact ⟨_, offset, displacement, rfl, hoffset, hdisplacement, rfl⟩

/-- Emission stops at the operation it cannot write, with all before it written. -/
theorem stops_of_error {error : EncodeError} (hshape : code.WellShaped)
    (h : Emission.code s e code = .error error) :
    ∃ index before op after mid listed bytes,
      code.instrs[index]? = some (before ++ op :: after) ∧
      Appends s code e.base (e.described code) mid ((code.instrs.take index).flatten ++ before)
        listed bytes ∧
      Emission.op s code e.base index mid op = .error error := by
  rw [code_eq_upTo, upTo, List.take_length] at h
  obtain ⟨done, ⟨ops, index⟩, others, mid, hinstrs, hdone, h⟩ := foldlM_eq_error_split h
  obtain ⟨front, back, hsplit, rfl, hback⟩ := List.zipIdx_eq_append_iff.mp hinstrs
  obtain ⟨_, back, rfl, hpair, -⟩ := List.zipIdx_eq_cons_iff.mp hback.symm
  rw [Nat.zero_add] at hpair
  cases hpair
  obtain ⟨before, op, after, mid', rfl, hbefore, h⟩ := foldlM_eq_error_split h
  have hget : code.instrs[front.length]? = some (before ++ op :: after) := by
    rw [hsplit, List.getElem?_append_right (Nat.le_refl _), Nat.sub_self, List.getElem?_cons_zero]
  have hfront : code.instrs.take front.length = front := by rw [hsplit, List.take_left]
  obtain ⟨listed, bytes, happends⟩ := instrs_appends
    (fun ops hops => hshape ops (hsplit ▸ List.mem_append_left _ hops)) hdone
  obtain ⟨listed', bytes', happends'⟩ := ops_appends (fun op hop =>
    hshape _ (List.mem_of_getElem? hget) op (List.mem_append_left _ hop)) hbefore
  have happended := happends.append happends'
  rw [← hfront] at happended
  exact ⟨_, before, op, after, mid', _, _, hget, happended, h⟩

/-- **An error of emission is the first branch that overflows**, where all names are resolved and
the short branches fit.  The displacement that fails is that of the branch, which so cannot be
short. -/
theorem exists_overflow_of_error {error : EncodeError} (hshape : code.WellShaped)
    (hresolves : code.ResolvesIn s) (hsettled : code.Settled)
    (h : Emission.code s e code = .error error) :
    ∃ b : code.Branch, b.OverflowsFirst ∧
      error = .branchOverflow code.func b.index b.displacement := by
  obtain ⟨index, before, op, after, mid, listed, bytes, hget, happends, h⟩ :=
    stops_of_error hshape h
  obtain ⟨hfunc, htarget⟩ := hresolves _ (List.mem_of_getElem? hget) op
    (List.mem_append_right _ List.mem_cons_self)
  obtain ⟨l, offset, displacement, hl, hoffset, hfails, rfl⟩ := op_eq_error hfunc htarget h
  obtain ⟨target, hlabel, htarget⟩ := PlacedCode.targetOffset?_eq_some hoffset
  let b : code.Branch := ⟨index, before, op, after, l, target, offset, hget, hl, hlabel, htarget⟩
  have hsize : mid.image.size = e.base + b.start := by
    rw [happends.size_eq, happends.length, size_described]
    rfl
  rw [hsize, show _ = b.displacement from b.displacement_from e.base] at hfails
  obtain ⟨rfl, hshort, hlong⟩ := Operation.encodeDisplacement_eq_error hfails
  have hnotShort : ¬ b.IsShort := by
    intro hb
    have hfits := hsettled.short_fits b hb
    rw [hshort hb] at hfits
    cases hfits
  refine ⟨b, ⟨⟨hnotShort, hlong hnotShort⟩, fun b' hlt => ?_⟩, rfl⟩
  obtain ⟨rest, hrest⟩ := PlacedCode.Branch.precedes_of_start_lt hlt
  rw [show _ ++ before = b'.preceding ++ b'.op :: rest from hrest] at happends
  exact not_overflows_of_appends happends

/-- Code of which a branch overflows is not written. -/
theorem not_overflows_of_code (hshape : code.WellShaped) (h : Emission.code s e code = .ok e')
    (b : code.Branch) : ¬ b.Overflows := by
  rw [code_eq_upTo] at h
  obtain ⟨listed, bytes, happends⟩ := upTo_appends hshape h
  obtain ⟨following, hflatten⟩ := b.flatten_eq
  rw [List.take_length, hflatten] at happends
  exact not_overflows_of_appends happends

end Emission

/-! ### The layout of a function -/

/-- Emission writes the code exactly: each instruction stands at its offset, and the error is the
first branch that overflows. -/
structure PlacedCode.EmittedExactly (code : PlacedCode) (s : ModuleScope) (e : Emission) :
    Prop where
  /-- When the instructions before it are written, an instruction is next at its offset. -/
  reaches : ∀ (i offset : Nat), code.boundaries[i]? = some offset → ∀ written,
    Emission.upTo s e code i = .ok written → written.image.size = e.base + offset
  /-- The operations of an instruction are found at its offset. -/
  writes : ∀ written, Emission.code s e code = .ok written → ∀ (i : Nat) ops (offset : Nat),
    code.instrs[i]? = some ops → code.boundaries[i]? = some offset →
      ∃ front listed bytes rest, written.image.toList = front ++ bytes ++ rest ∧
        front.length = e.base + offset ∧ OpsWritten (e.base + offset) listed bytes ∧
        List.Forall₂ (Emits s.Names code e.base) ops listed
  overflows : ∀ error, Emission.code s e code = .error error ↔
    ∃ b : code.Branch, b.OverflowsFirst ∧
      error = .branchOverflow code.func b.index b.displacement

/-- Code that is measured and settled is emitted exactly, if it resolves. -/
theorem PlacedCode.emittedExactly {code : PlacedCode} {s : ModuleScope} (hshape : code.WellShaped)
    (hresolves : code.ResolvesIn s) (hmeasured : code.Measured) (hsettled : code.Settled)
    (e : Emission) : code.EmittedExactly s e := by
  have hreaches : ∀ (i offset : Nat), code.boundaries[i]? = some offset → ∀ written,
      Emission.upTo s e code i = .ok written → written.image.size = e.base + offset := by
    intro i offset hoffset written hwritten
    have hlt := (Array.getElem?_eq_some_iff.mp hoffset).1
    rw [hmeasured.size] at hlt
    rw [hmeasured.offset i (Nat.le_of_lt_succ hlt)] at hoffset
    cases hoffset
    exact Emission.size_upTo hshape hwritten
  refine ⟨hreaches, fun written hwritten i ops offset hops hoffset => ?_, fun error => ⟨?_, ?_⟩⟩
  -- the instructions before it are written, then its operations, and the rest is appended
  · rw [Emission.code_eq_upTo] at hwritten
    obtain ⟨next, rest, hnext, hrest⟩ := Emission.exists_upTo_of_le hshape
      (List.getElem?_eq_some_iff.mp hops).1 hwritten
    rw [Emission.upTo_succ hops] at hnext
    obtain ⟨mid, hmid, hnext⟩ := bind_eq_ok.mp hnext
    obtain ⟨listed, bytes, happends⟩ := Emission.ops_appends
      (hshape ops (List.mem_of_getElem? hops)) hnext
    have hsize := hreaches i offset hoffset mid hmid
    refine ⟨mid.image.toList, listed, bytes, rest, ?_, ?_, ?_, happends.emits⟩
    · rw [hrest, happends.image]
    · rw [Array.length_toList, hsize]
    · exact hsize ▸ happends.written
  · exact Emission.exists_overflow_of_error hshape hresolves hsettled
  -- emission does not get past the branch, and the branch it stops at is the same
  · rintro ⟨b, hfirst, rfl⟩
    cases h : Emission.code s e code with
    | ok written => exact absurd hfirst.1 (Emission.not_overflows_of_code hshape h b)
    | error error =>
      obtain ⟨b', hfirst', rfl⟩ := Emission.exists_overflow_of_error hshape hresolves hsettled h
      obtain ⟨hindex, hdisplacement⟩ :=
        PlacedCode.Branch.reported_eq (hfirst.start_eq hfirst')
      rw [hindex, hdisplacement]

/-- **Layout is exact, and short branches never overflow.**  Code with operands of the right shapes
is placed if its branches are short, go to its own instructions, and its length fits in a word.
What is placed is the code up to the forms of branches.  Offsets are the lengths of what stands
before them, the form of a branch is settled by its displacement or its reach, and whatever the
code is appended to, each instruction is written at its offset.  The only error is the first long
branch with a displacement that does not fit. -/
theorem FunctionCode.layout_exact {code : FunctionCode} {s : ModuleScope}
    (hshape : ∀ ops ∈ code.instrs, ∀ op ∈ ops, op.WellShaped) (hclosed : code.Closed)
    (hfinds : ∀ ops ∈ code.instrs, ∀ op ∈ ops, ∀ f, op.operand.func? = some f → s.Finds f)
    (hlength : code.placedLength < wordLimit) :
    ∃ placed, code.place = .ok placed ∧ placed.size = code.placedLength ∧ Placed code placed ∧
      placed.Measured ∧ placed.Settled ∧ ∀ e, placed.EmittedExactly s e := by
  obtain ⟨placed, hplace, hsize⟩ := exists_place hclosed hlength
  have hplaced := placed_of_place hplace
  have hsettled := settled_of_place hclosed hplace
  exact ⟨placed, hplace, hsize, hplaced, hplaced.measured, hsettled,
    PlacedCode.emittedExactly (hplaced.wellShaped hshape) (hplaced.resolvesIn hclosed hfinds)
      hplaced.measured hsettled⟩

/-- A function that branches forward over an instruction without code and over a long one, to
itself, and back to its start. -/
def weave : FunctionCode where
  func := ⟨⟨0⟩, 0⟩
  descriptor := ⟨false, 16, 0, 0⟩
  instrs := [
    [⟨.ldc .i32, .i32 1⟩, ⟨.branch .isTrue .w32 .short, .target ⟨0⟩⟩],
    [],
    [⟨.jump .short, .target ⟨1⟩⟩],
    List.replicate 16 ⟨.ldc .i64, .i64 0⟩,
    [⟨.jump .short, .target ⟨2⟩⟩],
    [⟨.call, .func ⟨⟨0⟩, 0⟩⟩, ⟨.jump .short, .target ⟨3⟩⟩],
    [.bare .ret]]
  labels := #[2, 5, 4, 0]

/-- The module `weave` is in. -/
def weaveScope : ModuleScope := ⟨⟨0⟩, [], #[16]⟩

/-- The operations of `weave` are well shaped, and all names in them have a meaning. -/
theorem weave_ready : ∀ ops ∈ weave.instrs, ∀ op ∈ ops, op.WellShaped ∧
    weave.context.Admits op ∧ ∀ f, op.operand.func? = some f → weaveScope.Finds f := by
  have hjump : ∀ l target, weave.context.target? l = some target →
      weave.context.Admits ⟨.jump .short, .target l⟩ := by
    rintro l target htarget _ ⟨⟩
    exact ⟨⟨target, htarget⟩, _, rfl⟩
  intro ops hops op hop
  simp only [weave, List.mem_cons, List.not_mem_nil, or_false] at hops
  rcases hops with rfl | rfl | rfl | rfl | rfl | rfl | rfl
  · simp only [List.mem_cons, List.not_mem_nil, or_false] at hop
    rcases hop with rfl | rfl
    · exact ⟨rfl, nofun, nofun⟩
    · refine ⟨rfl, ?_, nofun⟩
      rintro _ ⟨⟩
      exact ⟨⟨2, rfl⟩, _, rfl⟩
  · cases hop
  · cases List.mem_singleton.mp hop
    exact ⟨rfl, hjump _ 5 rfl, nofun⟩
  · cases List.eq_of_mem_replicate hop
    exact ⟨rfl, nofun, nofun⟩
  · cases List.mem_singleton.mp hop
    exact ⟨rfl, hjump _ 4 rfl, nofun⟩
  · simp only [List.mem_cons, List.not_mem_nil, or_false] at hop
    rcases hop with rfl | rfl
    · refine ⟨rfl, nofun, ?_⟩
      rintro _ ⟨⟩
      exact ⟨16, rfl⟩
    · exact ⟨rfl, hjump _ 0 rfl, nofun⟩
  · cases List.mem_singleton.mp hop
    exact ⟨rfl, nofun, nofun⟩

/-- `weave` has branches of both forms, forward and backward. -/
theorem weave_layout_exact : weave.placedLength < wordLimit ∧
    ∃ placed, weave.place = .ok placed ∧ placed.size = weave.placedLength ∧ Placed weave placed ∧
      placed.Measured ∧ placed.Settled ∧ ∀ e, placed.EmittedExactly weaveScope e := by
  have hlength : weave.placedLength < wordLimit := by decide
  exact ⟨hlength, FunctionCode.layout_exact (fun ops hops op hop => (weave_ready ops hops op hop).1)
    (fun ops hops op hop => (weave_ready ops hops op hop).2.1)
    (fun ops hops op hop => (weave_ready ops hops op hop).2.2) hlength⟩

end StackCode
