import Mathlib.Algebra.GroupWithZero.Nat
import Mathlib.Data.List.Induction
import StackCode.Proofs.Code.Placed

/-!
# Placement stays in range

To choose the form of a branch, placement reads the offset of an instruction it has placed, or the
greatest lengths of the instructions up to one it has not.  It also takes the greatest length of
each operation from what is left of its instruction.  None of these reads is outside its array and
none of the differences is negative, whatever code is placed.

## Main definitions

* `PlacementContext.ReadsInRange`: what is read for a branch is there.
* `PlacementContext.OpsInRange`, `PlacementContext.InstrsInRange`: the same of all that is placed,
  along the run that places it.
* `FunctionCode.PlacedInRange`: the same of the placement of a function.

## Main results

* `getElem?_prefixSums`: the sums of the first elements of a list.
* `FunctionCode.placedInRange`: placement stays in range.
-/

namespace StackCode

theorem prefixSums_concat (ns : List Nat) (n : Nat) :
    prefixSums (ns ++ [n]) = (prefixSums ns).push ((prefixSums ns).back?.getD 0 + n) := by
  simp only [prefixSums, List.foldl_append, List.foldl_cons, List.foldl_nil]

theorem size_prefixSums (ns : List Nat) : (prefixSums ns).size = ns.length + 1 := by
  induction ns using List.reverseRecOn with
  | nil => rfl
  | append_singleton ns n ih =>
    rw [prefixSums_concat, Array.size_push, ih, List.length_append, List.length_singleton]

/-- The sum of the first `i` elements of a list is found at position `i`. -/
theorem getElem?_prefixSums {ns : List Nat} {i : Nat} (h : i ≤ ns.length) :
    (prefixSums ns)[i]? = some (ns.take i).sum := by
  induction ns using List.reverseRecOn generalizing i with
  | nil =>
    cases Nat.le_zero.mp h
    rfl
  | append_singleton ns n ih =>
    rw [prefixSums_concat]
    rcases Nat.lt_or_eq_of_le h with hi | rfl
    · rw [List.length_append, List.length_singleton] at hi
      have hle := Nat.le_of_lt_succ hi
      rw [Array.getElem?_push_lt (size_prefixSums ns ▸ hi), ← Array.getElem?_eq_getElem, ih hle,
        List.take_append_of_le_length hle]
    · have hlast : (prefixSums ns).back? = some ns.sum := by
        rw [Array.back?_eq_getElem?, size_prefixSums, Nat.add_sub_cancel, ih (Nat.le_refl _),
          List.take_length]
      rw [hlast, List.take_length, List.sum_append, List.sum_singleton, Option.getD_some,
        List.length_append, List.length_singleton, ← size_prefixSums, Array.getElem?_push_size]

theorem sum_take_mono (ns : List Nat) {i j : Nat} (h : i ≤ j) :
    (ns.take i).sum ≤ (ns.take j).sum := by
  obtain ⟨d, rfl⟩ := Nat.exists_eq_add_of_le h
  rw [List.take_add, List.sum_append]
  exact Nat.le_add_right _ _

namespace PlacementContext

/-- What is read for a branch of instruction `index` is there: the offset of an instruction that is
placed, or the ends of the stretch up to one that is not, of which the first is not the greater. -/
def ReadsInRange (c : PlacementContext) (offsets : Array Nat) (index target : Nat) : Prop :=
  if target ≤ index then target < offsets.size
  else ∃ lower upper, c.bounds[index + 1]? = some lower ∧ c.bounds[target]? = some upper ∧
    lower ≤ upper

/-- Operations of instruction `index` are placed in range: each is no longer than what is left of
the instruction, and what is read for it is there. -/
def OpsInRange (c : PlacementContext) (offsets : Array Nat) (index : Nat) :
    (ops : List SelectedOp) → (position rest : Nat) → Prop
  | [], _, _ => True
  | op :: ops, position, rest =>
    op.maxLength ≤ rest ∧
      (∀ l target, op.operand = .target l → c.target? l = some target →
        c.ReadsInRange offsets index target) ∧
      ∀ final, c.finalForm? offsets index position (rest - op.maxLength) op = some final →
        c.OpsInRange offsets index ops (position + final.length) (rest - op.maxLength)

/-- Instructions are placed in range, from a placement on. -/
def InstrsInRange (c : PlacementContext) : List (List SelectedOp) → Placement → Prop
  | [], _ => True
  | ops :: instrs, p =>
    c.OpsInRange (p.offsets.push p.position) p.instrs.size ops p.position (maxLength ops) ∧
      ∀ q, c.placeInstr p ops = .ok q → c.InstrsInRange instrs q

variable {c : PlacementContext}

theorem target?_eq_some {l : Label} {target : Nat} :
    c.target? l = some target ↔ c.labels[l.index]? = some target ∧ target < c.size := by
  unfold target?
  cases c.labels[l.index]? with
  | none => simp
  | some found =>
    simp only [Option.ite_none_right_eq_some, Option.some.injEq]
    constructor
    · rintro ⟨hlt, rfl⟩
      exact ⟨rfl, hlt⟩
    · rintro ⟨rfl, hlt⟩
      exact ⟨hlt, rfl⟩

theorem opsInRange {offsets : Array Nat} {index : Nat}
    (hreads : ∀ target < c.size, c.ReadsInRange offsets index target) (ops : List SelectedOp)
    (position : Nat) : c.OpsInRange offsets index ops position (maxLength ops) := by
  induction ops generalizing position with
  | nil => trivial
  | cons op ops ih =>
    refine ⟨Nat.le_add_right _ _, fun l target _ htarget => hreads _ (target?_eq_some.mp htarget).2,
      fun final _ => ?_⟩
    rw [maxLength, Nat.add_sub_cancel_left]
    exact ih _

/-- Placing an instruction records its offset and its operations. -/
theorem sizes_of_placeInstr {p q : Placement} {ops : List SelectedOp}
    (h : c.placeInstr p ops = .ok q) :
    q.offsets.size = p.offsets.size + 1 ∧ q.instrs.size = p.instrs.size + 1 := by
  simp only [placeInstr] at h
  split at h
  · cases h
  · cases h
    exact ⟨Array.size_push _, Array.size_push _⟩

/-- Instructions are placed in range from a placement on that has recorded as many offsets as
instructions. -/
theorem instrsInRange {all instrs : List (List SelectedOp)} (hsize : c.size = all.length)
    (hbounds : c.bounds = prefixSums (all.map maxLength)) {p : Placement}
    (hoffsets : p.offsets.size = p.instrs.size)
    (hlength : p.instrs.size + instrs.length = all.length) : c.InstrsInRange instrs p := by
  induction instrs generalizing p with
  | nil => trivial
  | cons ops instrs ih =>
    rw [List.length_cons] at hlength
    refine ⟨opsInRange (fun target htarget => ?_) ops _, fun q hq => ?_⟩
    · unfold ReadsInRange
      split
      · rename_i hle
        rw [Array.size_push, hoffsets]
        exact Nat.lt_succ_of_le hle
      · rename_i hlt
        have hlt := Nat.lt_of_not_le hlt
        have hle : target ≤ (all.map maxLength).length := by
          rw [List.length_map]
          exact Nat.le_of_lt (hsize ▸ htarget)
        rw [hbounds]
        exact ⟨_, _, getElem?_prefixSums (Nat.le_trans hlt hle), getElem?_prefixSums hle,
          sum_take_mono _ hlt⟩
    · obtain ⟨hoffsets', hinstrs'⟩ := sizes_of_placeInstr hq
      exact ih (by rw [hoffsets', hinstrs', hoffsets]) (by rw [hinstrs', ← hlength]; omega)

end PlacementContext

namespace FunctionCode

/-- Where the instructions of a function are placed from. -/
def context (code : FunctionCode) : PlacementContext :=
  ⟨code.instrs.length, code.labels, prefixSums (code.instrs.map maxLength)⟩

/-- The instructions of a function are placed in range. -/
def PlacedInRange (code : FunctionCode) : Prop :=
  code.context.InstrsInRange code.instrs ⟨#[], #[], 0⟩

/-- **Placement stays in range.** -/
theorem placedInRange (code : FunctionCode) : code.PlacedInRange :=
  PlacementContext.instrsInRange rfl rfl rfl (Nat.zero_add _)

end FunctionCode

end StackCode
