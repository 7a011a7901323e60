import StackCode.Proofs.Types.Exhaustion

/-!
# Tables of every size

References to references can be interned without end, and each of them brings one type: it stands
for itself and has no reference of its own.  So there are tables of every size, and among them a
table with one id left.  A kind that is not its own normal form takes this id; then there is none
for the normal form, and the type stays in the table without the class that it should have.

## Main definitions

* `TypeTable.Tower`: references to references, on top of the first table.

## Main results

* `TypeTable.exists_tower`: there are towers of every height.
* `TypeTable.Coherent.nest_of_last`: what is done with the last id.
* `TypeTable.Tower.unfinished_array`: an array without its class.
-/

namespace StackCode

namespace TypeTable

variable {t : TypeTable} {top : TypeId} {count : Nat} {kind : TypeKind}

/-! ## Towers -/

/-- A table of `count` types without arrays and structures.  The type `top` stands for itself, and
there are no references to it yet. -/
structure Tower (t : TypeTable) (top : TypeId) (count : Nat) : Prop where
  built : t.Built
  size : t.size = count
  top_lt : top.index < count
  standIn_top : t.standIn top = top
  find?_reference : t.find? (.reference top) = none
  find?_array : ∀ element length, t.find? (.array element length) = none
  structs : t.structs = #[]

theorem tower_initial : initial.Tower .void 24 where
  built := .initial
  size := by decide
  top_lt := by decide
  standIn_top := by decide
  find?_reference := by decide
  find?_array element length := by
    have hvalues : ∀ pair ∈ initial.index, pair.1.values = [] := by decide
    refine List.lookup_eq_none_iff.mpr ?_
    rintro ⟨kind, type⟩ hmem
    rw [bne_iff_ne]
    rintro rfl
    cases hvalues _ hmem
  structs := by decide

/-- The reference to the top is the next type, and the new top. -/
theorem Tower.reference (h : t.Tower top count) :
    (t.reference top).1.Tower ⟨count⟩ (count + 1) := by
  have hlt : top.index < t.size := h.size.symm ▸ h.top_lt
  have hadd : (t.reference top).1 = t.add ⟨.reference top, .word, ⟨t.size⟩, ⟨t.size⟩, none⟩ := by
    simp only [TypeTable.reference, check_eq_ok.mpr hlt,
      internReference_of_self h.find?_reference hlt h.standIn_top]
  have hbuilt := h.built.reference top
  have hnew := h.built.coherent.find?_reference_eq_none ⟨t.size⟩ (Nat.le_refl _)
  obtain rfl := h.size
  rw [hadd] at hbuilt ⊢
  refine ⟨hbuilt, size_add t _, Nat.lt_succ_self _, by simp [standIn], ?_, ?_, h.structs⟩
  · have hne : (⟨t.size⟩ : TypeId) ≠ top := by
      rintro rfl
      exact Nat.lt_irrefl _ hlt
    simp [hnew, hne]
  · intro element length
    simp [h.find?_array]

/-- **There are towers of every height.** -/
theorem exists_tower (height : Nat) : ∃ t top, Tower t top (24 + height) := by
  induction height with
  | zero => exact ⟨initial, .void, tower_initial⟩
  | succ height ih =>
    obtain ⟨t, top, htower⟩ := ih
    exact ⟨_, _, htower.reference⟩

/-- A tower that leaves one id. -/
theorem exists_tower_below_limit : ∃ t top count, Tower t top count ∧ count + 1 = wordLimit := by
  obtain ⟨t, top, htower⟩ := exists_tower (wordLimit - 25)
  exact ⟨t, top, _, htower, by simp [wordLimit]⟩

/-! ## The last id -/

/-- **What is done with the last id.**  A new kind takes it, and the call stops for want of an id
for the normal form. -/
theorem Coherent.nest_of_last (h : t.Coherent) (hlast : t.size + 1 = wordLimit)
    (hkind : t.Formed kind) (hnew : t.find? kind = none) {layout : Layout}
    (hlayout : t.kindLayout kind = .ok layout) (hnormal : t.normalize kind ≠ kind)
    (hunknown : t.find? (t.normalize kind) = none) :
    t.nest isFull 2 kind = some ((t.push kind layout).1, .error .layoutOverflow) := by
  have hform := h.formed_normalize hkind
  have hext : t.Extends (t.push kind layout).1 := extends_add t _
  have hsize : (t.push kind layout).1.size = wordLimit := (size_add t _).trans hlast
  have hroom : isFull t.size = false := decide_eq_false (by omega)
  have hfull : isFull (t.push kind layout).1.size = true := decide_eq_true hsize.ge
  have hnew' : (t.push kind layout).1.find? (t.normalize kind) = none := by
    rw [push_eq, find?_add, if_neg hnormal, hunknown]
  have hparts : (t.push kind layout).1.MadeBelow (t.push kind layout).1.size (t.normalize kind) :=
    (hform.parts.extends hext).mono hext.size_le
  have hlayout' : (t.push kind layout).1.kindLayout (t.normalize kind) = .ok layout := by
    rw [hext.kindLayout_eq hform.parts, ← normalForm_of_isCompound hkind.compound,
      h.kindLayout_normalForm hkind.parts, hlayout]
  rw [nest_of_new hnew hkind.parts hlayout hroom]
  refine complete_of_error (normalize?_push hkind.parts layout) hnormal ?_
  simp only [nest, hnew', kindLayout?_eq hparts, hlayout', hfull, if_true]

/-- **An array without its class.**  In a tower that leaves one id, an array of bytes is added and
stays as it was pushed. -/
theorem Tower.unfinished_array (h : t.Tower top count) (hlast : count + 1 = wordLimit) :
    (t.push (.array .uint8 77) ⟨77, 1⟩).1.Reached := by
  have hcoherent := h.built.coherent
  have hsize : t.size + 1 = wordLimit := by rw [h.size, hlast]
  have hbyte : t.HasKind .uint8 (.primitive .uint8) := hcoherent.primitives .uint8
  have hclass : t.standIn .uint8 = .int8 :=
    hcoherent.indexed.unique (hcoherent.hasKind_standIn hbyte) (hcoherent.primitives .int8)
  have hlayout : t.kindLayout (.array .uint8 77) = .ok ⟨77, 1⟩ := by
    rw [kindLayout, hcoherent.componentLayout_eq hbyte]
    rfl
  have hnormal : t.normalize (.array .uint8 77) = .array .int8 77 := by rw [normalize, hclass]
  have hreached : t.Reached := h.built.reached (by omega)
  have hvet : Request.vet t (.array .uint8 77) = .ok (t, .array .uint8 77) := by
    rw [Request.vet, checkValue_eq_ok.mpr ⟨hbyte.lt_size, by decide, by decide⟩]
    rfl
  refine hreached.interned hvet (hcoherent.nest_of_last hsize ?_ (h.find?_array _ _) hlayout ?_ ?_)
  · exact ⟨rfl, rfl, madeBelow_array.mpr hbyte.lt_size⟩
  · rw [hnormal]
    decide
  · rw [hnormal, h.find?_array]

end TypeTable

end StackCode
