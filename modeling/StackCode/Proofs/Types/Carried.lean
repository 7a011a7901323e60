import StackCode.Proofs.Agreement
import StackCode.Proofs.Types.Renaming
import StackCode.Typing.Transfer

/-!
# Lookups under a renaming

Every question that is asked of a type in one table has the same answer for the renamed type in the
other, up to the renaming.  The classes that compilation tells apart without a table are classes of
primitives, and a renaming fixes those.

## Main results

* `TypeRenaming.apply_eq`: what is the same for all ids but those of primitives is kept.
* `TypeTable.Carried.assignable_agree`, `TypeTable.Carried.join?_agree`,
  `TypeTable.Carried.elementType?_agree`: questions about renamed types.
-/

namespace StackCode

/-- Ids past the first thirteen are no primitives. -/
theorem TypeId.ne_primitive {a : TypeId} (ha : 13 ≤ a.index) (p : Primitive) : a ≠ p.id := by
  rintro rfl
  revert ha
  cases p <;> decide

namespace TypeRenaming

variable (r : TypeRenaming) {a b : TypeId}

theorem type_inj : r.type a = r.type b ↔ a = b := r.injective.eq_iff

/-- Only a primitive is renamed to it. -/
theorem type_eq_primitive (p : Primitive) : r.type a = p.id ↔ a = p.id := by
  constructor
  · intro h
    exact r.injective (h.trans (r.primitive p).symm)
  · rintro rfl
    exact r.primitive p

/-- An id is kept, or it belongs to no primitive before or after the renaming. -/
theorem type_eq_or (a : TypeId) : r.type a = a ∨ 13 ≤ a.index ∧ 13 ≤ (r.type a).index := by
  have hprimitive : ∀ b : TypeId, b.index < 13 → ∃ p : Primitive, b = p.id := by
    rintro ⟨n⟩ hn
    have hlt : n < Primitive.all.length := hn
    refine ⟨Primitive.all[n], congrArg TypeId.mk ?_⟩
    exact (show ∀ i : Fin 13, (i : Nat) = (Primitive.all[i] : Primitive).index by decide) ⟨n, hn⟩
  by_cases ha : a.index < 13
  · obtain ⟨p, rfl⟩ := hprimitive a ha
    exact .inl (r.primitive p)
  · refine .inr ⟨Nat.le_of_not_lt ha, Nat.le_of_not_lt fun hlt => ?_⟩
    obtain ⟨p, hp⟩ := hprimitive _ hlt
    rw [r.type_eq_primitive p] at hp
    exact TypeId.ne_primitive (Nat.le_of_not_lt ha) p hp

/-- **What is the same for all ids but those of primitives is kept.** -/
theorem apply_eq {γ : Type} (f : TypeId → γ) (c : γ) (hf : ∀ a : TypeId, 13 ≤ a.index → f a = c)
    (a : TypeId) : f (r.type a) = f a := by
  rcases r.type_eq_or a with h | ⟨h, h'⟩
  · rw [h]
  · rw [hf a h, hf _ h']

/-- Numbers are primitives, which are fixed. -/
theorem isNumeric_type (a : TypeId) : (r.type a).isNumeric = a.isNumeric := by
  refine r.apply_eq TypeId.isNumeric false (fun a ha => decide_eq_false ?_) a
  have hne := TypeId.ne_primitive ha
  rintro (h | h | h | h)
  · exact hne .int32 h
  · exact hne .int64 h
  · exact hne .float32 h
  · exact hne .float64 h

theorem isInteger_type (a : TypeId) : (r.type a).isInteger = a.isInteger := by
  refine r.apply_eq TypeId.isInteger false (fun a ha => decide_eq_false ?_) a
  rintro (h | h)
  · exact TypeId.ne_primitive ha .int32 h
  · exact TypeId.ne_primitive ha .int64 h

theorem isConversionTarget_type (a : TypeId) :
    (r.type a).isConversionTarget = a.isConversionTarget := by
  refine r.apply_eq TypeId.isConversionTarget false (fun ⟨n⟩ hn => ?_) a
  refine decide_eq_false fun htarget => ?_
  have hle : n ≤ 11 := htarget.2
  exact absurd (hn.trans hle) (by decide)

end TypeRenaming

theorem TypeTable.isSome_entry? {t : TypeTable} {id : TypeId} :
    (t.entry? id).isSome = t.contains id := by
  rw [Bool.eq_iff_iff, contains_iff, Option.isSome_iff_exists]
  exact ⟨fun ⟨_, he⟩ => lt_size_of_found he, exists_entry⟩

namespace TypeTable.Carried

variable {r : TypeRenaming} {t t' : TypeTable} {ε δ : Type} (h : Carried r t t')

include h

/-- Known types are renamed to known types. -/
theorem contains_type (id : TypeId) : t'.contains (r.type id) = t.contains id := by
  rw [← isSome_entry?, ← isSome_entry?, h.entry id, Option.isSome_map]

theorem referenceTo?_type (id : TypeId) :
    t'.referenceTo? (r.type id) = (t.referenceTo? id).map r.type := by
  rw [referenceTo?, referenceTo?, h.entry id]
  cases t.entry? id <;> rfl

theorem entry_agree (id : TypeId) : Agree (fun e e' => e' = e.rename r) (t.entry id : Checked ε _)
    (t'.entry (r.type id) : Checked δ _) := by
  rw [TypeTable.entry, TypeTable.entry, h.entry id]
  cases t.entry? id with
  | none => exact .error _ _
  | some e => exact .ok rfl

theorem kind_agree (id : TypeId) : Agree (fun k k' => k' = k.rename r.type r.decl)
    (t.kind id : Checked ε _) (t'.kind (r.type id) : Checked δ _) := by
  refine (h.entry_agree id).bind ?_
  rintro e - rfl
  exact .pure rfl

theorem layout_agree (id : TypeId) : Agree Eq (t.layout id : Checked ε _)
    (t'.layout (r.type id) : Checked δ _) := by
  refine (h.entry_agree id).bind ?_
  rintro e - rfl
  exact .pure rfl

theorem slots_agree (id : TypeId) : Agree Eq (t.slots id : Checked ε _)
    (t'.slots (r.type id) : Checked δ _) := by
  refine (h.layout_agree id).bind ?_
  rintro l - rfl
  exact .pure rfl

theorem verificationType_agree (id : TypeId) : Agree (fun c c' => c' = r.type c)
    (t.verificationType id : Checked ε _) (t'.verificationType (r.type id) : Checked δ _) := by
  refine (h.entry_agree id).bind ?_
  rintro e - rfl
  exact .pure rfl

theorem stackType_agree (id : TypeId) : Agree (fun c c' => c' = r.type c)
    (t.stackType id : Checked ε _) (t'.stackType (r.type id) : Checked δ _) := by
  refine (h.entry_agree id).bind ?_
  rintro e - rfl
  exact .pure rfl

theorem referent?_agree (id : TypeId) : Agree (fun c c' => c' = c.map r.type)
    (t.referent? id : Checked ε _) (t'.referent? (r.type id) : Checked δ _) := by
  refine (h.kind_agree id).bind ?_
  rintro k - rfl
  cases k <;> exact .pure rfl

theorem isReference_agree (id : TypeId) : Agree Eq (t.isReference id : Checked ε _)
    (t'.isReference (r.type id) : Checked δ _) := by
  refine (h.kind_agree id).bind ?_
  rintro k - rfl
  cases k <;> exact .pure rfl

/-- Types carry addresses under other names exactly if they do. -/
theorem carriesAddress_agree (id : TypeId) : Agree Eq (t.carriesAddress id : Checked ε _)
    (t'.carriesAddress (r.type id) : Checked δ _) := by
  refine (h.kind_agree id).bind ?_
  rintro k - rfl
  cases k <;> exact .pure rfl

/-- Whether a value can be stored. -/
theorem assignable_agree (source target : TypeId) : Agree Eq
    (t.assignable source target : Checked ε _)
    (t'.assignable (r.type source) (r.type target) : Checked δ _) := by
  refine (h.verificationType_agree target).bind ?_
  rintro target - rfl
  refine .ite (r.type_inj).symm (fun _ => .pure rfl) fun _ => ?_
  refine .ite (r.type_eq_primitive .null).symm (fun _ => h.isReference_agree target) fun _ => ?_
  have hnarrow : (r.type source = .int32 ∧ (r.type target = .int8 ∨ r.type target = .int16)) ↔
      source = .int32 ∧ (target = .int8 ∨ target = .int16) :=
    and_congr (r.type_eq_primitive .int32)
      (or_congr (r.type_eq_primitive .int8) (r.type_eq_primitive .int16))
  exact .pure (by simp only [hnarrow])

/-- The type where two paths meet. -/
theorem join?_agree (a b : TypeId) : Agree (fun c c' => c' = c.map r.type)
    (t.join? a b : Checked ε _) (t'.join? (r.type a) (r.type b) : Checked δ _) := by
  have hnone : Agree (fun c c' => c' = Option.map r.type c) (pure none : Checked ε (Option TypeId))
      (pure none : Checked δ (Option TypeId)) := .pure rfl
  have hpick {c : TypeId} {x : Checked ε (Option TypeId)} {y : Checked δ (Option TypeId)}
      (hxy : Agree (fun c c' => c' = Option.map r.type c) x y) :
      Agree (fun c c' => c' = Option.map r.type c)
        (t.isReference c >>= fun is => if is = true then pure (some c) else x)
        (t'.isReference (r.type c) >>= fun is =>
          if is = true then pure (some (r.type c)) else y) := by
    refine (h.isReference_agree c).bind ?_
    rintro is - rfl
    exact .ite Iff.rfl (fun _ => .pure rfl) fun _ => hxy
  have hright := Agree.ite (r.type_eq_primitive .null (a := b)).symm
    (fun _ => hpick (c := a) hnone) (fun _ => hnone)
  unfold join?
  refine .ite (r.type_inj).symm (fun _ => .pure rfl) fun _ => ?_
  exact .ite (r.type_eq_primitive .null).symm (fun _ => hpick hright) fun _ => hright

/-- The elements of a container. -/
theorem elementType?_agree (container : TypeId) : Agree (fun c c' => c' = c.map r.type)
    (t.elementType? container : Checked ε _)
    (t'.elementType? (r.type container) : Checked δ _) := by
  refine (h.kind_agree container).bind ?_
  rintro k - rfl
  cases k with
  | reference target =>
    refine (h.kind_agree target).bind ?_
    rintro k - rfl
    cases k <;> exact .pure rfl
  | _ => exact .pure rfl

end TypeTable.Carried

end StackCode
