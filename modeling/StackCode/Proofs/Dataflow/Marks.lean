import StackCode.Dataflow.Marks
import StackCode.Proofs.Dataflow.Fixpoint

/-!
# Marks along paths

If the rules of an analysis keep an order on stacks, what a solution records before an instruction
lies above the stack of every path to it.  The rules for marks keep the order by inclusion.  So an
operand is recorded with every mark that it has on some path.

## Main definitions

* `Analysis.Path`: the stacks that paths from the first instruction lead to.
* `Analysis.Monotone`: rules that keep an order on stacks.
* `Marks.Within`: stacks of marks by inclusion.

## Main results

* `Solution.Fixpoint.covers`: a fixpoint lies above the stacks of all paths.
* `Marks.solve_covers`: a solution holds the marks of all paths.
-/

namespace StackCode

section Paths

variable {α ε : Type} (a : Analysis α ε) (le : OperandStack α → OperandStack α → Prop)
  (body : Array Instr) (labels : Array Nat)

/-- The stacks that paths from the first instruction lead to. -/
inductive Analysis.Path : Nat → OperandStack α → Prop
  | start (hsize : 0 < body.size) : Path 0 .empty
  | step {index target : Nat} {instr : Instr} {stack out : OperandStack α} {v : Visit α}
      {exit : Exit} (hpath : Path index stack) (hinstr : body[index]? = some instr)
      (htransfer : a.transfer index instr stack = .ok v) (hout : (exit, out) ∈ v.successors)
      (htarget : exit.resolve? body.size labels index = some target) : Path target out

/-- The rules keep an order on stacks: from a higher stack, each way out is left with a higher
one. -/
def Analysis.Monotone : Prop :=
  ∀ {index instr s t v w}, le s t → a.transfer index instr s = .ok v →
    a.transfer index instr t = .ok w → ∀ exit out, (exit, out) ∈ v.successors →
      ∃ out', (exit, out') ∈ w.successors ∧ le out out'

variable {a le body labels}

/-- **A fixpoint lies above the stacks of all paths**, if the rules keep the order. -/
theorem Solution.Fixpoint.covers {s : Solution α} (h : s.Fixpoint a le body labels)
    (hb : a.Bounds le) (hmono : a.Monotone le) {index : Nat} {stack : OperandStack α}
    (hpath : a.Path body labels index stack) :
    ∃ recorded, s.states[index]? = some (some recorded) ∧ le stack recorded := by
  induction hpath with
  | start hsize => exact h.start hsize
  | step _ hinstr htransfer hout htarget ih =>
    obtain ⟨recorded, hrecorded, hle⟩ := ih
    obtain ⟨w, hw, -, harrives⟩ := h.settled _ _ recorded hinstr hrecorded
    obtain ⟨out', hout', hle'⟩ := hmono hle htransfer hw _ _ hout
    obtain ⟨target, next, hresolve, hnext, hbelow⟩ := harrives _ out' hout'
    cases htarget.symm.trans hresolve
    exact ⟨next, hnext, hb.trans hle' hbelow⟩

end Paths

namespace Marks

/-- The marks of one operand are among those of another. -/
def Subset (a b : UInt32) : Prop := a ||| b = b

theorem Subset.refl (a : UInt32) : Subset a a := UInt32.or_self

theorem Subset.trans {a b c : UInt32} (hab : Subset a b) (hbc : Subset b c) : Subset a c := by
  unfold Subset at *
  rw [← hbc, ← UInt32.or_assoc, hab]

theorem Subset.or {a b c d : UInt32} (hac : Subset a c) (hbd : Subset b d) :
    Subset (a ||| b) (c ||| d) := by
  unfold Subset at *
  rw [UInt32.or_assoc, UInt32.or_comm b, UInt32.or_assoc c, UInt32.or_comm d, hbd,
    ← UInt32.or_assoc, hac]

theorem subset_or_left (a b : UInt32) : Subset a (a ||| b) := by
  unfold Subset
  rw [← UInt32.or_assoc, UInt32.or_self]

theorem subset_or_right (a b : UInt32) : Subset b (a ||| b) := by
  rw [UInt32.or_comm]
  exact subset_or_left b a

/-- Stacks of marks by inclusion, operand by operand. -/
def Within (s t : OperandStack UInt32) : Prop := List.Forall₂ Subset s.topDown t.topDown

theorem Within.trans {s t u : OperandStack UInt32} (hst : Within s t) (htu : Within t u) :
    Within s u := by
  unfold Within at *
  generalize s.topDown = xs, t.topDown = ys, u.topDown = zs at hst htu
  induction hst generalizing zs with
  | nil => exact htu
  | cons hxy _ ih =>
    cases htu with
    | cons hyz hrest => exact .cons (hxy.trans hyz) (ih _ hrest)

theorem merge_eq_ok {target : Nat} {recorded incoming merged : OperandStack UInt32} :
    merge target recorded incoming = .ok merged ↔ recorded.size = incoming.size ∧
      merged = ⟨List.zipWith (· ||| ·) recorded.topDown incoming.topDown⟩ := by
  unfold merge
  split <;> simp_all [eq_comm]

theorem forall₂_subset_zipWith {xs ys : List UInt32} (h : xs.length = ys.length) :
    List.Forall₂ Subset xs (List.zipWith (· ||| ·) xs ys) ∧
      List.Forall₂ Subset ys (List.zipWith (· ||| ·) xs ys) := by
  induction xs generalizing ys with
  | nil =>
    cases List.length_eq_zero_iff.mp h.symm
    exact ⟨.nil, .nil⟩
  | cons x xs ih =>
    cases ys with
    | nil => cases h
    | cons y ys =>
      obtain ⟨hxs, hys⟩ := ih (Nat.succ.inj h)
      exact ⟨.cons (subset_or_left x y) hxs, .cons (subset_or_right x y) hys⟩

/-- United marks include those of both stacks. -/
theorem bounds : analysis.Bounds Within where
  refl _ := List.forall₂_same.mpr fun _ _ => .refl _
  trans := Within.trans
  recorded_le h := by
    obtain ⟨hsize, rfl⟩ := merge_eq_ok.mp h
    exact (forall₂_subset_zipWith hsize).1
  incoming_le h := by
    obtain ⟨hsize, rfl⟩ := merge_eq_ok.mp h
    exact (forall₂_subset_zipWith hsize).2

/-- Values taken off a stack have more marks if the stack has. -/
theorem take_within {index count : Nat} {s t below below' : OperandStack UInt32}
    {values values' : List UInt32} (hst : Within s t)
    (hs : take index count s = .ok (values, below))
    (ht : take index count t = .ok (values', below')) :
    List.Forall₂ Subset values values' ∧ Within below below' := by
  induction count generalizing s t values values' with
  | zero =>
    cases hs
    cases ht
    exact ⟨.nil, hst⟩
  | succ count ih =>
    obtain ⟨xs⟩ := s
    obtain ⟨ys⟩ := t
    cases hst with
    | nil => cases hs
    | @cons x y xs ys hxy hrest =>
      obtain ⟨⟨vs, b⟩, hvs, hs⟩ := bind_eq_ok.mp hs
      obtain ⟨⟨ws, b'⟩, hws, ht⟩ := bind_eq_ok.mp ht
      cases hs
      cases ht
      obtain ⟨hvalues, hbelow⟩ := ih hrest hvs hws
      exact ⟨.cons hxy hvalues, hbelow⟩

theorem foldl_or_subset {xs ys : List UInt32} (h : List.Forall₂ Subset xs ys) {a b : UInt32}
    (hab : Subset a b) : Subset (xs.foldl (· ||| ·) a) (ys.foldl (· ||| ·) b) := by
  induction h generalizing a b with
  | nil => exact hab
  | cons hxy _ ih => exact ih (hab.or hxy)

/-- What an instruction leaves has more marks if what it takes has. -/
theorem action_within {index count : Nat} {instr : Instr} {results : List UInt32 → List UInt32}
    (h : action index instr = .ok (count, results)) {xs ys : List UInt32}
    (hxy : List.Forall₂ Subset xs ys) : List.Forall₂ Subset (results xs) (results ys) := by
  have hsame (vs : List UInt32) : List.Forall₂ Subset vs vs :=
    List.forall₂_same.mpr fun _ _ => .refl _
  unfold action at h
  split at h
  · split at h <;> cases h
    · exact hsame _
    · exact hsame _
    · exact hsame _
    · exact hsame _
    · exact List.rel_append hxy hxy
    · exact .cons (foldl_or_subset hxy (.refl 0)) .nil
  · split at h <;> cases h
    exact hsame _
  · split at h <;> cases h <;> exact hsame _
  · split at h <;> cases h <;> exact hsame _
  · cases h
  · cases h
  · cases h
  · cases h
    exact hsame _
  · cases h
    exact hsame _

theorem pushAll_within {s t : OperandStack UInt32} (hst : Within s t) {xs ys : List UInt32}
    (hxy : List.Forall₂ Subset xs ys) : Within (s.pushAll xs) (t.pushAll ys) := by
  induction hxy generalizing s t with
  | nil => exact hst
  | cons hab _ ih => exact ih (.cons hab hst)

theorem successors_within {instr : Instr} {s t out : OperandStack UInt32} (hst : Within s t)
    {exit : Exit} (h : (exit, out) ∈ successors instr s) :
    ∃ out', (exit, out') ∈ successors instr t ∧ Within out out' := by
  unfold successors at *
  split at h
  · rcases List.mem_pair.mp h with heq | heq <;> cases heq
    · exact ⟨.empty, List.mem_cons_self, .nil⟩
    · exact ⟨t, List.mem_cons_of_mem _ List.mem_cons_self, hst⟩
  · rcases List.mem_pair.mp h with heq | heq <;> cases heq
    · exact ⟨t, List.mem_cons_self, hst⟩
    · exact ⟨t, List.mem_cons_of_mem _ List.mem_cons_self, hst⟩
  · obtain ⟨exit', hexit, ⟨⟩⟩ := List.mem_map.mp h
    exact ⟨t, List.mem_map_of_mem hexit, hst⟩

/-- The rules keep the order by inclusion. -/
theorem monotone : analysis.Monotone Within := by
  intro index instr s t v w hst hv hw exit out hout
  obtain ⟨⟨count, results⟩, haction, hs⟩ := bind_eq_ok.mp hv
  obtain ⟨⟨popped, below⟩, htake, hleft⟩ := bind_eq_ok.mp hs
  obtain ⟨⟨count', results'⟩, haction', ht⟩ := bind_eq_ok.mp hw
  cases haction.symm.trans haction'
  obtain ⟨⟨popped', below'⟩, htake', hleft'⟩ := bind_eq_ok.mp ht
  cases hleft
  cases hleft'
  obtain ⟨hpopped, hbelow⟩ := take_within hst htake htake'
  exact successors_within (pushAll_within hbelow (action_within haction hpopped)) hout

/-- **A solution holds the marks of all paths**: the stack that a path leads to is within the one
that is recorded where it ends. -/
theorem solve_covers {body : Array Instr} {labels : Array Nat} {s : Solution UInt32}
    (h : analysis.solve body labels = .ok s) {index : Nat} {stack : OperandStack UInt32}
    (hpath : analysis.Path body labels index stack) :
    ∃ recorded, s.states[index]? = some (some recorded) ∧ Within stack recorded :=
  (analysis.solve_fixpoint bounds h).covers bounds monotone hpath

end Marks

end StackCode
