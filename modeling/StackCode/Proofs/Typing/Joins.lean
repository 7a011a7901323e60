import StackCode.Proofs.Typing.Known

/-!
# Merging is a least upper bound

Two types, or two stacks, may have no upper bound in the order of the verifier, so joining them is a
partial operation.  Where there is an upper bound, the join is the least one.  The laws of joins
follow from that alone, failures included: whichever way a number of elements is joined, the outcome
is their least upper bound, and it fails if they have none.  So neither the order in which paths
come to an instruction nor how often one of them does makes a difference.

The laws are proved for any partial operation of this kind and used for types and for stacks.

## Main definitions

* `LeastAbove`: the least upper bound of some elements.
* `IsJoin`: a partial operation that joins what has an upper bound.
* `JoinLaws`: what holds of such an operation.

## Main results

* `IsJoin.foldlM_eq_some`: joining a list of elements gives their least upper bound.
* `IsJoin.laws`: the laws of joins.
* `TypeTable.merging_joins`: they hold of the joins of types and of the merges of stacks.
-/

namespace StackCode

section Orders

variable {α : Type} {le : α → α → Prop} {join : α → α → Option α}

/-- `a` lies above all of `items`, and below everything else that does. -/
structure LeastAbove (le : α → α → Prop) (items : List α) (a : α) : Prop where
  above : ∀ b ∈ items, le b a
  least : ∀ bound, (∀ b ∈ items, le b bound) → le a bound

/-- A partial operation that joins two elements of a partial order if they have an upper bound. -/
structure IsJoin (le : α → α → Prop) (join : α → α → Option α) : Prop where
  refl : ∀ a, le a a
  trans : ∀ {a b c}, le a b → le b c → le a c
  antisymm : ∀ {a b}, le a b → le b a → a = b
  upper : ∀ {a b joined}, join a b = some joined → le a joined ∧ le b joined
  bounded : ∀ {a b bound}, le a bound → le b bound →
    ∃ joined, join a b = some joined ∧ le joined bound

/-- The laws of a partial join. -/
structure JoinLaws (le : α → α → Prop) (join : α → α → Option α) : Prop where
  /-- A join is the least upper bound. -/
  least : ∀ a b joined, join a b = some joined ↔ LeastAbove le [a, b] joined
  /-- There is a join where there is an upper bound. -/
  defined : ∀ a b, (∃ joined, join a b = some joined) ↔ ∃ bound, le a bound ∧ le b bound
  self : ∀ a, join a a = some a
  comm : ∀ a b, join a b = join b a
  /-- Both ways to join three elements fail, or both give the same. -/
  assoc : ∀ a b c, ((join a b).bind fun ab => join ab c) = (join b c).bind fun bc => join a bc

/-- Elements with the same upper bounds have the same least one. -/
theorem leastAbove_congr {as bs : List α} {a : α}
    (hbounds : ∀ u, (∀ c ∈ as, le c u) ↔ ∀ c ∈ bs, le c u) :
    LeastAbove le as a ↔ LeastAbove le bs a := by
  constructor
  · intro hleast
    exact ⟨(hbounds a).mp hleast.above, fun u hu => hleast.least u ((hbounds u).mpr hu)⟩
  · intro hleast
    exact ⟨(hbounds a).mpr hleast.above, fun u hu => hleast.least u ((hbounds u).mp hu)⟩

namespace IsJoin

variable (h : IsJoin le join) {a b c joined : α} {as bs : List α}

include h

theorem leastAbove_singleton : LeastAbove le [a] joined ↔ a = joined := by
  constructor
  · intro hleast
    apply h.antisymm
    · exact hleast.above a List.mem_cons_self
    · exact hleast.least a (List.forall_mem_singleton.mpr (h.refl a))
  · rintro rfl
    exact ⟨List.forall_mem_singleton.mpr (h.refl a), fun _ hbound => hbound a List.mem_cons_self⟩

/-- A join is a least upper bound, and every least upper bound of two elements is their join. -/
theorem eq_some_iff : join a b = some joined ↔ LeastAbove le [a, b] joined := by
  have hpair {u : α} : (∀ c ∈ [a, b], le c u) ↔ le a u ∧ le b u := by
    simp only [List.forall_mem_cons, List.not_mem_nil, false_imp_iff, implies_true, and_true]
  constructor
  · intro hjoin
    refine ⟨hpair.mpr (h.upper hjoin), fun bound hbound => ?_⟩
    obtain ⟨joined', hjoin', hle⟩ := h.bounded (hpair.mp hbound).1 (hpair.mp hbound).2
    cases hjoin.symm.trans hjoin'
    exact hle
  · intro hleast
    obtain ⟨ha, hb⟩ := hpair.mp hleast.above
    obtain ⟨joined', hjoin', hle⟩ := h.bounded ha hb
    rw [hjoin', h.antisymm hle (hleast.least joined' (hpair.mpr (h.upper hjoin')))]

/-- The least upper bound of some elements can stand for them, next to others. -/
theorem leastAbove_cons (ha : LeastAbove le as a) :
    LeastAbove le (a :: bs) joined ↔ LeastAbove le (as ++ bs) joined := by
  apply leastAbove_congr
  intro u
  rw [List.forall_mem_cons, List.forall_mem_append]
  refine and_congr_left fun _ => ⟨fun hau c hc => ?_, fun hu => ha.least u hu⟩
  exact h.trans (ha.above c hc) hau

/-- **Joining a list of elements gives their least upper bound**, and fails if there is none. -/
theorem foldlM_eq_some : as.foldlM join a = some joined ↔ LeastAbove le (a :: as) joined := by
  induction as generalizing a with
  | nil =>
    rw [List.foldlM_nil, h.leastAbove_singleton]
    exact Option.some_inj
  | cons b as ih =>
    rw [List.foldlM_cons]
    constructor
    · intro hfold
      obtain ⟨ab, hab, hrest⟩ := Option.bind_eq_some_iff.mp hfold
      exact (h.leastAbove_cons (h.eq_some_iff.mp hab)).mp (ih.mp hrest)
    · intro hleast
      obtain ⟨ab, hab, -⟩ := h.bounded (hleast.above a (by simp)) (hleast.above b (by simp))
      refine Option.bind_eq_some_iff.mpr ⟨ab, hab, ih.mpr ?_⟩
      exact (h.leastAbove_cons (h.eq_some_iff.mp hab)).mpr hleast

/-- Elements with an upper bound have a join. -/
theorem exists_foldlM {bound : α} (hbound : ∀ c ∈ a :: as, le c bound) :
    ∃ joined, as.foldlM join a = some joined := by
  induction as generalizing a with
  | nil => exact ⟨a, rfl⟩
  | cons b as ih =>
    obtain ⟨ha, hrest⟩ := List.forall_mem_cons.mp hbound
    obtain ⟨hb, has⟩ := List.forall_mem_cons.mp hrest
    obtain ⟨ab, hab, hle⟩ := h.bounded ha hb
    obtain ⟨joined, hjoined⟩ := ih (List.forall_mem_cons.mpr ⟨hle, has⟩)
    refine ⟨joined, ?_⟩
    rw [List.foldlM_cons, hab]
    exact hjoined

theorem comm : join a b = join b a := by
  ext joined
  rw [h.eq_some_iff, h.eq_some_iff]
  apply leastAbove_congr
  intro u
  simp only [List.forall_mem_cons, List.not_mem_nil, false_imp_iff, implies_true, and_true]
  exact and_comm

/-- Lists of the same elements have the same join. -/
theorem foldlM_congr (hmem : ∀ c, c ∈ a :: as ↔ c ∈ b :: bs) :
    as.foldlM join a = bs.foldlM join b := by
  ext joined
  rw [h.foldlM_eq_some, h.foldlM_eq_some]
  apply leastAbove_congr
  intro u
  exact forall_congr' fun c => by rw [hmem c]

/-- Joins are associative: the two sides join the elements in the orders `a`, `b`, `c` and `b`, `c`,
`a`. -/
theorem assoc : ((join a b).bind fun ab => join ab c) = (join b c).bind fun bc => join a bc := by
  have hleft : ((join a b).bind fun ab => join ab c) = [b, c].foldlM join a := by
    simp only [List.foldlM_cons, List.foldlM_nil, bind]
    congr
    ext ab
    cases join ab c <;> rfl
  have hright : ((join b c).bind fun bc => join a bc) = [c, a].foldlM join b := by
    simp only [List.foldlM_cons, List.foldlM_nil, bind]
    congr
    ext bc
    rw [h.comm]
    cases join bc a <;> rfl
  rw [hleft, hright]
  apply h.foldlM_congr
  intro x
  simp only [List.mem_cons, List.not_mem_nil, or_false]
  tauto

/-- **The laws of joins.** -/
theorem laws : JoinLaws le join where
  least _ _ _ := h.eq_some_iff
  defined a b := by
    constructor
    · rintro ⟨joined, hjoin⟩
      exact ⟨joined, h.upper hjoin⟩
    · rintro ⟨bound, ha, hb⟩
      obtain ⟨joined, hjoin, -⟩ := h.bounded ha hb
      exact ⟨joined, hjoin⟩
  self a := h.eq_some_iff.mpr
    ⟨by simpa using h.refl a, fun bound hbound => hbound a List.mem_cons_self⟩
  comm _ _ := h.comm
  assoc _ _ _ := h.assoc

end IsJoin

end Orders

theorem toOption_bind {ε α β : Type} (x : Except ε α) (f : α → Except ε β) :
    (x >>= f).toOption = x.toOption.bind fun a => (f a).toOption := by
  cases x <;> rfl

theorem toOption_foldlM {ε α β : Type} (f : β → α → Except ε β) (l : List α) (b : β) :
    (l.foldlM f b).toOption = l.foldlM (fun b a => (f b a).toOption) b := by
  induction l generalizing b with
  | nil => rfl
  | cons a l ih =>
    rw [List.foldlM_cons, List.foldlM_cons, toOption_bind]
    exact congrArg _ (funext ih)

namespace TypeTable

variable {t : TypeTable}

/-- The type that two types join to. -/
def joined? (t : TypeTable) (a b : TypeId) : Option TypeId :=
  (t.join? a b : Checked Violation _).toOption.join

/-- The stack that two stacks merge to. -/
def merged? (t : TypeTable) (a b : OperandStack TypeId) : Option (OperandStack TypeId) :=
  (t.mergeStacks a b).toOption

theorem joined?_eq_some {a b joined : TypeId} :
    t.joined? a b = some joined ↔ t.joinPosition a b = .ok joined := by
  rw [joined?, joinPosition, bind_eq_ok, Option.join_eq_some_iff, toOption_eq_some]
  constructor
  · intro hjoin
    exact ⟨_, hjoin, rfl⟩
  · rintro ⟨joined?, hjoin, hresult⟩
    cases joined? with
    | none => cases hresult
    | some joined =>
      cases hresult
      exact hjoin

/-- The join of types is one. -/
theorem isJoin_joined? (t : TypeTable) : IsJoin t.Below t.joined? where
  refl := .refl
  trans := .trans
  antisymm hab hba := hab.antisymm hba
  upper hjoin := joinPosition_upper (joined?_eq_some.mp hjoin)
  bounded ha hb := by
    obtain ⟨joined, hjoin, hle⟩ := joinPosition_of_bounded ha hb
    exact ⟨joined, joined?_eq_some.mpr hjoin, hle⟩

/-- The merge of stacks is a join, position by position. -/
theorem isJoin_merged? (t : TypeTable) : IsJoin t.StackBelow t.merged? where
  refl := .refl
  trans := .trans
  antisymm hab hba := hab.antisymm hba
  upper hmerge := mergeStacks_upper (toOption_eq_some.mp hmerge)
  bounded ha hb := by
    obtain ⟨merged, hmerge, hle⟩ := mergeStacks_of_bounded ha hb
    exact ⟨merged, toOption_eq_some.mpr hmerge, hle⟩

/-- Merging stacks of known types, one after the other, ends with a stack or with a refusal. -/
theorem foldlM_mergeStacks_ends {a : OperandStack TypeId} {as : List (OperandStack TypeId)}
    (hknown : ∀ s ∈ a :: as, t.Knows s.topDown) :
    Ends (fun merged => t.Knows merged.topDown) (Fault.Refuses (·.isExpected true = true))
      (as.foldlM t.mergeStacks a) := by
  obtain ⟨ha, has⟩ := List.forall_mem_cons.mp hknown
  refine Ends.foldlM ha fun s hs merged hmerged => ?_
  exact mergeStacks_ends hmerged (has s hs)

/-- **Merging is a least upper bound.**  Types of which one is null and the other a reference join,
and so do stacks position by position: a merge succeeds if there is an upper bound, gives the least
one then, and is refused otherwise.  So joins of types and merges of stacks are idempotent,
commutative and associative, failures included, and stacks merge to the same stack, or fail to
merge, in whatever order they come and however often. -/
theorem merging_joins (t : TypeTable) :
    JoinLaws t.Below t.joined? ∧ JoinLaws t.StackBelow t.merged? ∧
    (∀ a b : TypeId, a.index < t.size → b.index < t.size →
      ∃ joined, (t.join? a b : Checked Violation _) = .ok joined) ∧
    (∀ a as, (∀ s ∈ a :: as, t.Knows s.topDown) →
      (∃ merged, as.foldlM t.mergeStacks a = .ok merged ∧
          LeastAbove t.StackBelow (a :: as) merged) ∨
        ∃ v, as.foldlM t.mergeStacks a = .refuse v ∧
          ¬ ∃ bound, ∀ s ∈ a :: as, t.StackBelow s bound) ∧
    ∀ a as b bs, (∀ s, s ∈ a :: as ↔ s ∈ b :: bs) →
      (as.foldlM t.mergeStacks a).toOption = (bs.foldlM t.mergeStacks b).toOption := by
  have hmerge := t.isJoin_merged?
  have hfold (a : OperandStack TypeId) (as : List (OperandStack TypeId)) :
      (as.foldlM t.mergeStacks a).toOption = as.foldlM t.merged? a := toOption_foldlM _ as a
  refine ⟨t.isJoin_joined?.laws, hmerge.laws, ?_, ?_, ?_⟩
  · intro a b ha hb
    cases hjoin : (t.join? a b : Checked Violation _) with
    | ok joined => exact ⟨joined, rfl⟩
    | error fault =>
      exact ((join?_ends (Q := fun _ => False) ha hb).cause hjoin).elim
  · intro a as hknown
    rcases (foldlM_mergeStacks_ends hknown).ok_or_refuse with ⟨merged, hok, -⟩ | ⟨v, hrefused, -⟩
    · refine .inl ⟨merged, hok, hmerge.foldlM_eq_some.mp ?_⟩
      rw [← hfold, hok]
      rfl
    · refine .inr ⟨v, hrefused, ?_⟩
      rintro ⟨bound, hbound⟩
      obtain ⟨merged, hmerged⟩ := hmerge.exists_foldlM hbound
      rw [← hfold, hrefused] at hmerged
      cases hmerged
  · intro a as b bs hmem
    rw [hfold, hfold]
    exact hmerge.foldlM_congr hmem

/-- Null and a reference to `int32` merge to the reference, and null coming again, or first, makes
no difference. -/
theorem merging_joins_null :
    LeastAbove initial.StackBelow [⟨[.null]⟩, ⟨[⟨16⟩]⟩] ⟨[⟨16⟩]⟩ ∧
      ([⟨[⟨16⟩]⟩, ⟨[.null]⟩].foldlM initial.mergeStacks ⟨[.null]⟩).toOption =
        ([⟨[.null]⟩].foldlM initial.mergeStacks ⟨[⟨16⟩]⟩).toOption := by
  obtain ⟨-, -, -, hmerges, hsame⟩ := merging_joins initial
  refine ⟨?_, hsame _ _ _ _ (by simp)⟩
  have hknown : ∀ s ∈ [⟨[.null]⟩, ⟨[⟨16⟩]⟩], initial.Knows (OperandStack.topDown s) := by
    simp only [List.forall_mem_cons, List.not_mem_nil, false_imp_iff, implies_true, and_true,
      knows_singleton]
    decide
  have hmerged : [⟨[⟨16⟩]⟩].foldlM initial.mergeStacks ⟨[.null]⟩ = .ok ⟨[⟨16⟩]⟩ := by rfl
  rcases hmerges _ _ hknown with ⟨merged, hok, hleast⟩ | ⟨v, hrefused, -⟩
  · cases hmerged.symm.trans hok
    exact hleast
  · cases hmerged.symm.trans hrefused

end TypeTable

end StackCode
