/-!
# Capability sets

An image states which optional parts of the instruction set its code needs, and a machine states
which it implements.  Both are sets of the same six capabilities, stored as the bits of one byte.

## Main definitions

* `Features`: a set of capabilities.
* `Features.union`, `Features.contains`, `Features.missingFrom`: the set operations.
* `Features.toText`: the printed form.

## Main results

* `Features.mem_union`, `Features.mem_missingFrom`, `Features.subsetOf_iff`: what the operations do
  to the members, which are the numbers of the bits that are set.
-/

namespace StackCode

/-- A set of capabilities, one per bit. -/
structure Features where
  /-- The bits of the set. -/
  bits : UInt8
deriving DecidableEq, Repr

namespace Features

/-- The empty set. -/
def none : Features := ⟨0⟩

/-- 64-bit integers. -/
def int64 : Features := ⟨1⟩

/-- Single precision floating point. -/
def float32 : Features := ⟨2⟩

/-- Double precision floating point. -/
def float64 : Features := ⟨4⟩

/-- References, objects and element access. -/
def memory : Features := ⟨8⟩

/-- Function values and calls through them. -/
def indirectCall : Features := ⟨16⟩

/-- Calls into the system. -/
def syscall : Features := ⟨32⟩

instance : Inhabited Features := ⟨none⟩

/-- The capabilities of either set. -/
def union (a b : Features) : Features := ⟨a.bits ||| b.bits⟩

/-- Whether every capability of `b` is in `a`. -/
def contains (a b : Features) : Bool := a.bits &&& b.bits == b.bits

/-- Whether every capability of `a` is in `b`. -/
def subsetOf (a b : Features) : Bool := b.contains a

/-- The capabilities of `a` that `available` lacks. -/
def missingFrom (a available : Features) : Features := ⟨a.bits &&& ~~~available.bits⟩

/-- The union of a list of sets. -/
def unionAll (fs : List Features) : Features := fs.foldl union none

/-- The capabilities with their printed names, in bit order. -/
def named : List (Features × String) :=
  [(int64, "int64"), (float32, "float32"), (float64, "float64"), (memory, "memory"),
    (indirectCall, "indirect-call"), (syscall, "syscall")]

/-- The names of the members, separated by bars; the empty set is written `none`. -/
def toText (a : Features) : String :=
  if a.bits = 0 then "none"
  else "|".intercalate ((named.filter fun f => a.contains f.1).map Prod.snd)

/-! ### Members -/

instance : Membership Nat Features := ⟨fun a bit => a.bits.toBitVec.getLsbD bit = true⟩

theorem mem_iff {a : Features} {bit : Nat} :
    bit ∈ a ↔ a.bits.toBitVec.getLsbD bit = true := Iff.rfl

@[ext] theorem ext {a b : Features} (h : ∀ bit, bit ∈ a ↔ bit ∈ b) : a = b := by
  obtain ⟨a⟩ := a
  obtain ⟨b⟩ := b
  refine congrArg mk (UInt8.toBitVec_inj.mp (BitVec.eq_of_getLsbD_eq fun bit _ => ?_))
  exact Bool.eq_iff_iff.mpr (h bit)

@[simp] theorem not_mem_none {bit : Nat} : ¬ bit ∈ none := by
  simp [mem_iff, none]

theorem exists_mem {a : Features} (h : a ≠ none) : ∃ bit, bit ∈ a :=
  Classical.byContradiction fun hnone => h <| ext fun bit =>
    ⟨fun hbit => absurd ⟨bit, hbit⟩ hnone, fun hbit => absurd hbit not_mem_none⟩

@[simp] theorem mem_union {a b : Features} {bit : Nat} :
    bit ∈ a.union b ↔ bit ∈ a ∨ bit ∈ b := by
  simp [mem_iff, union]

@[simp] theorem mem_missingFrom {a b : Features} {bit : Nat} :
    bit ∈ a.missingFrom b ↔ bit ∈ a ∧ ¬ bit ∈ b := by
  simp only [mem_iff, missingFrom, UInt8.toBitVec_and, UInt8.toBitVec_not, BitVec.getLsbD_and,
    BitVec.getLsbD_not, Bool.and_eq_true, decide_eq_true_eq, Bool.not_eq_true',
    Bool.not_eq_true]
  exact ⟨fun h => ⟨h.1, h.2.2⟩, fun h => ⟨h.1, BitVec.lt_of_getLsbD h.1, h.2⟩⟩

theorem subsetOf_iff {a b : Features} : a.subsetOf b = true ↔ ∀ bit, bit ∈ a → bit ∈ b := by
  have hand : a.subsetOf b = true ↔ ∀ bit, (bit ∈ b ∧ bit ∈ a) ↔ bit ∈ a := by
    rw [subsetOf, contains, beq_iff_eq, ← UInt8.toBitVec_inj]
    constructor
    · intro h bit
      simp only [mem_iff, ← Bool.and_eq_true, ← BitVec.getLsbD_and, ← UInt8.toBitVec_and, h]
    · intro h
      refine BitVec.eq_of_getLsbD_eq fun bit _ => Bool.eq_iff_iff.mpr ?_
      rw [UInt8.toBitVec_and, BitVec.getLsbD_and, Bool.and_eq_true]
      exact h bit
  exact hand.trans ⟨fun h bit ha => ((h bit).mpr ha).1,
    fun h bit => ⟨And.right, fun ha => ⟨h bit ha, ha⟩⟩⟩

theorem missingFrom_ne_none {a b : Features} (h : ¬ a.subsetOf b = true) :
    a.missingFrom b ≠ none := by
  intro hnone
  refine h (subsetOf_iff.mpr fun bit ha => Classical.byContradiction fun hb => ?_)
  have hmem : bit ∈ a.missingFrom b := mem_missingFrom.mpr ⟨ha, hb⟩
  rw [hnone] at hmem
  exact not_mem_none hmem

/-- The byte with every bit set has every capability. -/
theorem subsetOf_full (a : Features) : a.subsetOf ⟨255⟩ = true := by
  refine subsetOf_iff.mpr fun bit hbit => ?_
  have hfull : (255 : UInt8).toBitVec = BitVec.allOnes 8 := rfl
  rw [mem_iff, hfull, BitVec.getLsbD_allOnes]
  exact decide_eq_true (BitVec.lt_of_getLsbD hbit)

theorem mem_foldl_union {fs : List Features} {a : Features} {bit : Nat} :
    bit ∈ fs.foldl union a ↔ bit ∈ a ∨ ∃ f, f ∈ fs ∧ bit ∈ f := by
  induction fs generalizing a with
  | nil => simp
  | cons f fs ih => simp [ih, or_assoc]

@[simp] theorem mem_unionAll {fs : List Features} {bit : Nat} :
    bit ∈ unionAll fs ↔ ∃ f, f ∈ fs ∧ bit ∈ f := by
  simp [unionAll, mem_foldl_union]

end Features

end StackCode
