import StackCode.Instr.Basic

/-!
# Chains of imports

Imports are followed depth first, along a chain of modules of which each imports the next.  A module
is added to a chain once, so the modules that are not on it bound how much longer it can get.

## Main definitions

* `offChain`: the number of modules that are not on a chain.

## Main results

* `offChain_append_lt`: it falls when a chain grows.
-/

namespace StackCode

/-- The number of modules that are not on a chain. -/
def offChain (modules : List ModuleId) (chain : List ModuleId) : Nat :=
  modules.countP fun m => m ∉ chain

/-- A predicate that fails at a member of the list counts less than a wider one that holds there. -/
theorem countP_lt_countP {α : Type} {p q : α → Bool} {l : List α} {a : α} (hmem : a ∈ l)
    (himp : ∀ x, p x = true → q x = true) (hq : q a = true) (hp : p a = false) :
    l.countP p < l.countP q := by
  induction l with
  | nil => cases hmem
  | cons x rest ih =>
    have hle : rest.countP p ≤ rest.countP q := List.countP_mono_left fun y _ => himp y
    have hhead : (if p x = true then 1 else 0) ≤ (if q x = true then 1 else 0) := by
      by_cases hpx : p x = true
      · simp [hpx, himp x hpx]
      · simp [hpx]
    rw [List.countP_cons, List.countP_cons]
    cases List.mem_cons.1 hmem with
    | inl heq =>
      rw [← heq, hq, hp, if_pos rfl, if_neg Bool.false_ne_true]
      omega
    | inr hrest => exact Nat.add_lt_add_of_lt_of_le (ih hrest) hhead

/-- A chain that grows by one of the modules leaves fewer of them. -/
theorem offChain_append_lt {modules chain : List ModuleId} {id : ModuleId} (hmem : id ∈ modules)
    (hchain : id ∉ chain) : offChain modules (chain ++ [id]) < offChain modules chain := by
  refine countP_lt_countP hmem (fun x => ?_) (by simpa using hchain) (by simp)
  simp only [decide_eq_true_eq, List.mem_append]
  exact fun h hin => h (.inl hin)

end StackCode
