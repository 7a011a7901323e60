import StackCode.Code.Frame
import StackCode.Proofs.Types.Classes

/-!
# Slots of frames

The argument slots of a frame are the slots of the parameters together, and no recorded stack is
deeper than the frame allows.

## Main results

* `Frame.ofFunction_argSlots`: the argument slots of a frame.
* `Frame.ofTyping_depth`: recorded stacks fit the frame.
-/

namespace StackCode

namespace Frame

variable {t : TypeTable} {part : FramePart} {decl : FunctionDecl} {frame : Frame}
  {states : List (Option (OperandStack TypeId))}

theorem add_eq_ok {a b sum : Nat} :
    add part a b = .ok sum ↔ a + b < wordLimit ∧ a + b = sum := by
  unfold add
  by_cases h : a + b < wordLimit <;> simp [h, Checked.refuse]

theorem fit_eq_ok {slots : Nat} {byte : UInt8} :
    fit part slots = .ok byte ↔ byte.toNat = slots := by
  unfold fit
  by_cases h : slots < 256
  · rw [if_pos h, Except.ok.injEq, ← UInt8.toNat_inj, UInt8.toNat_ofNat', Nat.mod_eq_of_lt h]
    exact eq_comm
  · rw [if_neg h]
    refine iff_of_false (fun hok => by cases hok) fun hbyte => h ?_
    rw [← hbyte]
    exact byte.toNat_lt

/-- Variables placed one after the other take their slots together. -/
theorem assign_total {vars : List Variable} {next total : Nat} {offsets : List UInt8}
    (h : assign t part vars next = .ok (offsets, total)) :
    ∃ slots, t.HasTotalSlots (vars.map Variable.type) slots ∧ next + slots = total := by
  induction vars generalizing next offsets with
  | nil =>
    cases h
    exact ⟨0, TypeTable.hasTotalSlots_nil, rfl⟩
  | cons v vars ih =>
    obtain ⟨first, -, h⟩ := bind_eq_ok.mp h
    obtain ⟨slots, hslots, h⟩ := bind_eq_ok.mp h
    obtain ⟨next', hnext, h⟩ := bind_eq_ok.mp h
    obtain ⟨⟨offsets', total'⟩, hrest, h⟩ := bind_eq_ok.mp h
    cases pure_eq_ok.mp h
    obtain ⟨-, rfl⟩ := add_eq_ok.mp hnext
    obtain ⟨others, hothers, rfl⟩ := ih hrest
    refine ⟨slots + others, ?_, by omega⟩
    exact TypeTable.hasTotalSlots_cons.mpr
      ⟨slots, others, TypeTable.slots_eq_ok.mp hslots, hothers, rfl⟩

/-- The depth of a stack is the slots of its values together. -/
theorem depth_total {s : OperandStack TypeId} {depth : Nat} (h : Frame.depth t s = .ok depth) :
    t.HasTotalSlots s.bottomUp depth := by
  have hfold : ∀ (types : List TypeId) (start : Nat),
      types.foldlM (fun sum type => do add .stack sum (← t.slots type)) start = .ok depth →
        ∃ slots, t.HasTotalSlots types slots ∧ start + slots = depth := by
    intro types
    induction types with
    | nil =>
      intro start hstart
      cases hstart
      exact ⟨0, TypeTable.hasTotalSlots_nil, rfl⟩
    | cons type types ih =>
      intro start hsum
      rw [List.foldlM_cons] at hsum
      obtain ⟨mid, hmid, hsum⟩ := bind_eq_ok.mp hsum
      obtain ⟨slots, hslots, hmid⟩ := bind_eq_ok.mp hmid
      obtain ⟨-, rfl⟩ := add_eq_ok.mp hmid
      obtain ⟨others, hothers, rfl⟩ := ih _ hsum
      refine ⟨slots + others, ?_, by omega⟩
      exact TypeTable.hasTotalSlots_cons.mpr
        ⟨slots, others, TypeTable.slots_eq_ok.mp hslots, hothers, rfl⟩
  obtain ⟨slots, hslots, rfl⟩ := hfold s.bottomUp 0 h
  rwa [Nat.zero_add]

/-- The deepest of some stacks, from a depth on, is as deep as each of them. -/
theorem foldlM_max_bounds {recorded : List (OperandStack TypeId)} {start peak : Nat}
    (h : recorded.foldlM (fun peak s => do return max peak (← Frame.depth t s)) start =
      (.ok peak : Checked FrameError Nat)) :
    start ≤ peak ∧ ∀ s ∈ recorded, ∃ depth ≤ peak, t.HasTotalSlots s.bottomUp depth := by
  induction recorded generalizing start with
  | nil =>
    cases h
    exact ⟨Nat.le_refl _, List.forall_mem_nil _⟩
  | cons first rest ih =>
    rw [List.foldlM_cons] at h
    obtain ⟨mid, hmid, h⟩ := bind_eq_ok.mp h
    obtain ⟨depth, hdepth, hmid⟩ := bind_eq_ok.mp hmid
    obtain rfl := pure_eq_ok.mp hmid
    obtain ⟨hle, hrest⟩ := ih h
    refine ⟨by omega, List.forall_mem_cons.mpr ⟨⟨depth, by omega, depth_total hdepth⟩, hrest⟩⟩

/-- No recorded stack is deeper than the peak. -/
theorem peak_bounds {peak : Nat} (h : Frame.peak t states = .ok peak) {s : OperandStack TypeId}
    (hs : some s ∈ states) : ∃ depth ≤ peak, t.HasTotalSlots s.bottomUp depth :=
  (foldlM_max_bounds h).2 s (List.mem_filterMap.mpr ⟨some s, hs, rfl⟩)

/-- What a frame of a body is made of. -/
theorem ofTyping_eq_ok (h : ofTyping t decl states = .ok frame) :
    t.HasTotalSlots decl.paramTypes frame.argSlots.toNat ∧
      Frame.peak t states = .ok frame.maxStack.toNat := by
  obtain ⟨⟨paramOffsets, argSlots⟩, hparams, h⟩ := bind_eq_ok.mp h
  obtain ⟨⟨localOffsets, localSlots⟩, -, h⟩ := bind_eq_ok.mp h
  obtain ⟨offsets, -, h⟩ := bind_eq_ok.mp h
  obtain ⟨maxStack, hpeak, h⟩ := bind_eq_ok.mp h
  obtain ⟨argByte, harg, h⟩ := bind_eq_ok.mp h
  obtain ⟨localByte, -, h⟩ := bind_eq_ok.mp h
  obtain ⟨stackByte, hstack, h⟩ := bind_eq_ok.mp h
  obtain ⟨_, -, h⟩ := bind_eq_ok.mp h
  obtain ⟨_, -, h⟩ := bind_eq_ok.mp h
  obtain ⟨_, -, h⟩ := bind_eq_ok.mp h
  cases pure_eq_ok.mp h
  obtain ⟨slots, hslots, hsum⟩ := assign_total hparams
  rw [Nat.zero_add] at hsum
  dsimp only
  rw [fit_eq_ok.mp harg, fit_eq_ok.mp hstack, ← hsum]
  exact ⟨hslots, hpeak⟩

theorem ofStub_argSlots (h : ofStub t decl = .ok frame) :
    t.HasTotalSlots decl.paramTypes frame.argSlots.toNat := by
  obtain ⟨⟨paramOffsets, argSlots⟩, hparams, h⟩ := bind_eq_ok.mp h
  obtain ⟨resultSlots, -, h⟩ := bind_eq_ok.mp h
  obtain ⟨_, -, h⟩ := bind_eq_ok.mp h
  obtain ⟨_, -, h⟩ := bind_eq_ok.mp h
  obtain ⟨argByte, harg, h⟩ := bind_eq_ok.mp h
  obtain ⟨stackByte, -, h⟩ := bind_eq_ok.mp h
  cases pure_eq_ok.mp h
  obtain ⟨slots, hslots, hsum⟩ := assign_total hparams
  rw [Nat.zero_add] at hsum
  dsimp only
  rw [fit_eq_ok.mp harg, ← hsum]
  exact hslots

/-- **The argument slots of a frame** are the slots of the parameters together. -/
theorem ofFunction_argSlots (h : ofFunction t decl states = .ok frame) :
    t.HasTotalSlots decl.paramTypes frame.argSlots.toNat := by
  unfold ofFunction at h
  split at h
  · exact ofStub_argSlots h
  · exact (ofTyping_eq_ok h).1

/-- Recorded stacks fit the frame. -/
theorem ofTyping_depth (h : ofTyping t decl states = .ok frame) {s : OperandStack TypeId}
    (hs : some s ∈ states) : ∃ depth < 256, t.HasTotalSlots s.bottomUp depth := by
  obtain ⟨depth, hle, hdepth⟩ := peak_bounds (ofTyping_eq_ok h).2 hs
  exact ⟨depth, Nat.lt_of_le_of_lt hle frame.maxStack.toNat_lt, hdepth⟩

end Frame

end StackCode
