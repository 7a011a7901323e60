import Mathlib.Order.Bounds.Basic
import StackCode.Proofs.Code.Frames
import StackCode.Proofs.Code.SlotEffects

/-!
# Exact frames

The slots of a frame are summed as words and checked in pieces: the first slot of each variable, the
sum of each part, and at the end the whole.  No check refuses a frame that fits, and together they
let through no frame that does not.  So a frame is found exactly if its parameters, its locals and
its deepest stack take at most 255 slots, and then every number in it is the true sum.

Each step of the computation is described by how it ends: with the true sum, or with a refusal that
shows the sum to be too large.  The description of the whole is put together from these.

## Main definitions

* `TypeTable.HasPeakSlots`: the slots of the deepest of some stacks.
* `VariableRef`, `Frame.Occupies`: the variables of a function and the slots of each.
* `Frame.IsExact`: the numbers of a frame are the true sums.
* `Frame.Reaches`: an operation accesses a variable at its slots.

## Main results

* `Frame.ofTyping_bounds`: how the frame of a body is found.
* `Program.frame_exact`: frames are exact, and code stays inside the slots of its variables.
-/

namespace StackCode

/-! ### Sums of slots -/

namespace TypeTable

variable {t : TypeTable} {types : List TypeId} {m n i j : Nat}

/-- The deepest of the stacks takes `peak` slots; without stacks it is 0. -/
def HasPeakSlots (t : TypeTable) (recorded : List (OperandStack TypeId)) (peak : Nat) : Prop :=
  IsGreatest {n | n = 0 ∨ ∃ s ∈ recorded, t.HasTotalSlots s.bottomUp n} peak

theorem exists_hasTotalSlots (h : ∀ type ∈ types, type.index < t.size) :
    ∃ n, t.HasTotalSlots types n := by
  induction types with
  | nil => exact ⟨0, hasTotalSlots_nil⟩
  | cons type types ih =>
    obtain ⟨htype, htypes⟩ := List.forall_mem_cons.mp h
    obtain ⟨first, hfirst⟩ := exists_hasSlots htype
    obtain ⟨rest, hrest⟩ := ih htypes
    exact ⟨first + rest, hasTotalSlots_cons.mpr ⟨first, rest, hfirst, hrest, rfl⟩⟩

theorem hasPeakSlots_nil : t.HasPeakSlots [] 0 := by
  simp [HasPeakSlots, IsGreatest, upperBounds]

/-- The deepest of several stacks is the first or the deepest of the others. -/
theorem HasPeakSlots.cons {s : OperandStack TypeId} {recorded : List (OperandStack TypeId)}
    (hs : t.HasTotalSlots s.bottomUp n) (h : t.HasPeakSlots recorded m) :
    t.HasPeakSlots (s :: recorded) (max n m) := by
  have hset : {k | k = 0 ∨ ∃ s' ∈ s :: recorded, t.HasTotalSlots s'.bottomUp k} =
      insert n {k | k = 0 ∨ ∃ s' ∈ recorded, t.HasTotalSlots s'.bottomUp k} := by
    ext k
    have hfirst : t.HasTotalSlots s.bottomUp k ↔ k = n :=
      ⟨fun hk => hk.unique hs, fun hk => hk ▸ hs⟩
    simp only [List.mem_cons, exists_eq_or_imp, hfirst, Set.mem_ofPred_eq, Set.mem_insert_iff]
    exact or_left_comm
  rw [HasPeakSlots, hset]
  exact h.insert n

theorem exists_hasPeakSlots {recorded : List (OperandStack TypeId)}
    (h : ∀ s ∈ recorded, ∃ n, t.HasTotalSlots s.bottomUp n) :
    ∃ peak, t.HasPeakSlots recorded peak := by
  induction recorded with
  | nil => exact ⟨0, hasPeakSlots_nil⟩
  | cons s recorded ih =>
    obtain ⟨⟨n, hn⟩, hrest⟩ := List.forall_mem_cons.mp h
    obtain ⟨peak, hpeak⟩ := ih hrest
    exact ⟨max n peak, hpeak.cons hn⟩

/-- More types take no fewer slots. -/
theorem HasTotalSlots.take_le (hi : t.HasTotalSlots (types.take i) m)
    (hj : t.HasTotalSlots (types.take j) n) (hij : i ≤ j) : m ≤ n := by
  have hsplit := List.take_append_drop i (types.take j)
  rw [List.take_take, Nat.min_eq_left hij] at hsplit
  rw [← hsplit] at hj
  obtain ⟨first, rest, hfirst, -, rfl⟩ := hasTotalSlots_append.mp hj
  rw [hi.unique hfirst]
  exact Nat.le_add_right _ _

/-- The slots of one more type. -/
theorem HasTotalSlots.take_succ {type : TypeId} {slots : Nat}
    (h : t.HasTotalSlots (types.take i) n) (htype : types[i]? = some type)
    (hslots : t.HasSlots type slots) : t.HasTotalSlots (types.take (i + 1)) (n + slots) := by
  rw [List.take_add_one, htype]
  exact hasTotalSlots_append.mpr ⟨n, slots, h, hasTotalSlots_singleton.mpr hslots, rfl⟩

end TypeTable

/-! ### Variables -/

/-- A variable of a function, by its position among the parameters or among the locals. -/
inductive VariableRef where
  | argument (index : Nat)
  | localVar (index : Nat)
deriving DecidableEq, Repr

/-- The variable an instruction accesses, and how. -/
def Instr.variableAccess? : Instr → Option (Access × VariableRef)
  | argument a index => some (a, .argument index)
  | localVar a index => some (a, .localVar index)
  | _ => none

namespace FunctionDecl

/-- The types of the locals. -/
def localTypes (decl : FunctionDecl) : List TypeId := decl.locals.map Variable.type

/-- The types of all variables, in the order of their slots. -/
def variableTypes (decl : FunctionDecl) : List TypeId := decl.paramTypes ++ decl.localTypes

/-- The type of a variable. -/
def typeOf? (decl : FunctionDecl) : VariableRef → Option TypeId
  | .argument index => decl.paramTypes[index]?
  | .localVar index => decl.localTypes[index]?

/-- The position of a variable in the order of slots. -/
def position (decl : FunctionDecl) : VariableRef → Nat
  | .argument index => index
  | .localVar index => decl.paramTypes.length + index

variable {decl : FunctionDecl} {r r' : VariableRef} {type type' : TypeId}

theorem getElem?_position (h : decl.typeOf? r = some type) :
    decl.variableTypes[decl.position r]? = some type := by
  cases r with
  | argument index =>
    have hlt := (List.getElem?_eq_some_iff.mp h).1
    rw [variableTypes, position, List.getElem?_append_left hlt]
    exact h
  | localVar index =>
    rw [variableTypes, position, List.getElem?_append_right (Nat.le_add_right _ _),
      Nat.add_sub_cancel_left]
    exact h

theorem position_injective (h : decl.typeOf? r = some type) (h' : decl.typeOf? r' = some type')
    (heq : decl.position r = decl.position r') : r = r' := by
  cases r with
  | argument i =>
    have hi := (List.getElem?_eq_some_iff.mp h).1
    cases r' with
    | argument j => exact congrArg _ heq
    | localVar j =>
      simp only [position] at heq
      omega
  | localVar i =>
    cases r' with
    | argument j =>
      have hj := (List.getElem?_eq_some_iff.mp h').1
      simp only [position] at heq
      omega
    | localVar j => exact congrArg _ (Nat.add_left_cancel heq)

end FunctionDecl

namespace Frame

variable {t : TypeTable} {part : FramePart} {decl : FunctionDecl} {frame : Frame}
  {states : List (Option (OperandStack TypeId))} {args locals peak : Nat}

/-- The first slot of a variable. -/
def slot? (frame : Frame) : VariableRef → Option UInt8
  | .argument index => frame.paramSlot? index
  | .localVar index => frame.localSlot? index

/-- The variable has the slots from `first` on, up to `finish`. -/
def Occupies (frame : Frame) (t : TypeTable) (decl : FunctionDecl) (r : VariableRef)
    (first finish : Nat) : Prop :=
  ∃ type slot slots, decl.typeOf? r = some type ∧ frame.slot? r = some slot ∧
    t.HasSlots type slots ∧ slot.toNat = first ∧ first + slots = finish

/-- The numbers of the frame are true sums of slots, where the parameters take `args` slots, the
locals `locals` and the deepest stack `peak`. -/
structure IsExact (frame : Frame) (t : TypeTable) (decl : FunctionDecl) (args locals peak : Nat) :
    Prop where
  argSlots : frame.argSlots.toNat = args
  localSlots : frame.localSlots.toNat = locals
  maxStack : frame.maxStack.toNat = peak
  /-- A parameter comes after the parameters before it. -/
  param : ∀ i < decl.params.length, ∃ slot before, frame.paramSlot? i = some slot ∧
    t.HasTotalSlots (decl.paramTypes.take i) before ∧ slot.toNat = before
  /-- A local comes after all parameters and the locals before it. -/
  localVar : ∀ i < decl.locals.length, ∃ slot before, frame.localSlot? i = some slot ∧
    t.HasTotalSlots (decl.localTypes.take i) before ∧ slot.toNat = args + before
  /-- No two variables share a slot. -/
  disjoint : ∀ {r r' first finish first' finish'}, r ≠ r' →
    frame.Occupies t decl r first finish → frame.Occupies t decl r' first' finish' →
      finish ≤ first' ∨ finish' ≤ first
  /-- The operand stack comes after all variables. -/
  below : ∀ {r first finish}, frame.Occupies t decl r first finish → finish ≤ args + locals

/-! ### How frames are computed -/

/-- What is too large for a part is too large for the whole. -/
theorem bounds_mono {α : Type} {P : α → Prop} {x : Checked FrameError α} {m n : Nat}
    (h : Ends P (Fault.Refuses fun _ => 255 < m) x) (hle : m ≤ n) :
    Ends P (Fault.Refuses fun _ => 255 < n) x := by
  refine h.mono (fun _ ha => ha) fun e he => ?_
  cases e with
  | dangling type => exact he
  | refused cause => exact Nat.lt_of_lt_of_le he hle

theorem fit_bounds {slots : Nat} :
    Ends (fun byte => byte.toNat = slots) (Fault.Refuses fun _ => 255 < slots)
      (fit part slots) := by
  unfold fit
  split
  · rename_i hlt
    refine .ok ?_
    simp only [UInt8.toNat_ofNat']
    omega
  · exact .refuse (by omega)

theorem add_bounds {a b : Nat} :
    Ends (fun sum => sum = a + b) (Fault.Refuses fun _ => 255 < a + b) (add part a b) := by
  unfold add
  split
  · exact .ok rfl
  · rename_i hlarge
    refine .refuse ?_
    simp only [wordLimit] at hlarge
    omega

/-- Adds counts of slots and narrows the sum. -/
theorem fit_add_bounds {a b : Nat} :
    Ends (fun byte => byte.toNat = a + b) (Fault.Refuses fun _ => 255 < a + b)
      (do fit part (← add part a b)) := by
  refine add_bounds.bind ?_
  rintro _ rfl
  exact fit_bounds

/-- Each of the variables comes after the ones before it. -/
def PlacedFrom (t : TypeTable) (types : List TypeId) (next : Nat) (offsets : List UInt8) : Prop :=
  ∀ i < types.length, ∃ slot before, offsets[i]? = some slot ∧
    t.HasTotalSlots (types.take i) before ∧ slot.toNat = next + before

theorem PlacedFrom.cons {type : TypeId} {types : List TypeId} {next slots : Nat} {first : UInt8}
    {offsets : List UInt8} (hfirst : first.toNat = next) (hslots : t.HasSlots type slots)
    (h : PlacedFrom t types (next + slots) offsets) :
    PlacedFrom t (type :: types) next (first :: offsets) := by
  intro i hi
  cases i with
  | zero => exact ⟨first, 0, rfl, TypeTable.hasTotalSlots_nil, hfirst⟩
  | succ i =>
    obtain ⟨slot, before, hslot, hbefore, heq⟩ := h i (Nat.lt_of_succ_lt_succ hi)
    refine ⟨slot, slots + before, hslot, ?_, by omega⟩
    exact TypeTable.hasTotalSlots_cons.mpr ⟨slots, before, hslots, hbefore, rfl⟩

/-- **Variables get the sums of the slots before them**, or do not fit. -/
theorem assign_bounds {vars : List Variable} (next : Nat) {n : Nat}
    (h : t.HasTotalSlots (vars.map Variable.type) n) :
    Ends (fun assigned => PlacedFrom t (vars.map Variable.type) next assigned.1 ∧
        assigned.1.length = vars.length ∧ assigned.2 = next + n)
      (Fault.Refuses fun _ => 255 < next + n) (assign t part vars next) := by
  induction vars generalizing next n with
  | nil =>
    rw [h.unique TypeTable.hasTotalSlots_nil]
    refine .ok ⟨?_, rfl, rfl⟩
    intro i hi
    cases hi
  | cons v vars ih =>
    obtain ⟨slots, rest, hslots, hrest, rfl⟩ := TypeTable.hasTotalSlots_cons.mp h
    refine (bounds_mono fit_bounds (by omega)).bind ?_
    intro first hfirst
    refine Ends.bind (.of_eq_ok (TypeTable.slots_eq_ok.mpr hslots) rfl) ?_
    rintro _ rfl
    refine Ends.bind (bounds_mono (add_bounds (a := next) (b := slots)) (by omega)) ?_
    rintro _ rfl
    have hrests := ih (next + slots) hrest
    refine (bounds_mono (n := next + (slots + rest)) hrests (by omega)).bind ?_
    rintro ⟨offsets, total⟩ ⟨hplaced, hlength, htotal⟩
    refine .pure ⟨hplaced.cons hfirst hslots, congrArg Nat.succ hlength, ?_⟩
    exact htotal.trans (Nat.add_assoc _ _ _)

/-- The depth of a stack is the sum of the slots of its values, or it is too large. -/
theorem depth_bounds {s : OperandStack TypeId} {n : Nat} (h : t.HasTotalSlots s.bottomUp n) :
    Ends (fun depth => depth = n) (Fault.Refuses fun _ => 255 < n) (depth t s) := by
  have hfold : ∀ (types : List TypeId) (start n : Nat), t.HasTotalSlots types n →
      Ends (fun depth => depth = start + n) (Fault.Refuses fun _ => 255 < start + n)
        (types.foldlM (fun sum type => do add .stack sum (← t.slots type)) start) := by
    intro types
    induction types with
    | nil =>
      intro start n hn
      rw [hn.unique TypeTable.hasTotalSlots_nil]
      exact .pure rfl
    | cons type types ih =>
      intro start n hn
      obtain ⟨slots, rest, hslots, hrest, rfl⟩ := TypeTable.hasTotalSlots_cons.mp hn
      rw [List.foldlM_cons, TypeTable.slots_eq_ok.mpr hslots]
      refine Ends.bind (bounds_mono (add_bounds (a := start) (b := slots)) (by omega)) ?_
      rintro _ rfl
      rw [← Nat.add_assoc]
      exact ih (start + slots) rest hrest
  have hdepth := hfold s.bottomUp 0 n h
  rwa [Nat.zero_add] at hdepth

/-- The peak is the depth of the deepest stack, or that is too large. -/
theorem foldlM_max_ends {recorded : List (OperandStack TypeId)} (start : Nat) {peak : Nat}
    (hstacks : ∀ s ∈ recorded, ∃ n, t.HasTotalSlots s.bottomUp n)
    (hpeak : t.HasPeakSlots recorded peak) :
    Ends (fun found => found = max start peak) (Fault.Refuses fun _ => 255 < peak)
      (recorded.foldlM (fun peak s => do return max peak (← Frame.depth t s)) start) := by
  induction recorded generalizing start peak with
  | nil =>
    rw [hpeak.unique TypeTable.hasPeakSlots_nil, Nat.max_zero]
    exact .pure rfl
  | cons first rest ih =>
    obtain ⟨⟨n, hn⟩, hrest⟩ := List.forall_mem_cons.mp hstacks
    obtain ⟨others, hothers⟩ := TypeTable.exists_hasPeakSlots hrest
    rw [hpeak.unique (hothers.cons hn), List.foldlM_cons]
    refine Ends.bind (P := fun found => found = max start n) ?_ ?_
    · refine (bounds_mono (depth_bounds hn) (Nat.le_max_left _ _)).bind ?_
      rintro _ rfl
      exact .pure rfl
    · rintro _ rfl
      rw [← Nat.max_assoc]
      exact bounds_mono (ih _ hrest hothers) (Nat.le_max_right _ _)

/-! ### The frame of a body -/

/-- The slots of a variable are those after the variables before it. -/
theorem Occupies.hasTotalSlots {r : VariableRef} {first finish : Nat}
    (hargs : t.HasTotalSlots decl.paramTypes args)
    (hparams : PlacedFrom t decl.paramTypes 0 frame.paramOffsets)
    (hlocals : PlacedFrom t decl.localTypes args frame.localOffsets)
    (h : frame.Occupies t decl r first finish) :
    t.HasTotalSlots (decl.variableTypes.take (decl.position r)) first ∧
      t.HasTotalSlots (decl.variableTypes.take (decl.position r + 1)) finish := by
  obtain ⟨type, slot, slots, htype, hslot, hslots, rfl, rfl⟩ := h
  have hbefore : t.HasTotalSlots (decl.variableTypes.take (decl.position r)) slot.toNat := by
    cases r with
    | argument i =>
      have hi := (List.getElem?_eq_some_iff.mp htype).1
      obtain ⟨slot', before, hslot', hbefore, heq⟩ := hparams i hi
      cases hslot.symm.trans hslot'
      rw [FunctionDecl.variableTypes, FunctionDecl.position,
        List.take_append_of_le_length (Nat.le_of_lt hi), heq, Nat.zero_add]
      exact hbefore
    | localVar i =>
      have hi := (List.getElem?_eq_some_iff.mp htype).1
      obtain ⟨slot', before, hslot', hbefore, heq⟩ := hlocals i hi
      cases hslot.symm.trans hslot'
      rw [FunctionDecl.variableTypes, FunctionDecl.position, List.take_length_add_append, heq]
      exact TypeTable.hasTotalSlots_append.mpr ⟨args, before, hargs, hbefore, rfl⟩
  exact ⟨hbefore, hbefore.take_succ (decl.getElem?_position htype) hslots⟩

/-- A frame whose variables are placed one after the other is exact.  Of two variables one comes
first, and its slots end where those of the other can start. -/
theorem isExact_of_placed (hargs : t.HasTotalSlots decl.paramTypes args)
    (hlocals : t.HasTotalSlots decl.localTypes locals)
    (hparams : PlacedFrom t decl.paramTypes 0 frame.paramOffsets)
    (hlocalVars : PlacedFrom t decl.localTypes args frame.localOffsets)
    (hargSlots : frame.argSlots.toNat = args) (hlocalSlots : frame.localSlots.toNat = locals)
    (hmaxStack : frame.maxStack.toNat = peak) : frame.IsExact t decl args locals peak where
  argSlots := hargSlots
  localSlots := hlocalSlots
  maxStack := hmaxStack
  param i hi := by
    obtain ⟨slot, before, hslot, hbefore, heq⟩ :=
      hparams i (by simpa [FunctionDecl.paramTypes] using hi)
    exact ⟨slot, before, hslot, hbefore, heq.trans (Nat.zero_add _)⟩
  localVar i hi := hlocalVars i (by simpa [FunctionDecl.localTypes] using hi)
  disjoint {r r' first finish first' finish'} hne hr hr' := by
    obtain ⟨hfirst, hfinish⟩ := hr.hasTotalSlots hargs hparams hlocalVars
    obtain ⟨hfirst', hfinish'⟩ := hr'.hasTotalSlots hargs hparams hlocalVars
    obtain ⟨_, _, _, htype, -⟩ := hr
    obtain ⟨_, _, _, htype', -⟩ := hr'
    rcases Nat.lt_trichotomy (decl.position r) (decl.position r') with hlt | heq | hgt
    · exact .inl (hfinish.take_le hfirst' hlt)
    · exact absurd (FunctionDecl.position_injective htype htype' heq) hne
    · exact .inr (hfinish'.take_le hfirst hgt)
  below {r first finish} hr := by
    obtain ⟨-, hfinish⟩ := hr.hasTotalSlots hargs hparams hlocalVars
    obtain ⟨_, _, _, htype, -⟩ := hr
    have hlt := (List.getElem?_eq_some_iff.mp (decl.getElem?_position htype)).1
    have hall : t.HasTotalSlots (decl.variableTypes.take decl.variableTypes.length)
        (args + locals) := by
      rw [List.take_length]
      exact TypeTable.hasTotalSlots_append.mpr ⟨args, locals, hargs, hlocals, rfl⟩
    exact hfinish.take_le hall hlt

/-- The slots of locals continue after the parameters, or do not fit. -/
theorem shift_bounds (args : Nat) {types : List TypeId} {offsets : List UInt8}
    (htotal : t.HasTotalSlots types locals) (hplaced : PlacedFrom t types 0 offsets)
    (hlength : offsets.length = types.length) :
    Ends (PlacedFrom t types args) (Fault.Refuses fun _ => 255 < args + locals)
      (offsets.mapM fun offset => do fit .frame (← add .frame offset.toNat args)) := by
  refine Ends.weaken (P := List.Forall₂ (fun o o' => o'.toNat = o.toNat + args) offsets)
    (.mapM fun offset hoffset => bounds_mono fit_add_bounds ?_) fun shifted _ hshifted i hi => ?_
  · obtain ⟨i, hi⟩ := List.mem_iff_getElem?.mp hoffset
    obtain ⟨slot, before, hslot, hbefore, heq⟩ :=
      hplaced i (hlength ▸ (List.getElem?_eq_some_iff.mp hi).1)
    cases hi.symm.trans hslot
    rw [← List.take_length (l := types)] at htotal
    have hle := hbefore.take_le htotal (hlength ▸ Nat.le_of_lt (List.getElem?_eq_some_iff.mp hi).1)
    omega
  · obtain ⟨slot, before, hslot, hbefore, heq⟩ := hplaced i hi
    obtain ⟨slot', hslot', heq'⟩ := getElem?_of_forall₂ hshifted hslot
    exact ⟨slot', before, hslot', hbefore, by omega⟩

/-- **How the frame of a body is found**: it is exact, or the slots do not fit in a byte. -/
theorem ofTyping_bounds (hargs : t.HasTotalSlots decl.paramTypes args)
    (hlocals : t.HasTotalSlots decl.localTypes locals)
    (hstates : ∀ s ∈ states.filterMap id, ∃ n, t.HasTotalSlots s.bottomUp n)
    (hpeak : t.HasPeakSlots (states.filterMap id) peak) :
    Ends (fun frame => frame.IsExact t decl args locals peak ∧ args + locals + peak ≤ 255)
      (Fault.Refuses fun _ => 255 < args + locals + peak) (ofTyping t decl states) := by
  refine Ends.bind (bounds_mono (assign_bounds 0 hargs) (by omega)) ?_
  rintro ⟨paramOffsets, _⟩ ⟨hparams, -, rfl⟩
  refine Ends.bind (bounds_mono (assign_bounds 0 hlocals) (by omega)) ?_
  rintro ⟨localOffsets, _⟩ ⟨hplaced, hlength, rfl⟩
  simp only [Nat.zero_add]
  have hshift := shift_bounds args hlocals hplaced
    (by simpa [FunctionDecl.localTypes] using hlength)
  refine (bounds_mono hshift (by omega)).bind fun offsets hoffsets => ?_
  have hfold := foldlM_max_ends 0 hstates hpeak
  rw [Nat.zero_max] at hfold
  refine Ends.bind (bounds_mono hfold (by omega)) ?_
  rintro _ rfl
  refine (bounds_mono fit_bounds (by omega)).bind fun argByte hargByte => ?_
  refine (bounds_mono fit_bounds (by omega)).bind fun localByte hlocalByte => ?_
  refine (bounds_mono fit_bounds (by omega)).bind fun stackByte hstackByte => ?_
  refine (bounds_mono add_bounds (by omega)).bind ?_
  rintro _ rfl
  refine add_bounds.bind ?_
  rintro _ rfl
  refine fit_bounds.bind fun total htotal => ?_
  have hbyte := total.toNat_lt
  refine .pure ⟨?_, by omega⟩
  exact isExact_of_placed hargs hlocals hparams hoffsets hargByte hlocalByte hstackByte

end Frame

/-! ### Accesses to variables -/

/-- What an opcode does with slots of the frame. -/
def Opcode.slotAccess? : Opcode → Option Access
  | ldslot _ => some .load
  | stslot _ => some .store
  | ldslota => some .address
  | _ => none

/-- The slot of the frame an operand names. -/
def Operand.slot? {φ τ : Type} : Operand φ τ → Option Nat
  | slot index | slotCount index _ => some index.toNat
  | _ => Option.none

/-- The number of slots a load or store moves. -/
def Operation.slotsMoved? {φ τ : Type} (op : Operation φ τ) : Option Nat :=
  match op.opcode with
  | .ldslot w => w.slots? op.operand
  | .stslot c => c.slots? op.operand
  | _ => none

/-- The operation accesses the variable: it names its first slot, and what it loads or stores ends
where the variable ends. -/
def Frame.Reaches (frame : Frame) (t : TypeTable) (decl : FunctionDecl) (a : Access)
    (r : VariableRef) (op : SelectedOp) : Prop :=
  ∃ first finish, frame.Occupies t decl r first finish ∧ op.opcode.slotAccess? = some a ∧
    op.operand.slot? = some first ∧
    (a ≠ .address → ∃ moved, op.slotsMoved? = some moved ∧ first + moved = finish)

theorem slotOperand_slot? (slot : UInt8) (width : MoveWidth × UInt8) :
    (slotOperand slot width).slot? = some slot.toNat := by
  obtain ⟨w, count⟩ := width
  cases w <;> rfl

namespace SelectionContext

variable {c : SelectionContext} {op : SelectedOp} {a : Access} {r : VariableRef}

/-- An access to a variable names its slot and moves the slots of its type. -/
theorem slotAccess_eq_ok (htypes : c.types.Coherent) {slot : UInt8} {type : TypeId}
    (h : c.slotAccess slot type a = .ok op) :
    op.opcode.slotAccess? = some a ∧ op.operand.slot? = some slot.toNat ∧
      (a ≠ .address → ∃ slots, c.types.HasSlots type slots ∧ op.slotsMoved? = some slots) := by
  cases a with
  | address =>
    cases pure_eq_ok.mp h
    exact ⟨rfl, rfl, fun hne => absurd rfl hne⟩
  | load =>
    obtain ⟨width, hwidth, h⟩ := bind_eq_ok.mp h
    cases pure_eq_ok.mp h
    refine ⟨rfl, slotOperand_slot? slot width, fun _ => ?_⟩
    obtain ⟨slots, hslots, hmoved⟩ := bind_eq_ok.mp hwidth
    exact ⟨slots, TypeTable.slots_eq_ok.mp hslots, slotOperand_slots hmoved slot⟩
  | store =>
    obtain ⟨⟨cell, width⟩, hcell, h⟩ := bind_eq_ok.mp h
    cases pure_eq_ok.mp h
    exact ⟨rfl, slotOperand_slot? slot _, fun _ => htypes.hasSlots_slotCell hcell slot⟩

theorem variableAccess_eq_ok {vars : List Variable} {slot? : Option UInt8} {index : Nat}
    (h : c.variableAccess vars slot? index a = .ok op) :
    ∃ slot v, slot? = some slot ∧ vars[index]? = some v ∧ c.slotAccess slot v.type a = .ok op := by
  unfold variableAccess at h
  split at h
  · exact ⟨_, _, rfl, ‹_›, h⟩
  · cases h

/-- **An instruction that accesses a variable is selected as one access to its slots.**  Parameters
and locals are looked up in their own lists, and accessed alike. -/
theorem select_reaches (htypes : c.types.Coherent)
    (hvars : ∀ v ∈ c.decl.params ++ c.decl.locals, v.type.index < c.types.size)
    {instr : TypedInstr} {ops : List SelectedOp}
    (haccess : instr.instr.variableAccess? = some (a, r)) (h : c.select instr = .ok ops) :
    ∃ op, ops = [op] ∧ c.frame.Reaches c.types c.decl a r op := by
  obtain ⟨hparams, hlocals⟩ := List.forall_mem_append.mp hvars
  have hreaches {op : SelectedOp} {slot : UInt8} {v : Variable}
      (hslot : c.frame.slot? r = some slot) (htype : c.decl.typeOf? r = some v.type)
      (hv : v.type.index < c.types.size) (hop : c.slotAccess slot v.type a = .ok op) :
      c.frame.Reaches c.types c.decl a r op := by
    obtain ⟨slots, hslots⟩ := TypeTable.exists_hasSlots hv
    obtain ⟨hopcode, hoperand, hmoved⟩ := slotAccess_eq_ok htypes hop
    refine ⟨slot.toNat, slot.toNat + slots, ⟨v.type, slot, slots, htype, hslot, hslots, rfl, rfl⟩,
      hopcode, hoperand, fun hne => ?_⟩
    obtain ⟨moved, hmoved, hop⟩ := hmoved hne
    exact ⟨moved, hop, by rw [hslots.unique hmoved]⟩
  obtain ⟨instr, operands, results⟩ := instr
  cases instr with
  | argument a' index =>
    cases haccess
    obtain ⟨op, hop, hops⟩ := bind_eq_ok.mp h
    cases pure_eq_ok.mp hops
    obtain ⟨slot, v, hslot, hv, hop⟩ := variableAccess_eq_ok hop
    refine ⟨op, rfl, hreaches hslot ?_ (hparams v (List.mem_of_getElem? hv)) hop⟩
    simp [FunctionDecl.typeOf?, FunctionDecl.paramTypes, hv]
  | localVar a' index =>
    cases haccess
    obtain ⟨op, hop, hops⟩ := bind_eq_ok.mp h
    cases pure_eq_ok.mp hops
    obtain ⟨slot, v, hslot, hv, hop⟩ := variableAccess_eq_ok hop
    refine ⟨op, rfl, hreaches hslot ?_ (hlocals v (List.mem_of_getElem? hv)) hop⟩
    simp [FunctionDecl.typeOf?, FunctionDecl.localTypes, hv]
  | _ => cases haccess

end SelectionContext

namespace Program

variable {p : Program} {decl : FunctionDecl} {typed : TypedFunction}

/-- The operations of an instruction are selected in the frame of the body. -/
theorem exists_select_of_bodyCode {func : FuncRef} {code : FunctionCode} {frame : Frame}
    (hframe : Frame.ofTyping p.types decl typed.states.toList = .ok frame)
    (h : p.bodyCode func decl typed = .ok code) {i : Nat} {instr : TypedInstr}
    (hi : typed.instrs[i]? = some (some instr)) :
    ∃ ops, code.instrs[i]? = some ops ∧
      (SelectionContext.mk p decl frame).select instr = .ok ops := by
  obtain ⟨frame', hframe', h⟩ := bind_eq_ok.mp h
  obtain ⟨instrs, hinstrs, h⟩ := bind_eq_ok.mp h
  cases pure_eq_ok.mp h
  cases hframe.symm.trans (Checked.widen_eq_ok.mp hframe')
  have hzip : typed.instrs.toList.zipIdx[i]? = some (some instr, i) := by
    simp [List.getElem?_zipIdx, hi]
  obtain ⟨ops, hops, hselect⟩ := getElem?_of_mapM hinstrs hzip
  exact ⟨ops, hops, Checked.widen_eq_ok.mp hselect⟩

/-- **Frames are exact.**  The frame of a body is found exactly if all its slots together fit in a
byte, and then its numbers are the true sums, its variables do not overlap, and the code of the body
accesses each variable at its own slots. -/
theorem frame_exact (htypes : p.types.Built)
    (hvars : ∀ v ∈ decl.params ++ decl.locals, p.types.contains v.type = true)
    (hstates : ∀ s, some s ∈ typed.states → ∀ type ∈ s.bottomUp, p.types.contains type = true) :
    ∃ args locals peak, p.types.HasTotalSlots decl.paramTypes args ∧
      p.types.HasTotalSlots decl.localTypes locals ∧
      p.types.HasPeakSlots (typed.states.toList.filterMap id) peak ∧
      ((∃ frame, Frame.ofTyping p.types decl typed.states.toList = .ok frame) ↔
        args + locals + peak ≤ 255) ∧
      (255 < args + locals + peak →
        ∃ e, Frame.ofTyping p.types decl typed.states.toList = .refuse e) ∧
      ∀ frame, Frame.ofTyping p.types decl typed.states.toList = .ok frame →
        frame.IsExact p.types decl args locals peak ∧
        ∀ func code, p.bodyCode func decl typed = .ok code → ∀ (i : Nat) (instr : TypedInstr) a r,
          typed.instrs[i]? = some (some instr) → instr.instr.variableAccess? = some (a, r) →
            ∃ op, code.instrs[i]? = some [op] ∧ frame.Reaches p.types decl a r op := by
  simp only [TypeTable.contains, decide_eq_true_eq] at hvars hstates
  obtain ⟨hparams, hlocals⟩ := List.forall_mem_append.mp hvars
  have hparamTypes : ∀ type ∈ decl.paramTypes, type.index < p.types.size :=
    List.forall_mem_map.mpr hparams
  have hlocalTypes : ∀ type ∈ decl.localTypes, type.index < p.types.size :=
    List.forall_mem_map.mpr hlocals
  obtain ⟨args, hargs⟩ := TypeTable.exists_hasTotalSlots hparamTypes
  obtain ⟨locals, hlocalSlots⟩ := TypeTable.exists_hasTotalSlots hlocalTypes
  have hdepths : ∀ s ∈ typed.states.toList.filterMap id,
      ∃ n, p.types.HasTotalSlots s.bottomUp n := by
    intro s hs
    exact TypeTable.exists_hasTotalSlots (hstates s (by simpa using hs))
  obtain ⟨peak, hpeak⟩ := TypeTable.exists_hasPeakSlots hdepths
  have hends := Frame.ofTyping_bounds hargs hlocalSlots hdepths hpeak
  refine ⟨args, locals, peak, hargs, hlocalSlots, hpeak, ⟨?_, fun hfits => ?_⟩, fun hlarge => ?_,
    fun frame hframe => ⟨(hends.result hframe).1, ?_⟩⟩
  · rintro ⟨frame, hframe⟩
    exact (hends.result hframe).2
  -- a refusal would mean that the slots do not fit
  · rcases hends.ok_or_refuse with ⟨frame, hframe, -⟩ | ⟨cause, -, hlarge⟩
    · exact ⟨frame, hframe⟩
    · exact absurd hlarge (Nat.not_lt.mpr hfits)
  · rcases hends.ok_or_refuse with ⟨frame, -, -, hfits⟩ | ⟨cause, hcause, -⟩
    · exact absurd hfits (Nat.not_le.mpr hlarge)
    · exact ⟨cause, hcause⟩
  · intro func code hcode i instr a r hi haccess
    obtain ⟨ops, hops, hselect⟩ := exists_select_of_bodyCode hframe hcode hi
    obtain ⟨op, rfl, hreaches⟩ := SelectionContext.select_reaches
      (c := ⟨p, decl, frame⟩) htypes.coherent hvars haccess hselect
    exact ⟨op, hops, hreaches⟩

/-- A body that accesses each of its variables: parameters of two slots and of one, a local
structure of three slots, and a narrow local that is stored cut to its width. -/
def parcelMain : FunctionDecl where
  name := "main"
  params := [⟨"weight", .int64⟩, ⟨"count", .int32⟩]
  locals := [⟨"box", ⟨24⟩⟩, ⟨"zone", .int16⟩]
  result := .void
  signature := ⟨26⟩
  labels := #[]
  body := #[.argument .load 0, .argument .store 0, .argument .address 1, .plain .pop,
    .localVar .load 0, .localVar .store 0, .constant (.int32 7), .localVar .store 1,
    .localVar .address 1, .plain .pop, .plain .ret]
  implementation := .code
  zeroInit := false

/-- The variables that the instructions of the body access. -/
def parcelAccesses : List (Nat × Access × VariableRef) :=
  [(0, .load, .argument 0), (1, .store, .argument 0), (2, .address, .argument 1),
    (4, .load, .localVar 0), (5, .store, .localVar 0), (7, .store, .localVar 1),
    (8, .address, .localVar 1)]

def parcels : Program where
  types :=
    ((TypeTable.initial.declareStruct "Box"
      [("width", .int32), ("height", .int32), ("depth", .int32)]).1.function
        [.int64, .int32] .void).1
  modules := #[⟨"parcels", [], #[parcelMain], none⟩]

theorem parcels_built : parcels.types.Built := by
  simp only [parcels]
  apply_rules [TypeTable.Built.function, TypeTable.Built.declareStruct, TypeTable.Built.initial]

/-- The parameters take three slots, the locals four and the deepest stack three, and each access of
the body stays at the slots of its variable. -/
theorem parcels_frame_exact : ∃ typed frame code, parcels.types.Built ∧
    (∀ v ∈ parcelMain.params ++ parcelMain.locals, parcels.types.contains v.type = true) ∧
    (∀ s, some s ∈ typed.states → ∀ type ∈ s.bottomUp, parcels.types.contains type = true) ∧
    Frame.ofTyping parcels.types parcelMain typed.states.toList = .ok frame ∧
    parcels.bodyCode ⟨⟨0⟩, 0⟩ parcelMain typed = .ok code ∧
    frame.IsExact parcels.types parcelMain 3 4 3 ∧
    ∀ i a r, (i, a, r) ∈ parcelAccesses →
      ∃ op, code.instrs[i]? = some [op] ∧ frame.Reaches parcels.types parcelMain a r op := by
  have hrun : ((parcels.verifyFunction {} ⟨⟨0⟩, 0⟩).toOption.any fun typed =>
      (typed.states.toList.all fun s => s.all fun s => s.bottomUp.all parcels.types.contains) &&
      (parcelAccesses.all fun (i, a, r) => typed.instrs[i]?.any fun instr =>
        instr.any fun instr => instr.instr.variableAccess? = some (a, r)) &&
      (Frame.ofTyping parcels.types parcelMain typed.states.toList).toOption.any fun frame =>
        frame.argSlots = 3 && frame.localSlots = 4 && frame.maxStack = 3 &&
        (parcels.bodyCode ⟨⟨0⟩, 0⟩ parcelMain typed).toOption.isSome) = true := by
    cbv
  obtain ⟨typed, -, hrun⟩ := (Option.any_eq_true _ _).mp hrun
  simp only [Bool.and_eq_true] at hrun
  obtain ⟨⟨hknown, haccesses⟩, hrun⟩ := hrun
  obtain ⟨frame, hframe, hrun⟩ := (Option.any_eq_true _ _).mp hrun
  simp only [Bool.and_eq_true, decide_eq_true_eq] at hrun
  obtain ⟨⟨⟨hargs, hlocals⟩, hstack⟩, hcode⟩ := hrun
  obtain ⟨code, hcode⟩ := Option.isSome_iff_exists.mp hcode
  have hframe := toOption_eq_some.mp hframe
  have hcode := toOption_eq_some.mp hcode
  have hvars : ∀ v ∈ parcelMain.params ++ parcelMain.locals,
      parcels.types.contains v.type = true := by decide
  have hstates : ∀ s, some s ∈ typed.states → ∀ type ∈ s.bottomUp,
      parcels.types.contains type = true := by
    intro s hs
    exact List.all_eq_true.mp (List.all_eq_true.mp hknown (some s) hs.val)
  obtain ⟨args, locals, peak, -, -, -, -, -, hall⟩ := frame_exact parcels_built hvars hstates
  obtain ⟨hexact, hreaches⟩ := hall frame hframe
  have hsums : args = 3 ∧ locals = 4 ∧ peak = 3 := by
    rw [← hexact.argSlots, ← hexact.localSlots, ← hexact.maxStack, hargs, hlocals, hstack]
    decide
  obtain ⟨rfl, rfl, rfl⟩ := hsums
  refine ⟨typed, frame, code, parcels_built, hvars, hstates, hframe, hcode, hexact, ?_⟩
  intro i a r hmem
  obtain ⟨instr?, hi, hinstr⟩ :=
    (Option.any_eq_true _ _).mp (List.all_eq_true.mp haccesses (i, a, r) hmem)
  obtain ⟨instr, rfl, haccess⟩ := (Option.any_eq_true _ _).mp hinstr
  exact hreaches ⟨⟨0⟩, 0⟩ code hcode i instr a r hi (of_decide_eq_true haccess)

end Program

end StackCode
