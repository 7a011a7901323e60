import Mathlib.Tactic.IntervalCases
import StackCode.Proofs.Link.Acyclic

/-!
# What linking changes

Linking fills in an image and leaves the rest of it alone.  The bytes it may change are the module
count, the import table, and the offsets in the tokens that fixups wait at.  What it writes there is
determined by the modules that are reached through imports: how many there are, the fingerprints of
those that are imported, and the offsets of their functions.

Both images hold the functions of the module, written out from the same operations: the compiled
image with tokens that wait, and the linked one with tokens that are filled in.  So the operations
of the two are compared one by one, and their bytes follow.

## Main definitions

* `CompiledModule.relink`: a listing of a module with the offsets of its tokens filled in.
* `DiffersOnlyAt`: byte strings that agree but for some offsets.
* `CompiledModule.ChangesTo`: a compiled module and its linked form, compared.

## Main results

* `CompiledModule.map_relink_of_fills`: the functions of a linked image are those of the compiled
  one, with the offsets of their tokens filled in.
* `CompiledModule.differsOnlyAt_written`: where the bytes of such images differ.
* `Program.linking_changes_only`: what linking a module of a program changes.
-/

namespace StackCode

/-! ### Listings with tokens filled in -/

/-- The operand with another offset in its token, if it has a token. -/
def Operand.withTokenOffset {τ : Type} (offset : UInt16) : Operand Token τ → Operand Token τ
  | .func token => .func { token with offset }
  | .funcSlots token slots => .funcSlots { token with offset } slots
  | operand => operand

namespace CompiledModule

variable {cm : CompiledModule} {offsets : ModuleId → Option (Array Nat)}

/-- The offset for the fixup that waits at an operation, if one does; `offsets` gives the function
offsets of linked modules. -/
def offsetFor? (cm : CompiledModule) (offsets : ModuleId → Option (Array Nat)) (op : PlacedOp) :
    Option Nat := do
  let f ← cm.fixups.find? fun f => f.offset = op.offset + 1
  (← offsets f.callee.module)[f.callee.index]?

/-- The operation with the offset of its token filled in, if a fixup waits there. -/
def relinkOp (cm : CompiledModule) (offsets : ModuleId → Option (Array Nat)) (op : PlacedOp) :
    PlacedOp :=
  match cm.offsetFor? offsets op with
  | some offset =>
    ⟨op.offset, op.op.opcode, op.op.operand.withTokenOffset (UInt16.ofNat offset)⟩
  | none => op

/-- The function with the offsets of its tokens filled in. -/
def relink (cm : CompiledModule) (offsets : ModuleId → Option (Array Nat))
    (listing : FunctionListing) : FunctionListing :=
  { listing with ops := listing.ops.map (cm.relinkOp offsets) }

/-- A token before linking and after it: that of a function of the module stays, and that of another
one gets the offset the function has. -/
theorem Fills.eq_or_offset {func : FuncRef} {token token' : Token}
    (h : cm.Fills offsets func token') (hnames : cm.scope.Names func token) :
    func.module = cm.module ∧ token' = token ∨
      func.module ≠ cm.module ∧ token' = { token with offset := token'.offset } ∧
        cm.scope.importSlot? func.module = some token.module ∧
        ∃ table, offsets func.module = some table ∧
          table[func.index]? = some token'.offset.toNat := by
  obtain ⟨module, offset⟩ := token
  obtain ⟨module', offset'⟩ := token'
  rcases hnames with ⟨hown, hthis, hoffset⟩ | ⟨hother, hslot, -⟩
  · rcases h with ⟨-, hthis', hoffset'⟩ | ⟨hother, -⟩
    · have hsame := Option.some.inj (hoffset.symm.trans hoffset')
      cases hthis.trans hthis'.symm
      cases UInt16.toNat_inj.mp hsame
      exact .inl ⟨hown, rfl⟩
    · exact absurd hown hother
  · rcases h with ⟨hown, -⟩ | ⟨-, hslot', htable⟩
    · exact absurd hown hother
    · have hsame := Option.some.inj (hslot.symm.trans hslot')
      cases UInt8.toNat_inj.mp hsame
      exact .inr ⟨hother, rfl, importSlot?_of_findIdx? hslot, htable⟩

theorem offsetFor?_eq {op : SelectedOp} {placed : PlacedOp}
    (hfixed : cm.scope.FixedAt cm.fixups op placed) :
    cm.offsetFor? offsets placed = (cm.scope.fixup? placed.offset op).bind fun f =>
      (offsets f.callee.module).bind (·[f.callee.index]?) := by
  rw [offsetFor?, hfixed.find?_eq]
  rfl

/-- The token of an operation that names a function: the offset for its fixup is the offset it gets,
and a token without a fixup stays. -/
theorem token_of_offsetFor? {op : SelectedOp} {placed : PlacedOp} {callee : FuncRef}
    {token token' : Token} (hfixed : cm.scope.FixedAt cm.fixups op placed)
    (hfixup : cm.scope.fixup? placed.offset op =
      if callee.module = cm.module then none
      else (cm.scope.importSlot? callee.module).map fun slot => ⟨placed.offset + 1, slot, callee⟩)
    (hnames : cm.scope.Names callee token) (hfills : cm.Fills offsets callee token') :
    cm.offsetFor? offsets placed = none ∧ token' = token ∨
      ∃ offset : UInt16, cm.offsetFor? offsets placed = some offset.toNat ∧
        token' = { token with offset } := by
  rw [offsetFor?_eq hfixed, hfixup]
  rcases hfills.eq_or_offset hnames with
    ⟨hown, hsame⟩ | ⟨hother, htoken, hslot, table, htable, hoffset⟩
  · exact .inl ⟨by rw [if_pos hown]; rfl, hsame⟩
  · refine .inr ⟨token'.offset, ?_, htoken⟩
    rw [if_neg hother, hslot]
    simp [htable, hoffset]

section Relink

variable {code : PlacedCode} {base start : Nat}

/-- **An operation of the linked image** is that of the compiled one, with the offset of its token
filled in. -/
theorem relinkOp_of_fills {op : SelectedOp} {placed placed' : Operation Token Nat}
    (hfixed : cm.scope.FixedAt cm.fixups op ⟨start, placed⟩)
    (hemits : Emits cm.scope.Names code base op ⟨start, placed⟩)
    (hemits' : Emits (cm.Fills offsets) code base op ⟨start, placed'⟩) :
    cm.relinkOp offsets ⟨start, placed⟩ = ⟨start, placed'⟩ := by
  obtain ⟨opcode, operand⟩ := placed
  obtain ⟨opcode', operand'⟩ := placed'
  obtain ⟨selected, selectedOperand⟩ := op
  obtain ⟨hopcode, hoperand⟩ := hemits
  obtain ⟨hopcode', hoperand'⟩ := hemits'
  dsimp only at hopcode hopcode' hoperand hoperand'
  subst hopcode hopcode'
  cases hoperand with
  | func hnames =>
    cases hoperand' with
    | func hfills =>
      rcases token_of_offsetFor? hfixed rfl hnames hfills with ⟨hnone, rfl⟩ | ⟨offset, hsome, rfl⟩
      · simp only [relinkOp, hnone]
      · simp only [relinkOp, hsome, Operand.withTokenOffset, UInt16.ofNat_toNat]
  | funcSlots hnames slots =>
    cases hoperand' with
    | funcSlots hfills =>
      rcases token_of_offsetFor? hfixed rfl hnames hfills with ⟨hnone, rfl⟩ | ⟨offset, hsome, rfl⟩
      · simp only [relinkOp, hnone]
      · simp only [relinkOp, hsome, Operand.withTokenOffset, UInt16.ofNat_toNat]
  | target htarget =>
    cases hoperand' with
    | target htarget' =>
      obtain ⟨relative, hrelative, rfl⟩ := htarget
      obtain ⟨relative', hrelative', rfl⟩ := htarget'
      cases hrelative.symm.trans hrelative'
      have hnone : cm.offsetFor? offsets _ = none := offsetFor?_eq hfixed
      simp only [relinkOp, hnone]
  | _ =>
    cases hoperand'
    have hnone : cm.offsetFor? offsets _ = none := offsetFor?_eq hfixed
    simp only [relinkOp, hnone]

/-- The operations of a run of the linked image.  An operation is as long as its opcode says, which
stays the same. -/
theorem map_relinkOp_of_fills {selected : List SelectedOp} {ops ops' : List PlacedOp}
    {finish finish' : Nat} (hfixed : List.Forall₂ (cm.scope.FixedAt cm.fixups) selected ops)
    (hcontiguous : Contiguous start ops finish) (hcontiguous' : Contiguous start ops' finish')
    (hemits : List.Forall₂ (Emits cm.scope.Names code base) selected ops)
    (hemits' : List.Forall₂ (Emits (cm.Fills offsets) code base) selected ops') :
    ops.map (cm.relinkOp offsets) = ops' := by
  induction hemits generalizing start ops' with
  | nil =>
    cases hemits'
    rfl
  | @cons op _ selected _ hemit _ ih =>
    cases hemits' with
    | cons hemit' hemits' =>
      cases hcontiguous with
      | @cons _ _ placed _ hrest =>
        cases hcontiguous' with
        | @cons _ _ placed' _ hrest' =>
          cases hfixed with
          | cons hfixed hfixeds =>
            have hlength : placed.length = op.length := congrArg Opcode.length hemit.opcode
            have hlength' : placed'.length = op.length := congrArg Opcode.length hemit'.opcode
            rw [hlength] at hrest
            rw [hlength'] at hrest'
            rw [List.map_cons, relinkOp_of_fills hfixed hemit hemit',
              ih hfixeds hrest hrest' hemits']

/-- A function of the linked image. -/
theorem relink_of_fills {listing listing' : FunctionListing}
    (hfixed : List.Forall₂ (cm.scope.FixedAt cm.fixups) code.instrs.flatten listing.ops)
    (hlists : ListsCode cm.scope.Names code listing)
    (hlists' : ListsCode (cm.Fills offsets) code listing')
    (hoffset : listing'.offset = listing.offset) : cm.relink offsets listing = listing' := by
  obtain ⟨offset, descriptor, ops⟩ := listing
  obtain ⟨offset', descriptor', ops'⟩ := listing'
  cases hoffset
  cases hlists'.descriptor.trans hlists.descriptor.symm
  rw [relink, map_relinkOp_of_fills hfixed hlists.contiguous hlists'.contiguous hlists.emits
    hlists'.emits]

/-- **The functions of the linked image** are those of the compiled one, with the offsets of their
tokens filled in. -/
theorem map_relink_of_fills {codes : List PlacedCode} {listings listings' : List FunctionListing}
    (hfixed : List.Forall₂ (fun code listing =>
      List.Forall₂ (cm.scope.FixedAt cm.fixups) code.instrs.flatten listing.ops) codes listings)
    (hlists : List.Forall₂ (ListsCode cm.scope.Names) codes listings)
    (hlists' : List.Forall₂ (ListsCode (cm.Fills offsets)) codes listings')
    (hoffsets : listings'.map FunctionListing.offset = listings.map FunctionListing.offset) :
    listings.map (cm.relink offsets) = listings' := by
  induction hlists generalizing listings' with
  | nil =>
    cases hlists'
    rfl
  | cons hcode _ ih =>
    cases hlists' with
    | cons hcode' hcodes' =>
      cases hfixed with
      | cons hfixed hfixeds =>
        obtain ⟨hoffset, hoffsets⟩ := List.cons.inj hoffsets
        rw [List.map_cons, relink_of_fills hfixed hcode hcode' hoffset, ih hfixeds hcodes' hoffsets]

end Relink

end CompiledModule

/-! ### Bytes that differ -/

/-- Byte strings of one length that stand at an offset and agree but for offsets with `P`. -/
structure DiffersOnlyAt (P : Nat → Prop) (start : Nat) (bytes bytes' : List UInt8) : Prop where
  length_eq : bytes'.length = bytes.length
  of_ne : ∀ i, bytes'[i]? ≠ bytes[i]? → P (start + i)

namespace DiffersOnlyAt

variable {P : Nat → Prop} {start : Nat} {front front' bytes bytes' : List UInt8}

theorem refl (P : Nat → Prop) (start : Nat) (bytes : List UInt8) :
    DiffersOnlyAt P start bytes bytes :=
  ⟨rfl, fun _ h => absurd rfl h⟩

/-- Bytes all of which may differ. -/
theorem of_forall (hlength : bytes'.length = bytes.length)
    (h : ∀ i < bytes.length, P (start + i)) : DiffersOnlyAt P start bytes bytes' := by
  refine ⟨hlength, fun i hne => ?_⟩
  by_cases hi : i < bytes.length
  · exact h i hi
  · have hend := Nat.le_of_not_lt hi
    rw [List.getElem?_eq_none hend, List.getElem?_eq_none (hlength ▸ hend)] at hne
    exact absurd rfl hne

theorem append (hfront : DiffersOnlyAt P start front front')
    (hbytes : DiffersOnlyAt P (start + front.length) bytes bytes') :
    DiffersOnlyAt P start (front ++ bytes) (front' ++ bytes') := by
  refine ⟨by rw [List.length_append, List.length_append, hfront.length_eq, hbytes.length_eq],
    fun i hne => ?_⟩
  rcases Nat.lt_or_ge i front.length with hi | hi
  · rw [List.getElem?_append_left hi, List.getElem?_append_left (hfront.length_eq ▸ hi)] at hne
    exact hfront.of_ne i hne
  · rw [List.getElem?_append_right hi, List.getElem?_append_right (hfront.length_eq ▸ hi),
      hfront.length_eq] at hne
    have hat := hbytes.of_ne _ hne
    rwa [Nat.add_assoc, Nat.add_sub_cancel' hi] at hat

theorem cons (byte : UInt8) (h : DiffersOnlyAt P (start + 1) bytes bytes') :
    DiffersOnlyAt P start (byte :: bytes) (byte :: bytes') :=
  append (refl P start [byte]) h

end DiffersOnlyAt

/-- Tokens of one module differ in their last two bytes. -/
theorem Token.differsOnlyAt {P : Nat → Prop} {start : Nat} (token : Token) (offset : UInt16)
    (hlow : P (start + 1)) (hhigh : P (start + 2)) :
    DiffersOnlyAt P start token.encode { token with offset }.encode := by
  refine .cons _ (.of_forall rfl fun i hi => ?_)
  have hi : i < 2 := hi
  interval_cases i
  · exact hlow
  · exact hhigh

theorem ListingsWritten.of_cons {start : Nat} {listing : FunctionListing}
    {listings : List FunctionListing} {bytes : List UInt8}
    (h : ListingsWritten start (listing :: listings) bytes) :
    ∃ front rest, listing.Written front ∧
      ListingsWritten (listing.offset + front.length) listings rest ∧ bytes = front ++ rest := by
  cases h with
  | cons hlisting hrest => exact ⟨_, _, hlisting, hrest, rfl⟩

namespace CompiledModule

variable {cm : CompiledModule} {offsets : ModuleId → Option (Array Nat)} {start : Nat}
  {bytes bytes' : List UInt8}

/-- The offsets that linking fills in: the module count, the import table, and the last two bytes of
the tokens that fixups wait at. -/
def FilledIn (cm : CompiledModule) (i : Nat) : Prop :=
  i = Header.moduleCountOffset ∨
    Header.importOffset 0 ≤ i ∧ i < Header.importOffset cm.imports.length ∨
    ∃ f ∈ cm.fixups, i = f.offset + 1 ∨ i = f.offset + 2

/-- The place of an operation whose token is filled in. -/
theorem filledIn_of_offsetFor? {op : PlacedOp} {offset : Nat}
    (h : cm.offsetFor? offsets op = some offset) :
    cm.FilledIn (op.offset + 1 + 1) ∧ cm.FilledIn (op.offset + 1 + 2) := by
  obtain ⟨f, hf, -⟩ := Option.bind_eq_some_iff.mp h
  have hfound := List.find?_some hf
  have hmem := List.mem_of_find?_eq_some hf
  rw [← of_decide_eq_true hfound]
  exact ⟨.inr (.inr ⟨f, hmem, .inl rfl⟩), .inr (.inr ⟨f, hmem, .inr rfl⟩)⟩

/-- The bytes of an operation and of the operation with its token filled in.  Nothing is filled in
for an operand without a token. -/
theorem differsOnlyAt_relinkOp {op op' : Operation Token Nat}
    (hrelink : cm.relinkOp offsets ⟨start, op⟩ = ⟨start, op'⟩)
    (h : op.encode start = .ok bytes) (h' : op'.encode start = .ok bytes') :
    DiffersOnlyAt cm.FilledIn start bytes bytes' := by
  unfold relinkOp at hrelink
  split at hrelink
  · rename_i offset hoffset
    obtain ⟨hlow, hhigh⟩ := filledIn_of_offsetFor? hoffset
    obtain ⟨opcode, operand⟩ := op
    cases hrelink
    cases operand with
    | func token =>
      cases h
      cases h'
      exact .cons _ (token.differsOnlyAt _ hlow hhigh)
    | funcSlots token slots =>
      cases h
      cases h'
      exact .cons _ ((token.differsOnlyAt _ hlow hhigh).append (.refl _ _ _))
    | _ =>
      cases h.symm.trans h'
      exact .refl _ _ _
  · cases hrelink
    cases h.symm.trans h'
    exact .refl _ _ _

theorem opcode_of_relinkOp {op op' : Operation Token Nat}
    (h : cm.relinkOp offsets ⟨start, op⟩ = ⟨start, op'⟩) : op'.opcode = op.opcode := by
  unfold relinkOp at h
  split at h <;> cases h <;> rfl

theorem exists_relinkOp (cm : CompiledModule) (offsets : ModuleId → Option (Array Nat))
    (start : Nat) (op : Operation Token Nat) :
    ∃ op', cm.relinkOp offsets ⟨start, op⟩ = ⟨start, op'⟩ := by
  unfold relinkOp
  split <;> exact ⟨_, rfl⟩

/-- The bytes of operations one after the other. -/
theorem differsOnlyAt_ops {ops : List PlacedOp} (h : OpsWritten start ops bytes)
    (h' : OpsWritten start (ops.map (cm.relinkOp offsets)) bytes') :
    DiffersOnlyAt cm.FilledIn start bytes bytes' := by
  induction h generalizing bytes' with
  | nil =>
    cases h'
    exact .refl _ _ _
  | @cons start op bytes rest ops hshape hop hrest ih =>
    obtain ⟨op', hrelink⟩ := exists_relinkOp cm offsets start op
    rw [List.map_cons, hrelink] at h'
    cases h' with
    | cons hshape' hop' hrest' =>
      have hlength : op'.length = op.length := congrArg Opcode.length (opcode_of_relinkOp hrelink)
      rw [hlength] at hrest'
      refine (differsOnlyAt_relinkOp hrelink hop hop').append ?_
      rw [(Operation.reads_encode hshape hop).2]
      exact ih hrest'

/-- **The bytes of functions** differ where tokens are filled in. -/
theorem differsOnlyAt_listings {listings : List FunctionListing}
    (h : ListingsWritten start listings bytes)
    (h' : ListingsWritten start (listings.map (cm.relink offsets)) bytes') :
    DiffersOnlyAt cm.FilledIn start bytes bytes' := by
  induction h generalizing bytes' with
  | nil =>
    cases h'
    exact .refl _ _ _
  | @cons listing bytes rest listings hlisting hrest ih =>
    obtain ⟨bytes', rest', hlisting', hrest', rfl⟩ := h'.of_cons
    obtain ⟨code, hops, rfl⟩ := hlisting
    obtain ⟨code', hops', rfl⟩ := hlisting'
    have hfunction : DiffersOnlyAt cm.FilledIn listing.offset (listing.descriptor.encode ++ code)
        ((cm.relink offsets listing).descriptor.encode ++ code') :=
      .append (.refl _ _ _) (differsOnlyAt_ops hops hops')
    rw [hfunction.length_eq] at hrest'
    exact hfunction.append (ih hrest')

/-- **The bytes of a linked image** differ from those of the compiled one only where linking fills
them in. -/
theorem differsOnlyAt_written {header : Header} {count : UInt8}
    {imports imports' : List Fingerprint} {listings : List FunctionListing}
    (h : (Disassembly.mk header imports listings).Written bytes)
    (h' : (Disassembly.mk { header with moduleCount := count } imports'
      (listings.map (cm.relink offsets))).Written bytes')
    (himports : imports.length = cm.imports.length) : DiffersOnlyAt cm.FilledIn 0 bytes bytes' := by
  obtain ⟨hcount, code, hcode, rfl⟩ := h
  obtain ⟨hcount', code', hcode', rfl⟩ := h'
  dsimp only at hcount hcount' hcode hcode'
  have hlength : imports'.length = imports.length := hcount'.symm.trans hcount
  have hbyte : DiffersOnlyAt cm.FilledIn Header.moduleCountOffset [header.moduleCount] [count] := by
    refine .of_forall rfl fun i hi => .inl ?_
    rw [Nat.lt_one_iff.mp hi]
    rfl
  have hheader : DiffersOnlyAt cm.FilledIn 0 header.encode
      { header with moduleCount := count }.encode :=
    .cons _ (.cons _ (hbyte.append (.refl _ _ _)))
  have htable : DiffersOnlyAt cm.FilledIn (0 + header.encode.length)
      (Header.encodeImports imports) (Header.encodeImports imports') := by
    refine .of_forall ?_ fun i hi => .inr (.inl ?_)
    · rw [Header.length_encodeImports, Header.length_encodeImports, hlength]
    · rw [Header.length_encodeImports, himports] at hi
      rw [Header.length_encode, Header.importOffset, Header.importOffset]
      omega
  refine hheader.append (htable.append ?_)
  have hstart : header.codeStart =
      0 + header.encode.length + (Header.encodeImports imports).length := by
    rw [Nat.zero_add, ← Header.length_front hcount.symm, List.length_append]
  exact hstart ▸ differsOnlyAt_listings hcode hcode'

namespace Holds

variable {p : Program} {typing : TypedProgram} {m : ModuleDecl} {placed : List PlacedCode}
  {listings : List FunctionListing} {imports : List Fingerprint} {count : UInt8} {lm : LinkedModule}

/-- Each operation of a compiled module is the place of its own fixup only. -/
theorem fixedAt (h : cm.Holds p typing m placed listings) :
    List.Forall₂ (fun code listing =>
        List.Forall₂ (cm.scope.FixedAt cm.fixups) code.instrs.flatten listing.ops)
      placed listings := by
  obtain ⟨code, hlistings, -⟩ := h.exists_code
  rw [h.fixups]
  exact ModuleScope.fixedAt_fixupsOf h.wellShaped hlistings h.lists

/-- **What a linked image holds**, in terms of the compiled one. -/
theorem link_relinks (h : cm.Holds p typing m placed listings)
    (himports : imports.length = cm.imports.length)
    (hlink : cm.link imports count offsets = .ok lm) :
    (Disassembly.mk { m.header cm.features cm.functionOffsets with moduleCount := count } imports
      (listings.map (cm.relink offsets))).Written lm.image := by
  rw [h.imports] at himports
  obtain ⟨listings', hoffsets, hlists, hwritten⟩ := h.link_fills himports hlink
  rwa [map_relink_of_fills h.fixedAt h.lists hlists hoffsets]

/-- The bytes that linking a compiled module changes. -/
theorem link_differsOnlyAt (h : cm.Holds p typing m placed listings)
    (himports : imports.length = cm.imports.length)
    (hlink : cm.link imports count offsets = .ok lm) :
    DiffersOnlyAt cm.FilledIn 0 cm.image lm.image :=
  differsOnlyAt_written h.written (h.link_relinks himports hlink)
    (List.length_replicate.trans (congrArg List.length h.imports.symm))

end Holds

end CompiledModule

/-! ### Linked modules of a program -/

/-- The function offsets of a module that is linked. -/
def Linker.functionOffsets? (l : Linker) (id : ModuleId) : Option (Array Nat) :=
  (l.linked? id).map LinkedModule.functionOffsets

theorem Linker.linked?_of_findRecord? {l : Linker} {id : ModuleId} {r : LinkRecord}
    (h : findRecord? l.finished id = some r) : l.linked? id = some r.linked :=
  congrArg (Option.map LinkRecord.linked) h

/-- A compiled module of a program and its linked form: what is the same, what is different, and
what is filled in from the modules it reaches, which `l` has linked. -/
structure CompiledModule.ChangesTo (cm : CompiledModule) (p : Program)
    (modules : List CompiledModule) (l : Linker) (lm : LinkedModule) : Prop where
  length_eq : lm.image.length = cm.image.length
  filledIn : ∀ i, lm.image[i]? ≠ cm.image[i]? → cm.FilledIn i
  fingerprint : lm.fingerprint = .ofImage lm.image
  /-- The modules that are reached are counted, in the header as well. -/
  moduleCount : lm.moduleCount.toNat = (importClosure modules cm.module).ncard
  countByte : lm.image[Header.moduleCountOffset]? = some lm.moduleCount
  /-- The import table has the fingerprints of the linked imports. -/
  imports_length : lm.importFingerprints.length = cm.imports.length
  imports : ∀ {slot d}, cm.imports[slot]? = some d → ∃ target, l.linked? d = some target ∧
    lm.importFingerprints[slot]? = some target.fingerprint ∧
      Header.importAt lm.image slot = .ok target.fingerprint
  /-- The tokens that fixups wait at are in the code and do not overlap. -/
  fixups : Fixup.InRange (Header.importOffset cm.imports.length) cm.image.length cm.fixups
  /-- Fixups are for functions that are linked. -/
  callees : ∀ f ∈ cm.fixups, ∃ target offset, l.linked? f.callee.module = some target ∧
    target.functionOffsets[f.callee.index]? = some offset ∧ offset < 65536
  /-- Fixups wait at operations that name these functions, and are filled in there. -/
  disassembly : ∃ d, disassemble cm.image cm.functionOffsets.toList = .ok d ∧
    (∀ f ∈ cm.fixups, ∃ (k : Nat) (listing : FunctionListing), d.functions[k]? = some listing ∧
      ∃ op ∈ listing.ops, f.WaitsAt p cm k op) ∧
    disassemble lm.image lm.functionOffsets.toList =
      .ok ⟨{ d.header with moduleCount := lm.moduleCount }, lm.importFingerprints,
        d.functions.map (cm.relink l.functionOffsets?)⟩

theorem CompiledModule.fields_of_link {cm : CompiledModule} {imports : List Fingerprint}
    {count : UInt8} {offsets : ModuleId → Option (Array Nat)} {lm : LinkedModule}
    (h : cm.link imports count offsets = .ok lm) :
    lm.moduleCount = count ∧ lm.importFingerprints = imports := by
  obtain ⟨_, -, h⟩ := bind_eq_ok.mp h
  obtain ⟨_, -, h⟩ := bind_eq_ok.mp h
  obtain ⟨_, -, h⟩ := bind_eq_ok.mp h
  cases pure_eq_ok.mp h
  exact ⟨rfl, rfl⟩

/-- What a linker has finished is linked against the other modules it has finished. -/
theorem LinkedSet.exists_link {modules : List CompiledModule} {l : Linker} {cm : CompiledModule}
    {r : LinkRecord} (hset : LinkedSet modules l.finished)
    (hcm : findModule? modules cm.module = some cm)
    (hr : findRecord? l.finished cm.module = some r) :
    ∃ imports, List.Forall₂ (FinishedAs l.finished) cm.imports imports ∧
      cm.link imports (UInt8.ofNat r.closure.length) l.functionOffsets? = .ok r.linked ∧
      r.closure.length < 256 := by
  cases hset.links hr with
  | @finish _ cm' imports finished r hcm' himports hlinks hfinish =>
    cases hcm.symm.trans hcm'
    have hsame : ∀ d ∈ cm.imports, findRecord? finished d = findRecord? l.finished d := by
      intro d hd
      obtain ⟨r', hr'⟩ := findRecord?_of_finishedAs himports hd
      obtain ⟨r'', hr''⟩ := hset.closed hr ⟨cm, hcm, hd⟩
      rw [hr', hr'', (hlinks d hd r' hr').unique (hset.links hr'')]
    have hlink := link_of_finishModule hfinish
    refine ⟨imports, ?_, ?_, (closure_of_finishModule hfinish).2⟩
    · refine List.forall₂_iff_zip.mpr ⟨himports.length_eq, fun {d fingerprint} hpair => ?_⟩
      obtain ⟨r', hr', hfingerprint⟩ := List.forall₂_zip himports hpair
      exact ⟨r', hsame d (List.of_mem_zip hpair).1 ▸ hr', hfingerprint⟩
    · rwa [CompiledModule.link_congr fun d hd => ?_] at hlink
      rw [hsame d hd, Linker.functionOffsets?, Linker.linked?, Option.map_map]
      rfl

namespace Program

variable {p : Program} {typing : TypedProgram} {verifyConfig : VerifyConfig}
  {config : CodegenConfig} {modules : List CompiledModule} {cm : CompiledModule}

/-- **What linking a module changes**, for every linker that has linked it. -/
theorem changesTo_of_linkedSet {l : Linker} {r : LinkRecord} (hbind : p.bind = .ok ())
    (hverify : p.verify verifyConfig = .ok typing)
    (hmodules : p.compileModules typing config = .ok modules)
    (hset : LinkedSet modules l.finished) (hcm : cm ∈ modules)
    (hr : findRecord? l.finished cm.module = some r) : cm.ChangesTo p modules l r.linked := by
  have hfind := findModule?_of_mem hverify hmodules hcm
  obtain ⟨m, placed, listings, hholds⟩ := holds_of_findModule? hverify hmodules hfind
  obtain ⟨imports, himports, hlink, hlt⟩ := hset.exists_link hfind hr
  obtain ⟨hcount, hfingerprints⟩ := CompiledModule.fields_of_link hlink
  have hkeeps := CompiledModule.keeps_of_link hlink
  have hlength := himports.length_eq.symm
  have hdiffers := hholds.link_differsOnlyAt hlength hlink
  have hwritten := hholds.link_relinks hlength hlink
  refine ⟨hdiffers.length_eq, fun i hne => Nat.zero_add i ▸ hdiffers.of_ne i hne,
    hkeeps.fingerprint, ?_, ?_, hfingerprints ▸ hlength, fun {slot d} hd => ?_,
    hholds.imports ▸ hholds.fixups_inRange, fun f hf => ?_,
    _, hholds.disassemble, fun f hf => hholds.exists_waitsAt hbind hf, ?_⟩
  · rw [hcount, (hset.links hr).listsClosure.ncard_eq, UInt8.toNat_ofNat', Nat.mod_eq_of_lt hlt]
  · obtain ⟨-, code, -, himage⟩ := hwritten
    rw [himage, hcount]
    rfl
  · obtain ⟨fingerprint, hslot, r', hr', rfl⟩ := getElem?_of_forall₂ himports hd
    exact ⟨r'.linked, Linker.linked?_of_findRecord? hr', hfingerprints ▸ hslot,
      hwritten.importAt hslot⟩
  · obtain ⟨k, listing, -, op, -, hwaits⟩ := hholds.exists_waitsAt hbind hf
    obtain ⟨decl, hdecl⟩ := hwaits.callee
    obtain ⟨r', hr'⟩ := hset.closed hr ⟨cm, hfind, List.mem_of_getElem? hwaits.imported⟩
    obtain ⟨offset, hoffset, hsmall⟩ :=
      exists_offset_of_linksTo hverify hmodules (hset.links hr') hdecl
    exact ⟨r'.linked, offset, Linker.linked?_of_findRecord? hr', hoffset, hsmall⟩
  · rw [hkeeps.functionOffsets, hholds.functionOffsets, hcount, hfingerprints]
    have hdisassemble := hwritten.disassemble
    rwa [List.map_map] at hdisassemble

/-- **Linking changes only what it must.**  A module of a bound and verified program that links,
after any calls on the linker, has a linked form whose image differs from the compiled one at most
in the module count, the import table and the offsets of the tokens that fixups wait at; these are
filled in from the modules it reaches, and what the image lists is otherwise the same. -/
theorem linking_changes_only {fingerprint : Fingerprint} (hbind : p.bind = .ok ())
    (hverify : p.verify verifyConfig = .ok typing)
    (hmodules : p.compileModules typing config = .ok modules) (hcm : cm ∈ modules)
    (history : List ModuleId)
    (hlink : (((Linker.mk modules []).linkEvery history).link cm.module).1 = .ok fingerprint) :
    ∃ lm, (((Linker.mk modules []).linkEvery history).link cm.module).2.linked? cm.module =
        some lm ∧ lm.fingerprint = fingerprint ∧
      cm.ChangesTo p modules (((Linker.mk modules []).linkEvery history).link cm.module).2 lm := by
  have hset : LinkedSet modules ((Linker.mk modules []).linkEvery history).finished :=
    Linker.linkedSet_linkEvery linkedSet_nil history
  have hsame := Linker.modules_linkEvery (Linker.mk modules []) history
  revert hset hsame hlink
  generalize (Linker.mk modules []).linkEvery history = l
  intro hlink hset hsame
  obtain ⟨_, finished⟩ := l
  cases hsame
  have houtcome : LinkOutcome modules [] cm.module finished _ _ := linkModule_outcome hset rfl
  obtain ⟨r, hr, hfingerprint⟩ := houtcome.ok fingerprint hlink
  exact ⟨r.linked, Linker.linked?_of_findRecord? hr, hfingerprint,
    changesTo_of_linkedSet hbind hverify hmodules houtcome.linkedSet hcm hr⟩

/-- The main module of the sample, linked after the module it imports. -/
theorem main_changes : ∃ typing fingerprint, clock.bind = .ok () ∧ clock.verify {} = .ok typing ∧
    clock.compileModules typing {} = .ok [clockObject, mainObject] ∧
    mainObject ∈ [clockObject, mainObject] ∧
    (((Linker.mk [clockObject, mainObject] []).linkEvery [⟨0⟩]).link ⟨1⟩).1 = .ok fingerprint ∧
    ∃ lm, (((Linker.mk [clockObject, mainObject] []).linkEvery [⟨0⟩]).link ⟨1⟩).2.linked? ⟨1⟩ =
        some lm ∧ lm.fingerprint = fingerprint ∧
      mainObject.ChangesTo clock [clockObject, mainObject]
        (((Linker.mk [clockObject, mainObject] []).linkEvery [⟨0⟩]).link ⟨1⟩).2 lm := by
  obtain ⟨typing, hverify, hmodules⟩ := clock_compiles
  have hmem : mainObject ∈ [clockObject, mainObject] := List.mem_cons_of_mem _ List.mem_cons_self
  have hlinkable : Linkable [clockObject, mainObject] ⟨1⟩ :=
    (linkAll_ok_iff.mp clock_links).2 mainObject hmem
  obtain ⟨fingerprint, hlink⟩ := linkModule_of_linkable
    (Linker.linkedSet_linkEvery linkedSet_nil [⟨0⟩]) (Linker.isChain_start ⟨1⟩) hlinkable
  exact ⟨typing, fingerprint, clock_binds, hverify, hmodules, hmem, hlink,
    linking_changes_only clock_binds hverify hmodules hmem [⟨0⟩] hlink⟩

end Program

end StackCode
