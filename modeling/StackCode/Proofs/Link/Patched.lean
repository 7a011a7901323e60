import StackCode.Link.Basic
import StackCode.Proofs.Code.Listing

/-!
# What linking changes in an image

Linking writes over three parts of an image: the import table, the module count and the tokens of
imported functions.  Each is as long as what stood there, so the image still holds its functions at
the same offsets, and they differ from those compiled in the tokens alone.

## Main definitions

* `CompiledModule.NamesLinked`: a token names a function after linking.
* `CompiledModule.Fills`: the token that linking writes for a function.

## Main results

* `CompiledModule.codes_patched`: what writing the tokens does to functions.
* `CompiledModule.Holds.link_fills`, `CompiledModule.Holds.link`: what a linked image holds.
-/

namespace StackCode

/-- Writing over bytes in the middle of an image. -/
theorem toList_overwrite?_append {image image' : Array UInt8} {front old new back : List UInt8}
    (himage : image.toList = front ++ (old ++ back)) (hlength : new.length = old.length)
    (h : overwrite? image front.length new = some image') :
    image'.toList = front ++ (new ++ back) := by
  rw [toList_overwrite? h, himage, List.take_left, hlength, ← List.append_assoc front,
    ← List.length_append, List.drop_left, List.append_assoc]

namespace CompiledModule

variable {cm : CompiledModule} {offsets : ModuleId → Option (Array Nat)}

/-- The token names the function after linking: a function of the module by its offset, any other by
the position of its module in the import table and its offset there; `offsets` gives the function
offsets of linked modules. -/
def NamesLinked (cm : CompiledModule) (offsets : ModuleId → Option (Array Nat)) (func : FuncRef)
    (token : Token) : Prop :=
  func.module = cm.module ∧ token.module = Token.thisModule ∧
      cm.functionOffsets[func.index]? = some token.offset.toNat ∨
    func.module ≠ cm.module ∧ cm.imports[token.module.toNat]? = some func.module ∧
      ∃ table, offsets func.module = some table ∧ table[func.index]? = some token.offset.toNat

/-- The token is the one an image has for the function after linking: it names the function, and a
module that is imported more than once by its first position. -/
def Fills (cm : CompiledModule) (offsets : ModuleId → Option (Array Nat)) (func : FuncRef)
    (token : Token) : Prop :=
  func.module = cm.module ∧ token.module = Token.thisModule ∧
      cm.functionOffsets[func.index]? = some token.offset.toNat ∨
    func.module ≠ cm.module ∧ cm.imports.findIdx? (· = func.module) = some token.module.toNat ∧
      ∃ table, offsets func.module = some table ∧ table[func.index]? = some token.offset.toNat

/-- Writes the token of one fixup. -/
def patchToken (cm : CompiledModule) (offsets : ModuleId → Option (Array Nat))
    (image : Array UInt8) (f : Fixup) : Except LinkError (Array UInt8) :=
  match cm.fixupToken? offsets f with
  | none => .error (.badFixup cm.module f.offset)
  | some token =>
    match token.patch image f.offset with
    | .ok image => .ok image
    | .error _ => .error (.badFixup cm.module f.offset)

theorem writeTokens_eq (image : Array UInt8) :
    cm.writeTokens offsets image = cm.fixups.foldlM (cm.patchToken offsets) image := rfl

theorem fixupToken?_eq_some {f : Fixup} {token : Token} {dependency : ModuleId}
    (hslot : cm.imports[f.slot.toNat]? = some dependency)
    (h : cm.fixupToken? offsets f = some token) :
    token.module = f.slot ∧ ∃ table, offsets dependency = some table ∧
      table[f.callee.index]? = some token.offset.toNat := by
  simp only [fixupToken?, hslot, Option.bind_eq_bind, Option.bind_some,
    Option.bind_eq_some_iff] at h
  obtain ⟨table, htable, offset, hoffset, h⟩ := h
  split at h
  · rename_i hlt
    cases h
    refine ⟨rfl, table, htable, ?_⟩
    rw [hoffset, UInt16.toNat_ofNat', Nat.mod_eq_of_lt hlt]
  · cases h

theorem patchToken_eq_ok {image image' : Array UInt8} {f : Fixup}
    (h : cm.patchToken offsets image f = .ok image') :
    ∃ token, cm.fixupToken? offsets f = some token ∧
      overwrite? image f.offset token.encode = some image' := by
  unfold patchToken at h
  split at h
  · cases h
  · rename_i token htoken
    refine ⟨token, htoken, ?_⟩
    unfold Token.patch at h
    split at h
    · rename_i image'' hpatch
      split at hpatch
      · cases hpatch
        cases h
        assumption
      · cases hpatch
    · cases h

theorem importSlot?_of_findIdx? {s : ModuleScope} {m : ModuleId} {slot : UInt8}
    (h : s.imports.findIdx? (· = m) = some slot.toNat) : s.importSlot? m = some slot := by
  simp only [ModuleScope.importSlot?, h]
  rw [if_pos slot.toNat_lt, UInt8.ofNat_toNat]

/-- The slot of an import holds the import. -/
theorem getElem?_of_findIdx? {s : ModuleScope} {m : ModuleId} {i : Nat}
    (h : s.imports.findIdx? (· = m) = some i) : s.imports[i]? = some m := by
  obtain ⟨hlt, hfound, -⟩ := List.findIdx?_eq_some_iff_getElem.mp h
  exact List.getElem?_eq_some_iff.mpr ⟨hlt, of_decide_eq_true hfound⟩

/-- What linking writes names the function. -/
theorem Fills.namesLinked {func : FuncRef} {token : Token} (h : cm.Fills offsets func token) :
    cm.NamesLinked offsets func token := by
  refine h.imp_right fun ⟨hmodule, hslot, htable⟩ => ⟨hmodule, ?_, htable⟩
  exact getElem?_of_findIdx? (s := cm.scope) hslot

/-- A token written at compile time names the function for good, or waits for its module. -/
theorem fills_or_waits (offsets : ModuleId → Option (Array Nat)) {func : FuncRef}
    {token : Token} (h : cm.scope.Names func token) :
    func.module = cm.module ∧ cm.Fills offsets func token ∨
      func.module ≠ cm.module ∧ cm.scope.importSlot? func.module = some token.module ∧
        cm.imports.findIdx? (· = func.module) = some token.module.toNat := by
  rcases h with ⟨hmodule, hthis, hoffset⟩ | ⟨hmodule, hslot, -⟩
  · exact .inl ⟨hmodule, .inl ⟨hmodule, hthis, hoffset⟩⟩
  · exact .inr ⟨hmodule, importSlot?_of_findIdx? hslot, hslot⟩

section Tokens

variable {code : PlacedCode} {base : Nat} {front back : List UInt8} {image image' : Array UInt8}

/-- Writing the token of an operation that starts after `front`. -/
theorem token_patched {callee : FuncRef} {token : Token} {byte : UInt8} {rest : List UInt8}
    (hmodule : callee.module ≠ cm.module)
    (hslot : cm.imports.findIdx? (· = callee.module) = some token.module.toNat)
    (himage : image.toList = front ++ (byte :: (token.encode ++ rest) ++ back))
    (h : cm.patchToken offsets image ⟨front.length + 1, token.module, callee⟩ = .ok image') :
    ∃ token', cm.Fills offsets callee token' ∧
      image'.toList = front ++ (byte :: (token'.encode ++ rest) ++ back) := by
  obtain ⟨token', htoken', hoverwrite⟩ := patchToken_eq_ok h
  have himport := getElem?_of_findIdx? (s := cm.scope) hslot
  obtain ⟨hmodule', htable⟩ := fixupToken?_eq_some himport htoken'
  refine ⟨token', .inr ⟨hmodule, hmodule' ▸ hslot, htable⟩, ?_⟩
  have hsplit (token : Token) : front ++ (byte :: (token.encode ++ rest) ++ back) =
      (front ++ [byte]) ++ (token.encode ++ (rest ++ back)) := by
    simp
  rw [hsplit] at himage ⊢
  refine toList_overwrite?_append himage ?_ ?_
  · rw [Token.length_encode, Token.length_encode]
  · rwa [List.length_append]

/-- What writing tokens does to an operation that names a function: the token it has then names the
function. -/
theorem call_patched {selected : SelectedOp} {callee : FuncRef} {token : Token} {byte : UInt8}
    {rest : List UInt8}
    (hnames : cm.scope.Names callee token)
    (hfixup : cm.scope.fixup? front.length selected =
      if callee.module = cm.module then none
      else (cm.scope.importSlot? callee.module).map fun slot => ⟨front.length + 1, slot, callee⟩)
    (himage : image.toList = front ++ (byte :: (token.encode ++ rest) ++ back))
    (h : (cm.scope.fixup? front.length selected).toList.foldlM (cm.patchToken offsets) image =
      .ok image') :
    ∃ token', cm.Fills offsets callee token' ∧
      image'.toList = front ++ (byte :: (token'.encode ++ rest) ++ back) := by
  rcases fills_or_waits offsets hnames with ⟨hmodule, hlinked⟩ | ⟨hmodule, hwaits, hslot⟩
  · rw [hfixup, if_pos hmodule] at h
    cases h
    exact ⟨token, hlinked, himage⟩
  · rw [hfixup, if_neg hmodule, hwaits] at h
    obtain ⟨_, hpatch, h⟩ := bind_eq_ok.mp h
    cases h
    exact token_patched hmodule hslot himage hpatch

/-- **What writing tokens does to one operation**: it gets another token, or stays as it is. -/
theorem op_patched {selected : SelectedOp} {op : Operation Token Nat} {bytes : List UInt8}
    (hencode : op.encode front.length = .ok bytes)
    (hemits : Emits cm.scope.Names code base selected ⟨front.length, op⟩)
    (himage : image.toList = front ++ (bytes ++ back))
    (h : (cm.scope.fixup? front.length selected).toList.foldlM (cm.patchToken offsets) image =
      .ok image') :
    ∃ op' bytes', Operation.encode op' front.length = .ok bytes' ∧
      Emits (cm.Fills offsets) code base selected ⟨front.length, op'⟩ ∧
      image'.toList = front ++ (bytes' ++ back) := by
  obtain ⟨opcode, operand⟩ := op
  obtain ⟨opcode', operand'⟩ := selected
  obtain ⟨hopcode, hoperand⟩ := hemits
  dsimp only at hopcode hoperand
  cases hoperand with
  | func hnames =>
    cases hencode
    rw [← List.append_nil (Token.encode _)] at himage
    obtain ⟨token', hlinked, himage'⟩ := call_patched hnames rfl himage h
    refine ⟨⟨opcode, .func token'⟩, _, rfl, ⟨hopcode, .func hlinked⟩, ?_⟩
    rwa [List.append_nil] at himage'
  | funcSlots hnames slots =>
    cases hencode
    obtain ⟨token', hlinked, himage'⟩ := call_patched hnames rfl himage h
    exact ⟨⟨opcode, .funcSlots token' slots⟩, _, rfl, ⟨hopcode, .funcSlots hlinked slots⟩,
      himage'⟩
  | target htarget =>
    cases h
    exact ⟨_, bytes, hencode, ⟨hopcode, .target htarget⟩, himage⟩
  | _ =>
    cases h
    exact ⟨_, bytes, hencode, ⟨hopcode, by constructor⟩, himage⟩

/-- What writing tokens does to operations one after the other.  Each is as long as before, so those
after it stay where they are. -/
theorem ops_patched {selected : List SelectedOp} {ops : List PlacedOp} {bytes : List UInt8}
    {start : Nat} (hwritten : OpsWritten start ops bytes)
    (hemits : List.Forall₂ (Emits cm.scope.Names code base) selected ops)
    (hfront : front.length = start) (himage : image.toList = front ++ (bytes ++ back))
    (h : (cm.scope.fixupsFrom start selected).foldlM (cm.patchToken offsets) image = .ok image') :
    ∃ ops' bytes', OpsWritten start ops' bytes' ∧
      List.Forall₂ (Emits (cm.Fills offsets) code base) selected ops' ∧
      image'.toList = front ++ (bytes' ++ back) := by
  induction hemits generalizing front bytes image start with
  | nil =>
    cases hwritten
    cases h
    exact ⟨[], [], .nil _, .nil, himage⟩
  | @cons op _ selected _ hemit _ ih =>
    cases hwritten with
    | @cons _ op' bytes rest ops hshape hencode hrest =>
      subst hfront
      rw [ModuleScope.fixupsFrom, List.foldlM_append] at h
      obtain ⟨mid, hmid, h⟩ := bind_eq_ok.mp h
      rw [List.append_assoc] at himage
      obtain ⟨patched, bytes', hencode', hemit', himage'⟩ :=
        op_patched hencode hemit himage hmid
      have hshape' := hemit'.wellShaped_iff.mpr (hemit.wellShaped_iff.mp hshape)
      have hlength' : bytes'.length = op.length := by
        rw [(Operation.reads_encode hshape' hencode').2, Operation.length, Operation.length]
        exact congrArg Opcode.length hemit'.opcode
      have hsame : op'.length = op.length := congrArg Opcode.length hemit.opcode
      rw [hsame] at hrest
      rw [← List.append_assoc] at himage'
      obtain ⟨ops', rest', hwritten', hemits', himage''⟩ := ih hrest (by simp [hlength']) himage' h
      refine ⟨⟨front.length, patched⟩ :: ops', bytes' ++ rest', ?_, .cons hemit' hemits', ?_⟩
      · refine .cons hshape' hencode' ?_
        rwa [show patched.length = op.length from congrArg Opcode.length hemit'.opcode]
      · rw [himage'', List.append_assoc, List.append_assoc]

/-- The length of a function in an image. -/
theorem length_of_written {F : FuncRef → Token → Prop} {listing : FunctionListing}
    {bytes : List UInt8} (hwritten : listing.Written bytes) (hlists : ListsCode F code listing) :
    bytes.length = Descriptor.size + totalLength code.instrs.flatten := by
  obtain ⟨ops, hops, rfl⟩ := hwritten
  have hfinish := hops.contiguous.eq_add_totalLength hlists.emits
  rw [List.length_append, Nat.add_left_cancel hfinish]
  rfl

/-- What writing tokens does to a function. -/
theorem code_patched {listing : FunctionListing} {bytes : List UInt8}
    (hwritten : listing.Written bytes) (hlists : ListsCode cm.scope.Names code listing)
    (hfront : front.length = listing.offset) (himage : image.toList = front ++ (bytes ++ back))
    (h : (cm.scope.fixupsFrom (listing.offset + Descriptor.size) code.instrs.flatten).foldlM
      (cm.patchToken offsets) image = .ok image') :
    ∃ listing' bytes', listing'.offset = listing.offset ∧ listing'.Written bytes' ∧
      ListsCode (cm.Fills offsets) code listing' ∧
      image'.toList = front ++ (bytes' ++ back) := by
  obtain ⟨ops, hops, rfl⟩ := hwritten
  have hfront' : (front ++ listing.descriptor.encode).length =
      listing.offset + Descriptor.size := by
    rw [List.length_append, hfront]
    rfl
  rw [List.append_assoc, ← List.append_assoc front] at himage
  obtain ⟨ops', bytes', hops', hemits', himage'⟩ := ops_patched hops hlists.emits hfront' himage h
  have hfinish := hops'.contiguous.eq_add_totalLength hemits'
  refine ⟨⟨listing.offset, listing.descriptor, ops'⟩, _, rfl, ⟨bytes', hops', rfl⟩,
    ⟨hlists.descriptor, hemits', hfinish ▸ hops'.contiguous⟩, ?_⟩
  rw [himage', List.append_assoc, List.append_assoc]

/-- **What writing tokens does to the functions of a module**: they stay where they are, and their
tokens name what they should. -/
theorem codes_patched {codes : List PlacedCode} {listings : List FunctionListing}
    {bytes : List UInt8} {start : Nat} (hwritten : ListingsWritten start listings bytes)
    (hlists : List.Forall₂ (ListsCode cm.scope.Names) codes listings)
    (hfront : front.length = start) (himage : image.toList = front ++ (bytes ++ back))
    (h : (cm.scope.fixupsOf start codes).foldlM (cm.patchToken offsets) image = .ok image') :
    ∃ listings' bytes', ListingsWritten start listings' bytes' ∧
      listings'.map FunctionListing.offset = listings.map FunctionListing.offset ∧
      List.Forall₂ (ListsCode (cm.Fills offsets)) codes listings' ∧
      image'.toList = front ++ (bytes' ++ back) := by
  induction hlists generalizing front bytes image start with
  | nil =>
    cases hwritten
    cases h
    exact ⟨[], [], .nil _, rfl, .nil, himage⟩
  | @cons code listing codes listings hcode _ ih =>
    cases hwritten with
    | @cons _ bytes rest _ hlisting hrest =>
      rw [ModuleScope.fixupsOf, List.foldlM_append] at h
      obtain ⟨mid, hmid, h⟩ := bind_eq_ok.mp h
      rw [List.append_assoc] at himage
      obtain ⟨listing', bytes', hoffset, hlisting', hcode', himage'⟩ :=
        code_patched hlisting hcode hfront himage hmid
      have hlength := length_of_written hlisting hcode
      have hlength' := length_of_written hlisting' hcode'
      rw [Nat.add_assoc, ← hlength'] at h
      rw [hlength, ← hlength'] at hrest
      rw [← List.append_assoc] at himage'
      obtain ⟨listings', rest', hrest', hoffsets, hcodes', himage''⟩ :=
        ih hrest (by simp [hfront]) himage' h
      refine ⟨listing' :: listings', bytes' ++ rest', ?_, ?_, .cons hcode' hcodes', ?_⟩
      · rw [← hoffset] at hrest' ⊢
        exact .cons hlisting' hrest'
      · rw [List.map_cons, List.map_cons, hoffset, hoffsets]
      · rw [himage'', List.append_assoc, List.append_assoc]

end Tokens

section Header

variable {front back : List UInt8} {image image' : Array UInt8}

/-- Writes the fingerprint of one import. -/
def writeSlot (cm : CompiledModule) (image : Array UInt8) (entry : Fingerprint × Nat) :
    Except LinkError (Array UInt8) :=
  match overwrite? image (Header.importOffset entry.2) entry.1.bytes with
  | some image => .ok image
  | none => .error (.badFixup cm.module (Header.importOffset entry.2))

theorem writeImports_eq (imports : List Fingerprint) :
    cm.writeImports image imports = imports.zipIdx.foldlM cm.writeSlot image := rfl

/-- Writing fingerprints over those of an import table, from slot `first` on. -/
theorem imports_written {imports olds : List Fingerprint} {first : Nat}
    (hlength : olds.length = imports.length) (hfront : front.length = Header.importOffset first)
    (himage : image.toList = front ++ (Header.encodeImports olds ++ back))
    (h : (imports.zipIdx first).foldlM cm.writeSlot image = .ok image') :
    image'.toList = front ++ (Header.encodeImports imports ++ back) := by
  induction imports generalizing front image olds first with
  | nil =>
    cases List.eq_nil_of_length_eq_zero hlength
    cases h
    exact himage
  | cons fingerprint imports ih =>
    cases olds with
    | nil => cases hlength
    | cons old olds =>
      rw [List.zipIdx_cons, List.foldlM_cons] at h
      obtain ⟨mid, hmid, h⟩ := bind_eq_ok.mp h
      unfold writeSlot at hmid
      split at hmid
      · rename_i patched hpatched
        cases hmid
        rw [Header.encodeImports, List.flatMap_cons, List.append_assoc] at himage
        rw [← hfront] at hpatched
        have hbytes : fingerprint.bytes.length = old.bytes.length := by
          rw [fingerprint.length_eq, old.length_eq]
        have hmidImage := toList_overwrite?_append himage hbytes hpatched
        rw [← List.append_assoc] at hmidImage
        have hfront' : (front ++ fingerprint.bytes).length = Header.importOffset (first + 1) := by
          rw [List.length_append, hfront, fingerprint.length_eq, Header.importOffset,
            Header.importOffset, Nat.succ_mul, Nat.add_assoc]
          rfl
        rw [ih (Nat.succ.inj hlength) hfront' hmidImage h, Header.encodeImports,
          Header.encodeImports, List.flatMap_cons, List.append_assoc, List.append_assoc]
      · cases hmid

/-- Writing the module count changes nothing but that. -/
theorem count_written {header : Header} {count : UInt8}
    (himage : image.toList = header.encode ++ back) (h : cm.writeCount image count = .ok image') :
    image'.toList = { header with moduleCount := count }.encode ++ back := by
  unfold writeCount at h
  split at h
  · rename_i patched hpatched
    cases h
    have hsplit (header : Header) : header.encode ++ back =
        [Header.version, header.features.bits] ++ ([header.moduleCount] ++
          (header.importCount :: Header.encodeEntry header.entry ++ back)) := rfl
    rw [hsplit] at himage ⊢
    exact toList_overwrite?_append himage rfl hpatched
  · cases h

end Header

/-- The functions of a module stand after its import table. -/
theorem Holds.codeStart_eq {p : Program} {typing : TypedProgram} {m : ModuleDecl}
    {placed : List PlacedCode} {listings : List FunctionListing}
    (h : cm.Holds p typing m placed listings) :
    (m.header cm.features cm.functionOffsets).codeStart =
      Header.importOffset m.imports.length := by
  obtain ⟨hcount, -⟩ := h.written
  rw [Header.codeStart, hcount, List.length_replicate]

/-- **What a linked image holds**: the header with the module count, the fingerprints of the
imports, and the functions at the same offsets, with the tokens that linking writes. -/
theorem Holds.link_fills {p : Program} {typing : TypedProgram} {m : ModuleDecl}
    {placed : List PlacedCode} {listings : List FunctionListing} {imports : List Fingerprint}
    {count : UInt8} {lm : LinkedModule} (h : cm.Holds p typing m placed listings)
    (himports : imports.length = m.imports.length)
    (hlink : cm.link imports count offsets = .ok lm) :
    ∃ listings', listings'.map FunctionListing.offset = listings.map FunctionListing.offset ∧
      List.Forall₂ (ListsCode (cm.Fills offsets)) placed listings' ∧
      (Disassembly.mk { m.header cm.features cm.functionOffsets with moduleCount := count } imports
        listings').Written lm.image := by
  obtain ⟨hcount, code, hlistings, himage⟩ := h.written
  dsimp only at hcount hlistings himage
  obtain ⟨image₁, himage₁, hlink⟩ := bind_eq_ok.mp hlink
  obtain ⟨image₂, himage₂, hlink⟩ := bind_eq_ok.mp hlink
  obtain ⟨image₃, himage₃, hlink⟩ := bind_eq_ok.mp hlink
  cases pure_eq_ok.mp hlink
  rw [writeImports_eq] at himage₁
  -- import table, module count, tokens: each write leaves the other parts as they were
  have hbytes₁ := imports_written (List.length_replicate.trans himports.symm)
    (Header.length_encode _) himage himage₁
  have hbytes₂ := count_written hbytes₁ himage₂
  rw [h.codeStart_eq] at hlistings
  rw [writeTokens_eq, h.fixups] at himage₃
  rw [← List.append_assoc, ← List.append_nil code] at hbytes₂
  have hfront (header : Header) : (header.encode ++ Header.encodeImports imports).length =
      Header.importOffset m.imports.length := by
    rw [List.length_append, Header.length_encode, Header.length_encodeImports, himports]
    rfl
  obtain ⟨listings', code', hlistings', hoffsets, hlists, hbytes₃⟩ :=
    codes_patched hlistings h.lists (hfront _) hbytes₂ himage₃
  refine ⟨listings', hoffsets, hlists, ?_, code', ?_, ?_⟩
  · exact hcount.trans (List.length_replicate.trans himports.symm)
  · exact h.codeStart_eq ▸ hlistings'
  · rw [hbytes₃, List.append_nil, List.append_assoc]

/-- The tokens of a linked image name what they should. -/
theorem Holds.link {p : Program} {typing : TypedProgram} {m : ModuleDecl}
    {placed : List PlacedCode} {listings : List FunctionListing} {imports : List Fingerprint}
    {count : UInt8} {lm : LinkedModule} (h : cm.Holds p typing m placed listings)
    (himports : imports.length = m.imports.length)
    (hlink : cm.link imports count offsets = .ok lm) :
    ∃ listings', listings'.map FunctionListing.offset = listings.map FunctionListing.offset ∧
      List.Forall₂ (ListsCode (cm.NamesLinked offsets)) placed listings' ∧
      (Disassembly.mk { m.header cm.features cm.functionOffsets with moduleCount := count } imports
        listings').Written lm.image := by
  obtain ⟨listings', hoffsets, hlists, hwritten⟩ := h.link_fills himports hlink
  refine ⟨listings', hoffsets, hlists.imp fun _ _ hcode => ?_, hwritten⟩
  exact hcode.imp fun _ _ => Fills.namesLinked

end CompiledModule

end StackCode
