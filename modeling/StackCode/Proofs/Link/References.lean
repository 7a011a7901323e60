import StackCode.Proofs.Code.ControlFlow
import StackCode.Proofs.Link.Linked

/-!
# References between functions after linking

An instruction that names a function becomes an operation with a token.  After linking, the token
leads to the descriptor of that function: in the same image, or in the image whose fingerprint
stands in the import slot the token names.

## Main definitions

* `LinkedModule.TokenAt`: the token decoded at an instruction.
* `LinkedModule.DescribesAt`: where a linked image has the descriptor of a function.
* `LinkedModule.Resolves`: a token leads to a function.

## Main results

* `Program.token_resolves`: every reference of a program that compiles is resolved.
-/

namespace StackCode

namespace LinkedModule

/-- The image, disassembled, has an operation with this token where instruction `i` of function `k`
starts. -/
def TokenAt (lm : LinkedModule) (k i : Nat) (token : Token) : Prop :=
  ∃ d listing op, disassemble lm.image lm.functionOffsets.toList = .ok d ∧
    d.functions[k]? = some listing ∧ op ∈ listing.ops ∧
    lm.instructionOffsets[k]?.bind (·[i]?) = some op.offset ∧
    (op.op.operand = .func token ∨ ∃ slots, op.op.operand = .funcSlots token slots)

/-- The image, disassembled, has the descriptor of a function at an offset. -/
def DescribesAt (lm : LinkedModule) (p : Program) (typing : TypedProgram) (func : FuncRef)
    (offset : Nat) : Prop :=
  ∃ d listing decl frame, disassemble lm.image lm.functionOffsets.toList = .ok d ∧
    d.functions[func.index]? = some listing ∧ listing.offset = offset ∧
    p.function? func = some decl ∧
    Frame.ofFunction p.types decl (typing.statesOf func) = .ok frame ∧
    listing.descriptor = frame.descriptor decl.zeroInit

/-- A token in the image of `lm` leads to a function of `target`. -/
structure Resolves (lm target : LinkedModule) (p : Program) (typing : TypedProgram)
    (callee : FuncRef) (token : Token) : Prop where
  offset : target.functionOffsets[callee.index]? = some token.offset.toNat
  descriptor : target.DescribesAt p typing callee token.offset.toNat
  fingerprint : target.fingerprint = .ofImage target.image
  own : callee.module = lm.module → token.module = Token.thisModule
  imported : callee.module ≠ lm.module → token.module ≠ Token.thisModule ∧
    lm.imports[token.module.toNat]? = some callee.module ∧
    Header.importAt lm.image token.module.toNat = .ok target.fingerprint

end LinkedModule

/-- An operation that names a function stands in the image with a token for it. -/
theorem StandsFor.token_of_names {F : FuncRef → Token → Prop} {T : Label → Nat → Prop}
    {op : SelectedOp} {placed : PlacedOp} {func : FuncRef} (h : StandsFor F T op placed)
    (hnames : SelectionContext.NamesFunction func op) :
    ∃ token, F func token ∧ (placed.op.operand = .func token ∨
      ∃ slots, placed.op.operand = .funcSlots token slots) := by
  have hoperand := h.operand
  generalize placed.op.operand = operand at hoperand ⊢
  rcases hnames with hfunc | ⟨slots, hfunc⟩
  · rw [hfunc] at hoperand
    cases hoperand with
    | func hF => exact ⟨_, hF, .inl rfl⟩
  · rw [hfunc] at hoperand
    cases hoperand with
    | funcSlots hF => exact ⟨_, hF, .inr ⟨slots, rfl⟩⟩

namespace Program

variable {p : Program} {typing : TypedProgram} {linked : List LinkedModule} {m : ModuleDecl}
  {cm : CompiledModule} {offsets : ModuleId → Option (Array Nat)} {lm : LinkedModule}
  {d : Disassembly}

namespace LinkedAs

/-- A linked image has the descriptor of each of its functions. -/
theorem describesAt {callee : FuncRef} {decl : FunctionDecl}
    (h : p.LinkedAs typing linked m cm offsets lm d) (hmodule : cm.module = callee.module)
    (hm : p.module? callee.module = some m) (hdecl : m.functions[callee.index]? = some decl) :
    ∃ offset, lm.functionOffsets[callee.index]? = some offset ∧
      lm.DescribesAt p typing callee offset := by
  have hmember : (functionsOf cm.module m)[callee.index]? = some (callee, decl) := by
    rw [hmodule]
    exact getElem?_functionsOf_index hdecl
  obtain ⟨listing, hlisting, selected, groups, hlists⟩ := getElem?_of_forall₂ h.lists hmember
  obtain ⟨frame, hframe, hdescriptor, -⟩ := hlists.frame
  refine ⟨listing.offset, ?_, d, listing, decl, frame, h.disassemble, hlisting, rfl, ?_, hframe,
    hdescriptor⟩
  · rw [h.keeps.functionOffsets]
    exact hlists.offset
  · exact function?_eq_some.mpr ⟨m, hm, hdecl⟩

/-- A reachable instruction that names a function has a token for it.  The instruction has one
operation, which starts where the instruction starts. -/
theorem tokenAt {func callee : FuncRef} {decl : FunctionDecl} {typed : TypedFunction} {i : Nat}
    {op : FuncOp} (h : p.LinkedAs typing linked m cm offsets lm d)
    (hmodule : cm.module = func.module) (hdecl : m.functions[func.index]? = some decl)
    (hcode : decl.implementation = .code) (htyped : typing.function? func = some typed)
    (hinstr : decl.body[i]? = some (.function op callee)) (hreached : typed.isReachable i = true) :
    ∃ token, cm.NamesLinked offsets callee token ∧ lm.TokenAt func.index i token := by
  have hmember : (functionsOf cm.module m)[func.index]? = some (func, decl) := by
    rw [hmodule]
    exact getElem?_functionsOf_index hdecl
  obtain ⟨listing, hlisting, selected, groups, hlists⟩ := getElem?_of_forall₂ h.lists hmember
  obtain ⟨frame, -, -, hselects⟩ := hlists.frame
  simp only [Selects, hcode] at hselects
  obtain ⟨typed', htyped', hselects⟩ := hselects
  cases htyped.symm.trans htyped'
  obtain ⟨ops, group, hgroup, hselected, hstands⟩ :=
    hlists.group_of_reached hselects hinstr hreached
  obtain ⟨selectedOp, rfl, hnames⟩ := hselected.function rfl
  cases hstands with
  | @cons _ placed _ _ hstand hnil =>
    cases hnil
    obtain ⟨token, hlinked, hoperand⟩ := hstand.token_of_names hnames
    obtain ⟨starts, finish, hstarts, hgroupsAt⟩ := hlists.groupsAt
    obtain ⟨first, last, hfirst, hcontiguous, -⟩ := hgroupsAt.contiguous hgroup
    refine ⟨token, hlinked, d, listing, placed, h.disassemble, hlisting, ?_, ?_, hoperand⟩
    · rw [hlists.ops]
      exact List.mem_flatten.mpr ⟨_, List.mem_of_getElem? hgroup, List.mem_singleton_self _⟩
    · cases hcontiguous
      rw [h.keeps.instructionOffsets, hstarts]
      exact hfirst

/-- A token that names a function after linking leads to it.  The function is in the same image, or
in the one whose fingerprint the import slot holds; with at most 255 imports, no slot is the number
that stands for the module itself. -/
theorem resolves {m' : ModuleDecl} {cm' : CompiledModule} {offsets' : ModuleId → Option (Array Nat)}
    {target : LinkedModule} {d' : Disassembly} {callee : FuncRef} {decl : FunctionDecl}
    {token : Token} (h : p.LinkedAs typing linked m cm offsets lm d)
    (h' : p.LinkedAs typing linked m' cm' offsets' target d') (hmodule : cm'.module = callee.module)
    (hm : p.module? callee.module = some m') (hdecl : m'.functions[callee.index]? = some decl)
    (hnames : cm.NamesLinked offsets callee token) : lm.Resolves target p typing callee token := by
  have htarget : linked[callee.module.index]? = some target := hmodule ▸ h'.linked_eq
  obtain ⟨offset, hoffset, hdescribes⟩ := h'.describesAt hmodule hm hdecl
  rcases hnames with ⟨hown, hthis, htoken⟩ | ⟨himported, hslot, table, htable, htoken⟩
  · rw [hown, h.linked_eq] at htarget
    cases htarget
    rw [h.keeps.functionOffsets, htoken] at hoffset
    cases hoffset
    refine ⟨?_, hdescribes, h'.keeps.fingerprint, fun _ => hthis, fun hne => ?_⟩
    · rw [h.keeps.functionOffsets, htoken]
    · exact absurd (hown.trans h.keeps.module.symm) hne
  · obtain ⟨target', htarget', rfl⟩ := h.offsets_eq htable
    cases htarget.symm.trans htarget'
    rw [htoken] at hoffset
    cases hoffset
    obtain ⟨fingerprint, hfingerprint, target', htarget', rfl⟩ :=
      getElem?_of_forall₂ h.fingerprints hslot
    cases htarget.symm.trans htarget'
    refine ⟨htoken, hdescribes, h'.keeps.fingerprint, fun heq => ?_, fun _ => ⟨?_, ?_, ?_⟩⟩
    · exact absurd (heq.trans h.keeps.module) himported
    · have hlt := (List.getElem?_eq_some_iff.mp hslot).1
      have hle := h.imports_le
      rw [← h.imports] at hle
      intro hthis
      rw [hthis] at hlt
      have : Token.thisModule.toNat = 255 := rfl
      omega
    · rw [h.keeps.imports, hslot]
    · exact h.importAt hfingerprint

end LinkedAs

/-- **Every reference of a program that compiles is resolved.**  The token of a reachable
instruction that names a function leads to the descriptor of that function. -/
theorem token_resolves {config : CompileConfig} {func callee : FuncRef} {decl : FunctionDecl}
    {i : Nat} {op : FuncOp} (h : p.compile config = .ok linked)
    (hf : p.function? func = some decl) (hcode : decl.implementation = .code)
    (hinstr : decl.body[i]? = some (.function op callee))
    (hpath : Relation.ReflTransGen decl.Edge 0 i) :
    ∃ typing lm target token, p.verify config.verify = .ok typing ∧
      linked[func.module.index]? = some lm ∧ lm.module = func.module ∧
      linked[callee.module.index]? = some target ∧ target.module = callee.module ∧
      lm.TokenAt func.index i token ∧ lm.Resolves target p typing callee token := by
  obtain ⟨hbind, typing, modules, hverify, hmodules, hlink⟩ := compile_eq_ok.mp h
  obtain ⟨m, hm, hdecl⟩ := function?_eq_some.mp hf
  have hbound := boundCode_of_bind hbind hm hdecl hcode
  obtain ⟨typed, htyped, hfunction⟩ := function?_of_verify hverify hf
  have hcovers := verifyFunction_covers hf hcode hfunction
  have hreached := (hcovers.isReachable_iff hbound.nonempty).mpr hpath
  obtain ⟨calleeDecl, hcallee⟩ := hbound.exists_callee hinstr
  obtain ⟨m', hm', hcalleeDecl⟩ := function?_eq_some.mp hcallee
  obtain ⟨cm, offsets, lm, d, hid, hlm⟩ := linkedAs_of_modules hverify hmodules hlink hm
  obtain ⟨cm', offsets', target, d', hid', htarget⟩ :=
    linkedAs_of_modules hverify hmodules hlink hm'
  obtain ⟨token, hnames, htoken⟩ := hlm.tokenAt hid hdecl hcode htyped hinstr hreached
  refine ⟨typing, lm, target, token, hverify, hid ▸ hlm.linked_eq, hlm.keeps.module.trans hid,
    hid' ▸ htarget.linked_eq, htarget.keeps.module.trans hid', htoken, ?_⟩
  exact hlm.resolves htarget hid' hm' hcalleeDecl hnames

/-- The linked forms of a module without imports and of one that imports it alone. -/
def linkPair? (a b : CompiledModule) : Option (LinkedModule × LinkedModule) :=
  match finishModule a [] [] with
  | .error _ => none
  | .ok r =>
    match finishModule b [r.linked.fingerprint] [r] with
    | .error _ => none
    | .ok r' => some (r.linked, r'.linked)

/-- Linking goes from a module to the one that imports it. -/
theorem linkAll_of_linkPair? {a b : CompiledModule} {x y : LinkedModule} (ha : a.imports = [])
    (hb : b.imports = [a.module]) (hne : a.module ≠ b.module)
    (h : linkPair? a b = some (x, y)) : linkAll [a, b] = .ok [x, y] := by
  unfold linkPair? at h
  split at h
  · cases h
  rename_i r hfirst
  split at h
  · cases h
  rename_i r' hsecond
  cases h
  have hr : r.linked.module = a.module := module_of_finishModule hfirst
  have hr' : r'.linked.module = b.module := module_of_finishModule hsecond
  have hfinda : findModule? [a, b] a.module = some a := by simp [findModule?, hne.symm]
  have hfindb : findModule? [a, b] b.module = some b := by simp [findModule?]
  have hlinka : linkModule [a, b] [] a.module [] = (.ok r.linked.fingerprint, [r]) :=
    linkModule_eq_ok.mpr ⟨a, hfinda, .inr ⟨rfl, List.not_mem_nil, [], [], r,
      by rw [ha, linkImports_nil], hfirst, rfl, rfl⟩⟩
  have hlinkb : linkModule [a, b] [] b.module [r] = (.ok r'.linked.fingerprint, [r', r]) := by
    refine linkModule_eq_ok.mpr ⟨b, hfindb, .inr ⟨?_, List.not_mem_nil, [r.linked.fingerprint], [r],
      r', ?_, hsecond, rfl, rfl⟩⟩
    · exact findRecord?_cons_ne (hr ▸ hne)
    · rw [hb]
      refine linkImports_cons_eq_ok.mpr ⟨_, [r], [], ?_, linkImports_nil, rfl⟩
      exact linkModule_eq_ok.mpr ⟨a, hfinda, .inl ⟨r, findRecord?_cons_self hr, rfl, rfl⟩⟩
  have heach : Linker.linkEach ⟨[a, b], []⟩ [a.module, b.module] = .ok ⟨[a, b], [r', r]⟩ :=
    Linker.linkEach_cons_eq_ok.mpr ⟨_, _, hlinka,
      Linker.linkEach_cons_eq_ok.mpr ⟨_, _, hlinkb, rfl⟩⟩
  refine bind_eq_ok.mpr ⟨_, heach, takeRecords_cons_eq_ok.mpr ⟨r, [r'.linked], ?_, ?_, rfl⟩⟩
  · rw [findRecord?_cons_ne (hr' ▸ hne.symm)]
    exact findRecord?_cons_self hr
  · have hleft : [r', r].filter (fun r => r.linked.module ≠ a.module) = [r'] := by
      simp [hr, hr', hne.symm]
    rw [hleft]
    exact takeRecords_cons_eq_ok.mpr ⟨r', [], findRecord?_cons_self hr', rfl, rfl⟩

theorem clock_links : ∃ linked, linkAll [clockObject, mainObject] = .ok linked := by
  have hpair : (linkPair? clockObject mainObject).isSome := by decide
  obtain ⟨⟨x, y⟩, hlinked⟩ := Option.isSome_iff_exists.mp hpair
  exact ⟨[x, y], linkAll_of_linkPair? rfl rfl (by decide) hlinked⟩

theorem clock_compile {x a : LinkedModule} (h : linkPair? clockObject mainObject = some (x, a)) :
    clock.compile {} = .ok [x, a] := by
  obtain ⟨typing, hverify, hmodules⟩ := clock_compiles
  have hlink := linkAll_of_linkPair? rfl rfl (by decide) h
  exact compile_eq_ok.mpr ⟨clock_binds, typing, _, hverify, hmodules, hlink⟩

/-- The call of an imported function. -/
theorem token_resolves_clock :
    ∃ linked, clock.compile {} = .ok linked ∧ clock.function? ⟨⟨1⟩, 0⟩ = some clockMain ∧
      clockMain.implementation = .code ∧
      clockMain.body[0]? = some (.function .call ⟨⟨0⟩, 0⟩) ∧
      Relation.ReflTransGen clockMain.Edge 0 0 ∧
      ∃ typing lm target token, clock.verify {} = .ok typing ∧
        linked[1]? = some lm ∧ lm.module = ⟨1⟩ ∧ linked[0]? = some target ∧ target.module = ⟨0⟩ ∧
        lm.TokenAt 0 0 token ∧ lm.Resolves target clock typing ⟨⟨0⟩, 0⟩ token := by
  obtain ⟨typing, hverify, hmodules⟩ := clock_compiles
  obtain ⟨linked, hlink⟩ := clock_links
  have hcompile : clock.compile {} = .ok linked :=
    compile_eq_ok.mpr ⟨clock_binds, typing, _, hverify, hmodules, hlink⟩
  have hmain : clock.function? ⟨⟨1⟩, 0⟩ = some clockMain := rfl
  have hcall : clockMain.body[0]? = some (.function .call ⟨⟨0⟩, 0⟩) := rfl
  exact ⟨linked, hcompile, hmain, rfl, hcall, .refl, token_resolves hcompile hmain rfl hcall .refl⟩

end Program

end StackCode
