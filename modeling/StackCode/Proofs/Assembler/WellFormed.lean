import StackCode.Proofs.Assembler.Flags
import StackCode.Proofs.Endings
import StackCode.Proofs.Program.Binding
import StackCode.Proofs.Types.Known

/-!
# Assembled programs are well formed

Whatever a client calls, the program in the making stays well formed: it imports modules that it
has, its entry points exist, its functions have the types they were declared with, and a function
has the body that was handed in for it with success, if there was one; there never are two.  So a
finished program can be refused for what the client chose freely, the locals of functions and their
instructions, and the parameters of an entry point, and for little else.

This is so as long as there are numbers for all functions of a module.  A function past the last
number shares it with another one, and a system call is then taken for a function without a body.

## Main definitions

* `FunctionDraft.Accounts`: where the body of a function comes from.
* `Assembler.Numbered`: there are numbers for all functions.
* `Assembler.Sound`: what calls keep.
* `Assembler.Blames`: what the errors of binding say of an assembled program.
* `Session.WellFormed`: what holds after some calls.

## Main results

* `Assembler.Sound.change`: what edits keep.
* `Assembler.Sound.bind_ends`: what a sound program is refused for.
* `Session.calls_keep_well_formed`: programs are well formed after any calls.
* `Session.syscall_without_number`: a program of system calls that is not finished.
-/

namespace StackCode

/-- Where the body of a function comes from, given the bodies that were handed in for it with
success: there is none, or one, which is that of the function. -/
inductive FunctionDraft.Accounts (f : FunctionDraft) : List BodyBuilder → Prop
  | declared (hbody : f.decl.body = #[]) (hlabels : f.decl.labels = #[])
      (hdefined : f.defined = decide (f.decl.implementation ≠ .code)) : Accounts f []
  | defined {b : BodyBuilder} (hbody : f.decl.body = b.body)
      (hlabels : b.labelTargets = .ok f.decl.labels.toList)
      (hcode : f.decl.implementation = .code) (hdefined : f.defined = true) : Accounts f [b]

namespace FunctionDraft.Accounts

variable {f : FunctionDraft} {bodies : List BodyBuilder}

/-- A system call has no body, and needs none. -/
theorem of_syscall (h : f.Accounts bodies) (hsyscall : f.decl.implementation ≠ .code) :
    f.defined = true ∧ f.decl.body = #[] ∧ f.decl.labels = #[] := by
  cases h with
  | declared hbody hlabels hdefined => exact ⟨by simp [hdefined, hsyscall], hbody, hlabels⟩
  | defined hbody hlabels hcode hdefined => exact absurd hcode hsyscall

theorem defined_eq_false_iff (h : f.Accounts bodies) :
    f.defined = false ↔ f.decl.implementation = .code ∧ bodies = [] := by
  cases h with
  | declared hbody hlabels hdefined => simp [hdefined]
  | defined hbody hlabels hcode hdefined => simp [hdefined]

/-- A function without a flag takes a body.  It has code, and no body was taken before. -/
theorem withBody (h : f.Accounts bodies) (hopen : f.defined = false) {b : BodyBuilder}
    {labels : List Nat} (hlabels : b.labelTargets = .ok labels) :
    (f.withBody b.body labels).Accounts (bodies ++ [b]) := by
  obtain ⟨hcode, rfl⟩ := h.defined_eq_false_iff.mp hopen
  exact .defined rfl hlabels hcode rfl

end FunctionDraft.Accounts

theorem wordIndex_lt (position : Nat) : wordIndex position < wordLimit :=
  Nat.lt_of_le_of_lt (Nat.min_le_right ..) (by decide)

/-- A position that is a word is its own number. -/
theorem wordIndex_of_lt {position : Nat} (h : position < wordLimit) :
    wordIndex position = position :=
  Nat.min_eq_left (Nat.le_sub_one_of_lt h)

namespace FunctionDraft

variable {functions : Array FunctionDraft} {decl : FunctionDecl}

@[simp] theorem size_addTo : (addTo functions decl).size = functions.size + 1 := by
  unfold addTo
  split <;> simp

/-- A function with a number of its own gets the flag that it is declared with. -/
theorem addTo_eq (hlt : functions.size < wordLimit) :
    addTo functions decl = functions.push ⟨decl, decl.implementation ≠ .code⟩ := by
  unfold addTo
  rw [wordIndex_of_lt hlt, modify_push_self]
  cases decl.implementation <;> rfl

end FunctionDraft

namespace ModuleDraft

/-- The module imports modules out of so many, and its entry point exists. -/
structure Linked (m : ModuleDraft) (count : Nat) : Prop where
  imports : ∀ dependency ∈ m.imports, dependency.index < count
  entry : ∀ index, m.entry = some index → index < m.functions.size

theorem Linked.mono {m : ModuleDraft} {count count' : Nat} (h : m.Linked count)
    (hle : count ≤ count') : m.Linked count' where
  imports dependency hmem := Nat.lt_of_lt_of_le (h.imports dependency hmem) hle
  entry := h.entry

theorem Linked.empty (name : String) (count : Nat) : Linked { name } count where
  imports := by simp
  entry := by simp

end ModuleDraft

namespace Assembler

variable {a a' : Assembler} {func : FuncRef} {f : FunctionDraft} {id : ModuleId} {m : ModuleDraft}

/-! ## Functions -/

theorem function?_of_module (hm : a.modules[func.module.index]? = some m) :
    a.function? func = m.functions[func.index]? := by
  simp [function?, hm]

theorem function?_eq_some :
    a.function? func = some f ↔
      ∃ m, a.modules[func.module.index]? = some m ∧ m.functions[func.index]? = some f :=
  Option.bind_eq_some_iff

theorem function?_addModule (name : String) :
    (a.addModule name).2.function? func = a.function? func := by
  simp only [function?, addModule, Array.getElem?_push]
  split
  next hlast => simp [hlast]
  · rfl

/-- Replacing a module changes its own functions only. -/
theorem function?_setModule (hm : a.modules[id.index]? = some m) (m' : ModuleDraft) :
    (a.setModule id m').function? func =
      if func.module = id then m'.functions[func.index]? else a.function? func := by
  have hlt := (Array.getElem?_eq_some_iff.mp hm).1
  simp only [function?, setModule, Array.getElem?_setIfInBounds]
  by_cases hid : func.module = id
  · simp [hid, hlt]
  · have hne : id.index ≠ func.module.index := fun heq => hid (congrArg ModuleId.mk heq.symm)
    simp [hid, hne]

/-- A change of a module other than of its functions. -/
theorem function?_setModule_of_functions (hm : a.modules[id.index]? = some m) {m' : ModuleDraft}
    (hfunctions : m'.functions = m.functions) :
    (a.setModule id m').function? func = a.function? func := by
  rw [function?_setModule hm]
  split
  next hid => rw [hfunctions, function?_of_module (hid ▸ hm)]
  · rfl

/-- A change of one function of a module, old or new. -/
theorem function?_setModule_at (func : FuncRef) (hm : a.modules[func.module.index]? = some m)
    (functions : Array FunctionDraft)
    (hat : ∀ i, functions[i]? = if i = func.index then some f else m.functions[i]?)
    (other : FuncRef) :
    (a.setModule func.module { m with functions }).function? other =
      if other = func then some f else a.function? other := by
  rw [function?_setModule hm, hat]
  by_cases hid : other.module = func.module
  · rw [if_pos hid, function?_of_module (hid ▸ hm)]
    by_cases hindex : other.index = func.index
    · rw [if_pos hindex, if_pos (by cases other; cases func; simp_all)]
    · rw [if_neg hindex, if_neg (fun heq => hindex (congrArg FuncRef.index heq))]
  · rw [if_neg hid, if_neg (fun heq => hid (congrArg FuncRef.module heq))]

/-! ## Numbers -/

/-- There are numbers for all functions of every module. -/
def Numbered (a : Assembler) : Prop := ∀ m ∈ a.modules, m.functions.size ≤ wordLimit

/-- There were numbers for all functions before a module got more. -/
theorem numbered_of_setModule (hm : a.modules[id.index]? = some m) {m' : ModuleDraft}
    (h : (a.setModule id m').Numbered) (hle : m.functions.size ≤ m'.functions.size) :
    a.Numbered := by
  intro other hother
  have hlt := (Array.getElem?_eq_some_iff.mp hm).1
  obtain ⟨i, hi⟩ := Array.mem_iff_getElem?.mp hother
  have hnew (m₀ : ModuleDraft) (hat : (a.setModule id m').modules[i]? = some m₀) :
      m₀.functions.size ≤ wordLimit := h m₀ (Array.mem_of_getElem? hat)
  by_cases heq : id.index = i
  · subst heq
    cases hm.symm.trans hi
    exact Nat.le_trans hle (hnew m' (Array.getElem?_setIfInBounds_self_of_lt hlt))
  · exact hnew other ((Array.getElem?_setIfInBounds_ne heq).trans hi)

/-- Edits only add functions. -/
theorem Change.numbered {body : Option BodyBuilder} (hchange : a.Change a' body)
    (h : a'.Numbered) : a.Numbered := by
  cases hchange with
  | types hbuilt hextends => exact h
  | module name => exact fun m hm => h m (Array.mem_push.mpr (.inl hm))
  | imports hm hdependency => exact numbered_of_setModule hm h (Nat.le_refl _)
  | function hm hbuilt hextends hkind =>
    refine numbered_of_setModule (a := a) hm h ?_
    rw [ModuleDraft.addFunction, FunctionDraft.size_addTo]
    exact Nat.le_succ _
  | body hm hf hopen hlabels =>
    exact numbered_of_setModule hm h (Nat.le_of_eq Array.size_setIfInBounds.symm)
  | entry hm hlt => exact numbered_of_setModule hm h (Nat.le_refl _)

/-- The function that is added last has a number of its own if all have. -/
theorem lt_wordLimit_of_numbered (hm : a.modules[id.index]? = some m) {decl : FunctionDecl}
    (h : (a.setModule id (m.addFunction decl)).Numbered) : m.functions.size < wordLimit := by
  have hlt := (Array.getElem?_eq_some_iff.mp hm).1
  have hsize := h _ (Array.mem_of_getElem? (Array.getElem?_setIfInBounds_self_of_lt hlt))
  rwa [ModuleDraft.addFunction, FunctionDraft.size_addTo] at hsize

/-! ## What calls keep -/

/-- What calls keep of a program, given the bodies that were handed in with success. -/
structure Sound (a : Assembler) (past : List BodyBuilder) : Prop where
  types : a.types.Built
  linked : ∀ m ∈ a.modules, m.Linked a.modules.size
  signature : ∀ func f, a.function? func = some f →
    a.types.HasKind f.decl.signature (.function f.decl.paramTypes f.decl.result)
  accounts : ∀ func f, a.function? func = some f → f.Accounts (past.filter (·.func = func))
  declared : ∀ b ∈ past, (a.function? b.func).isSome

theorem sound_empty : Sound {} [] where
  types := .initial
  linked := by simp
  signature := by simp [function?]
  accounts := by simp [function?]
  declared := by simp

theorem linked_setModule (h : ∀ m ∈ a.modules, m.Linked a.modules.size)
    (hm : m.Linked a.modules.size) :
    ∀ m' ∈ (a.setModule id m).modules, m'.Linked (a.setModule id m).modules.size := by
  intro m' hm'
  rw [setModule, Array.size_setIfInBounds]
  rcases Array.mem_or_eq_of_mem_setIfInBounds hm' with hm' | rfl
  · exact h m' hm'
  · exact hm

namespace Sound

variable {past : List BodyBuilder} (h : a.Sound past) (htypes : a'.types.Built)
  (hextends : a.types.Extends a'.types) (hlinked : ∀ m ∈ a'.modules, m.Linked a'.modules.size)

include h htypes hextends hlinked

/-- A change that leaves the functions alone. -/
theorem of_functions (hfunction : ∀ func, a'.function? func = a.function? func) :
    a'.Sound past where
  types := htypes
  linked := hlinked
  signature func f hf := hextends.hasKind (h.signature func f (hfunction func ▸ hf))
  accounts func f hf := h.accounts func f (hfunction func ▸ hf)
  declared b hb := hfunction b.func ▸ h.declared b hb

/-- A change of one function, for which some bodies are handed in. -/
theorem of_function {bodies : List BodyBuilder}
    (hfunction : ∀ other, a'.function? other = if other = func then some f else a.function? other)
    (hsignature : a'.types.HasKind f.decl.signature (.function f.decl.paramTypes f.decl.result))
    (haccounts : f.Accounts (past.filter (·.func = func) ++ bodies))
    (hbodies : ∀ b ∈ bodies, b.func = func) : a'.Sound (past ++ bodies) where
  types := htypes
  linked := hlinked
  signature other f' hf' := by
    rw [hfunction] at hf'
    split at hf'
    · cases hf'
      exact hsignature
    · exact hextends.hasKind (h.signature other f' hf')
  accounts other f' hf' := by
    rw [hfunction] at hf'
    rw [List.filter_append]
    split at hf'
    next heq =>
      cases hf'
      subst heq
      rwa [List.filter_eq_self.mpr (fun b hb => decide_eq_true (hbodies b hb))]
    next hne =>
      have hother : bodies.filter (·.func = other) = [] :=
        List.filter_eq_nil_iff.mpr fun b hb heq =>
          hne ((of_decide_eq_true heq).symm.trans (hbodies b hb))
      rw [hother, List.append_nil]
      exact h.accounts other f' hf'
  declared b hb := by
    rw [hfunction]
    split
    · rfl
    next hne =>
      rcases List.mem_append.mp hb with hb | hb
      · exact h.declared b hb
      · exact absurd (hbodies b hb) hne

omit htypes hextends hlinked

/-- No body was handed in for a function that is not declared. -/
theorem filter_eq_nil (hf : a.function? func = none) : past.filter (·.func = func) = [] := by
  refine List.filter_eq_nil_iff.mpr fun b hb heq => ?_
  have hsome := h.declared b hb
  rw [of_decide_eq_true heq, hf] at hsome
  cases hsome

/-- The functions without a flag are those with code for which no body was handed in. -/
theorem defined_eq_false_iff (hf : a.function? func = some f) :
    f.defined = false ↔ f.decl.implementation = .code ∧ ∀ b ∈ past, b.func ≠ func := by
  rw [(h.accounts func f hf).defined_eq_false_iff, List.filter_eq_nil_iff]
  simp

/-- A program stays sound when a module gets a function that has a number.  Bodies were taken for
declared functions only, so the new one has none. -/
theorem addFunction {sig : FunctionSig} {signature : TypeId} {implementation : Implementation}
    {types : TypeTable} (hm : a.modules[id.index]? = some m) (hbuilt : types.Built)
    (hextends : a.types.Extends types)
    (hkind : types.HasKind signature (.function (sig.params.map Variable.type) sig.result))
    (hlt : m.functions.size < wordLimit) :
    (setModule { a with types } id
      (m.addFunction (sig.toDecl signature implementation))).Sound past := by
  rw [← List.append_nil past, ModuleDraft.addFunction, FunctionDraft.addTo_eq hlt]
  have hlinked := h.linked m (Array.mem_of_getElem? hm)
  have hnone : a.function? ⟨id, m.functions.size⟩ = none := by
    rw [function?_of_module hm]
    exact Array.getElem?_eq_none (Nat.le_refl _)
  have hfunction := function?_setModule_at (a := { a with types }) ⟨id, m.functions.size⟩ hm
    (m.functions.push ⟨sig.toDecl signature implementation, implementation ≠ .code⟩)
    fun i => Array.getElem?_push
  refine h.of_function hbuilt hextends ?_ hfunction hkind ?_ (by simp)
  · refine linked_setModule h.linked ⟨hlinked.imports, fun index hindex => ?_⟩
    rw [Array.size_push]
    exact Nat.lt_succ_of_lt (hlinked.entry index hindex)
  · rw [h.filter_eq_nil hnone]
    exact .declared rfl rfl rfl

/-- A program stays sound when a function without a flag gets its body. -/
theorem addBody {b : BodyBuilder} {labels : List Nat}
    (hm : a.modules[b.func.module.index]? = some m) (hf : m.functions[b.func.index]? = some f)
    (hopen : f.defined = false) (hlabels : b.labelTargets = .ok labels) :
    (a.setModule b.func.module
      { m with
        functions := m.functions.setIfInBounds b.func.index (f.withBody b.body labels) }).Sound
      (past ++ [b]) := by
  have hlinked := h.linked m (Array.mem_of_getElem? hm)
  have hf' : a.function? b.func = some f := (function?_of_module hm).trans hf
  have hat (i : Nat) : (m.functions.setIfInBounds b.func.index (f.withBody b.body labels))[i]? =
      if i = b.func.index then some (f.withBody b.body labels) else m.functions[i]? := by
    simp [Array.getElem?_setIfInBounds, (Array.getElem?_eq_some_iff.mp hf).1, eq_comm]
  have hfunction := function?_setModule_at b.func hm _ hat
  refine h.of_function ?_ ?_ ?_ hfunction ?_ ?_ (by simp)
  · exact h.types
  · exact .refl _
  · refine linked_setModule h.linked ⟨hlinked.imports, fun index hindex => ?_⟩
    rw [Array.size_setIfInBounds]
    exact hlinked.entry index hindex
  · exact h.signature b.func f hf'
  · exact (h.accounts b.func f hf').withBody hopen hlabels

/-- **Edits keep a program sound**, as long as there are numbers for all functions. -/
theorem change {body : Option BodyBuilder} (hchange : a.Change a' body) (hnumbered : a'.Numbered) :
    a'.Sound (past ++ body.toList) := by
  cases hchange with
  | types hbuilt hextends =>
    rw [Option.toList_none, List.append_nil]
    exact h.of_functions hbuilt hextends h.linked fun _ => rfl
  | module name =>
    rw [Option.toList_none, List.append_nil]
    refine h.of_functions h.types (.refl _) ?_ fun _ => function?_addModule name
    intro m hm
    rcases Array.mem_push.mp hm with hm | rfl
    · exact (h.linked m hm).mono (by simp [addModule])
    · exact .empty name _
  | @imports id dependency m hm hdependency =>
    rw [Option.toList_none, List.append_nil]
    have hlinked := h.linked m (Array.mem_of_getElem? hm)
    refine h.of_functions h.types (.refl _) (linked_setModule h.linked ?_) fun _ =>
      function?_setModule_of_functions hm rfl
    exact ⟨List.forall_mem_append.mpr ⟨hlinked.imports, by simpa using hdependency⟩, hlinked.entry⟩
  | @function id m sig signature implementation types hm hbuilt hextends hkind =>
    rw [Option.toList_none, List.append_nil]
    exact h.addFunction hm hbuilt hextends hkind
      (lt_wordLimit_of_numbered (a := { a with types }) hm hnumbered)
  | body hm hf hopen hlabels => exact h.addBody hm hf hopen hlabels
  | @entry func m hm hlt =>
    rw [Option.toList_none, List.append_nil]
    have hlinked := h.linked m (Array.mem_of_getElem? hm)
    refine h.of_functions h.types (.refl _) (linked_setModule h.linked ?_) fun _ =>
      function?_setModule_of_functions hm rfl
    exact ⟨hlinked.imports, fun index hindex => by cases hindex; exact hlt⟩

end Sound

/-! ## Finished programs -/

/-- The program as it stands. -/
def program (a : Assembler) : Program := ⟨a.types, a.modules.map ModuleDraft.toDecl⟩

/-- What an error of binding says of an assembled program.  The modules, the function types and the
bodies of system calls are never to blame, and parameters and results neither: an unknown type is
that of a local or of an instruction, a variable of type `void` is a local, and an entry point has
parameters. -/
def Blames (a : Assembler) : BindError → Prop
  | .unknownModule _ | .signatureMismatch _ | .syscallWithBody _ => False
  | .unknownType site type => ∃ f, a.function? site = some f ∧ a.types.contains type = false ∧
      ((∃ v ∈ f.decl.locals, v.type = type) ∨ ∃ op, .typed op type ∈ f.decl.body)
  | .voidVariable site name => ∃ f, a.function? site = some f ∧
      ∃ v ∈ f.decl.locals, v.name = name ∧ v.type = .void
  | .badEntry id index => ∃ m f, a.modules[id.index]? = some m ∧ m.entry = some index ∧
      m.functions[index]? = some f ∧ f.decl.params ≠ []
  | _ => True

/-- A demand fails with its cause, and only if it is not met. -/
theorem ends_demand {Q : BindError → Prop} {ok : Bool} {cause : BindError}
    (h : ok = false → Q cause) : Ends (fun _ => True) Q (Program.demand ok cause) := by
  cases ok with
  | true => exact trivial
  | false => exact h rfl

namespace Sound

variable {past : List BodyBuilder} (h : a.Sound past)

include h

/-- The modules of a program are bound, but for entry points with parameters. -/
theorem bindModule_ends (hm : a.modules[id.index]? = some m) :
    Ends (fun _ => True) a.Blames (a.program.bindModule id m.toDecl) := by
  have hlinked := h.linked m (Array.mem_of_getElem? hm)
  refine Ends.bind (Ends.forM fun dependency hdependency => ?_) fun _ _ => ?_
  · have hlt : dependency.index < a.program.modules.size := by
      rw [program, Array.size_map]
      exact hlinked.imports dependency hdependency
    refine ends_demand fun hfalse => ?_
    rw [Program.module?, Array.getElem?_eq_getElem hlt] at hfalse
    cases hfalse
  · have hsame : m.toDecl.entry = m.entry := rfl
    cases hentry : m.entry with
    | none =>
      rw [hsame, hentry]
      exact trivial
    | some index =>
      rw [hsame, hentry]
      have hf := Array.getElem?_eq_getElem (hlinked.entry index hentry)
      refine ends_demand fun hfalse => ⟨m, _, hm, hentry, hf, ?_⟩
      rw [ModuleDraft.toDecl, Array.getElem?_map, hf] at hfalse
      exact List.isEmpty_eq_false_iff.mp hfalse

/-- The types of a function are bound, but for those of its locals.  The function type has checked
the parameters. -/
theorem bindSignature_ends (hf : a.function? func = some f) :
    Ends (fun _ => True) a.Blames (a.program.bindSignature func f.decl) := by
  have hkind := h.signature func f hf
  have hcoherent := h.types.coherent
  obtain ⟨hresult, hparams⟩ := TypeTable.madeBelow_function.mp (hcoherent.madeBelow hkind)
  have hknown {type : TypeId} (hlt : type.index < a.types.size) {cause : BindError} :
      Ends (fun _ => True) a.Blames (Program.demand (a.program.types.contains type) cause) :=
    ends_demand fun hfalse => absurd (TypeTable.contains_iff.mpr hlt) (ne_true_of_eq_false hfalse)
  refine Ends.bind (Ends.forM fun v hv => ?_) fun _ _ => (hknown hresult).bind fun _ _ =>
    (hknown hkind.lt_size).bind fun _ _ => ends_demand fun hfalse => ?_
  · rcases List.mem_append.mp hv with hv | hv
    · have hmem : v.type ∈ f.decl.paramTypes := List.mem_map_of_mem hv
      refine (hknown (hparams v.type hmem)).bind fun _ _ => ends_demand fun hfalse => ?_
      exact absurd (hcoherent.value_of_hasKind hkind hmem).1 (of_decide_eq_false hfalse)
    · refine (ends_demand fun hfalse => ?_).bind fun _ _ => ends_demand fun hfalse => ?_
      · exact ⟨f, hf, hfalse, .inl ⟨v, hv, rfl⟩⟩
      · exact ⟨f, hf, v, hv, rfl, Decidable.not_not.mp (of_decide_eq_false hfalse)⟩
  · obtain ⟨e, he, hkind⟩ := hkind
    have hentry : a.program.types.entry? f.decl.signature = some e := he
    simp [hentry, hkind] at hfalse

/-- The body of a function is bound, but for what its instructions name. -/
theorem bindBody_ends (hf : a.function? func = some f) (m : ModuleDecl) :
    Ends (fun _ => True) a.Blames (a.program.bindBody m func f.decl) := by
  cases himplementation : f.decl.implementation with
  | syscall number =>
    simp only [Program.bindBody, himplementation]
    have hsyscall : f.decl.implementation ≠ .code := by simp [himplementation]
    obtain ⟨-, hbody, hlabels⟩ := (h.accounts func f hf).of_syscall hsyscall
    rw [hbody, hlabels]
    exact trivial
  | code =>
    simp only [Program.bindBody, himplementation]
    refine (ends_demand fun _ => trivial).bind fun _ _ =>
      (Ends.forM fun _ _ => ends_demand fun _ => trivial).bind fun _ _ => Ends.forM ?_
    rintro ⟨instr, index⟩ hmem
    have hinstr : instr ∈ f.decl.body := by
      simpa using List.mem_of_getElem? (List.mem_zipIdx_iff_getElem?.mp hmem)
    cases instr with
    | typed op type =>
      exact ends_demand fun hfalse => ⟨f, hf, hfalse, .inr ⟨op, hinstr⟩⟩
    | function op callee =>
      exact (ends_demand fun _ => trivial).bind fun _ _ => ends_demand fun _ => trivial
    | plain op | constant c => exact trivial
    | _ => exact ends_demand fun _ => trivial

/-- **What a sound program is refused for.** -/
theorem bind_ends : Ends (fun _ => True) a.Blames a.program.bind := by
  have hmodules {id : ModuleId} {decl : ModuleDecl} (hmem : (id, decl) ∈ a.program.moduleList) :
      ∃ m, a.modules[id.index]? = some m ∧ m.toDecl = decl := by
    have hmodule := Program.mem_moduleList.mp hmem
    rw [Program.module?, program, Array.getElem?_map] at hmodule
    exact Option.map_eq_some_iff.mp hmodule
  refine Ends.bind (Ends.forM ?_) fun _ _ => Ends.forM ?_
  · rintro ⟨id, decl⟩ hmem
    obtain ⟨m, hm, rfl⟩ := hmodules hmem
    exact h.bindModule_ends hm
  · rintro ⟨id, decl⟩ hmem
    refine Ends.forM ?_
    rintro ⟨func, f⟩ hfunction
    obtain ⟨m, hm, rfl⟩ := hmodules hmem
    obtain ⟨rfl, hdecl⟩ := Program.mem_functionsOf.mp hfunction
    rw [ModuleDraft.toDecl, Array.getElem?_map] at hdecl
    obtain ⟨draft, hdraft, rfl⟩ := Option.map_eq_some_iff.mp hdecl
    have hf := function?_eq_some.mpr ⟨m, hm, hdraft⟩
    exact (h.bindSignature_ends hf).bind fun _ _ => h.bindBody_ends hf _

end Sound

/-- Where a body is missing, there is a function without a flag. -/
theorem missing?_eq_some (hmissing : missing? id m = some func) :
    ∃ (index : Nat) (f : FunctionDraft), m.functions[index]? = some f ∧ f.defined = false := by
  obtain ⟨index, hindex, rfl⟩ := Option.map_eq_some_iff.mp hmissing
  obtain ⟨hlt, hopen, -⟩ := List.findIdx?_eq_some_iff_getElem.mp hindex
  exact ⟨index, _, Array.getElem?_toList.symm.trans (List.getElem?_eq_getElem hlt),
    by simpa using hopen⟩

/-- Where no body is missing, every function has its flag. -/
theorem missing?_eq_none (hmissing : missing? id m = none) (hf : f ∈ m.functions) :
    f.defined = true := by
  have hnone := List.findIdx?_eq_none_iff.mp (Option.map_eq_none_iff.mp hmissing)
  simpa using hnone f (Array.mem_def.mp hf)

/-- No body is taken for a function that has its flag. -/
theorem define_of_defined {b : BodyBuilder} (hf : a.function? b.func = some f)
    (hdefined : f.defined = true) :
    ∃ e, a.define b = .error e ∧ (e = .alreadyDefined b.func ∨ b.labelTargets = .error e) := by
  obtain ⟨m, hm, hf⟩ := function?_eq_some.mp hf
  cases hlabels : b.labelTargets with
  | error e => exact ⟨e, bind_eq_error.mpr (.inl hlabels), .inr rfl⟩
  | ok labels =>
    refine ⟨_, bind_eq_error.mpr (.inr ⟨labels, hlabels, ?_⟩), .inl rfl⟩
    simp only [hm, hf, hdefined, if_true]

/-- **The finished program** is that as it stands, if it is bound and no function lacks its body. -/
theorem build_ends (a : Assembler) :
    Ends (fun p => p = a.program ∧ ∀ func f, a.function? func = some f → f.defined = true)
      (fun e => (∃ named func f, e = .missingFunctionBody named ∧ a.function? func = some f ∧
          f.defined = false) ∨
        (∀ func f, a.function? func = some f → f.defined = true) ∧
          ∃ cause, e = .bind cause ∧ a.program.bind = .error cause) a.build := by
  unfold build
  have hmodule {m : ModuleDraft} {i : Nat} :
      (m, i) ∈ a.modules.toList.zipIdx ↔ a.modules[i]? = some m := by
    rw [List.mem_zipIdx_iff_getElem?, Array.getElem?_toList]
  cases hfind : List.findSome? _ a.modules.toList.zipIdx with
  | some func =>
    obtain ⟨⟨m, i⟩, hmem, hmissing⟩ := List.exists_of_findSome?_eq_some hfind
    obtain ⟨index, f, hf, hopen⟩ := missing?_eq_some hmissing
    exact .inl ⟨func, ⟨⟨i⟩, index⟩, f, rfl, function?_eq_some.mpr ⟨m, hmodule.mp hmem, hf⟩, hopen⟩
  | none =>
    have hall : ∀ func f, a.function? func = some f → f.defined = true := by
      intro func f hf
      obtain ⟨m, hm, hf⟩ := function?_eq_some.mp hf
      have hmissing := List.findSome?_eq_none_iff.mp hfind (m, func.module.index) (hmodule.mpr hm)
      exact missing?_eq_none hmissing (Array.mem_of_getElem? hf)
    have hbind : Ends (fun _ => True) (fun cause => a.program.bind = .error cause) a.program.bind :=
      Ends.iff_forall.mpr ⟨fun _ _ => trivial, fun _ hcause => hcause⟩
    refine Ends.bind (P := fun _ => True) (Ends.mapError (hbind.mono (fun _ _ => trivial) ?_))
      fun _ _ => ⟨rfl, hall⟩
    exact fun cause hcause => .inr ⟨hall, cause, rfl, hcause⟩

/-- A program with a function that has no flag is not finished. -/
theorem exists_missing (hf : a.function? func = some f) (hopen : f.defined = false) :
    ∃ named, a.build = .error (.missingFunctionBody named) := by
  cases hanswer : a.build with
  | ok p => cases hopen.symm.trans ((a.build_ends.result hanswer).2 func f hf)
  | error e =>
    rcases a.build_ends.cause hanswer with ⟨named, _, _, rfl, -⟩ | ⟨hall, -⟩
    · exact ⟨named, rfl⟩
    · cases hopen.symm.trans (hall func f hf)

end Assembler

namespace Session

/-- What holds after some calls. -/
structure WellFormed (calls : List Call) : Prop where
  /-- The calls have answers if the flags are kept apart, and so has the next, whatever it is. -/
  answered : start.split.after? calls = some (start.after calls).split ∧
    (∀ c, (start.after calls).split.call? c = some (splitAnswer ((start.after calls).call c))) ∧
    (start.after calls).split.program.build = (start.after calls).program.build
  /-- A function has the one body that was handed in for it with success, if there is one. -/
  accounts : ∀ func f, (start.after calls).program.function? func = some f →
    f.Accounts ((start.accepted calls).filter (·.func = func))
  /-- No body is taken for a system call or a function that has one. -/
  refused : ∀ b f, (start.after calls).program.function? b.func = some f →
    f.decl.implementation ≠ .code ∨ (∃ b' ∈ start.accepted calls, b'.func = b.func) →
    ∃ e, (start.after calls).program.perform (.define b) =
        (.error e, (start.after calls).program) ∧
      (e = .alreadyDefined b.func ∨ b.labelTargets = .error e)
  /-- The program is not finished while a function with code has no body. -/
  missing : (∃ func, (start.after calls).program.build = .error (.missingFunctionBody func)) ↔
    ∃ func f, (start.after calls).program.function? func = some f ∧
      f.decl.implementation = .code ∧ ∀ b ∈ start.accepted calls, b.func ≠ func
  /-- A finished program is refused for what the client chose. -/
  blamed : ∀ cause, (start.after calls).program.build = .error (.bind cause) →
    (start.after calls).program.Blames cause

/-- A program is sound after calls that leave numbers for all functions. -/
theorem sound_after (calls : List Call) (hnumbered : (start.after calls).program.Numbered) :
    (start.after calls).program.Sound (start.accepted calls) := by
  have hkept := after_induction (P := fun a past => a.types.Built ∧ (a.Numbered → a.Sound past))
    (fun a past e h => ?_) calls (s := start) ⟨.initial, fun _ => Assembler.sound_empty⟩
  · exact hkept.2 hnumbered
  · obtain ⟨hbuilt, hsound⟩ := h
    have hchange := Assembler.change_perform hbuilt e
    exact ⟨hchange.built hbuilt, fun hn => (hsound (hchange.numbered hn)).change hchange hn⟩

/-- **Programs are well formed after any calls** that leave numbers for all functions.  The calls
never look for a flag or a function that is not there.  A function has the one body that was taken
for it, and no second one is taken.  The program is finished exactly if there is a body for each
function with code; it is then refused for locals, instructions and parameters of entry points that
the client chose. -/
theorem calls_keep_well_formed (calls : List Call)
    (hnumbered : (start.after calls).program.Numbered) : WellFormed calls := by
  have hsound := sound_after calls hnumbered
  have hbuild := (start.after calls).program.build_ends
  refine ⟨⟨after_split .initial calls, call_split hsound.types.coherent, Assembler.build_split⟩,
    hsound.accounts, ?_, ⟨?_, ?_⟩, ?_⟩
  · intro b f hf hdone
    have hdefined : f.defined = true := by
      rw [← Bool.not_eq_false, hsound.defined_eq_false_iff hf]
      rintro ⟨hcode, hnone⟩
      rcases hdone with hsyscall | ⟨b', hb', heq⟩
      · exact hsyscall hcode
      · exact hnone b' hb' heq
    obtain ⟨e, he, hcause⟩ := Assembler.define_of_defined hf hdefined
    exact ⟨e, by rw [Assembler.perform, he, Assembler.attempt], hcause⟩
  · rintro ⟨named, hmissing⟩
    rcases hbuild.cause hmissing with ⟨_, func, f, ⟨⟩, hf, hopen⟩ | ⟨-, _, ⟨⟩, -⟩
    exact ⟨func, f, hf, (hsound.defined_eq_false_iff hf).mp hopen⟩
  · rintro ⟨func, f, hf, hlacks⟩
    exact Assembler.exists_missing hf ((hsound.defined_eq_false_iff hf).mpr hlacks)
  · intro cause hcause
    rcases hbuild.cause hcause with ⟨_, _, _, ⟨⟩, -⟩ | ⟨-, _, ⟨⟩, hbind⟩
    exact hsound.bind_ends.cause hbind

/-- A client declares a function and hands its body in twice, makes it the entry point, imports a
module that is not there, and declares a system call and a function that stays without a body. -/
def rehearsal : List Call :=
  [.edit (.addModule "stage"),
    .function ⟨0⟩ ⟨"enter", [], [], .void, false⟩,
    .push 0 (.plain .ret),
    .define 0,
    .define 0,
    .edit (.setEntry ⟨⟨0⟩, 0⟩),
    .edit (.addImport ⟨0⟩ ⟨1⟩),
    .edit (.addFunction ⟨0⟩ ⟨"prompt", [], [], .int32, false⟩ (.syscall 7)),
    .edit (.addFunction ⟨0⟩ ⟨"exit", [], [], .void, false⟩ .code)]

/-- The first body is taken, none is taken for the system call, and the program is not finished. -/
theorem calls_keep_well_formed_rehearsal :
    (start.after rehearsal).program.Numbered ∧
    start.accepted rehearsal = [⟨⟨⟨0⟩, 0⟩, #[.plain .ret], #[]⟩] ∧
    (∃ f, (start.after rehearsal).program.function? ⟨⟨0⟩, 0⟩ = some f ∧
      f.Accounts [⟨⟨⟨0⟩, 0⟩, #[.plain .ret], #[]⟩]) ∧
    (∃ e, (start.after rehearsal).program.perform (.define ⟨⟨⟨0⟩, 1⟩, #[.plain .ret], #[]⟩) =
      (.error e, (start.after rehearsal).program)) ∧
    ∃ func, (start.after rehearsal).program.build = .error (.missingFunctionBody func) := by
  have hnumbered : (start.after rehearsal).program.Numbered := by
    have hsizes : (start.after rehearsal).program.modules.toList.map (·.functions.size) = [3] := by
      decide +kernel
    intro m hm
    have hsize := List.mem_map_of_mem (f := (·.functions.size)) (Array.mem_def.mp hm)
    rw [hsizes, List.mem_singleton] at hsize
    rw [hsize]
    decide
  have hformed := calls_keep_well_formed rehearsal hnumbered
  have haccepted : start.accepted rehearsal = [⟨⟨⟨0⟩, 0⟩, #[.plain .ret], #[]⟩] := by rfl
  have hdeclared : [0, 1, 2].map (fun index =>
      ((start.after rehearsal).program.function? ⟨⟨0⟩, index⟩).map (·.decl.implementation)) =
      [some .code, some (.syscall 7), some .code] := by rfl
  simp only [List.map_cons, List.map_nil, List.cons.injEq, Option.map_eq_some_iff] at hdeclared
  obtain ⟨⟨enter, henter, -⟩, ⟨prompt, hprompt, hsyscall⟩, ⟨exit, hexit, hcode⟩, -⟩ := hdeclared
  refine ⟨hnumbered, haccepted, ⟨enter, henter, ?_⟩, ?_,
    hformed.missing.mpr ⟨_, exit, hexit, hcode, ?_⟩⟩
  · have haccounts := hformed.accounts _ enter henter
    rwa [haccepted] at haccounts
  · obtain ⟨e, he, -⟩ := hformed.refused ⟨⟨⟨0⟩, 1⟩, #[.plain .ret], #[]⟩ prompt hprompt
      (.inl (by simp [hsyscall]))
    exact ⟨e, he⟩
  · rw [haccepted]
    decide

/-! ## Functions without numbers -/

/-- A system call without parameters and result. -/
def tick : FunctionSig := ⟨"tick", [], [], .void, false⟩

/-- A program of one module whose functions are system calls.  Those past the last number have no
flag. -/
structure Ticking (a : Assembler) (m : ModuleDraft) : Prop where
  interned : ∃ signature, a.types.function [] .void = (a.types, .ok signature)
  modules : a.modules = #[m]
  syscalls : ∀ f ∈ m.functions, f.decl.implementation ≠ .code
  unflagged : ∀ i f, wordLimit ≤ i → m.functions[i]? = some f → f.defined = false

/-- Another system call sets no flag past the last number. -/
theorem Ticking.addFunction {a : Assembler} {m : ModuleDraft} (h : Ticking a m) :
    ∃ m', Ticking (a.addFunction ⟨0⟩ tick (.syscall 0)).2 m' ∧
      m'.functions.size = m.functions.size + 1 := by
  obtain ⟨signature, hinterned⟩ := h.interned
  have hmodule : a.module ⟨0⟩ = .ok m := by rw [Assembler.module, h.modules]; rfl
  have hadded : (a.addFunction ⟨0⟩ tick (.syscall 0)).2 =
      a.setModule ⟨0⟩ (m.addFunction (tick.toDecl signature (.syscall 0))) := by
    have hfunction : a.types.function (tick.params.map Variable.type) tick.result =
        (a.types, .ok signature) := hinterned
    simp only [Assembler.addFunction, hfunction, hmodule]
  rw [hadded]
  refine ⟨m.addFunction (tick.toDecl signature (.syscall 0)), ⟨h.interned, ?_, ?_, ?_⟩,
    FunctionDraft.size_addTo⟩
  · rw [Assembler.setModule, h.modules]
    rfl
  · intro f hf
    have hdecl := Array.mem_map_of_mem (f := FunctionDraft.decl) hf
    rw [ModuleDraft.addFunction, FunctionDraft.map_decl_addTo, Array.mem_push] at hdecl
    rcases hdecl with hdecl | hdecl
    · obtain ⟨f', hf', heq⟩ := Array.mem_map.mp hdecl
      exact heq ▸ h.syscalls f' hf'
    · rw [hdecl]
      exact Implementation.noConfusion
  · intro i f hi hf
    have hne : wordIndex m.functions.size ≠ i :=
      Nat.ne_of_lt (Nat.lt_of_lt_of_le (wordIndex_lt _) hi)
    have hat : (m.functions.push ⟨tick.toDecl signature (.syscall 0), false⟩)[i]? = some f :=
      (Array.getElem?_modify.trans (if_neg hne)).symm.trans hf
    rw [Array.getElem?_push] at hat
    split at hat
    · cases hat
      rfl
    · exact h.unflagged i f hi hat

/-- There are programs with any number of system calls. -/
theorem exists_ticking (count : Nat) :
    ∃ calls m, Ticking (start.after calls).program m ∧ m.functions.size = count := by
  induction count with
  | zero =>
    refine ⟨[.edit (.intern (.function [] .void)), .edit (.addModule "clock")], { name := "clock" },
      ⟨⟨⟨24⟩, ?_⟩, rfl, by simp, by simp⟩, rfl⟩
    decide
  | succ count ih =>
    obtain ⟨calls, m, hticking, rfl⟩ := ih
    obtain ⟨m', hticking', hsize⟩ := hticking.addFunction
    refine ⟨calls ++ [.edit (.addFunction ⟨0⟩ tick (.syscall 0))], m', ?_, hsize⟩
    rw [after, List.foldl_append]
    exact hticking'

/-- A program of system calls that is not finished: the flag that was to be set for the last one
was set for another. -/
theorem syscall_without_number :
    ∃ calls, ¬ WellFormed calls ∧
      (∃ func, (start.after calls).program.build = .error (.missingFunctionBody func)) ∧
      ∀ func f, (start.after calls).program.function? func = some f →
        f.decl.implementation ≠ .code := by
  obtain ⟨calls, m, hticking, hsize⟩ := exists_ticking (wordLimit + 1)
  have hsyscalls : ∀ func f, (start.after calls).program.function? func = some f →
      f.decl.implementation ≠ .code := by
    intro func f hf
    obtain ⟨m', hm', hf⟩ := Assembler.function?_eq_some.mp hf
    have hmem := Array.mem_of_getElem? hm'
    rw [hticking.modules, Array.mem_singleton] at hmem
    subst hmem
    exact hticking.syscalls f (Array.mem_of_getElem? hf)
  have hlt : wordLimit < m.functions.size := by rw [hsize]; exact Nat.lt_succ_self _
  have hlast := Array.getElem?_eq_getElem hlt
  have hmodule : (start.after calls).program.modules[0]? = some m := by rw [hticking.modules]; rfl
  have hfunction : (start.after calls).program.function? ⟨⟨0⟩, wordLimit⟩ = some _ :=
    Assembler.function?_eq_some.mpr ⟨m, hmodule, hlast⟩
  have hmissing := Assembler.exists_missing hfunction
    (hticking.unflagged wordLimit _ (Nat.le_refl _) hlast)
  refine ⟨calls, fun hformed => ?_, hmissing, hsyscalls⟩
  obtain ⟨func, f, hf, hcode, -⟩ := hformed.missing.mp hmissing
  exact hsyscalls func f hf hcode

end Session

end StackCode
