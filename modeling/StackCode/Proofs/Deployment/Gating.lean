import StackCode.Proofs.Deployment.LoadOrder

/-!
# Capabilities and the code that needs them

The capabilities that a linked image states are those of the opcodes that are read from it.  A
machine is therefore never given an opcode it cannot run, and what it is refused for lack of a
capability holds an opcode that needs one.

## Main definitions

* `LinkedModule.StatesFeatures`: the three places that say what a module needs agree.

## Main results

* `Program.statesFeatures_of_compile`: they agree for every module of a program that compiles.
* `Program.deploy_gates_exactly`: deployment refuses exactly what the machine cannot run.
-/

namespace StackCode

variable {linked : List LinkedModule} {lm : LinkedModule} {d : Disassembly} {id : ModuleId}

/-- The features byte of the image, the features of the module and the opcodes that are read from
the image agree. -/
structure LinkedModule.StatesFeatures (lm : LinkedModule) (d : Disassembly) : Prop where
  disassemble : disassemble lm.image lm.functionOffsets.toList = .ok d
  byte : lm.image[1]? = some lm.features.bits
  header : d.header.features = lm.features
  code : d.features = lm.features

namespace LinkedModule.StatesFeatures

variable (h : lm.StatesFeatures d)

include h

/-- A machine with the capabilities of a module has those of its opcodes. -/
theorem subsetOf_capabilities {capabilities : Features} {listing : FunctionListing}
    {placed : PlacedOp} (hsupported : lm.features.subsetOf capabilities = true)
    (hlisting : listing ∈ d.functions) (hplaced : placed ∈ listing.ops) :
    placed.op.opcode.features.subsetOf capabilities = true := by
  rw [Features.subsetOf_iff] at hsupported ⊢
  intro bit hbit
  apply hsupported
  rw [← h.code]
  exact Disassembly.mem_features.mpr ⟨listing, hlisting, placed, hplaced, hbit⟩

/-- A capability that is missing is one that an opcode needs. -/
theorem exists_op_of_missing {missing : Features} (hne : missing ≠ .none)
    (hmissing : ∀ bit, bit ∈ missing → bit ∈ lm.features) :
    ∃ listing ∈ d.functions, ∃ placed ∈ listing.ops, ∃ bit,
      bit ∈ placed.op.opcode.features ∧ bit ∈ missing := by
  obtain ⟨bit, hbit⟩ := Features.exists_mem hne
  have hneeded : bit ∈ d.features := h.code ▸ hmissing bit hbit
  obtain ⟨listing, hlisting, placed, hplaced, hop⟩ := Disassembly.mem_features.mp hneeded
  exact ⟨listing, hlisting, placed, hplaced, bit, hop, hbit⟩

end LinkedModule.StatesFeatures

theorem loadOrder_eq_error (h : findLinked? linked id = none) :
    loadOrder linked id = .error id := by
  unfold loadOrder addModule
  split
  · rfl
  · rename_i m hm
    cases h.symm.trans hm

namespace Program

variable {p : Program} {config : CompileConfig}

/-- **What a linked module needs is what its opcodes need.** -/
theorem statesFeatures_of_compile (h : p.compile config = .ok linked) (hlm : lm ∈ linked) :
    ∃ d, lm.StatesFeatures d := by
  obtain ⟨-, typing, modules, hverify, hmodules, hlink⟩ := compile_eq_ok.mp h
  obtain ⟨i, hi⟩ := List.mem_iff_getElem?.mp hlm
  obtain ⟨m, cm, offsets, d, -, -, hlinked⟩ := linkedAs_of_getElem? hverify hmodules hlink hi
  have hheader : d.header.features = lm.features :=
    hlinked.header_features.trans hlinked.keeps.features.symm
  have hcode : d.features = lm.features :=
    hlinked.features.symm.trans hlinked.keeps.features.symm
  obtain ⟨-, code, -, himage⟩ := hlinked.written
  refine ⟨d, hlinked.disassemble, ?_, hheader, hcode⟩
  rw [himage, ← hheader]
  rfl

/-- **Capabilities are checked exactly.**  The capabilities that an image states, those of the
module and those of the opcodes that are read from the image are the same.  So a machine that a
deployment succeeds on can run every opcode of every image it was given, and a module that is
refused holds an opcode that needs a capability the machine lacks. -/
theorem deploy_gates_exactly (h : p.compile config = .ok linked) :
    (∀ lm ∈ linked, ∃ d, lm.StatesFeatures d) ∧
    ∀ (σ ε : Type) (v : Machine σ ε) (handle : UInt32) (root : ModuleId) (s : σ),
      ∃ result s' log, v.deploy handle linked root s = (result, s') ∧
        v.logging.deploy handle linked root (s, []) = (result, (s', log)) ∧
        (∀ fingerprints, result = .ok fingerprints → log.map Prod.fst = fingerprints ∧
          ∀ image ∈ log.map Prod.snd, ∃ lm ∈ linked, ∃ d, lm.image = image ∧
            disassemble image lm.functionOffsets.toList = .ok d ∧
            ∀ listing ∈ d.functions, ∀ placed ∈ listing.ops,
              placed.op.opcode.features.subsetOf v.capabilities = true) ∧
        ∀ id missing, result = .error (.unsupported id missing) →
          ∃ lm ∈ linked, ∃ d, lm.module = id ∧
            disassemble lm.image lm.functionOffsets.toList = .ok d ∧
            ∃ listing ∈ d.functions, ∃ placed ∈ listing.ops, ∃ bit,
              bit ∈ placed.op.opcode.features ∧ bit ∈ missing := by
  refine ⟨fun lm hlm => statesFeatures_of_compile h hlm, fun σ ε v handle root s => ?_⟩
  cases hroot : findLinked? linked root with
  | none =>
    have herror := loadOrder_eq_error hroot
    refine ⟨.error (.unknownModule root), s, [], ?_, ?_, by simp, by simp⟩
    · simp [Machine.deploy, herror]
    · simp [Machine.deploy, herror]
  | some lm =>
    have hmem := mem_of_findLinked? hroot
    have hid : lm.module = root := by simpa using List.find?_some hroot
    obtain ⟨order, horder, hadds⟩ := (contentAddressed_of_compile h).exists_loadOrder hmem
    rw [hid] at horder
    obtain ⟨result, s', log, hdeploy, hlogged, houtcome⟩ := v.deploy_outcome handle s horder
    refine ⟨result, s', log, hdeploy, hlogged, ?_, ?_⟩
    · rintro fingerprints rfl
      cases houtcome with
      | loaded hsupported =>
        refine ⟨by simp [LinkedModule.loaded], fun image himage => ?_⟩
        obtain ⟨m, hm, rfl⟩ : ∃ m ∈ order, m.image = image := by
          simpa [LinkedModule.loaded] using himage
        obtain ⟨d, hd⟩ := statesFeatures_of_compile h (hadds.loaded.mem m hm)
        refine ⟨m, hadds.loaded.mem m hm, d, rfl, hd.disassemble, ?_⟩
        intro listing hlisting placed hplaced
        exact hd.subsetOf_capabilities (hsupported m hm) hlisting hplaced
    · rintro id missing rfl
      cases houtcome with
      | @unsupported before after m missing horder _ hmissing hne =>
        have hm : m ∈ linked := hadds.loaded.mem m (by simp [horder])
        obtain ⟨d, hd⟩ := statesFeatures_of_compile h hm
        exact ⟨m, hm, d, rfl, hd.disassemble,
          hd.exists_op_of_missing hne fun bit hbit => ((hmissing bit).mp hbit).1⟩

/-- The clock is loaded before the module that imports it, and needs system calls. -/
theorem clock_loads : ∃ x a, clock.compile {} = .ok [x, a] ∧ loadOrder [x, a] ⟨1⟩ = .ok [x, a] ∧
    x.module = ⟨0⟩ ∧ x.features = .syscall ∧ a.features = .none := by
  have hlinks : ∃ c ∈ linkPair? clockObject mainObject, c.1.fingerprint ≠ c.2.fingerprint ∧
      (c.1.module, c.1.imports, c.1.features) = (⟨0⟩, [], .syscall) ∧
      (c.2.module, c.2.imports, c.2.features) = (⟨1⟩, [⟨0⟩], .none) := by decide +kernel
  obtain ⟨⟨x, a⟩, hclock, hne, hx, ha⟩ := hlinks
  simp only [Prod.mk.injEq] at hx ha
  obtain ⟨hx, hxs, hxf⟩ := hx
  obtain ⟨ha, has, haf⟩ := ha
  have hfindx : findLinked? [x, a] ⟨0⟩ = some x := by simp [findLinked?, hx]
  have hfinda : findLinked? [x, a] ⟨1⟩ = some a := by simp [findLinked?, hx, ha]
  have hloadx : addModule [x, a] [⟨1⟩] ⟨0⟩ [] = .ok [x] :=
    addModule_of_not_mem hfindx (by decide) List.not_mem_nil (hxs ▸ addImports_nil)
  have hloada : addImports [x, a] [⟨1⟩] a.imports [] = .ok [x] := by
    rw [has, addImports_cons hloadx, addImports_nil]
  refine ⟨x, a, clock_compile hclock, ?_, hx, hxf, haf⟩
  rw [loadOrder, addModule_of_not_mem hfinda List.not_mem_nil List.not_mem_nil hloada, if_neg]
  · rfl
  · simpa using hne.symm

/-- A machine without capabilities refuses the clock for want of system calls, which an opcode of
the clock makes.  A machine that has just this capability takes both modules, and can run all their
opcodes. -/
theorem deploy_gates_clock : ∃ x a, clock.compile {} = .ok [x, a] ∧
    (∀ lm ∈ [x, a], ∃ d, lm.StatesFeatures d) ∧
    (recorder .none []).deploy 0 [x, a] ⟨1⟩ #[] = (.error (.unsupported ⟨0⟩ .syscall), #[]) ∧
    (∃ lm ∈ [x, a], ∃ d, lm.module = ⟨0⟩ ∧
      disassemble lm.image lm.functionOffsets.toList = .ok d ∧
      ∃ listing ∈ d.functions, ∃ placed ∈ listing.ops, ∃ bit,
        bit ∈ placed.op.opcode.features ∧ bit ∈ Features.syscall) ∧
    ∃ s' log, (recorder .syscall []).deploy 0 [x, a] ⟨1⟩ #[] =
        (.ok [x.fingerprint, a.fingerprint], s') ∧
      (recorder .syscall []).logging.deploy 0 [x, a] ⟨1⟩ (#[], []) =
        (.ok [x.fingerprint, a.fingerprint], (s', log)) ∧
      log.map Prod.fst = [x.fingerprint, a.fingerprint] ∧
      ∀ image ∈ log.map Prod.snd, ∃ lm ∈ [x, a], ∃ d, lm.image = image ∧
        disassemble image lm.functionOffsets.toList = .ok d ∧
        ∀ listing ∈ d.functions, ∀ placed ∈ listing.ops,
          placed.op.opcode.features.subsetOf .syscall = true := by
  obtain ⟨x, a, hclock, horder, hx, hxf, haf⟩ := clock_loads
  obtain ⟨hstates, hdeploys⟩ := deploy_gates_exactly hclock
  have hrefused : (recorder .none []).deploy 0 [x, a] ⟨1⟩ #[] =
      (.error (.unsupported ⟨0⟩ .syscall), #[]) := by
    rw [Machine.deploy_eq_loadAll horder, Machine.loadAll_cons_unsupported, hx, hxf]
    · rfl
    · rw [hxf]
      decide
  have htaken : ∃ s', (recorder .syscall []).deploy 0 [x, a] ⟨1⟩ #[] =
      (.ok [x.fingerprint, a.fingerprint], s') := by
    have hload (log : Array LoadEvent) (m : LinkedModule) :
        (recorder .syscall []).load log 0 m.fingerprint m.image = .ok (log.push (m.event 0)) := by
      simp [recorder, LinkedModule.event]
    rw [Machine.deploy_eq_loadAll horder]
    exact ⟨_, Machine.loadAll_cons_ok (by rw [hxf]; decide) (hload _ x)
      (Machine.loadAll_cons_ok (by rw [haf]; decide) (hload _ a) rfl)⟩
  refine ⟨x, a, hclock, hstates, hrefused, ?_, ?_⟩
  · obtain ⟨result, s', log, hdeploy, -, -, hneeded⟩ :=
      hdeploys _ _ (recorder .none []) 0 ⟨1⟩ #[]
    cases hrefused.symm.trans hdeploy
    exact hneeded ⟨0⟩ .syscall rfl
  · obtain ⟨result, s', log, hdeploy, hlogged, hruns, -⟩ :=
      hdeploys _ _ (recorder .syscall []) 0 ⟨1⟩ #[]
    obtain ⟨s'', htaken⟩ := htaken
    cases htaken.symm.trans hdeploy
    exact ⟨_, log, htaken, hlogged, hruns _ rfl⟩

end Program

end StackCode
