import StackCode.Deployment.Recorder

/-!
# Loading modules in order

What a machine is given when modules are loaded one after the other.  Whatever the machine does, it
has accepted a prefix of the modules when loading stops, and it has the capabilities of all of them.
Loading stops early at a module that needs a capability the machine lacks, or that the machine
rejects.

## Main definitions

* `Machine.logging`: a machine with a log of the images it has accepted.
* `LoadOutcome`: the ways in which loading ends.

## Main results

* `Machine.loadAll_outcome`: how loading ends on any machine.
* `recorder_loadAll`: a machine that has every capability and rejects nothing loads everything.
-/

namespace StackCode

variable {σ ε : Type}

/-- What a machine is given of a module. -/
def LinkedModule.loaded (m : LinkedModule) : Fingerprint × List UInt8 := (m.fingerprint, m.image)

/-- The machine with a log of what it has accepted. -/
def Machine.logging (v : Machine σ ε) : Machine (σ × List (Fingerprint × List UInt8)) ε where
  capabilities := v.capabilities
  boot := v.boot
  load s handle fingerprint image :=
    match v.load s.1 handle fingerprint image with
    | .ok next => .ok (next, s.2 ++ [(fingerprint, image)])
    | .error reason => .error reason
  run s := v.run s.1

/-- The ways in which loading modules in order ends, on a machine with these capabilities: with a
result, when the machine has accepted the modules of the log. -/
inductive LoadOutcome (capabilities : Features) (order : List LinkedModule) :
    Except (DeployError ε) (List Fingerprint) → List (Fingerprint × List UInt8) → Prop
  /-- Everything is loaded. -/
  | loaded (hsupported : ∀ m ∈ order, m.features.subsetOf capabilities = true) :
      LoadOutcome capabilities order (.ok (order.map LinkedModule.fingerprint))
        (order.map LinkedModule.loaded)
  /-- The machine lacks some of the capabilities of a module. -/
  | unsupported {before after : List LinkedModule} {m : LinkedModule} {missing : Features}
      (horder : order = before ++ m :: after)
      (hsupported : ∀ x ∈ before, x.features.subsetOf capabilities = true)
      (hmissing : ∀ bit, bit ∈ missing ↔ bit ∈ m.features ∧ ¬ bit ∈ capabilities)
      (hne : missing ≠ .none) :
      LoadOutcome capabilities order (.error (.unsupported m.module missing))
        (before.map LinkedModule.loaded)
  /-- The machine rejects a module. -/
  | rejected {before after : List LinkedModule} {m : LinkedModule} {reason : ε}
      (horder : order = before ++ m :: after)
      (hsupported : ∀ x ∈ before, x.features.subsetOf capabilities = true) :
      LoadOutcome capabilities order (.error (.rejected m.module reason))
        (before.map LinkedModule.loaded)

namespace LoadOutcome

variable {capabilities : Features} {order : List LinkedModule} {m : LinkedModule}
  {log : List (Fingerprint × List UInt8)}

/-- A module that is loaded comes before what the rest ends with. -/
theorem cons_ok {fingerprints : List Fingerprint}
    (hm : m.features.subsetOf capabilities = true)
    (h : LoadOutcome (ε := ε) capabilities order (.ok fingerprints) log) :
    LoadOutcome (ε := ε) capabilities (m :: order) (.ok (m.fingerprint :: fingerprints))
      (m.loaded :: log) := by
  cases h with
  | loaded hsupported => exact .loaded (List.forall_mem_cons.mpr ⟨hm, hsupported⟩)

theorem cons_error {e : DeployError ε} (hm : m.features.subsetOf capabilities = true)
    (h : LoadOutcome capabilities order (.error e) log) :
    LoadOutcome capabilities (m :: order) (.error e) (m.loaded :: log) := by
  cases h with
  | unsupported horder hsupported hmissing hne =>
    exact .unsupported (congrArg (m :: ·) horder) (List.forall_mem_cons.mpr ⟨hm, hsupported⟩)
      hmissing hne
  | rejected horder hsupported =>
    exact .rejected (congrArg (m :: ·) horder) (List.forall_mem_cons.mpr ⟨hm, hsupported⟩)

end LoadOutcome

namespace Machine

variable {v : Machine σ ε} {handle : UInt32} {m : LinkedModule} {order : List LinkedModule} {s : σ}

theorem loadAll_cons_unsupported (hm : ¬ m.features.subsetOf v.capabilities = true) :
    v.loadAll handle (m :: order) s =
      (.error (.unsupported m.module (m.features.missingFrom v.capabilities)), s) := by
  simp [loadAll, loadModule, hm]

theorem loadAll_cons_rejected {reason : ε} (hm : m.features.subsetOf v.capabilities = true)
    (hload : v.load s handle m.fingerprint m.image = .error reason) :
    v.loadAll handle (m :: order) s = (.error (.rejected m.module reason), s) := by
  simp [loadAll, loadModule, hm, hload]

theorem loadAll_cons_ok {next s' : σ} {fingerprints : List Fingerprint}
    (hm : m.features.subsetOf v.capabilities = true)
    (hload : v.load s handle m.fingerprint m.image = .ok next)
    (h : v.loadAll handle order next = (.ok fingerprints, s')) :
    v.loadAll handle (m :: order) s = (.ok (m.fingerprint :: fingerprints), s') := by
  simp [loadAll, loadModule, hm, hload, h]

theorem loadAll_cons_error {next s' : σ} {e : DeployError ε}
    (hm : m.features.subsetOf v.capabilities = true)
    (hload : v.load s handle m.fingerprint m.image = .ok next)
    (h : v.loadAll handle order next = (.error e, s')) :
    v.loadAll handle (m :: order) s = (.error e, s') := by
  simp [loadAll, loadModule, hm, hload, h]

theorem logging_load_ok {log : List (Fingerprint × List UInt8)} {next : σ}
    (hload : v.load s handle m.fingerprint m.image = .ok next) :
    v.logging.load (s, log) handle m.fingerprint m.image = .ok (next, log ++ [m.loaded]) := by
  simp [logging, hload, LinkedModule.loaded]

theorem logging_load_error {log : List (Fingerprint × List UInt8)} {reason : ε}
    (hload : v.load s handle m.fingerprint m.image = .error reason) :
    v.logging.load (s, log) handle m.fingerprint m.image = .error reason := by
  simp [logging, hload]

/-- **How loading ends on any machine.**  The log that the machine keeps changes nothing else. -/
theorem loadAll_outcome (v : Machine σ ε) (handle : UInt32) (order : List LinkedModule)
    (s : σ) (log : List (Fingerprint × List UInt8)) :
    ∃ result s' accepted, v.loadAll handle order s = (result, s') ∧
      v.logging.loadAll handle order (s, log) = (result, (s', log ++ accepted)) ∧
      LoadOutcome v.capabilities order result accepted := by
  induction order generalizing s log with
  | nil =>
    refine ⟨.ok [], s, [], rfl, ?_, .loaded (by simp)⟩
    rw [List.append_nil, loadAll]
  | cons m order ih =>
    by_cases hm : m.features.subsetOf v.capabilities = true
    · cases hload : v.load s handle m.fingerprint m.image with
      | error reason =>
        refine ⟨_, s, [], loadAll_cons_rejected hm hload, ?_,
          .rejected (List.nil_append _).symm (by simp)⟩
        rw [List.append_nil]
        exact loadAll_cons_rejected hm (logging_load_error hload)
      | ok next =>
        obtain ⟨result, s', accepted, hrest, hlogged, houtcome⟩ := ih next (log ++ [m.loaded])
        rw [List.append_assoc] at hlogged
        cases result with
        | ok fingerprints =>
          exact ⟨_, s', m.loaded :: accepted, loadAll_cons_ok hm hload hrest,
            loadAll_cons_ok hm (logging_load_ok hload) hlogged, houtcome.cons_ok hm⟩
        | error e =>
          exact ⟨_, s', m.loaded :: accepted, loadAll_cons_error hm hload hrest,
            loadAll_cons_error hm (logging_load_ok hload) hlogged, houtcome.cons_error hm⟩
    · refine ⟨_, s, [], loadAll_cons_unsupported hm, ?_, .unsupported (List.nil_append _).symm
        (by simp) (fun bit => Features.mem_missingFrom) (Features.missingFrom_ne_none hm)⟩
      rw [List.append_nil]
      exact loadAll_cons_unsupported hm

end Machine

/-- What the recording machine remembers of a module. -/
def LinkedModule.event (handle : UInt32) (m : LinkedModule) : LoadEvent :=
  ⟨handle, m.fingerprint, m.image.length⟩

/-- **A machine that has every capability and rejects nothing loads everything.** -/
theorem recorder_loadAll (handle : UInt32) (order : List LinkedModule) (log : Array LoadEvent) :
    (recorder ⟨255⟩ []).loadAll handle order log =
      (.ok (order.map LinkedModule.fingerprint),
        log ++ (order.map (LinkedModule.event handle)).toArray) := by
  induction order generalizing log with
  | nil => simp [Machine.loadAll]
  | cons m order ih =>
    have hload : (recorder ⟨255⟩ []).load log handle m.fingerprint m.image =
        .ok (log.push (m.event handle)) := by simp [recorder, LinkedModule.event]
    rw [Machine.loadAll_cons_ok (Features.subsetOf_full _) hload (ih _)]
    simp

end StackCode
