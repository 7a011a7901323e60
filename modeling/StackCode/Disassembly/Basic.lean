import StackCode.Code.Operation
import StackCode.Image.Descriptor
import StackCode.Image.Header

/-!
# Disassembly

An image does not say where its functions start, so the caller does.  Each function reaches from its
descriptor to the next function, or to the end of the image, and its operations fill that range.

## Main definitions

* `DisasmError`: why an image cannot be read.
* `PlacedOp`: an operation with its offset.
* `FunctionListing`, `Disassembly`: what an image holds.
* `disassemble`: reads an image.

## Main results

* `Decoder.operation_consumes`: reading an operation consumes input.
-/

namespace StackCode

/-- Why an image cannot be read. -/
inductive DisasmError where
  | decode (e : DecodeError)
  /-- A function starts outside the code, or after the next one. -/
  | badFunctionOffset (offset : Nat)
  /-- The operation at this offset is longer than its function. -/
  | truncated (offset : Nat)
deriving DecidableEq, Repr

/-- The printed message. -/
def DisasmError.message : DisasmError → String
  | decode e => "decode error: " ++ e.message
  | badFunctionOffset offset => s!"bad function offset {offset}"
  | truncated offset => s!"instruction at {offset} runs past the end of its function"

/-- An operation of an image with its offset. -/
structure PlacedOp where
  offset : Nat
  op : Operation Token Nat
deriving DecidableEq, Repr

/-- A function of an image. -/
structure FunctionListing where
  /-- The offset of the descriptor. -/
  offset : Nat
  descriptor : Descriptor
  ops : List PlacedOp
deriving DecidableEq, Repr

/-- What an image holds. -/
structure Disassembly where
  header : Header
  imports : List Fingerprint
  functions : List FunctionListing
deriving DecidableEq, Repr

namespace Decoder

/-- A decoder that never gives input back. -/
def Advances {α : Type} (d : Decoder α) : Prop :=
  ∀ (c c' : Cursor) (a : α), d c = .ok a c' → c'.rest.length ≤ c.rest.length

/-- A signed displacement and the offset it leads to. -/
def displacement (width : Nat) : Decoder Nat := do
  let relative ← int width
  let target := ((← get).offset : Int) + relative
  if 0 ≤ target then pure target.toNat else throw .outOfBounds

/-- The operand of a shape. -/
def operand : Shape → Decoder (Operand Token Nat)
  | .none => pure .none
  | .u8 => do return .u8 (← u8)
  | .u16 => do return .u16 (← u16)
  | .token => do return .func (← Token.decoder)
  | .tokenU8 => do return .funcSlots (← Token.decoder) (← u8)
  | .i32 => do return .i32 (Int32.ofInt (← int 4))
  | .i64 => do return .i64 (Int64.ofInt (← int 8))
  | .f32 => do return .f32 (UInt32.ofNat (← nat 4))
  | .f64 => do return .f64 (UInt64.ofNat (← nat 8))
  | .slot => do return .slot (← u8)
  | .slotCount => do return .slotCount (← u8) (← u8)
  | .offset => do return .offset (← u16)
  | .offsetSize => do return .offsetSize (← u16) (← u16)
  | .size => do return .size (← u16)
  | .rel8 => do return .target (← displacement 1)
  | .rel16 => do return .target (← displacement 2)

/-- An operation. -/
def operation : Decoder (Operation Token Nat) := do
  let opcode ← opcode
  return ⟨opcode, ← operand opcode.shape⟩

section Advances

variable {α β : Type}

theorem eq_ok_of_bind {d : Decoder α} {f : α → Decoder β} {c c'' : Cursor} {b : β}
    (h : (d >>= f) c = .ok b c'') : ∃ a c', d c = .ok a c' ∧ f a c' = .ok b c'' := by
  simp only [bind, EStateM.bind] at h
  split at h
  · next a c' hd => exact ⟨a, c', hd, h⟩
  · cases h

theorem advances_pure (a : α) : Advances (pure a : Decoder α) := by
  intro c c' b h
  cases h
  exact Nat.le_refl _

theorem advances_throw (e : DecodeError) : Advances (throw e : Decoder α) := by
  intro c c' b h
  cases h

theorem Advances.bind {d : Decoder α} {f : α → Decoder β} (hd : Advances d)
    (hf : ∀ a, Advances (f a)) : Advances (d >>= f) := by
  intro c c'' b h
  obtain ⟨a, c', ha, hb⟩ := eq_ok_of_bind h
  exact Nat.le_trans (hf a _ _ _ hb) (hd _ _ _ ha)

theorem take_eq_ok {n : Nat} {c c' : Cursor} {bytes : List UInt8} (h : take n c = .ok bytes c') :
    c'.rest.length + n = c.rest.length := by
  unfold take at h
  split at h
  · next front back hs =>
    obtain ⟨heq, hlength⟩ := eq_append_of_splitExact? hs
    cases h
    rw [heq, List.length_append, hlength, Nat.add_comm]
  · cases h

theorem advances_take (n : Nat) : Advances (take n) := by
  intro c c' bytes h
  have := take_eq_ok h
  omega

theorem Advances.map {d : Decoder α} (f : α → β) (hd : Advances d) : Advances (f <$> d) :=
  hd.bind fun a => advances_pure (f a)

theorem advances_nat (n : Nat) : Advances (nat n) := (advances_take n).map _

theorem advances_int (n : Nat) : Advances (int n) := (advances_take n).map _

theorem advances_u8 : Advances u8 := (advances_nat 1).map _

theorem advances_u16 : Advances u16 := (advances_nat 2).map _

theorem advances_token : Advances Token.decoder :=
  advances_u8.bind fun _ => advances_u16.bind fun _ => advances_pure _

theorem advances_displacement (n : Nat) : Advances (displacement n) := by
  refine (advances_int n).bind fun i c c' a h => ?_
  obtain ⟨s, c₁, hget, h⟩ := eq_ok_of_bind h
  cases hget
  by_cases htarget : 0 ≤ (c.offset : Int) + i
  · simp only [if_pos htarget] at h
    exact advances_pure _ _ _ _ h
  · simp only [if_neg htarget] at h
    exact advances_throw _ _ _ _ h

theorem advances_operand (s : Shape) : Advances (operand s) := by
  cases s with
  | none => exact advances_pure _
  | u8 | slot => exact advances_u8.bind fun _ => advances_pure _
  | u16 | offset | size => exact advances_u16.bind fun _ => advances_pure _
  | token => exact advances_token.bind fun _ => advances_pure _
  | tokenU8 => exact advances_token.bind fun _ => advances_u8.bind fun _ => advances_pure _
  | i32 | i64 => exact (advances_int _).bind fun _ => advances_pure _
  | f32 | f64 => exact (advances_nat _).bind fun _ => advances_pure _
  | slotCount => exact advances_u8.bind fun _ => advances_u8.bind fun _ => advances_pure _
  | offsetSize => exact advances_u16.bind fun _ => advances_u16.bind fun _ => advances_pure _
  | rel8 | rel16 => exact (advances_displacement _).bind fun _ => advances_pure _

theorem opcode_consumes {c c' : Cursor} {o : Opcode} (h : opcode c = .ok o c') :
    c'.rest.length < c.rest.length := by
  obtain ⟨s, c₁, hget, h⟩ := eq_ok_of_bind h
  cases hget
  obtain ⟨byte, c₂, hbyte, h⟩ := eq_ok_of_bind h
  have hlength : c₂.rest.length < c.rest.length := by
    obtain ⟨n, c₃, hn, hpure⟩ := eq_ok_of_bind (f := fun n => pure (UInt8.ofNat n)) hbyte
    cases hpure
    obtain ⟨bytes, c₄, htake, hpure⟩ :=
      eq_ok_of_bind (f := fun bytes => pure (LittleEndian.decode bytes)) hn
    cases hpure
    have := take_eq_ok htake
    omega
  cases hop : Opcode.ofByte? byte with
  | none =>
    rw [hop] at h
    cases h
  | some o =>
    rw [hop] at h
    cases h
    exact hlength

end Advances

/-- Reading an operation consumes at least its opcode byte. -/
theorem operation_consumes {c c' : Cursor} {op : Operation Token Nat}
    (h : operation c = .ok op c') : c'.rest.length < c.rest.length := by
  obtain ⟨o, c₁, ho, h⟩ := eq_ok_of_bind h
  obtain ⟨operand, c₂, hoperand, h⟩ := eq_ok_of_bind h
  cases h
  exact Nat.lt_of_le_of_lt (advances_operand _ _ _ _ hoperand) (opcode_consumes ho)

end Decoder

/-- The error for an operation at an offset: one that runs out of bytes is too long for its
function. -/
def DisasmError.ofDecode (offset : Nat) : DecodeError → DisasmError
  | .unexpectedEnd => truncated offset
  | e => decode e

/-- Reads operations until the bytes are used up; `acc` holds those read so far. -/
def decodeOps (c : Cursor) (acc : Array PlacedOp) : Except DisasmError (Array PlacedOp) :=
  if c.atEnd then .ok acc
  else
    match _h : Decoder.operation c with
    | .error e _ => .error (.ofDecode c.offset e)
    | .ok op c' => decodeOps c' (acc.push ⟨c.offset, op⟩)
termination_by c.rest.length
decreasing_by exact Decoder.operation_consumes _h

/-- Reads the function whose descriptor is at `start` of an image that ends with it. -/
def decodeFunction (image : List UInt8) (start : Nat) : Except DisasmError FunctionListing :=
  match Cursor.at? image start with
  | .error e => .error (.decode e)
  | .ok c =>
    match Descriptor.decoder c with
    | .error e _ => .error (.decode e)
    | .ok descriptor c => do
      let ops ← decodeOps c #[]
      return ⟨start, descriptor, ops.toList⟩

/-- Reads the functions at these offsets.  Functions follow each other from `floor` on. -/
def decodeFunctions (image : List UInt8) (floor : Nat) :
    List Nat → Except DisasmError (List FunctionListing)
  | [] => .ok []
  | start :: rest =>
    let finish := rest.headD image.length
    if start < floor ∨ finish < start ∨ image.length < finish then
      .error (.badFunctionOffset start)
    else do
      let function ← decodeFunction (image.take finish) start
      let functions ← decodeFunctions image finish rest
      return function :: functions

/-- Reads an image whose functions start at these offsets. -/
def disassemble (image : List UInt8) (functionOffsets : List Nat) :
    Except DisasmError Disassembly := do
  let header ← (Header.decode image).mapError .decode
  let slots := List.range header.importCount.toNat
  let imports ← (slots.mapM (Header.importAt image)).mapError .decode
  let functions ← decodeFunctions image header.codeStart functionOffsets
  return ⟨header, imports, functions⟩

end StackCode
