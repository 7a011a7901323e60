import StackCode.Disassembly.Basic

/-!
# Reading back what was written

A decoder reads a value off some bytes if it gives that value whenever it stands at the start of the
bytes, whatever follows them.  The relation follows the structure of decoders: a sequence of
decoders reads the concatenation of what its parts read.  Displacements count from the offset of the
decoder, so the offset is a parameter.

## Main definitions

* `Decoder.Reads`: a decoder reads a value off some bytes.
* `Operand.fits`: whether an operand has the shape that an opcode asks for.

## Main results

* `Header.decoder_reads`, `Descriptor.decoder_reads`, `Token.decoder_reads`: each format reads back
  what it writes.
* `Operation.reads_encode`: an operation of the right shape reads back.
-/

namespace StackCode

namespace Decoder

variable {α β : Type} {start : Nat} {d : Decoder α} {f : α → Decoder β} {bytes bytes' : List UInt8}
  {a : α} {b : β}

/-- At offset `start`, the decoder reads `a` off `bytes` and leaves what follows. -/
def Reads (d : Decoder α) (start : Nat) (bytes : List UInt8) (a : α) : Prop :=
  ∀ rest, d ⟨bytes ++ rest, start⟩ = .ok a ⟨rest, start + bytes.length⟩

theorem Reads.pure : Reads (pure a) start [] a := fun _ => rfl

/-- **A sequence reads a concatenation.** -/
theorem Reads.bind (h : Reads d start bytes a) (hf : Reads (f a) (start + bytes.length) bytes' b) :
    Reads (d >>= f) start (bytes ++ bytes') b := by
  intro rest
  show EStateM.bind d f _ = _
  rw [EStateM.bind, List.append_assoc, h (bytes' ++ rest)]
  dsimp only
  rw [hf rest, List.length_append, Nat.add_assoc]

theorem Reads.map (g : α → β) (h : Reads d start bytes a) : Reads (g <$> d) start bytes (g a) := by
  intro rest
  show EStateM.map g d _ = _
  rw [EStateM.map, h rest]

theorem take_reads : Reads (take bytes.length) start bytes bytes := by
  intro rest
  rw [take, splitExact?_append]

/-- A number that fits its width is read back. -/
theorem nat_reads {width n : Nat} (h : n < LittleEndian.capacity width) :
    Reads (nat width) start (LittleEndian.encode width n) n := by
  have htake : Reads (take width) start (LittleEndian.encode width n) _ :=
    LittleEndian.length_encode width n ▸ take_reads
  have hmap := htake.map LittleEndian.decode
  rwa [LittleEndian.decode_encode h] at hmap

/-- A signed number that fits its width is read back. -/
theorem int_reads {width : Nat} {v : Int} (hlo : -((LittleEndian.capacity width : Int) / 2) ≤ v)
    (hhi : v < ((LittleEndian.capacity width : Int) + 1) / 2) :
    Reads (int width) start (LittleEndian.encodeInt width v) v := by
  have htake : Reads (take width) start (LittleEndian.encodeInt width v) _ :=
    LittleEndian.length_encodeInt width v ▸ take_reads
  have hmap := htake.map LittleEndian.decodeInt
  rwa [LittleEndian.decodeInt_encodeInt hlo hhi] at hmap

theorem u8_reads (value : UInt8) : Reads u8 start [value] value := by
  have hnat : Reads (nat 1) start (LittleEndian.encode 1 value.toNat) _ := nat_reads value.toNat_lt
  have hmap := hnat.map UInt8.ofNat
  rwa [UInt8.ofNat_toNat, LittleEndian.encode, LittleEndian.encode, UInt8.ofNat_toNat] at hmap

theorem u16_reads (value : UInt16) :
    Reads u16 start (LittleEndian.encode 2 value.toNat) value := by
  have hnat : Reads (nat 2) start (LittleEndian.encode 2 value.toNat) _ := nat_reads value.toNat_lt
  have hmap := hnat.map UInt16.ofNat
  rwa [UInt16.ofNat_toNat] at hmap

/-- What follows a decoder may read nothing more. -/
theorem Reads.andThen (h : Reads d start bytes a)
    (hf : Reads (f a) (start + bytes.length) [] b) : Reads (d >>= f) start bytes b := by
  have hbind := h.bind hf
  rwa [List.append_nil] at hbind

/-- A decoder may look at the offset it stands at. -/
theorem Reads.get {f : Cursor → Decoder β}
    (h : ∀ c : Cursor, c.offset = start → Reads (f c) start bytes b) :
    Reads (get >>= f) start bytes b :=
  fun rest => h ⟨bytes ++ rest, start⟩ rfl rest

theorem opcode_reads (o : Opcode) : Reads opcode start [o.byte] o := by
  refine Reads.get fun c hc => (u8_reads o.byte).andThen ?_
  rw [Opcode.ofByte?_byte]
  exact .pure

/-- A target is read back from the displacement to it. -/
theorem displacement_reads {width finish target : Nat} (hfinish : finish = start + width)
    (hlo : -((LittleEndian.capacity width : Int) / 2) ≤ (target : Int) - finish)
    (hhi : (target : Int) - finish < ((LittleEndian.capacity width : Int) + 1) / 2) :
    Reads (displacement width) start
      (LittleEndian.encodeInt width ((target : Int) - finish)) target := by
  refine (int_reads hlo hhi).andThen (Reads.get fun c hc => ?_)
  rw [LittleEndian.length_encodeInt, ← hfinish] at hc
  have htarget : (finish : Int) + (target - finish) = target := by omega
  dsimp only
  rw [hc, htarget, if_pos (Int.natCast_nonneg _), Int.toNat_natCast]
  exact .pure

end Decoder

theorem Token.decoder_reads {start : Nat} (t : Token) :
    Decoder.Reads Token.decoder start t.encode t :=
  (Decoder.u8_reads t.module).bind ((Decoder.u16_reads t.offset).andThen .pure)

/-- Of the flags of a descriptor one bit is read. -/
theorem Descriptor.decoder_reads_flags (start : Nat) (flags maxStack argSlots localSlots : UInt8) :
    Decoder.Reads Descriptor.decoder start [flags, maxStack, argSlots, localSlots]
      ⟨flags &&& 1 != 0, maxStack, argSlots, localSlots⟩ :=
  (Decoder.u8_reads flags).bind ((Decoder.u8_reads maxStack).bind
    ((Decoder.u8_reads argSlots).bind ((Decoder.u8_reads localSlots).andThen .pure)))

theorem Descriptor.decoder_reads {start : Nat} (d : Descriptor) :
    Decoder.Reads Descriptor.decoder start d.encode d := by
  have hflag : ((if d.zeroInit then 1 else 0 : UInt8) &&& 1 != 0) = d.zeroInit := by
    cases d.zeroInit <;> rfl
  have hreads := decoder_reads_flags start (if d.zeroInit then 1 else 0) d.maxStack d.argSlots
    d.localSlots
  rwa [hflag] at hreads

namespace Header

theorem nops_reads {start : Nat} (n : Nat) :
    Decoder.Reads (nops n) start (List.replicate n Opcode.nop.byte) () := by
  induction n generalizing start with
  | zero => exact .pure
  | succ n ih => exact (Decoder.opcode_reads .nop).bind ih

theorem entryDecoder_reads {start : Nat} (entry : Option Token) :
    Decoder.Reads entryDecoder start (encodeEntry entry) entry := by
  cases entry with
  | some token =>
    exact (Decoder.opcode_reads .call).bind ((Token.decoder_reads token).map some)
  | none =>
    exact (Decoder.opcode_reads .nop).bind ((nops_reads (Opcode.call.length - 1)).andThen .pure)

theorem decoder_reads {start : Nat} (h : Header) :
    Decoder.Reads decoder start h.encode h := by
  refine (Decoder.u8_reads version).bind ?_
  refine (Decoder.u8_reads h.features.bits).bind ((Decoder.u8_reads h.moduleCount).bind
    ((Decoder.u8_reads h.importCount).bind ((entryDecoder_reads h.entry).andThen .pure)))

theorem length_encode (h : Header) : h.encode.length = size := by
  cases h with
  | mk features moduleCount importCount entry => cases entry <;> rfl

end Header

namespace Operand

variable {φ τ : Type}

/-- Whether the operand is one of this shape. -/
def fits : Operand φ τ → Shape → Bool
  | .none, .none | .u8 _, .u8 | .u16 _, .u16 | .func _, .token | .funcSlots _ _, .tokenU8
  | .i32 _, .i32 | .i64 _, .i64 | .f32 _, .f32 | .f64 _, .f64 | .slot _, .slot
  | .slotCount _ _, .slotCount | .offset _, .offset | .offsetSize _ _, .offsetSize
  | .size _, .size | .target _, .rel8 | .target _, .rel16 => true
  | _, _ => false

end Operand

namespace Operation

open Decoder

variable {start : Nat} {bytes : List UInt8}

/-- The operand has the shape that the opcode asks for. -/
def WellShaped {φ τ : Type} (op : Operation φ τ) : Prop := op.operand.fits op.opcode.shape = true

/-- A short displacement is written if it fits. -/
theorem encodeDisplacement_rel8 {displacement : Int}
    (h : encodeDisplacement .rel8 displacement = .ok bytes) :
    fitsShort displacement = true ∧ bytes = LittleEndian.encodeInt 1 displacement := by
  simp only [encodeDisplacement] at h
  split at h
  · rename_i hfits
    exact ⟨hfits, (Except.ok.inj h).symm⟩
  · cases h

/-- A long displacement is written if it fits. -/
theorem encodeDisplacement_rel16 {displacement : Int}
    (h : encodeDisplacement .rel16 displacement = .ok bytes) :
    fitsLong displacement = true ∧ bytes = LittleEndian.encodeInt 2 displacement := by
  simp only [encodeDisplacement] at h
  split at h
  · rename_i hfits
    exact ⟨hfits, (Except.ok.inj h).symm⟩
  · cases h

/-- The target of a branch is read back. -/
theorem reads_encodeDisplacement {shape : Shape} {target : Nat}
    (hshape : (Operand.target target : Operand Token Nat).fits shape = true)
    (h : encodeDisplacement shape ((target : Int) - (start + shape.length : Nat)) = .ok bytes) :
    Reads (Decoder.operand shape) start bytes (.target target) := by
  cases shape <;> cases hshape
  · obtain ⟨hfits, rfl⟩ := encodeDisplacement_rel8 h
    obtain ⟨hlo, hhi⟩ := of_decide_eq_true hfits
    exact (displacement_reads rfl hlo (Int.lt_add_one_of_le hhi)).andThen .pure
  · obtain ⟨hfits, rfl⟩ := encodeDisplacement_rel16 h
    obtain ⟨hlo, hhi⟩ := of_decide_eq_true hfits
    exact (displacement_reads rfl hlo (Int.lt_add_one_of_le hhi)).andThen .pure

/-- An operand of the right shape reads back. -/
theorem reads_encodeOperand {shape : Shape} {operand : Operand Token Nat}
    (hfits : operand.fits shape = true)
    (h : encodeOperand shape (start + shape.length) operand = .ok bytes) :
    Reads (Decoder.operand shape) start bytes operand := by
  cases operand with
  | target t => exact reads_encodeDisplacement hfits h
  | none =>
    cases shape <;> cases hfits
    cases h
    exact .pure
  | u8 value | slot value =>
    cases shape <;> cases hfits
    cases h
    exact (u8_reads value).andThen .pure
  | u16 value | offset value | size value =>
    cases shape <;> cases hfits
    cases h
    exact (u16_reads value).andThen .pure
  | func token =>
    cases shape <;> cases hfits
    cases h
    exact token.decoder_reads.andThen .pure
  | funcSlots token slots =>
    cases shape <;> cases hfits
    cases h
    exact token.decoder_reads.bind ((u8_reads slots).andThen .pure)
  | slotCount index count =>
    cases shape <;> cases hfits
    cases h
    exact (u8_reads index).bind ((u8_reads count).andThen .pure)
  | offsetSize offset size =>
    cases shape <;> cases hfits
    cases h
    exact (u16_reads offset).bind ((u16_reads size).andThen .pure)
  | f32 bits =>
    cases shape <;> cases hfits
    cases h
    exact (nat_reads bits.toNat_lt).andThen (by rw [UInt32.ofNat_toNat]; exact .pure)
  | f64 bits =>
    cases shape <;> cases hfits
    cases h
    exact (nat_reads bits.toNat_lt).andThen (by rw [UInt64.ofNat_toNat]; exact .pure)
  | i32 value =>
    cases shape <;> cases hfits
    cases h
    exact (int_reads value.le_toInt value.toInt_lt).andThen (by rw [Int32.ofInt_toInt]; exact .pure)
  | i64 value =>
    cases shape <;> cases hfits
    cases h
    exact (int_reads value.le_toInt value.toInt_lt).andThen (by rw [Int64.ofInt_toInt]; exact .pure)

/-- An operand is as long as its shape says. -/
theorem length_encodeOperand {shape : Shape} {finish : Nat} {operand : Operand Token Nat}
    (hfits : operand.fits shape = true) (h : encodeOperand shape finish operand = .ok bytes) :
    bytes.length = shape.length := by
  cases operand with
  | target t =>
    cases shape <;> cases hfits
    · obtain ⟨-, rfl⟩ := encodeDisplacement_rel8 h
      exact LittleEndian.length_encodeInt 1 _
    · obtain ⟨-, rfl⟩ := encodeDisplacement_rel16 h
      exact LittleEndian.length_encodeInt 2 _
  | _ =>
    cases shape <;> cases hfits
    cases h
    rfl

/-- **An operation reads back**, if its operand has the shape that its opcode asks for. -/
theorem reads_encode {op : Operation Token Nat} (hshape : op.WellShaped)
    (h : op.encode start = .ok bytes) :
    Reads operation start bytes op ∧ bytes.length = op.length := by
  unfold encode at h
  cases hoperand : encodeOperand op.opcode.shape (start + op.opcode.length) op.operand with
  | error displacement =>
    rw [hoperand] at h
    cases h
  | ok operandBytes =>
    rw [hoperand] at h
    cases h
    have hlength := length_encodeOperand hshape hoperand
    rw [Opcode.length, ← Nat.add_assoc] at hoperand
    refine ⟨?_, ?_⟩
    · exact (opcode_reads op.opcode).bind ((reads_encodeOperand hshape hoperand).andThen .pure)
    · rw [List.length_cons, hlength, Nat.add_comm]
      rfl

end Operation

end StackCode
