import StackCode.Proofs.Image.Codec

/-!
# Reading nothing else

Whatever bytes a decoder reads, writing the value it gives yields these bytes again.  Like reading
back, this follows the structure of decoders: a sequence of decoders reads concatenations only.
The one exception is the flag byte of a descriptor, of which one bit is kept.

## Main definitions

* `Decoder.ReadsOnly`: what a decoder reads is of a form.

## Main results

* `LittleEndian.encodeInt_decodeInt`: signed words are written as they were read.
* `Header.readsOnly_decoder`, `Descriptor.readsOnly_decoder`, `Token.readsOnly_decoder`: so are the
  parts of an image.
* `Operation.readsOnly_operation`: so are operations.
-/

namespace StackCode

namespace LittleEndian

/-- Encoding a decoded signed word gives its bytes back. -/
theorem encodeInt_decodeInt (bs : List UInt8) : encodeInt bs.length (decodeInt bs) = bs := by
  have hlt : (decode bs : Int) < capacity bs.length := Int.ofNat_lt.mpr (decode_lt bs)
  have hmod : (decodeInt bs % (capacity bs.length : Int)).toNat = decode bs := by
    rw [decodeInt, Int.bmod_emod, Int.emod_eq_of_lt (Int.natCast_nonneg _) hlt, Int.toNat_natCast]
  rw [encodeInt, hmod, encode_decode]

theorem le_decodeInt (bs : List UInt8) : -((capacity bs.length : Int) / 2) ≤ decodeInt bs :=
  Int.le_bmod (capacity_pos _)

theorem decodeInt_lt (bs : List UInt8) : decodeInt bs < ((capacity bs.length : Int) + 1) / 2 :=
  Int.bmod_lt (capacity_pos _)

variable {bytes : List UInt8}

/-! Words of fixed width are written as they were read. -/

theorem encode_toUInt16 (h : bytes.length = 2) :
    encode 2 (UInt16.ofNat (decode bytes)).toNat = bytes := by
  have hlt := decode_lt bytes
  rw [h] at hlt
  rw [UInt16.toNat_ofNat_of_lt' hlt, ← h, encode_decode]

theorem encode_toUInt32 (h : bytes.length = 4) :
    encode 4 (UInt32.ofNat (decode bytes)).toNat = bytes := by
  have hlt := decode_lt bytes
  rw [h] at hlt
  rw [UInt32.toNat_ofNat_of_lt' hlt, ← h, encode_decode]

theorem encode_toUInt64 (h : bytes.length = 8) :
    encode 8 (UInt64.ofNat (decode bytes)).toNat = bytes := by
  have hlt := decode_lt bytes
  rw [h] at hlt
  rw [UInt64.toNat_ofNat_of_lt' hlt, ← h, encode_decode]

theorem encodeInt_toInt32 (h : bytes.length = 4) :
    encodeInt 4 (Int32.ofInt (decodeInt bytes)).toInt = bytes := by
  have hlo := le_decodeInt bytes
  have hhi := decodeInt_lt bytes
  rw [h] at hlo hhi
  rw [Int32.toInt_ofInt_of_le hlo hhi, ← h, encodeInt_decodeInt]

theorem encodeInt_toInt64 (h : bytes.length = 8) :
    encodeInt 8 (Int64.ofInt (decodeInt bytes)).toInt = bytes := by
  have hlo := le_decodeInt bytes
  have hhi := decodeInt_lt bytes
  rw [h] at hlo hhi
  rw [Int64.toInt_ofInt_of_le hlo hhi, ← h, encodeInt_decodeInt]

end LittleEndian

/-- An opcode is read from its own byte only. -/
theorem Opcode.byte_of_ofByte? {byte : UInt8} {o : Opcode} (h : ofByte? byte = some o) :
    o.byte = byte := by
  have hcodes : ∀ n ∈ List.range 256, ∀ o ∈ ofCode? n, o.code = n := by decide +kernel
  rw [Opcode.byte, hcodes _ (List.mem_range.mpr byte.toNat_lt) o h, UInt8.ofNat_toNat]

/-- A fingerprint is read from its own bytes only. -/
theorem Fingerprint.bytes_of_ofBytes? {bytes : List UInt8} {f : Fingerprint}
    (h : ofBytes? bytes = some f) : bytes = f.bytes := by
  unfold ofBytes? at h
  split at h
  · rw [← Option.some.inj h]
  · cases h

namespace Decoder

variable {α β : Type} {d : Decoder α} {f : α → Decoder β}

/-- Whatever the decoder reads at an offset, and the value it gives, are of this form. -/
def ReadsOnly (d : Decoder α) (form : Nat → List UInt8 → α → Prop) : Prop :=
  ∀ c a c', d c = .ok a c' →
    ∃ front, c.rest = front ++ c'.rest ∧ c'.offset = c.offset + front.length ∧
      form c.offset front a

variable {form form' : Nat → List UInt8 → α → Prop}

theorem readsOnly_pure (a : α) :
    ReadsOnly (pure a) fun _ bytes b => bytes = [] ∧ b = a := by
  intro c b c' h
  cases h
  exact ⟨[], rfl, rfl, rfl, rfl⟩

theorem readsOnly_throw (e : DecodeError) : ReadsOnly (throw e : Decoder α) form := by
  intro c a c' h
  cases h

theorem readsOnly_throw_bind (e : DecodeError) {form : Nat → List UInt8 → β → Prop} :
    ReadsOnly (throw e >>= f) form := by
  intro c a c' h
  cases h

/-- What is read in a form is read in any wider form. -/
theorem ReadsOnly.mono (h : ReadsOnly d form)
    (hform : ∀ start bytes a, form start bytes a → form' start bytes a) : ReadsOnly d form' := by
  intro c a c' hd
  obtain ⟨front, hrest, hoffset, hfront⟩ := h c a c' hd
  exact ⟨front, hrest, hoffset, hform _ _ _ hfront⟩

/-- What is read when the rest is forgotten. -/
theorem ReadsOnly.of_value (h : ReadsOnly d form) {c : Cursor} {a : α}
    (hvalue : d.value c = .ok a) :
    ∃ front rest, c.rest = front ++ rest ∧ form c.offset front a := by
  unfold value at hvalue
  split at hvalue
  · rename_i c' hd
    cases hvalue
    obtain ⟨front, hrest, -, hfront⟩ := h c _ c' hd
    exact ⟨front, c'.rest, hrest, hfront⟩
  · cases hvalue

/-- **A sequence reads a concatenation only.** -/
theorem ReadsOnly.bind {R : α → Nat → List UInt8 → β → Prop} (h : ReadsOnly d form)
    (hf : ∀ a, ReadsOnly (f a) (R a)) :
    ReadsOnly (d >>= f) fun start bytes b => ∃ a front back, bytes = front ++ back ∧
      form start front a ∧ R a (start + front.length) back b := by
  intro c b c'' hbind
  obtain ⟨a, c', hd, hrun⟩ := eq_ok_of_bind hbind
  obtain ⟨front, hrest, hoffset, hfront⟩ := h c a c' hd
  obtain ⟨back, hrest', hoffset', hback⟩ := hf a c' b c'' hrun
  refine ⟨front ++ back, ?_, ?_, a, front, back, rfl, hfront, hoffset ▸ hback⟩
  · rw [hrest, hrest', List.append_assoc]
  · rw [hoffset', hoffset, List.length_append, Nat.add_assoc]

theorem ReadsOnly.map (g : α → β) (h : ReadsOnly d form) :
    ReadsOnly (g <$> d) fun start bytes b => ∃ a, form start bytes a ∧ b = g a := by
  intro c b c' hmap
  obtain ⟨a, c₁, hd, hpure⟩ := eq_ok_of_bind (f := fun a => pure (g a)) hmap
  cases hpure
  obtain ⟨front, hrest, hoffset, hfront⟩ := h c a _ hd
  exact ⟨front, hrest, hoffset, a, hfront, rfl⟩

theorem readsOnly_take (n : Nat) :
    ReadsOnly (take n) fun _ bytes read => bytes = read ∧ read.length = n := by
  intro c read c' h
  unfold take at h
  split at h
  · rename_i front back hsplit
    obtain ⟨hrest, hlength⟩ := eq_append_of_splitExact? hsplit
    cases h
    exact ⟨read, hrest, congrArg (c.offset + ·) hlength.symm, rfl, hlength⟩
  · cases h

theorem readsOnly_nat (width : Nat) :
    ReadsOnly (nat width) fun _ bytes n =>
      bytes.length = width ∧ n = LittleEndian.decode bytes := by
  refine ((readsOnly_take width).map LittleEndian.decode).mono ?_
  rintro _ _ _ ⟨read, ⟨rfl, hlength⟩, rfl⟩
  exact ⟨hlength, rfl⟩

theorem readsOnly_int (width : Nat) :
    ReadsOnly (int width) fun _ bytes v =>
      bytes.length = width ∧ v = LittleEndian.decodeInt bytes := by
  refine ((readsOnly_take width).map LittleEndian.decodeInt).mono ?_
  rintro _ _ _ ⟨read, ⟨rfl, hlength⟩, rfl⟩
  exact ⟨hlength, rfl⟩

theorem readsOnly_u8 : ReadsOnly u8 fun _ bytes value => bytes = [value] := by
  refine ((readsOnly_nat 1).map UInt8.ofNat).mono ?_
  rintro _ bytes _ ⟨_, ⟨hlength, rfl⟩, rfl⟩
  obtain ⟨b, rfl⟩ := List.length_eq_one_iff.mp hlength
  simp [LittleEndian.decode]

theorem readsOnly_u16 :
    ReadsOnly u16 fun _ bytes value => bytes = LittleEndian.encode 2 value.toNat := by
  refine ((readsOnly_nat 2).map UInt16.ofNat).mono ?_
  rintro _ _ _ ⟨_, ⟨hlength, rfl⟩, rfl⟩
  exact (LittleEndian.encode_toUInt16 hlength).symm

/-- A decoder may look at the cursor it stands at. -/
theorem readsOnly_get {f : Cursor → Decoder α}
    (h : ∀ c : Cursor, ReadsOnly (f c) fun start bytes a => c.offset = start → form start bytes a) :
    ReadsOnly (get >>= f) form := by
  intro c a c' hrun
  obtain ⟨front, hrest, hoffset, hfront⟩ := h c c a c' hrun
  exact ⟨front, hrest, hoffset, hfront rfl⟩

theorem readsOnly_opcode : ReadsOnly opcode fun _ bytes o => bytes = [o.byte] := by
  refine readsOnly_get fun c => ?_
  refine (readsOnly_u8.bind (R := fun byte _ bytes o => bytes = [] ∧ o.byte = byte) ?_).mono ?_
  · intro byte
    cases hbyte : Opcode.ofByte? byte with
    | none => exact readsOnly_throw _
    | some o =>
      refine (readsOnly_pure o).mono ?_
      rintro _ _ _ ⟨rfl, rfl⟩
      exact ⟨rfl, Opcode.byte_of_ofByte? hbyte⟩
  · rintro _ _ o ⟨byte, _, _, rfl, rfl, rfl, rfl⟩ _
    rfl

/-- A displacement leads to its target from its end. -/
theorem readsOnly_displacement (width : Nat) :
    ReadsOnly (displacement width) fun start bytes target => bytes.length = width ∧
      LittleEndian.decodeInt bytes = (target : Int) - (start + width : Nat) := by
  refine ((readsOnly_int width).bind (R := fun relative finish bytes (target : Nat) =>
    bytes = [] ∧ (target : Int) = finish + relative) fun relative => ?_).mono ?_
  · refine readsOnly_get fun c => ?_
    dsimp only
    split
    · rename_i htarget
      refine (readsOnly_pure _).mono ?_
      rintro _ _ _ ⟨rfl, rfl⟩ rfl
      exact ⟨rfl, Int.toNat_of_nonneg htarget⟩
    · exact readsOnly_throw _
  · rintro start _ target ⟨_, front, _, rfl, ⟨hlength, rfl⟩, rfl, htarget⟩
    rw [List.append_nil]
    refine ⟨hlength, ?_⟩
    rw [htarget, hlength]
    omega

end Decoder

open Decoder

/-- A token is read from the bytes that are written for it. -/
theorem Token.readsOnly_decoder :
    ReadsOnly Token.decoder fun _ bytes token => bytes = token.encode := by
  refine (readsOnly_u8.bind fun module => readsOnly_u16.map (Token.mk module)).mono ?_
  rintro _ _ _ ⟨module, _, _, rfl, rfl, offset, rfl, rfl⟩
  rfl

/-- Of the flag byte of a descriptor only the lowest bit is kept. -/
theorem Descriptor.readsOnly_decoder :
    ReadsOnly Descriptor.decoder fun _ bytes d => ∃ flags,
      bytes = [flags, d.maxStack, d.argSlots, d.localSlots] ∧ d.zeroInit = (flags &&& 1 != 0) := by
  refine (readsOnly_u8.bind fun flags => readsOnly_u8.bind fun maxStack =>
    readsOnly_u8.bind fun argSlots =>
      readsOnly_u8.map (Descriptor.mk (flags &&& 1 != 0) maxStack argSlots)).mono ?_
  rintro _ _ _ ⟨flags, _, _, rfl, rfl, maxStack, _, _, rfl, rfl, argSlots, _, _, rfl, rfl,
    localSlots, rfl, rfl⟩
  exact ⟨flags, rfl, rfl⟩

namespace Operation

/-- A displacement that leads to a target is written as it was read. -/
theorem encodeDisplacement_decodeInt {shape : Shape} {finish target : Nat} {bytes : List UInt8}
    (hshape : (Operand.target target : Operand Token Nat).fits shape = true)
    (hlength : bytes.length = shape.length)
    (htarget : LittleEndian.decodeInt bytes = (target : Int) - finish) :
    encodeOperand shape finish (.target target) = .ok bytes := by
  have hlo := LittleEndian.le_decodeInt bytes
  have hhi := LittleEndian.decodeInt_lt bytes
  have hencode := LittleEndian.encodeInt_decodeInt bytes
  rw [hlength, htarget] at hlo hhi hencode
  cases shape <;> cases hshape
  · have hfits : fitsShort ((target : Int) - finish) = true :=
      decide_eq_true ⟨hlo, Int.le_of_lt_add_one hhi⟩
    rw [encodeOperand, encodeDisplacement, if_pos hfits]
    exact congrArg _ hencode
  · have hfits : fitsLong ((target : Int) - finish) = true :=
      decide_eq_true ⟨hlo, Int.le_of_lt_add_one hhi⟩
    dsimp only [encodeOperand, encodeDisplacement]
    rw [if_pos hfits]
    exact congrArg _ hencode

/-- **Operands are written as they were read.** -/
theorem readsOnly_operand (shape : Shape) :
    ReadsOnly (Decoder.operand shape) fun start bytes operand => operand.fits shape = true ∧
      encodeOperand shape (start + shape.length) operand = .ok bytes := by
  cases shape with
  | none =>
    refine (readsOnly_pure _).mono ?_
    rintro _ _ _ ⟨rfl, rfl⟩
    exact ⟨rfl, rfl⟩
  | u8 | slot =>
    refine (readsOnly_u8.map _).mono ?_
    rintro _ _ _ ⟨value, rfl, rfl⟩
    exact ⟨rfl, rfl⟩
  | u16 | offset | size =>
    refine (readsOnly_u16.map _).mono ?_
    rintro _ _ _ ⟨value, rfl, rfl⟩
    exact ⟨rfl, rfl⟩
  | token =>
    refine (Token.readsOnly_decoder.map _).mono ?_
    rintro _ _ _ ⟨token, rfl, rfl⟩
    exact ⟨rfl, rfl⟩
  | tokenU8 =>
    refine (Token.readsOnly_decoder.bind fun token => readsOnly_u8.map _).mono ?_
    rintro _ _ _ ⟨token, _, _, rfl, rfl, slots, rfl, rfl⟩
    exact ⟨rfl, rfl⟩
  | slotCount =>
    refine (readsOnly_u8.bind fun index => readsOnly_u8.map _).mono ?_
    rintro _ _ _ ⟨index, _, _, rfl, rfl, count, rfl, rfl⟩
    exact ⟨rfl, rfl⟩
  | offsetSize =>
    refine (readsOnly_u16.bind fun offset => readsOnly_u16.map _).mono ?_
    rintro _ _ _ ⟨offset, _, _, rfl, rfl, size, rfl, rfl⟩
    exact ⟨rfl, rfl⟩
  | i32 =>
    refine ((readsOnly_int 4).map fun v => Operand.i32 (Int32.ofInt v)).mono ?_
    rintro _ _ _ ⟨_, ⟨hlength, rfl⟩, rfl⟩
    exact ⟨rfl, congrArg Except.ok (LittleEndian.encodeInt_toInt32 hlength)⟩
  | i64 =>
    refine ((readsOnly_int 8).map fun v => Operand.i64 (Int64.ofInt v)).mono ?_
    rintro _ _ _ ⟨_, ⟨hlength, rfl⟩, rfl⟩
    exact ⟨rfl, congrArg Except.ok (LittleEndian.encodeInt_toInt64 hlength)⟩
  | f32 =>
    refine ((readsOnly_nat 4).map fun n => Operand.f32 (UInt32.ofNat n)).mono ?_
    rintro _ _ _ ⟨_, ⟨hlength, rfl⟩, rfl⟩
    exact ⟨rfl, congrArg Except.ok (LittleEndian.encode_toUInt32 hlength)⟩
  | f64 =>
    refine ((readsOnly_nat 8).map fun n => Operand.f64 (UInt64.ofNat n)).mono ?_
    rintro _ _ _ ⟨_, ⟨hlength, rfl⟩, rfl⟩
    exact ⟨rfl, congrArg Except.ok (LittleEndian.encode_toUInt64 hlength)⟩
  | rel8 | rel16 =>
    refine ((readsOnly_displacement _).map _).mono ?_
    rintro start bytes _ ⟨target, ⟨hlength, htarget⟩, rfl⟩
    exact ⟨rfl, encodeDisplacement_decodeInt rfl hlength htarget⟩

/-- **Operations are written as they were read.** -/
theorem readsOnly_operation :
    ReadsOnly operation fun start bytes op => op.WellShaped ∧ op.encode start = .ok bytes := by
  refine (readsOnly_opcode.bind fun o => (readsOnly_operand o.shape).map _).mono ?_
  rintro start _ _ ⟨o, _, bytes, rfl, rfl, operand, ⟨hfits, hoperand⟩, rfl⟩
  refine ⟨hfits, ?_⟩
  rw [List.length_singleton, Nat.add_assoc] at hoperand
  rw [encode, Opcode.length, hoperand]
  rfl

end Operation

namespace Header

/-- Fillers are read from as many fillers. -/
theorem readsOnly_nops (n : Nat) :
    ReadsOnly (nops n) fun _ bytes _ => bytes = List.replicate n Opcode.nop.byte := by
  induction n with
  | zero =>
    refine (readsOnly_pure _).mono ?_
    rintro _ _ _ ⟨rfl, rfl⟩
    rfl
  | succ n ih =>
    refine (readsOnly_opcode.bind (R := fun o _ bytes _ => o = .nop ∧
      bytes = List.replicate n Opcode.nop.byte) fun o => ?_).mono ?_
    · split
      · rename_i hnop
        exact ih.mono fun _ _ _ hbytes => ⟨hnop, hbytes⟩
      · exact readsOnly_throw _
    · rintro _ _ _ ⟨o, _, _, rfl, rfl, rfl, rfl⟩
      rfl

/-- An entry point is read from the bytes that are written for it. -/
theorem readsOnly_entryDecoder :
    ReadsOnly entryDecoder fun _ bytes entry => bytes = encodeEntry entry := by
  refine (readsOnly_opcode.bind (R := fun o _ bytes entry =>
    o.byte :: bytes = encodeEntry entry) fun o => ?_).mono ?_
  · split
    · refine (Token.readsOnly_decoder.map some).mono ?_
      rintro _ _ _ ⟨token, rfl, rfl⟩
      rfl
    · refine ((readsOnly_nops _).bind fun _ => readsOnly_pure _).mono ?_
      rintro _ _ _ ⟨_, _, _, rfl, rfl, rfl, rfl⟩
      rfl
    · exact readsOnly_throw _
  · rintro _ _ _ ⟨o, _, _, rfl, rfl, hentry⟩
    exact hentry

/-- **Headers are written as they were read.** -/
theorem readsOnly_decoder : ReadsOnly decoder fun _ bytes h => bytes = h.encode := by
  refine (readsOnly_u8.bind (R := fun found _ bytes h => found :: bytes = h.encode)
    fun found => ?_).mono ?_
  · dsimp only
    split
    · exact readsOnly_throw_bind _
    · rename_i hversion
      rw [Decidable.not_not.mp hversion]
      refine (readsOnly_u8.bind fun features => readsOnly_u8.bind fun moduleCount =>
        readsOnly_u8.bind fun importCount =>
          readsOnly_entryDecoder.map (Header.mk ⟨features⟩ moduleCount importCount)).mono ?_
      rintro _ _ _ ⟨features, _, _, rfl, rfl, moduleCount, _, _, rfl, rfl, importCount, _, _, rfl,
        rfl, entry, rfl, rfl⟩
      rfl
  · rintro _ _ _ ⟨found, _, _, rfl, rfl, hheader⟩
    exact hheader

theorem readsOnly_fingerprintDecoder :
    ReadsOnly fingerprintDecoder fun _ bytes f => bytes = f.bytes := by
  refine ((readsOnly_take Fingerprint.size).bind (R := fun read _ bytes f => bytes = [] ∧
    read = f.bytes) fun read => ?_).mono ?_
  · cases hread : Fingerprint.ofBytes? read with
    | none => exact readsOnly_throw _
    | some f =>
      refine (readsOnly_pure f).mono ?_
      rintro _ _ _ ⟨rfl, rfl⟩
      exact ⟨rfl, Fingerprint.bytes_of_ofBytes? hread⟩
  · rintro _ _ _ ⟨read, _, _, rfl, ⟨rfl, -⟩, rfl, rfl⟩
    exact List.append_nil _

end Header

end StackCode
