import StackCode.Proofs.Disassembly.Written
import StackCode.Proofs.Image.Faithful

/-!
# The format of images

Which bytes are an image, said without reading them.  Code is any sequence of opcodes with whole
operands, a function is four bytes and code, and an image is a header, an import table and
functions that follow each other.  Bytes in the format are those that listings are written as.

## Main definitions

* `IsCode`, `IsFunction`: bytes that hold code, and a function.
* `extents`, `OffsetsOrdered`: where the functions of an image lie.
* `InFormat`: the images of which the functions start at these offsets.

## Main results

* `isCode_iff`, `isFunction_iff`: code and functions are what operations and listings are written
  as.
* `InFormat.exists_front`, `inFormat_of_front`: an image in the format starts with a header and the
  fingerprints of its imports.
-/

namespace StackCode

/-! ## Code -/

/-- Whether an operand of this shape is a displacement. -/
def Shape.isRelative : Shape → Bool
  | rel8 | rel16 => true
  | _ => false

/-- Bytes, from an offset on, that split into opcodes with whole operands.  No displacement leads
before the image. -/
inductive IsCode : Nat → List UInt8 → Prop
  | nil {start : Nat} : IsCode start []
  | cons {start : Nat} (o : Opcode) {operand rest : List UInt8}
      (hlength : operand.length = o.shape.length)
      (htarget : o.shape.isRelative = true →
        0 ≤ ((start + o.length : Nat) : Int) + LittleEndian.decodeInt operand)
      (hrest : IsCode (start + o.length) rest) : IsCode start (o.byte :: (operand ++ rest))

/-- Bytes of a length split into bytes of its summands. -/
theorem exists_append_of_length {bytes : List UInt8} {m n : Nat} (h : bytes.length = m + n) :
    ∃ front back, bytes = front ++ back ∧ front.length = m ∧ back.length = n :=
  ⟨bytes.take m, bytes.drop m, (List.take_append_drop m bytes).symm, by simp [h], by simp [h]⟩

theorem Token.exists_encode {bytes : List UInt8} (h : bytes.length = 3) :
    ∃ token : Token, token.encode = bytes := by
  obtain ⟨module, offset, rfl⟩ := List.exists_of_length_succ bytes h
  refine ⟨⟨module, UInt16.ofNat (LittleEndian.decode offset)⟩, congrArg (module :: ·) ?_⟩
  exact LittleEndian.encode_toUInt16 (Nat.succ.inj h)

namespace Operation

/-- Any bytes of the length of a shape are written for an operand, unless they are a displacement
that leads before the image. -/
theorem exists_encodeOperand {shape : Shape} {start : Nat} {bytes : List UInt8}
    (hlength : bytes.length = shape.length)
    (htarget : shape.isRelative = true →
      0 ≤ ((start + shape.length : Nat) : Int) + LittleEndian.decodeInt bytes) :
    ∃ operand : Operand Token Nat, operand.fits shape = true ∧
      encodeOperand shape (start + shape.length) operand = .ok bytes := by
  have hok {bytes' : List UInt8} (h : bytes' = bytes) :
      (.ok bytes' : Except Int (List UInt8)) = .ok bytes := congrArg _ h
  cases shape with
  | none =>
    obtain rfl := List.length_eq_zero_iff.mp hlength
    exact ⟨.none, rfl, rfl⟩
  | u8 =>
    obtain ⟨value, rfl⟩ := List.length_eq_one_iff.mp hlength
    exact ⟨.u8 value, rfl, rfl⟩
  | slot =>
    obtain ⟨value, rfl⟩ := List.length_eq_one_iff.mp hlength
    exact ⟨.slot value, rfl, rfl⟩
  | u16 => exact ⟨.u16 _, rfl, hok (LittleEndian.encode_toUInt16 hlength)⟩
  | offset => exact ⟨.offset _, rfl, hok (LittleEndian.encode_toUInt16 hlength)⟩
  | size => exact ⟨.size _, rfl, hok (LittleEndian.encode_toUInt16 hlength)⟩
  | i32 => exact ⟨.i32 _, rfl, hok (LittleEndian.encodeInt_toInt32 hlength)⟩
  | i64 => exact ⟨.i64 _, rfl, hok (LittleEndian.encodeInt_toInt64 hlength)⟩
  | f32 => exact ⟨.f32 _, rfl, hok (LittleEndian.encode_toUInt32 hlength)⟩
  | f64 => exact ⟨.f64 _, rfl, hok (LittleEndian.encode_toUInt64 hlength)⟩
  | token =>
    obtain ⟨token, htoken⟩ := Token.exists_encode hlength
    exact ⟨.func token, rfl, hok htoken⟩
  | tokenU8 =>
    obtain ⟨front, back, rfl, hfront, hback⟩ := exists_append_of_length (m := 3) (n := 1) hlength
    obtain ⟨token, rfl⟩ := Token.exists_encode hfront
    obtain ⟨slots, rfl⟩ := List.length_eq_one_iff.mp hback
    exact ⟨.funcSlots token slots, rfl, rfl⟩
  | slotCount =>
    obtain ⟨index, count, rfl⟩ := List.length_eq_two.mp hlength
    exact ⟨.slotCount index count, rfl, rfl⟩
  | offsetSize =>
    obtain ⟨front, back, rfl, hfront, hback⟩ := exists_append_of_length (m := 2) (n := 2) hlength
    refine ⟨.offsetSize (UInt16.ofNat (LittleEndian.decode front))
      (UInt16.ofNat (LittleEndian.decode back)), rfl, hok (congrArg₂ (· ++ ·) ?_ ?_)⟩
    · exact LittleEndian.encode_toUInt16 hfront
    · exact LittleEndian.encode_toUInt16 hback
  | rel8 | rel16 =>
    -- Every displacement of the width is in range, so the target alone decides.
    obtain ⟨target, htarget⟩ := Int.eq_ofNat_of_zero_le (htarget rfl)
    exact ⟨.target target, rfl, encodeDisplacement_decodeInt rfl hlength (by omega)⟩

/-- A displacement is written only for a target, so it leads back to one. -/
theorem relative_nonneg {shape : Shape} {finish : Nat} {operand : Operand Token Nat}
    {bytes : List UInt8} (hfits : operand.fits shape = true)
    (h : encodeOperand shape finish operand = .ok bytes) (hrelative : shape.isRelative = true) :
    0 ≤ (finish : Int) + LittleEndian.decodeInt bytes := by
  cases shape <;> cases hrelative
  · cases operand <;> cases hfits
    obtain ⟨hshort, rfl⟩ := encodeDisplacement_rel8 h
    obtain ⟨hlo, hhi⟩ := of_decide_eq_true hshort
    rw [LittleEndian.decodeInt_encodeInt hlo (Int.lt_add_one_of_le hhi)]
    omega
  · cases operand <;> cases hfits
    obtain ⟨hlong, rfl⟩ := encodeDisplacement_rel16 h
    obtain ⟨hlo, hhi⟩ := of_decide_eq_true hlong
    rw [LittleEndian.decodeInt_encodeInt hlo (Int.lt_add_one_of_le hhi)]
    omega

end Operation

/-- **Code is what operations are written as.** -/
theorem isCode_iff {start : Nat} {bytes : List UInt8} :
    IsCode start bytes ↔ ∃ ops, OpsWritten start ops bytes := by
  constructor
  · intro h
    induction h with
    | nil => exact ⟨[], .nil _⟩
    | @cons start o operand rest hlength htarget _ ih =>
      obtain ⟨ops, hops⟩ := ih
      rw [Opcode.length, ← Nat.add_assoc] at htarget
      obtain ⟨value, hfits, hvalue⟩ := Operation.exists_encodeOperand hlength htarget
      have hshape : Operation.WellShaped ⟨o, value⟩ := hfits
      have hencode : Operation.encode ⟨o, value⟩ start = .ok (o.byte :: operand) := by
        rw [Operation.encode, Opcode.length, ← Nat.add_assoc, hvalue]
        rfl
      exact ⟨⟨start, o, value⟩ :: ops, .cons hshape hencode hops⟩
  · rintro ⟨ops, h⟩
    induction h with
    | nil => exact .nil
    | @cons start op bytes rest ops hshape hop _ ih =>
      obtain ⟨operand, hoperand, hpure⟩ := bind_eq_ok.mp hop
      cases pure_eq_ok.mp hpure
      exact .cons op.opcode (Operation.length_encodeOperand hshape hoperand)
        (Operation.relative_nonneg hshape hoperand) ih

/-! ## Functions -/

/-- Bytes at an offset that hold a descriptor and code. -/
def IsFunction (start : Nat) (bytes : List UInt8) : Prop :=
  ∃ descriptor code, bytes = descriptor ++ code ∧ descriptor.length = 4 ∧ IsCode (start + 4) code

/-- The bytes at an offset from which a function is read: its descriptor, where one bit of the
flags counts, and its operations. -/
def FunctionListing.ReadFrom (f : FunctionListing) (start : Nat) (bytes : List UInt8) : Prop :=
  f.offset = start ∧ ∃ flags code,
    bytes = flags :: f.descriptor.maxStack :: f.descriptor.argSlots :: f.descriptor.localSlots ::
      code ∧
    f.descriptor.zeroInit = (flags &&& 1 != 0) ∧ OpsWritten (start + 4) f.ops code

/-- **Functions are what listings are read from.** -/
theorem isFunction_iff {start : Nat} {bytes : List UInt8} :
    IsFunction start bytes ↔ ∃ f : FunctionListing, f.ReadFrom start bytes := by
  constructor
  · rintro ⟨descriptor, code, rfl, hlength, hcode⟩
    obtain ⟨ops, hops⟩ := isCode_iff.mp hcode
    obtain ⟨flags, tail, rfl⟩ := List.exists_of_length_succ descriptor hlength
    obtain ⟨maxStack, argSlots, localSlots, rfl⟩ := List.length_eq_three.mp (Nat.succ.inj hlength)
    exact ⟨⟨start, ⟨flags &&& 1 != 0, maxStack, argSlots, localSlots⟩, ops⟩, rfl, flags, code, rfl,
      rfl, hops⟩
  · rintro ⟨f, -, flags, code, rfl, -, hops⟩
    exact ⟨[_, _, _, _], code, rfl, rfl, isCode_iff.mpr ⟨_, hops⟩⟩

/-- From where to where the functions at these offsets reach. -/
def extents (length : Nat) : List Nat → List (Nat × Nat)
  | [] => []
  | start :: rest => (start, rest.headD length) :: extents length rest

/-- Offsets from `floor` to `length` that do not decrease. -/
structure OffsetsOrdered (floor length : Nat) (offsets : List Nat) : Prop where
  first : ∀ start ∈ offsets.head?, floor ≤ start
  sorted : offsets.Pairwise (· ≤ ·)
  bounded : ∀ start ∈ offsets, start ≤ length

theorem offsetsOrdered_nil {floor length : Nat} : OffsetsOrdered floor length [] :=
  ⟨by simp, .nil, by simp⟩

/-- Offsets are in order if the first function ends in the image, not before it starts, and the
others come after it. -/
theorem offsetsOrdered_cons {floor length start : Nat} {rest : List Nat} :
    OffsetsOrdered floor length (start :: rest) ↔
      (floor ≤ start ∧ start ≤ rest.headD length ∧ rest.headD length ≤ length) ∧
        OffsetsOrdered (rest.headD length) length rest := by
  cases rest with
  | nil =>
    constructor
    · rintro ⟨hfirst, -, hbounded⟩
      exact ⟨⟨hfirst start rfl, hbounded start (by simp), Nat.le_refl _⟩, offsetsOrdered_nil⟩
    · rintro ⟨⟨hfirst, hbounded, -⟩, -⟩
      exact ⟨by simpa using hfirst, by simp, by simpa using hbounded⟩
  | cons next rest =>
    constructor
    · rintro ⟨hfirst, hsorted, hbounded⟩
      obtain ⟨hstart, hsorted⟩ := List.pairwise_cons.mp hsorted
      obtain ⟨-, hbounded⟩ := List.forall_mem_cons.mp hbounded
      exact ⟨⟨hfirst start rfl, hstart next (by simp), hbounded next (by simp)⟩, by simp, hsorted,
        hbounded⟩
    · rintro ⟨⟨hfirst, hstart, hnext⟩, -, hsorted, hbounded⟩
      refine ⟨by simpa using hfirst, List.pairwise_cons.mpr ⟨?_, hsorted⟩, ?_⟩
      · intro x hx
        rcases List.mem_cons.mp hx with rfl | hx
        · exact hstart
        · exact Nat.le_trans hstart ((List.pairwise_cons.mp hsorted).1 x hx)
      · exact List.forall_mem_cons.mpr ⟨Nat.le_trans hstart hnext, hbounded⟩

theorem OffsetsOrdered.extents_le {floor length : Nat} {offsets : List Nat}
    (h : OffsetsOrdered floor length offsets) : ∀ e ∈ extents length offsets, e.2 ≤ length := by
  induction offsets generalizing floor with
  | nil => simp [extents]
  | cons start rest ih =>
    obtain ⟨⟨-, -, hfinish⟩, hrest⟩ := offsetsOrdered_cons.mp h
    exact List.forall_mem_cons.mpr ⟨hfinish, ih hrest⟩

/-! ## Images -/

namespace Header

/-- The entry field holds a call or no operations. -/
def IsEntryField (bytes : List UInt8) : Prop :=
  (∃ token : List UInt8, token.length = 3 ∧ bytes = Opcode.call.byte :: token) ∨
    bytes = List.replicate 4 Opcode.nop.byte

theorem isEntryField_iff {bytes : List UInt8} :
    IsEntryField bytes ↔ ∃ entry, bytes = encodeEntry entry := by
  constructor
  · rintro (⟨token, hlength, rfl⟩ | rfl)
    · obtain ⟨token, rfl⟩ := Token.exists_encode hlength
      exact ⟨some token, rfl⟩
    · exact ⟨none, rfl⟩
  · rintro ⟨token | _, rfl⟩
    · exact .inr rfl
    · exact .inl ⟨_, rfl, rfl⟩

/-- Any bytes in the import table are the bytes of fingerprints. -/
theorem exists_encodeImports {n : Nat} {bytes : List UInt8}
    (h : bytes.length = n * Fingerprint.size) :
    ∃ imports, imports.length = n ∧ bytes = encodeImports imports := by
  induction n generalizing bytes with
  | zero =>
    rw [Nat.zero_mul] at h
    exact ⟨[], rfl, List.length_eq_zero_iff.mp h⟩
  | succ n ih =>
    rw [Nat.succ_mul, Nat.add_comm] at h
    obtain ⟨front, back, rfl, hfront, hback⟩ := exists_append_of_length h
    obtain ⟨imports, rfl, rfl⟩ := ih hback
    exact ⟨⟨front, hfront⟩ :: imports, rfl, rfl⟩

end Header

/-- **The format of images**, of which the functions start at these offsets. -/
structure InFormat (image : List UInt8) (offsets : List Nat) : Prop where
  version : image[0]? = some 1
  entry : Header.IsEntryField ((image.drop 4).take 4)
  /-- The import table fits, and the functions come after it in order. -/
  imports : ∃ count : UInt8, image[3]? = some count ∧ 8 + count.toNat * 12 ≤ image.length ∧
    OffsetsOrdered (8 + count.toNat * 12) image.length offsets
  functions : ∀ e ∈ extents image.length offsets, IsFunction e.1 ((image.take e.2).drop e.1)

/-- An image in the format starts with a header and an import table.  Only an image of four bytes or
more has a byte that counts imports. -/
theorem InFormat.exists_front {image : List UInt8} {offsets : List Nat}
    (h : InFormat image offsets) :
    ∃ (header : Header) (imports : List Fingerprint) (code : List UInt8),
      imports.length = header.importCount.toNat ∧
      image = header.encode ++ (Header.encodeImports imports ++ code) ∧
      OffsetsOrdered header.codeStart image.length offsets := by
  obtain ⟨hversion, hentry, ⟨count, hcount, hfits, hordered⟩, -⟩ := h
  rcases image with _ | ⟨version, _ | ⟨features, _ | ⟨modules, _ | ⟨count', tail⟩⟩⟩⟩ <;>
    cases hcount
  cases hversion
  obtain ⟨entry, hentry⟩ := Header.isEntryField_iff.mp hentry
  replace hentry : tail.take 4 = Header.encodeEntry entry := hentry
  have hlength :
      (tail.drop 4).length = count.toNat * 12 + (tail.length - 4 - count.toNat * 12) := by
    simp only [List.length_cons] at hfits
    rw [List.length_drop]
    omega
  obtain ⟨table, code, htable, hslots, -⟩ := exists_append_of_length hlength
  obtain ⟨imports, himports, rfl⟩ := Header.exists_encodeImports hslots
  refine ⟨⟨⟨features⟩, modules, count, entry⟩, imports, code, himports, ?_, hordered⟩
  rw [← htable, Header.encode, ← hentry, List.append_assoc, List.take_append_drop]
  rfl

/-- An image that starts with a header and an import table is in the format if its functions
are. -/
theorem inFormat_of_front {header : Header} {imports : List Fingerprint} {code image : List UInt8}
    {offsets : List Nat} (hcount : imports.length = header.importCount.toNat)
    (himage : image = header.encode ++ (Header.encodeImports imports ++ code))
    (hordered : OffsetsOrdered header.codeStart image.length offsets)
    (hfunctions : ∀ e ∈ extents image.length offsets,
      IsFunction e.1 ((image.take e.2).drop e.1)) : InFormat image offsets := by
  refine ⟨by rw [himage]; rfl, ?_, ⟨header.importCount, by rw [himage]; rfl, ?_, hordered⟩,
    hfunctions⟩
  · refine Header.isEntryField_iff.mpr ⟨header.entry, ?_⟩
    have hentry : (Header.encodeEntry header.entry).length = 4 := by cases header.entry <;> rfl
    rw [himage, Header.encode]
    exact List.take_left' hentry
  · have hfront := Header.length_front hcount
    rw [himage, ← List.append_assoc, List.length_append, hfront]
    exact Nat.le_add_right _ _

end StackCode
