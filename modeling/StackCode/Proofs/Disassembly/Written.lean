import StackCode.Proofs.Image.Codec
import StackCode.Proofs.Sequencing

/-!
# Images that hold a listing

What it means that bytes hold a list of operations, a function, or the functions of an image, each
right after the one before.  Disassembling an image that holds a listing gives the listing back.

## Main definitions

* `OpsWritten`, `FunctionListing.Written`, `ListingsWritten`: bytes that hold operations, a
  function, and functions one after the other.
* `Disassembly.Written`: an image that holds a header, fingerprints and functions.

## Main results

* `Disassembly.Written.disassemble`: disassembling gives back what an image holds.
-/

namespace StackCode

/-- Bytes that hold operations one after the other from an offset on. -/
inductive OpsWritten : Nat → List PlacedOp → List UInt8 → Prop
  | nil (start : Nat) : OpsWritten start [] []
  | cons {start : Nat} {op : Operation Token Nat} {bytes rest : List UInt8} {ops : List PlacedOp}
      (hshape : op.WellShaped) (hop : op.encode start = .ok bytes)
      (hrest : OpsWritten (start + op.length) ops rest) :
      OpsWritten start (⟨start, op⟩ :: ops) (bytes ++ rest)

/-- Bytes that hold a function. -/
def FunctionListing.Written (f : FunctionListing) (bytes : List UInt8) : Prop :=
  ∃ code, OpsWritten (f.offset + Descriptor.size) f.ops code ∧ bytes = f.descriptor.encode ++ code

/-- Bytes that hold functions one after the other from an offset on. -/
inductive ListingsWritten : Nat → List FunctionListing → List UInt8 → Prop
  | nil (start : Nat) : ListingsWritten start [] []
  | cons {f : FunctionListing} {bytes rest : List UInt8} {fs : List FunctionListing}
      (hf : f.Written bytes) (hrest : ListingsWritten (f.offset + bytes.length) fs rest) :
      ListingsWritten f.offset (f :: fs) (bytes ++ rest)

/-- **Operations read back.** -/
theorem OpsWritten.decodeOps {start : Nat} {ops : List PlacedOp} {bytes : List UInt8}
    (h : OpsWritten start ops bytes) (acc : Array PlacedOp) :
    decodeOps ⟨bytes, start⟩ acc = .ok (acc ++ ops) := by
  induction h generalizing acc with
  | nil start =>
    have hend : Cursor.atEnd ⟨[], start⟩ = true := rfl
    rw [StackCode.decodeOps, if_pos hend]
    simp
  | @cons start op bytes rest ops hshape hop hrest ih =>
    obtain ⟨hreads, hlength⟩ := Operation.reads_encode hshape hop
    have hpos : 0 < bytes.length := by
      rw [hlength, Operation.length, Opcode.length]
      omega
    have hend : ¬ (Cursor.atEnd ⟨bytes ++ rest, start⟩ = true) := by
      obtain ⟨b, bs, rfl⟩ := List.exists_cons_of_length_pos hpos
      exact Bool.false_ne_true
    rw [StackCode.decodeOps, if_neg hend]
    split
    · rename_i e c' hrun
      rw [hreads rest] at hrun
      cases hrun
    · rename_i op' c' hrun
      rw [hreads rest] at hrun
      cases hrun
      rw [hlength, ih]
      simp

/-- A function reads back from the bytes it is held in. -/
theorem FunctionListing.Written.decodeFunction {f : FunctionListing} {front bytes : List UInt8}
    (h : f.Written bytes) (hfront : front.length = f.offset) :
    decodeFunction (front ++ bytes) f.offset = .ok f := by
  obtain ⟨code, hops, rfl⟩ := h
  have hcursor : Cursor.at? (front ++ (f.descriptor.encode ++ code)) f.offset =
      .ok ⟨f.descriptor.encode ++ code, f.offset⟩ := by
    rw [Cursor.at?, if_pos (by simp [hfront]), ← hfront, List.drop_left]
  have hcode : decodeOps ⟨code, f.offset + f.descriptor.encode.length⟩ #[] = .ok (#[] ++ f.ops) :=
    hops.decodeOps #[]
  rw [StackCode.decodeFunction, hcursor]
  dsimp only
  rw [Descriptor.decoder_reads f.descriptor code]
  dsimp only
  rw [hcode]
  simp [bind, Except.bind, pure, Except.pure]

/-- What follows a function starts where the function ends. -/
theorem ListingsWritten.headD_offset {start : Nat} {fs : List FunctionListing} {bytes : List UInt8}
    (h : ListingsWritten start fs bytes) :
    (fs.map FunctionListing.offset).headD (start + bytes.length) = start := by
  cases h <;> rfl

/-- **Functions read back**, each from its offset to that of the next. -/
theorem ListingsWritten.decodeFunctions {start floor : Nat} {fs : List FunctionListing}
    {front bytes : List UInt8} (h : ListingsWritten start fs bytes) (hfront : front.length = start)
    (hfloor : floor ≤ start) :
    decodeFunctions (front ++ bytes) floor (fs.map FunctionListing.offset) = .ok fs := by
  induction h generalizing front floor with
  | nil start => rfl
  | @cons f bytes rest fs hf hrest ih =>
    have hfinish : (fs.map FunctionListing.offset).headD (front ++ (bytes ++ rest)).length =
        f.offset + bytes.length := by
      have hhead := hrest.headD_offset
      rwa [show (front ++ (bytes ++ rest)).length = f.offset + bytes.length + rest.length by
        simp [hfront, Nat.add_assoc]]
    have htake : (front ++ (bytes ++ rest)).take (f.offset + bytes.length) = front ++ bytes := by
      rw [← List.append_assoc, ← hfront, ← List.length_append, List.take_left]
    have hbounds : ¬ (f.offset < floor ∨ f.offset + bytes.length < f.offset ∨
        (front ++ (bytes ++ rest)).length < f.offset + bytes.length) := by
      simp only [List.length_append]
      omega
    have hlength : (front ++ bytes).length = f.offset + bytes.length := by simp [hfront]
    have hnext := ih hlength (Nat.le_refl _)
    rw [List.append_assoc] at hnext
    rw [List.map_cons, StackCode.decodeFunctions, hfinish, if_neg hbounds, htake,
      hf.decodeFunction hfront, hnext]
    rfl

namespace Header

theorem decode_encode_append (h : Header) (rest : List UInt8) :
    decode (h.encode ++ rest) = .ok h := by
  rw [decode, Decoder.value, Cursor.start, decoder_reads h rest]

theorem fingerprintDecoder_reads {start : Nat} (f : Fingerprint) :
    Decoder.Reads fingerprintDecoder start f.bytes f := by
  have htake : Decoder.Reads (Decoder.take Fingerprint.size) start f.bytes f.bytes := by
    rw [Fingerprint.size, ← f.length_eq]
    exact Decoder.take_reads
  refine htake.andThen ?_
  rw [Fingerprint.ofBytes?_bytes]
  exact .pure

/-- The bytes of an import table. -/
def encodeImports (imports : List Fingerprint) : List UInt8 := imports.flatMap Fingerprint.bytes

theorem length_encodeImports (imports : List Fingerprint) :
    (encodeImports imports).length = imports.length * Fingerprint.size := by
  induction imports with
  | nil => rfl
  | cons f imports ih =>
    rw [encodeImports, List.flatMap_cons, List.length_append, f.length_eq, List.length_cons,
      Nat.succ_mul, Nat.add_comm]
    exact congrArg (· + _) ih

theorem importAt_encodeImports {imports : List Fingerprint} {front rest : List UInt8} {i : Nat}
    {f : Fingerprint} (hfront : front.length = size) (hf : imports[i]? = some f) :
    importAt (front ++ (encodeImports imports ++ rest)) i = .ok f := by
  obtain ⟨hi, rfl⟩ := List.getElem?_eq_some_iff.mp hf
  have hsplit : encodeImports imports = encodeImports (imports.take i) ++
      (imports[i].bytes ++ encodeImports (imports.drop (i + 1))) := by
    rw [encodeImports, encodeImports, encodeImports, ← List.flatMap_cons, ← List.flatMap_append,
      List.getElem_cons_drop, List.take_append_drop]
  have hoffset : (front ++ encodeImports (imports.take i)).length = importOffset i := by
    rw [List.length_append, length_encodeImports, List.length_take,
      Nat.min_eq_left (Nat.le_of_lt hi), hfront]
    rfl
  have hcursor : Cursor.at? (front ++ (encodeImports imports ++ rest)) (importOffset i) =
      .ok ⟨imports[i].bytes ++ (encodeImports (imports.drop (i + 1)) ++ rest), importOffset i⟩ := by
    rw [hsplit, List.append_assoc, List.append_assoc, ← List.append_assoc, Cursor.at?, ← hoffset,
      List.drop_left, if_pos (by simp)]
  rw [importAt, hcursor]
  show Decoder.value fingerprintDecoder _ = _
  rw [Decoder.value, fingerprintDecoder_reads imports[i] _]

theorem mapM_importAt_encodeImports {imports : List Fingerprint} {front rest : List UInt8} {n : Nat}
    (hfront : front.length = size) (hcount : imports.length = n) :
    (List.range n).mapM (importAt (front ++ (encodeImports imports ++ rest))) = .ok imports := by
  refine mapM_eq_ok.mpr (List.forall₂_iff_get.mpr ⟨by simp [hcount], fun i hi hi' => ?_⟩)
  rw [List.get_eq_getElem, List.getElem_range]
  exact importAt_encodeImports hfront (List.getElem?_eq_getElem hi')

end Header

/-- The functions start where the import table ends. -/
theorem Header.length_front {h : Header} {imports : List Fingerprint}
    (hcount : imports.length = h.importCount.toNat) :
    (h.encode ++ encodeImports imports).length = h.codeStart := by
  rw [List.length_append, length_encode, length_encodeImports, codeStart, importOffset, hcount]

/-- A header and an import table read back, whatever functions follow. -/
theorem disassemble_of_front {header : Header} {imports : List Fingerprint}
    {code image : List UInt8} {offsets : List Nat} {functions : List FunctionListing}
    (hcount : imports.length = header.importCount.toNat)
    (himage : image = header.encode ++ (Header.encodeImports imports ++ code))
    (hfunctions : decodeFunctions image header.codeStart offsets = .ok functions) :
    disassemble image offsets = .ok ⟨header, imports, functions⟩ := by
  subst himage
  refine bind_eq_ok.mpr ⟨header, mapError_eq_ok.mpr (header.decode_encode_append _), ?_⟩
  refine bind_eq_ok.mpr ⟨imports, mapError_eq_ok.mpr ?_, ?_⟩
  · exact Header.mapM_importAt_encodeImports header.length_encode hcount
  · exact bind_eq_ok.mpr ⟨functions, hfunctions, rfl⟩

/-- An image that holds a header, the fingerprints of its imports and its functions. -/
def Disassembly.Written (d : Disassembly) (image : List UInt8) : Prop :=
  d.header.importCount.toNat = d.imports.length ∧ ∃ code,
    ListingsWritten d.header.codeStart d.functions code ∧
      image = d.header.encode ++ (Header.encodeImports d.imports ++ code)

/-- **Disassembling gives back what an image holds.** -/
theorem Disassembly.Written.disassemble {d : Disassembly} {image : List UInt8}
    (h : d.Written image) :
    disassemble image (d.functions.map FunctionListing.offset) = .ok d := by
  obtain ⟨hcount, code, hcode, himage⟩ := h
  have hfunctions := hcode.decodeFunctions (Header.length_front hcount.symm) (Nat.le_refl _)
  rw [List.append_assoc, ← himage] at hfunctions
  exact disassemble_of_front hcount.symm himage hfunctions

end StackCode
