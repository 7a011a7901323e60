import StackCode.Proofs.Code.Emitted
import StackCode.Proofs.Disassembly.Format

/-!
# Disassembling is exact

The disassembler reads the images in the format and no others, and from what it gives the bytes of
the image can be written again.  Each part of an image is read from its written form only, so
reading takes the image apart as writing puts it together.  Two kinds of bytes are not kept: all
but the lowest bit of the flags of a function, and what lies between the import table and the first
function.

## Main definitions

* `Disassembly.Keeps`: what a disassembly keeps of the bytes of its image.

## Main results

* `decodeFunctions_eq_ok`, `Header.decode_eq_ok`, `disassemble_eq_ok`: what functions, headers and
  images are read from.
* `disassemble_exact`: which images are read, and what is kept of them.
-/

namespace StackCode

/-! ## Functions -/

/-- Reading operations off code gives operations that are written as the code. -/
theorem opsWritten_of_decodeOps {c : Cursor} {acc out : Array PlacedOp}
    (h : decodeOps c acc = .ok out) :
    ∃ ops, OpsWritten c.offset ops c.rest ∧ out = acc ++ ops := by
  fun_induction decodeOps c acc with
  | case1 c acc hend =>
    cases h
    have hrest : c.rest = [] := List.isEmpty_iff.mp hend
    exact ⟨[], hrest ▸ .nil _, by simp⟩
  | case2 => cases h
  | case3 c acc hend op c' hop ih =>
    obtain ⟨ops, hops, rfl⟩ := ih h
    obtain ⟨front, hrest, hoffset, hshape, hencode⟩ := Operation.readsOnly_operation c op c' hop
    rw [hoffset, (Operation.reads_encode hshape hencode).2] at hops
    exact ⟨⟨c.offset, op⟩ :: ops, hrest ▸ .cons hshape hencode hops, by simp⟩

/-- **What a function is read from.** -/
theorem decodeFunction_eq_ok {image : List UInt8} {start : Nat} {f : FunctionListing}
    (hstart : start ≤ image.length) :
    decodeFunction image start = .ok f ↔ f.ReadFrom start (image.drop start) := by
  rw [decodeFunction, Cursor.at?, if_pos hstart]
  constructor
  · intro h
    dsimp only at h
    split at h
    · cases h
    · rename_i descriptor c hdescriptor
      obtain ⟨_, hdrop, hoffset, flags, rfl, hflags⟩ :=
        Descriptor.readsOnly_decoder _ _ _ hdescriptor
      obtain ⟨out, hout, hpure⟩ := bind_eq_ok.mp h
      obtain ⟨ops, hops, rfl⟩ := opsWritten_of_decodeOps hout
      cases pure_eq_ok.mp hpure
      rw [hoffset] at hops
      exact ⟨rfl, flags, c.rest, hdrop, hflags, by simpa using hops⟩
  · rintro ⟨rfl, flags, code, hdrop, hflags, hops⟩
    have hdescriptor : Descriptor.decoder ⟨image.drop f.offset, f.offset⟩ =
        .ok f.descriptor ⟨code, f.offset + 4⟩ := by
      rw [hdrop]
      have hreads := Descriptor.decoder_reads_flags f.offset flags f.descriptor.maxStack
        f.descriptor.argSlots f.descriptor.localSlots code
      rwa [← hflags] at hreads
    dsimp only
    rw [hdescriptor]
    refine bind_eq_ok.mpr ⟨_, hops.decodeOps #[], ?_⟩
    simp [pure, Except.pure]

/-- **What functions are read from.** -/
theorem decodeFunctions_eq_ok {image : List UInt8} {floor : Nat} {offsets : List Nat}
    {functions : List FunctionListing} :
    decodeFunctions image floor offsets = .ok functions ↔
      OffsetsOrdered floor image.length offsets ∧
        List.Forall₂ (fun e (f : FunctionListing) => f.ReadFrom e.1 ((image.take e.2).drop e.1))
          (extents image.length offsets) functions := by
  induction offsets generalizing floor functions with
  | nil =>
    rw [decodeFunctions, extents, List.forall₂_nil_left_iff]
    constructor
    · rintro ⟨⟩
      exact ⟨offsetsOrdered_nil, rfl⟩
    · rintro ⟨-, rfl⟩
      rfl
  | cons start rest ih =>
    rw [decodeFunctions, offsetsOrdered_cons, extents, List.forall₂_cons_left_iff]
    dsimp only
    by_cases hbounds : floor ≤ start ∧ start ≤ rest.headD image.length ∧
        rest.headD image.length ≤ image.length
    · have hstart : start ≤ (image.take (rest.headD image.length)).length := by
        rw [List.length_take]
        omega
      rw [if_neg (by omega)]
      constructor
      · intro h
        obtain ⟨f, hf, h⟩ := bind_eq_ok.mp h
        obtain ⟨fs, hfs, hpure⟩ := bind_eq_ok.mp h
        cases pure_eq_ok.mp hpure
        obtain ⟨hordered, hrest⟩ := ih.mp hfs
        exact ⟨⟨hbounds, hordered⟩, f, fs, (decodeFunction_eq_ok hstart).mp hf, hrest, rfl⟩
      · rintro ⟨⟨-, hordered⟩, f, fs, hf, hrest, rfl⟩
        rw [(decodeFunction_eq_ok hstart).mpr hf, ih.mpr ⟨hordered, hrest⟩]
        rfl
    · rw [if_pos (by omega)]
      constructor
      · intro h
        cases h
      · rintro ⟨⟨hin, -⟩, -⟩
        exact absurd hin hbounds

/-! ## Headers and imports -/

namespace Header

/-- **What a header is read from.** -/
theorem decode_eq_ok {image : List UInt8} {h : Header} :
    decode image = .ok h ↔ ∃ rest, image = h.encode ++ rest := by
  constructor
  · intro hdecode
    obtain ⟨_, rest, himage, rfl⟩ := readsOnly_decoder.of_value hdecode
    exact ⟨rest, himage⟩
  · rintro ⟨rest, rfl⟩
    exact h.decode_encode_append rest

theorem importOffset_succ (i : Nat) : importOffset (i + 1) = importOffset i + 12 := by
  rw [importOffset, importOffset, Nat.succ_mul, ← Nat.add_assoc, Fingerprint.size]

/-- A slot of the import table holds the fingerprint read from it, and the next slot follows. -/
theorem drop_of_importAt {image : List UInt8} {i : Nat} {f : Fingerprint}
    (h : importAt image i = .ok f) :
    image.drop (importOffset i) = f.bytes ++ image.drop (importOffset (i + 1)) := by
  obtain ⟨c, hc, h⟩ := bind_eq_ok.mp h
  rw [Cursor.at?] at hc
  split at hc
  · cases hc
    obtain ⟨_, rest, hdrop, rfl⟩ := readsOnly_fingerprintDecoder.of_value h
    replace hdrop : image.drop (importOffset i) = f.bytes ++ rest := hdrop
    rw [hdrop, importOffset_succ, ← List.drop_drop, hdrop, List.drop_left' f.length_eq]
  · cases hc

/-- The slots of an import table, from one on, hold the fingerprints read from them. -/
theorem drop_of_importsAt {image : List UInt8} {i n : Nat} {imports : List Fingerprint}
    (h : List.Forall₂ (fun i f => importAt image i = .ok f) (List.range' i n) imports) :
    image.drop (importOffset i) = encodeImports imports ++ image.drop (importOffset (i + n)) := by
  induction n generalizing i imports with
  | zero =>
    cases h
    rfl
  | succ n ih =>
    rw [List.range'_succ, List.forall₂_cons_left_iff] at h
    obtain ⟨f, rest, hf, hrest, rfl⟩ := h
    have hcons : encodeImports (f :: rest) = f.bytes ++ encodeImports rest := List.flatMap_cons
    rw [drop_of_importAt hf, ih hrest, hcons, List.append_assoc, Nat.add_right_comm i 1 n,
      Nat.add_assoc i n 1]

end Header

/-! ## Images -/

/-- **What an image is read from.**  Each slot of the import table is found by its own offset;
together they are the bytes after the header. -/
theorem disassemble_eq_ok {image : List UInt8} {offsets : List Nat} {d : Disassembly} :
    disassemble image offsets = .ok d ↔
      d.imports.length = d.header.importCount.toNat ∧
      (∃ code, image = d.header.encode ++ (Header.encodeImports d.imports ++ code)) ∧
      OffsetsOrdered d.header.codeStart image.length offsets ∧
      List.Forall₂ (fun e (f : FunctionListing) => f.ReadFrom e.1 ((image.take e.2).drop e.1))
        (extents image.length offsets) d.functions := by
  constructor
  · intro h
    obtain ⟨header, hheader, h⟩ := bind_eq_ok.mp h
    obtain ⟨imports, himports, h⟩ := bind_eq_ok.mp h
    obtain ⟨functions, hfunctions, hpure⟩ := bind_eq_ok.mp h
    cases pure_eq_ok.mp hpure
    obtain ⟨rest, himage⟩ := Header.decode_eq_ok.mp (mapError_eq_ok.mp hheader)
    have hslots := mapM_eq_ok.mp (mapError_eq_ok.mp himports)
    have hcount : imports.length = header.importCount.toNat := by
      rw [← hslots.length_eq, List.length_range]
    refine ⟨hcount, ?_, decodeFunctions_eq_ok.mp hfunctions⟩
    rw [List.range_eq_range'] at hslots
    have htable := Header.drop_of_importsAt hslots
    have hrest : image.drop (Header.importOffset 0) = rest := by
      rw [himage]
      exact List.drop_left' header.length_encode
    exact ⟨_, himage.trans (congrArg _ (hrest.symm.trans htable))⟩
  · rintro ⟨hcount, ⟨code, himage⟩, hfunctions⟩
    exact disassemble_of_front hcount himage (decodeFunctions_eq_ok.mpr hfunctions)

/-- What a listing keeps of the bytes of a function. -/
structure FunctionListing.Lists (f : FunctionListing) (image : List UInt8) (start finish : Nat) :
    Prop where
  offset : f.offset = start
  descriptor : ∃ flags, ((image.take finish).drop start).take 4 =
      [flags, f.descriptor.maxStack, f.descriptor.argSlots, f.descriptor.localSlots] ∧
    f.descriptor.zeroInit = (flags &&& 1 != 0)
  contiguous : Contiguous (start + 4) f.ops finish
  written : OpsWritten (start + 4) f.ops ((image.take finish).drop (start + 4))

theorem FunctionListing.ReadFrom.lists {f : FunctionListing} {image : List UInt8}
    {start finish : Nat} (h : f.ReadFrom start ((image.take finish).drop start))
    (hfinish : finish ≤ image.length) : f.Lists image start finish := by
  obtain ⟨hoffset, flags, code, hbytes, hflags, hops⟩ := h
  have hcode : (image.take finish).drop (start + 4) = code := by
    rw [← List.drop_drop, hbytes]
    rfl
  have hlength := congrArg List.length hbytes
  simp only [List.length_drop, List.length_take_of_le hfinish, List.length_cons] at hlength
  refine ⟨hoffset, ⟨flags, by rw [hbytes]; rfl, hflags⟩, ?_, hcode ▸ hops⟩
  rw [show finish = start + 4 + code.length by omega]
  exact hops.contiguous

/-- What a disassembly keeps of the bytes of its image. -/
structure Disassembly.Keeps (d : Disassembly) (image : List UInt8) (offsets : List Nat) : Prop where
  imports : d.imports.length = d.header.importCount.toNat
  front : image.take d.header.codeStart = d.header.encode ++ Header.encodeImports d.imports
  functions : List.Forall₂ (fun e (f : FunctionListing) => f.Lists image e.1 e.2)
    (extents image.length offsets) d.functions

/-- **Disassembling is exact.**  It reads the images in the format, and no others.  What it gives
accounts for the bytes of the header and the import table, and for those of every function but the
unused bits of its flags. -/
theorem disassemble_exact (image : List UInt8) (offsets : List Nat) :
    ((∃ d, disassemble image offsets = .ok d) ↔ InFormat image offsets) ∧
      ∀ d, disassemble image offsets = .ok d → d.Keeps image offsets := by
  refine ⟨⟨?_, ?_⟩, ?_⟩
  · rintro ⟨d, hd⟩
    obtain ⟨hcount, ⟨code, himage⟩, hordered, hfunctions⟩ := disassemble_eq_ok.mp hd
    refine inFormat_of_front hcount himage hordered fun e he => isFunction_iff.mpr ?_
    exact exists_forall₂_iff.mp ⟨_, hfunctions⟩ e he
  · intro h
    obtain ⟨header, imports, code, hcount, himage, hordered⟩ := h.exists_front
    obtain ⟨functions, hfunctions⟩ :=
      exists_forall₂_iff.mpr fun e he => isFunction_iff.mp (h.functions e he)
    exact ⟨⟨header, imports, functions⟩,
      disassemble_eq_ok.mpr ⟨hcount, ⟨code, himage⟩, hordered, hfunctions⟩⟩
  · intro d hd
    obtain ⟨hcount, ⟨code, himage⟩, hordered, hfunctions⟩ := disassemble_eq_ok.mp hd
    refine ⟨hcount, ?_, ?_⟩
    · rw [himage, ← List.append_assoc]
      exact List.take_left' (Header.length_front hcount)
    · -- Tiling needs that a function ends within the image, which its offset alone does not say.
      have hbounded := (List.forall₂_and_left _ _).mpr ⟨hordered.extents_le, hfunctions⟩
      exact hbounded.imp fun e f he => he.2.lists he.1

end StackCode
