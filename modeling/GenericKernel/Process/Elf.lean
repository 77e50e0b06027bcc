import GenericKernel.Lib.Bytes
import GenericKernel.Lib.Fallible

/-!
# The ELF parser (`kernel-core/src/elf.rs`)

`parse` reads a little-endian ELF64 executable out of a byte slice: the header
checks in the order of the source, then one pass over the program headers.
Every sum, product, index and slice of the source is the checked one.

* **model** — `readU16`, `readU32`, `readU64`, `parseSegment`, `parseSegments`,
  `parse`;
* **format** — `programHeaders`, `ProgramHeader.Valid`, `Accepts` and `imageOf`
  say what an executable is and what it contains, with no order of checks;
* **result** — `parse_exact`: the parser accepts exactly that format.
-/

namespace GenericKernel.Process

open GenericKernel.Lib

/-! ## The model -/

def ELF_HEADER_SIZE : Nat := 64

def PROGRAM_HEADER_SIZE : Nat := 56

def PT_LOAD : Nat := 1

inductive ElfError
  | tooSmall
  | badMagic
  | unsupportedClass
  | unsupportedEndian
  | unsupportedVersion
  | unsupportedType
  | unsupportedMachine
  | invalidHeader
  | truncatedProgramHeaders
  | invalidSegment
  | truncatedSegment
  deriving DecidableEq, Repr

@[ext] structure LoadSegment where
  virtualAddress : Nat
  memorySize : Nat
  fileData : Slice UInt8
  readable : Bool
  writable : Bool
  executable : Bool
  alignment : Nat

structure ElfImage where
  entry : Nat
  segments : List LoadSegment

namespace ElfImage

open Fallible

/-- The body shared by `read_u16`, `read_u32` and `read_u64`. -/
def readLe (width : Nat) (data : Slice UInt8) (offset : Nat) : Fallible ElfError Nat := do
  let stop ← add offset width
  let bytes ← ofOption .invalidHeader (data.get? offset stop)
  let digits ← bytes.indices width
  ok (leNat digits)

def readU16 : Slice UInt8 → Nat → Fallible ElfError Nat := readLe 2

def readU32 : Slice UInt8 → Nat → Fallible ElfError Nat := readLe 4

def readU64 : Slice UInt8 → Nat → Fallible ElfError Nat := readLe 8

/-- `usize::try_from(value).map_err(|_| e)` -/
def tryUsize (e : ElfError) (value : Nat) : Fallible ElfError Nat :=
  if value < wordSize then ok value else error e

/-- The loop body behind the type check: one `PT_LOAD` header at `base`. -/
def parseSegment (data : Slice UInt8) (base : Nat) : Fallible ElfError LoadSegment := do
  let flags ← readU32 data (← add base 4)
  let offset ← tryUsize .invalidSegment (← readU64 data (← add base 8))
  let virtualAddress ← readU64 data (← add base 16)
  let fileSize ← tryUsize .invalidSegment (← readU64 data (← add base 32))
  let memorySize ← readU64 data (← add base 40)
  let alignment ← readU64 data (← add base 48)
  reject (memorySize < fileSize ∨
      (alignment ≠ 0 ∧ isPowerOfTwo alignment = false) ∨
      (1 < alignment ∧ virtualAddress % alignment ≠ offset % alignment)) .invalidSegment
  let stop ← ofOption .truncatedSegment (checkedAdd offset fileSize)
  reject (data.length < stop) .truncatedSegment
  let fileData ← data.range offset stop
  ok { virtualAddress, memorySize, fileData, alignment
       readable := flags &&& 4 ≠ 0
       writable := flags &&& 2 ≠ 0
       executable := flags &&& 1 ≠ 0 }

/-- The loop over the remaining header indices. -/
def parseSegments (data : Slice UInt8) (phoff phentsize : Nat) :
    List Nat → List LoadSegment → Fallible ElfError (List LoadSegment)
  | [], segments => ok segments
  | index :: rest, segments => do
      let base ← add phoff (← mul index phentsize)
      let kind ← readU32 data base
      if kind ≠ PT_LOAD then parseSegments data phoff phentsize rest segments
      else
        let segment ← parseSegment data base
        parseSegments data phoff phentsize rest (segments ++ [segment])

def parse (data : Slice UInt8) : Fallible ElfError ElfImage := do
  reject (data.length < ELF_HEADER_SIZE) .tooSmall
  let magic ← data.range 0 4
  reject (magic.items ≠ [0x7f, 0x45, 0x4c, 0x46]) .badMagic
  let classByte ← data.index 4
  reject (classByte ≠ 2) .unsupportedClass
  let endianByte ← data.index 5
  reject (endianByte ≠ 1) .unsupportedEndian
  let versionByte ← data.index 6
  reject (versionByte ≠ 1) .unsupportedVersion
  let type ← readU16 data 16
  reject (type ≠ 2) .unsupportedType
  let machine ← readU16 data 18
  reject (machine ≠ 62) .unsupportedMachine
  let version ← readU32 data 20
  reject (version ≠ 1) .unsupportedVersion
  let entry ← readU64 data 24
  let phoff ← tryUsize .invalidHeader (← readU64 data 32)
  let ehsize ← readU16 data 52
  let phentsize ← readU16 data 54
  let phnum ← readU16 data 56
  reject (ehsize < ELF_HEADER_SIZE ∨ phentsize ≠ PROGRAM_HEADER_SIZE) .invalidHeader
  let phbytes ← ofOption .truncatedProgramHeaders
    ((checkedMul phentsize phnum).bind fun bytes => checkedAdd phoff bytes)
  reject (data.length < phbytes) .truncatedProgramHeaders
  let segments ← parseSegments data phoff phentsize (List.range phnum) []
  reject (segments = []) .invalidSegment
  ok { entry, segments }

end ElfImage

/-! ## The format -/

/-- The fields of a program header that the loader reads. -/
structure ProgramHeader where
  kind : Nat
  flags : Nat
  offset : Nat
  virtualAddress : Nat
  fileSize : Nat
  memorySize : Nat
  alignment : Nat
  deriving DecidableEq, Repr

/-- The program header stored at `base`. -/
def programHeaderAt (data : List UInt8) (base : Nat) : ProgramHeader where
  kind := field data base 4
  flags := field data (base + 4) 4
  offset := field data (base + 8) 8
  virtualAddress := field data (base + 16) 8
  fileSize := field data (base + 32) 8
  memorySize := field data (base + 40) 8
  alignment := field data (base + 48) 8

/-- A loadable header of a file of `length` bytes. -/
structure ProgramHeader.Valid (header : ProgramHeader) (length : Nat) : Prop where
  fileSize_le : header.fileSize ≤ header.memorySize
  alignment_pow : header.alignment = 0 ∨ ∃ k, header.alignment = 2 ^ k
  congruent : 1 < header.alignment → header.virtualAddress ≡ header.offset [MOD header.alignment]
  inside : header.offset + header.fileSize ≤ length

/-- What a loadable header describes. -/
def ProgramHeader.segment (data : Slice UInt8) (header : ProgramHeader) : LoadSegment where
  virtualAddress := header.virtualAddress
  memorySize := header.memorySize
  fileData := data.between header.offset (header.offset + header.fileSize)
  readable := header.flags.testBit 2
  writable := header.flags.testBit 1
  executable := header.flags.testBit 0
  alignment := header.alignment

/-- The program-header table, in order. -/
def programHeaders (data : List UInt8) : List ProgramHeader :=
  (List.range (field data 56 2)).map fun i =>
    programHeaderAt data (field data 32 8 + i * PROGRAM_HEADER_SIZE)

/-- The loadable headers, in table order. -/
def loadHeaders (data : List UInt8) : List ProgramHeader :=
  (programHeaders data).filter fun header => header.kind = PT_LOAD

/-- A little-endian ELF64 version-1 x86_64 executable with loadable segments. -/
structure Accepts (data : List UInt8) : Prop where
  header : ELF_HEADER_SIZE ≤ data.length
  magic : data.take 4 = [0x7f, 0x45, 0x4c, 0x46]
  class64 : data[4]? = some 2
  littleEndian : data[5]? = some 1
  identVersion : data[6]? = some 1
  executable : field data 16 2 = 2
  x86_64 : field data 18 2 = 62
  version : field data 20 4 = 1
  headerSize : ELF_HEADER_SIZE ≤ field data 52 2
  entrySize : field data 54 2 = PROGRAM_HEADER_SIZE
  table : field data 32 8 + PROGRAM_HEADER_SIZE * field data 56 2 ≤ data.length
  loadable : loadHeaders data ≠ []
  valid : ∀ header ∈ loadHeaders data, header.Valid data.length

/-- The image an accepted file describes. -/
def imageOf (data : Slice UInt8) : ElfImage where
  entry := field data.items 24 8
  segments := (loadHeaders data.items).map fun header => header.segment data

/-! ## Reading fields -/

theorem field_lt_wordSize (data : List UInt8) (offset : Nat) : field data offset 8 < wordSize := by
  have := field_lt data offset 8
  rw [wordSize]
  exact this

/-- The condition of the source's segment check. -/
theorem ProgramHeader.valid_iff {header : ProgramHeader} {length : Nat}
    (hlength : length < wordSize) :
    header.Valid length ↔
      ¬ (header.memorySize < header.fileSize ∨
        (header.alignment ≠ 0 ∧ isPowerOfTwo header.alignment = false) ∨
        (1 < header.alignment ∧
          header.virtualAddress % header.alignment ≠ header.offset % header.alignment)) ∧
      header.offset + header.fileSize < wordSize ∧
      ¬ length < header.offset + header.fileSize := by
  have hpow : isPowerOfTwo header.alignment = false ↔ ¬ ∃ k, header.alignment = 2 ^ k := by
    rw [← isPowerOfTwo_iff, Bool.not_eq_true]
  rw [hpow]
  constructor
  · rintro ⟨hsize, halign, hcong, hin⟩
    refine ⟨?_, by omega, by omega⟩
    rintro (h | ⟨h0, h⟩ | ⟨h1, h⟩)
    · omega
    · exact h (halign.resolve_left h0)
    · exact h (hcong h1)
  · rintro ⟨hcheck, _, hin⟩
    push Not at hcheck
    obtain ⟨hsize, halign, hcong⟩ := hcheck
    exact ⟨hsize, or_iff_not_imp_left.mpr halign, hcong, by omega⟩

namespace ElfImage

open Fallible

variable {data : Slice UInt8}

/-- Inside the data a field is read without a check that can fail. -/
theorem readLe_ok {width offset : Nat} (h : offset + width ≤ data.length) :
    readLe width data offset = ok (field data.items offset width) := by
  have hfits : data.length < wordSize := data.fits
  have hlen : (data.between offset (offset + width)).length = width := by
    rw [Slice.length_between h]
    omega
  rw [readLe, add_of_lt (by omega), ok_bind, Slice.get?_of_le (by omega) h]
  simp only [ofOption, ok_bind]
  rw [Slice.indices_eq (by omega), ok_bind]
  simp [Slice.between, field, List.take_take]

theorem tryUsize_ok {e : ElfError} (offset : Nat) :
    tryUsize e (field data.items offset 8) = ok (field data.items offset 8) :=
  if_pos (field_lt_wordSize _ _)

/-- One loadable header inside the data: its segment, or an error. -/
theorem parseSegment_decides {base : Nat} (h : base + PROGRAM_HEADER_SIZE ≤ data.length) :
    Decides (parseSegment data base) ((programHeaderAt data.items base).Valid data.length)
      ((programHeaderAt data.items base).segment data) := by
  have hfits : data.length < wordSize := data.fits
  have hsize : PROGRAM_HEADER_SIZE = 56 := rfl
  -- no read of this header can fail
  have hread : ∀ i width, i + width ≤ 56 →
      readLe width data (base + i) = ok (field data.items (base + i) width) :=
    fun i width hi => readLe_ok (by omega)
  have hadd : ∀ i, i ≤ 48 → (add base i : Fallible ElfError Nat) = ok (base + i) :=
    fun i hi => add_of_lt (by omega)
  refine Decides.congr ?_ (ProgramHeader.valid_iff hfits).symm
  unfold parseSegment readU32 readU64
  simp only [hadd 4 (by omega), hadd 8 (by omega), hadd 16 (by omega), hadd 32 (by omega),
    hadd 40 (by omega), hadd 48 (by omega), ok_bind, hread 4 4 (by omega), hread 8 8 (by omega),
    hread 16 8 (by omega), hread 32 8 (by omega), hread 40 8 (by omega), hread 48 8 (by omega),
    tryUsize_ok]
  refine Decides.reject_bind fun _ => ?_
  refine Decides.checkedAdd.bind fun _ => ?_
  refine Decides.reject_last fun hin => ?_
  rw [Slice.range_of_le (by omega) (Nat.not_lt.mp hin), ok_bind]
  rw [flag_eq_testBit _ (show 4 = 2 ^ 2 from rfl), flag_eq_testBit _ (show 2 = 2 ^ 1 from rfl),
    flag_eq_testBit _ (show 1 = 2 ^ 0 from rfl)]
  rfl

/-- The headers of the table at `phoff` with the given indices. -/
def headersAt (data : Slice UInt8) (phoff : Nat) (indices : List Nat) : List ProgramHeader :=
  indices.map fun i => programHeaderAt data.items (phoff + i * PROGRAM_HEADER_SIZE)

/-- The loop over headers inside the data appends the segments of the loadable
ones, or fails when one of them is not valid. -/
theorem parseSegments_decides {phoff : Nat} (indices : List Nat) (segments : List LoadSegment)
    (h : ∀ i ∈ indices, phoff + (i + 1) * PROGRAM_HEADER_SIZE ≤ data.length) :
    Decides (parseSegments data phoff PROGRAM_HEADER_SIZE indices segments)
      (∀ header ∈ (headersAt data phoff indices).filter fun header => header.kind = PT_LOAD,
        header.Valid data.length)
      (segments ++ ((headersAt data phoff indices).filter fun header =>
        header.kind = PT_LOAD).map fun header => header.segment data) := by
  have hfits : data.length < wordSize := data.fits
  have hsize : PROGRAM_HEADER_SIZE = 56 := rfl
  induction indices generalizing segments with
  | nil => exact (Decides.of_ok (by simp [parseSegments, headersAt])).congr (by simp [headersAt])
  | cons index rest ih =>
      have hin := h index List.mem_cons_self
      have hrest := fun segments => ih segments fun i hi => h i (List.mem_cons_of_mem _ hi)
      rw [Nat.add_mul, Nat.one_mul, ← Nat.add_assoc] at hin
      have hhead : headersAt data phoff (index :: rest) =
          programHeaderAt data.items (phoff + index * PROGRAM_HEADER_SIZE) ::
            headersAt data phoff rest := rfl
      rw [hhead, parseSegments, mul_of_lt (by omega), ok_bind, add_of_lt (by omega), ok_bind,
        readU32, readLe_ok (by omega), ok_bind]
      generalize phoff + index * PROGRAM_HEADER_SIZE = base at hin ⊢
      have hkind : (programHeaderAt data.items base).kind = field data.items base 4 := rfl
      by_cases hload : field data.items base 4 = PT_LOAD
      · -- a loadable header: its segment is pushed and the loop goes on
        rw [List.filter_cons_of_pos (by simpa [hkind] using hload), if_neg (not_not.mpr hload)]
        have hnext := hrest (segments ++ [(programHeaderAt data.items base).segment data])
        rw [List.append_assoc] at hnext
        rw [List.forall_mem_cons]
        exact (parseSegment_decides hin).bind fun _ => hnext
      · rw [List.filter_cons_of_neg (by simpa [hkind] using hload), if_pos hload]
        exact hrest segments

/-- An identification byte with one accepted value. -/
theorem index_decides {i : Nat} {value : UInt8} {e : ElfError} {β : Type}
    {rest : Fallible ElfError β} {q : Prop} {b : β} (hi : i < data.length)
    (hf : data.items[i]? = some value → Decides rest q b) :
    Decides (do let byte ← data.index i; reject (byte ≠ value) e; rest)
      (data.items[i]? = some value ∧ q) b := by
  obtain ⟨byte, hbyte⟩ : ∃ byte, data.items[i]? = some byte := ⟨_, List.getElem?_eq_getElem hi⟩
  rw [Slice.index_eq_ok hbyte, ok_bind]
  rw [hbyte, Option.some_inj] at hf ⊢
  exact (Decides.reject_bind fun h => hf (not_not.mp h)).congr (by rw [not_not])

/-- A header field with one accepted value. -/
theorem field_decides {width offset value : Nat} {e : ElfError} {β : Type}
    {rest : Fallible ElfError β} {q : Prop} {b : β} (h : offset + width ≤ data.length)
    (hf : field data.items offset width = value → Decides rest q b) :
    Decides (do let x ← readLe width data offset; reject (x ≠ value) e; rest)
      (field data.items offset width = value ∧ q) b := by
  rw [readLe_ok h, ok_bind]
  exact (Decides.reject_bind fun h => hf (not_not.mp h)).congr (by rw [not_not])

/-- The table check of the source, whose product and sum are checked. -/
theorem table_decides {phoff phnum : Nat} {e : ElfError} {β : Type} {rest : Fallible ElfError β}
    {q : Prop} {b : β} (hf : phoff + PROGRAM_HEADER_SIZE * phnum ≤ data.length → Decides rest q b) :
    Decides (do
      let phbytes ← ofOption e ((checkedMul PROGRAM_HEADER_SIZE phnum).bind fun bytes =>
        checkedAdd phoff bytes)
      reject (data.length < phbytes) e
      rest) (phoff + PROGRAM_HEADER_SIZE * phnum ≤ data.length ∧ q) b := by
  have hfits : data.length < wordSize := data.fits
  have hsum : Decides (ofOption e ((checkedMul PROGRAM_HEADER_SIZE phnum).bind fun bytes =>
      checkedAdd phoff bytes)) (phoff + PROGRAM_HEADER_SIZE * phnum < wordSize)
      (phoff + PROGRAM_HEADER_SIZE * phnum) := by
    refine Decides.ofOption fun stop => ?_
    simp only [Option.bind_eq_some_iff, checkedMul_eq_some, checkedAdd_eq_some]
    constructor
    · rintro ⟨_, ⟨rfl, _⟩, rfl, h⟩
      exact ⟨h, rfl⟩
    · rintro ⟨h, rfl⟩
      exact ⟨_, ⟨rfl, by omega⟩, rfl, h⟩
  refine (hsum.bind fun _ => Decides.reject_bind fun h => hf (Nat.not_lt.mp h)).congr ?_
  rw [Nat.not_lt]
  constructor
  · exact And.right
  · rintro ⟨h, hq⟩
    exact ⟨by omega, h, hq⟩

/-- The parser accepts exactly the format, and never panics. -/
theorem parse_decides (data : Slice UInt8) :
    Decides (parse data) (Accepts data.items) (imageOf data) := by
  have hfits : data.length < wordSize := data.fits
  have hheader : ELF_HEADER_SIZE = 64 := rfl
  have hsize : PROGRAM_HEADER_SIZE = 56 := rfl
  apply Decides.congr
  · unfold parse readU16 readU32 readU64
    apply Decides.reject_bind
    intro hlong
    rw [Slice.range_of_le (by omega) (by omega), ok_bind]
    apply Decides.reject_bind
    intro _
    apply index_decides (by show _ < data.length; omega)
    intro _
    apply index_decides (by show _ < data.length; omega)
    intro _
    apply index_decides (by show _ < data.length; omega)
    intro _
    apply field_decides (by show _ ≤ data.length; omega)
    intro _
    apply field_decides (by show _ ≤ data.length; omega)
    intro _
    apply field_decides (by show _ ≤ data.length; omega)
    intro _
    simp only [readLe_ok (show 24 + 8 ≤ data.length by omega),
      readLe_ok (show 32 + 8 ≤ data.length by omega), readLe_ok (show 52 + 2 ≤ data.length by omega),
      readLe_ok (show 54 + 2 ≤ data.length by omega), readLe_ok (show 56 + 2 ≤ data.length by omega),
      ok_bind, tryUsize_ok]
    apply Decides.reject_bind
    intro hsizes
    obtain ⟨_, hentry⟩ := not_or.mp hsizes
    rw [not_not] at hentry
    rw [hentry]
    apply table_decides
    intro htable
    have hinside : ∀ i ∈ List.range (field data.items 56 2),
        field data.items 32 8 + (i + 1) * PROGRAM_HEADER_SIZE ≤ data.length := by
      intro i hi
      have hle : i + 1 ≤ field data.items 56 2 := List.mem_range.mp hi
      have := Nat.mul_le_mul_right PROGRAM_HEADER_SIZE hle
      rw [Nat.mul_comm] at htable
      omega
    apply (parseSegments_decides _ [] hinside).bind
    intro _
    apply Decides.reject_last
    intro _
    rfl
  · have hmagic : (data.between 0 4).items = data.items.take 4 := by simp [Slice.between]
    rw [hmagic, not_not, not_or, not_not, Nat.not_lt, Nat.not_lt, List.nil_append, List.map_eq_nil_iff]
    constructor
    · rintro ⟨h₁, h₂, h₃, h₄, h₅, h₆, h₇, h₈, ⟨h₉, h₁₀⟩, h₁₁, hvalid, hsome⟩
      exact ⟨h₁, h₂, h₃, h₄, h₅, h₆, h₇, h₈, h₉, h₁₀, h₁₁, hsome, hvalid⟩
    · rintro ⟨h₁, h₂, h₃, h₄, h₅, h₆, h₇, h₈, h₉, h₁₀, h₁₁, hsome, hvalid⟩
      exact ⟨h₁, h₂, h₃, h₄, h₅, h₆, h₇, h₈, ⟨h₉, h₁₀⟩, h₁₁, hvalid, hsome⟩

/-- For every byte string the parser returns without a panic, and it returns an
image exactly for an accepted file: the entry point and the segments of the
loadable headers, in table order. -/
theorem parse_exact (data : Slice UInt8) :
    parse data ≠ panic ∧
      ∀ image, parse data = ok image ↔ Accepts data.items ∧ image = imageOf data :=
  ⟨(parse_decides data).ne_panic, fun _ => (parse_decides data).eq_ok_iff⟩

end ElfImage

end GenericKernel.Process
