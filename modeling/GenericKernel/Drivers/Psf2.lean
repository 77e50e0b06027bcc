import GenericKernel.Lib.Bytes
import GenericKernel.Lib.Fallible

/-!
# PSF2 bitmap fonts (`kernel-core/src/psf.rs`)

`parse` checks the header of a font file; `pixel` looks a character up and reads
one bit of its glyph. Every sum, product, index and slice is the checked one of
the source, and a scan that does not end counts as a panic.

* **model** — `parse`, `utf8SequenceLen`, `scan`, `glyphIndex`, `pixel`;
* **format** — `Accepts` and `fontOf` say which files are fonts and what they
  describe, with no order of checks (`parse_decides`);
* **result** — `pixel_inBounds`: no file and no Unicode table, however malformed,
  makes the renderer leave the bitmap of a glyph.
-/

namespace GenericKernel.Psf

open GenericKernel.Lib

/-! ## The model -/

def PSF2_MAGIC : Nat := 0x864ab572

def PSF2_HEADER_SIZE : Nat := 32

def PSF2_HAS_UNICODE_TABLE : Nat := 1

def MAX_DIMENSION : Nat := 64

def MAX_GLYPHS : Nat := 65536

inductive PsfError
  | tooSmall
  | badMagic
  | unsupportedVersion
  | invalidHeader
  | invalidDimensions
  | invalidGlyphCount
  | invalidCharSize
  | truncatedGlyphData
  deriving DecidableEq, Repr

@[ext] structure Psf2Font where
  data : Slice UInt8
  headerSize : Nat
  glyphCount : Nat
  charSize : Nat
  height : Nat
  width : Nat
  bytesPerRow : Nat
  flags : Nat
  glyphDataEnd : Nat

open Fallible

/-- `u32::from_le_bytes(data[offset..offset + 4].try_into().unwrap())` -/
def readU32 (data : Slice UInt8) (offset : Nat) : Fallible PsfError Nat := do
  let stop ← add offset 4
  let bytes ← data.range offset stop
  if bytes.length = 4 then ok (leNat bytes.items) else panic

/-- The first byte of a UTF-8 sequence tells its length. -/
def utf8SequenceLen (first : UInt8) : Option Nat :=
  if first ≤ 0x7f then some 1
  else if 0xc2 ≤ first ∧ first ≤ 0xdf then some 2
  else if 0xe0 ≤ first ∧ first ≤ 0xef then some 3
  else if 0xf0 ≤ first ∧ first ≤ 0xf4 then some 4
  else none

/-- `str::from_utf8(bytes).ok()` and the first of its characters. -/
def firstChar (bytes : Slice UInt8) : Option Char :=
  (String.fromUTF8? ⟨bytes.items.toArray⟩).bind fun text => text.toList.head?

namespace Psf2Font

def parse (data : Slice UInt8) : Fallible PsfError Psf2Font := do
  reject (data.length < PSF2_HEADER_SIZE) .tooSmall
  let magic ← readU32 data 0
  reject (magic ≠ PSF2_MAGIC) .badMagic
  let version ← readU32 data 4
  reject (version ≠ 0) .unsupportedVersion
  let headerSize ← readU32 data 8
  let flags ← readU32 data 12
  let glyphCount ← readU32 data 16
  let charSize ← readU32 data 20
  let height ← readU32 data 24
  let width ← readU32 data 28
  reject (headerSize < PSF2_HEADER_SIZE ∨ data.length < headerSize) .invalidHeader
  reject (width = 0 ∨ height = 0 ∨ MAX_DIMENSION < width ∨ MAX_DIMENSION < height)
    .invalidDimensions
  reject (glyphCount = 0 ∨ MAX_GLYPHS < glyphCount) .invalidGlyphCount
  let bytesPerRow := (width + 7) / 8
  let minimumCharSize ← ofOption .invalidCharSize (checkedMul bytesPerRow height)
  reject (charSize < minimumCharSize) .invalidCharSize
  let glyphBytes ← ofOption .truncatedGlyphData (checkedMul glyphCount charSize)
  let glyphDataEnd ← ofOption .truncatedGlyphData (checkedAdd headerSize glyphBytes)
  reject (data.length < glyphDataEnd) .truncatedGlyphData
  ok { data, headerSize, glyphCount, charSize, height, width, bytesPerRow, flags, glyphDataEnd }

/-- The loop of `unicode_glyph_index`: `error ()` is the source's `None`. A round
consumes at least one byte of the table. -/
def scan (table : Slice UInt8) (glyphCount : Nat) (character : Char) :
    Nat → Nat → Nat → Fallible Unit Nat
  | 0, _, _ => panic
  | rounds + 1, glyph, position =>
      if glyph < glyphCount ∧ position < table.length then do
        let first ← table.index position
        if first = 0xff then
          let glyph ← add glyph 1
          let position ← add position 1
          scan table glyphCount character rounds glyph position
        else if first = 0xfe then
          let position ← add position 1
          scan table glyphCount character rounds glyph position
        else
          let width ← ofOption () (utf8SequenceLen first)
          let stop ← ofOption () (checkedAdd position width)
          let bytes ← ofOption () (table.get? position stop)
          if firstChar bytes = some character then ok glyph
          else scan table glyphCount character rounds glyph stop
      else error ()

def unicodeGlyphIndex (font : Psf2Font) (character : Char) : Fallible Unit Nat := do
  let table ← ofOption () (font.data.get? font.glyphDataEnd font.data.length)
  scan table font.glyphCount character (table.length + 1) 0 0

/-- The glyph of a character that the Unicode table does not list. -/
def directGlyph (font : Psf2Font) (character : Char) : Nat :=
  if character.toNat < font.glyphCount then character.toNat
  else if '?'.toNat < font.glyphCount then '?'.toNat
  else 0

def glyphIndex (font : Psf2Font) (character : Char) : Fallible Empty Nat :=
  if font.flags &&& PSF2_HAS_UNICODE_TABLE ≠ 0 then
    match font.unicodeGlyphIndex character with
    | ok index => ok index
    | error () => ok (font.directGlyph character)
    | .panic => panic
  else ok (font.directGlyph character)

def pixel (font : Psf2Font) (character : Char) (x y : Nat) : Fallible Empty Bool :=
  if font.width ≤ x ∨ font.height ≤ y then ok false
  else do
    let glyph ← font.glyphIndex character
    let start ← add font.headerSize (← mul glyph font.charSize)
    let row ← add start (← mul y font.bytesPerRow)
    let byte ← font.data.index (← add row (x / 8))
    ok (byte &&& (0x80 >>> UInt8.ofNat (x % 8)) != 0)

end Psf2Font

/-! ## The format -/

/-- A PSF2 font file. -/
structure Accepts (data : List UInt8) : Prop where
  header : PSF2_HEADER_SIZE ≤ data.length
  magic : field data 0 4 = PSF2_MAGIC
  version : field data 4 4 = 0
  headerSize : PSF2_HEADER_SIZE ≤ field data 8 4 ∧ field data 8 4 ≤ data.length
  width : 0 < field data 28 4 ∧ field data 28 4 ≤ MAX_DIMENSION
  height : 0 < field data 24 4 ∧ field data 24 4 ≤ MAX_DIMENSION
  glyphCount : 0 < field data 16 4 ∧ field data 16 4 ≤ MAX_GLYPHS
  charSize : (field data 28 4 + 7) / 8 * field data 24 4 ≤ field data 20 4
  glyphs : field data 8 4 + field data 16 4 * field data 20 4 ≤ data.length

/-- The font that an accepted file describes. -/
def fontOf (data : Slice UInt8) : Psf2Font where
  data := data
  headerSize := field data.items 8 4
  glyphCount := field data.items 16 4
  charSize := field data.items 20 4
  height := field data.items 24 4
  width := field data.items 28 4
  bytesPerRow := (field data.items 28 4 + 7) / 8
  flags := field data.items 12 4
  glyphDataEnd := field data.items 8 4 + field data.items 16 4 * field data.items 20 4

section Parsing

variable {data : Slice UInt8}

theorem readU32_ok {offset : Nat} (h : offset + 4 ≤ data.length) :
    readU32 data offset = ok (field data.items offset 4) := by
  have hfits : data.length < wordSize := data.fits
  have hlen : (data.between offset (offset + 4)).length = 4 := by
    rw [Slice.length_between h]
    omega
  rw [readU32, add_of_lt (by omega), ok_bind, Slice.range_of_le (by omega) h, ok_bind, if_pos hlen]
  simp [Slice.between, field]

/-- The parser accepts exactly the format, and never panics. -/
theorem parse_decides (data : Slice UInt8) :
    Decides (Psf2Font.parse data) (Accepts data.items) (fontOf data) := by
  have hfits : data.length < wordSize := data.fits
  have hheader : PSF2_HEADER_SIZE = 32 := rfl
  have hlength : data.length = data.items.length := rfl
  apply Decides.congr
  · unfold Psf2Font.parse
    apply Decides.reject_bind
    intro hlong
    -- the header is there, so none of its eight fields can be missed
    have hread : ∀ offset, offset ≤ 28 → readU32 data offset = ok (field data.items offset 4) :=
      fun offset h => readU32_ok (by omega)
    simp only [hread 0 (by omega), hread 4 (by omega), hread 8 (by omega), hread 12 (by omega),
      hread 16 (by omega), hread 20 (by omega), hread 24 (by omega), hread 28 (by omega), ok_bind]
    apply Decides.reject_bind
    intro _
    apply Decides.reject_bind
    intro _
    apply Decides.reject_bind
    intro _
    apply Decides.reject_bind
    intro _
    apply Decides.reject_bind
    intro _
    apply Decides.checkedMul.bind
    intro _
    apply Decides.reject_bind
    intro _
    apply Decides.checkedMul.bind
    intro _
    apply Decides.checkedAdd.bind
    intro _
    apply Decides.reject_last
    intro _
    rfl
  · simp only [not_or, not_not, Nat.not_lt, hlength]
    constructor
    · rintro ⟨h₁, h₂, h₃, h₄, ⟨hw, hh, hw', hh'⟩, ⟨hg, hg'⟩, _, h₅, _, _, h₆⟩
      exact ⟨h₁, h₂, h₃, h₄, ⟨Nat.pos_of_ne_zero hw, hw'⟩, ⟨Nat.pos_of_ne_zero hh, hh'⟩,
        ⟨Nat.pos_of_ne_zero hg, hg'⟩, h₅, h₆⟩
    · rintro ⟨h₁, h₂, h₃, h₄, ⟨hw, hw'⟩, ⟨hh, hh'⟩, ⟨hg, hg'⟩, h₅, h₆⟩
      have hsize : field data.items 20 4 < 2 ^ 32 := field_lt _ _ _
      have hword : 2 ^ 32 < wordSize := lt_wordSize (by decide)
      exact ⟨h₁, h₂, h₃, h₄, ⟨hw.ne', hh.ne', hw', hh'⟩, ⟨hg.ne', hg'⟩, by omega, h₅, by omega,
        by omega, h₆⟩

end Parsing

/-! ## The scan of the Unicode table -/

theorem utf8SequenceLen_pos {first : UInt8} {width : Nat} (h : utf8SequenceLen first = some width) :
    0 < width := by
  unfold utf8SequenceLen at h
  split_ifs at h <;> simp_all <;> omega

namespace Psf2Font

/-- However malformed the table is, the scan ends: at no glyph, or at one of the
font's. -/
theorem scan_ends {table : Slice UInt8} {glyphCount : Nat} (hcount : glyphCount < wordSize)
    (character : Char) (rounds : Nat) : ∀ {glyph position : Nat}, position ≤ table.length →
    table.length < rounds + position →
    scan table glyphCount character rounds glyph position = error () ∨
      ∃ g < glyphCount, scan table glyphCount character rounds glyph position = ok g := by
  have hfits : table.length < wordSize := table.fits
  induction rounds with
  | zero =>
      intro glyph position hposition hrounds
      omega
  | succ rounds ih =>
      intro glyph position hposition hrounds
      rw [scan]
      by_cases hmore : glyph < glyphCount ∧ position < table.length
      · obtain ⟨hglyph, hin⟩ := hmore
        have hnext : (add position 1 : Fallible Unit Nat) = ok (position + 1) :=
          add_of_lt (by omega)
        rw [if_pos ⟨hglyph, hin⟩, Slice.index_eq_ok (List.getElem?_eq_getElem hin), ok_bind, hnext,
          add_of_lt (by omega)]
        generalize table.items[position] = first
        split_ifs with hff hfe
        · exact ih (by omega) (by omega)
        · exact ih (by omega) (by omega)
        · -- a code point: the scan goes on behind it, unless it does not lie in the table
          cases hwidth : utf8SequenceLen first with
          | none => exact .inl rfl
          | some width =>
              have hpos := utf8SequenceLen_pos hwidth
              by_cases hstop : position + width ≤ table.length
              · have hsum : checkedAdd position width = some (position + width) :=
                  checkedAdd_eq_some.mpr ⟨rfl, by omega⟩
                have hget := Slice.get?_of_le (Nat.le_add_right position width) hstop
                simp only [ofOption, ok_bind, hsum, hget]
                split_ifs with hfound
                · exact .inr ⟨glyph, hglyph, rfl⟩
                · exact ih hstop (by omega)
              · refine .inl ?_
                simp only [ofOption, ok_bind]
                cases hsum : checkedAdd position width with
                | none => rfl
                | some stop =>
                    obtain ⟨rfl, _⟩ := checkedAdd_eq_some.mp hsum
                    have hget : table.get? position (position + width) = none :=
                      if_neg fun h => hstop h.2
                    simp only [ok_bind, hget, error_bind]
      · rw [if_neg hmore]
        exact .inl rfl

/-- The bytes behind the glyphs. -/
def table (font : Psf2Font) : Slice UInt8 := font.data.between font.glyphDataEnd font.data.length

/-- What the checks of the parser leave for the renderer. -/
structure Sound (font : Psf2Font) : Prop where
  glyphCount_pos : 0 < font.glyphCount
  glyphCount_le : font.glyphCount ≤ MAX_GLYPHS
  bytesPerRow_eq : font.bytesPerRow = (font.width + 7) / 8
  glyph_le : font.bytesPerRow * font.height ≤ font.charSize
  end_eq : font.glyphDataEnd = font.headerSize + font.glyphCount * font.charSize
  end_le : font.glyphDataEnd ≤ font.data.length

theorem parse_sound {data : Slice UInt8} {font : Psf2Font} (h : parse data = ok font) :
    font.Sound := by
  obtain ⟨haccepts, rfl⟩ := (parse_decides data).eq_ok_iff.mp h
  exact ⟨haccepts.glyphCount.1, haccepts.glyphCount.2, rfl, haccepts.charSize, rfl,
    haccepts.glyphs⟩

namespace Sound

variable {font : Psf2Font}

theorem glyphCount_lt (h : font.Sound) : font.glyphCount < wordSize := by
  have hmax : MAX_GLYPHS < wordSize := lt_wordSize (by decide)
  exact lt_of_le_of_lt h.glyphCount_le hmax

theorem directGlyph_lt (h : font.Sound) (character : Char) :
    font.directGlyph character < font.glyphCount := by
  unfold directGlyph
  split_ifs with hdirect hquestion
  · exact hdirect
  · exact hquestion
  · exact h.glyphCount_pos

theorem unicodeGlyphIndex_eq (h : font.Sound) (character : Char) :
    font.unicodeGlyphIndex character =
      scan font.table font.glyphCount character (font.table.length + 1) 0 0 := by
  rw [unicodeGlyphIndex, Slice.get?_of_le h.end_le le_rfl]
  rfl

/-- Every character has a glyph of the font. -/
theorem glyphIndex_lt (h : font.Sound) (character : Char) :
    ∃ g < font.glyphCount, font.glyphIndex character = ok g := by
  have hdirect := h.directGlyph_lt character
  unfold glyphIndex
  split_ifs with hflag
  · rw [h.unicodeGlyphIndex_eq]
    rcases scan_ends h.glyphCount_lt character (font.table.length + 1) (Nat.zero_le _)
      (Nat.lt_succ_self _) with hscan | ⟨g, hg, hscan⟩
    · exact ⟨_, hdirect, by rw [hscan]⟩
    · exact ⟨g, hg, by rw [hscan]⟩
  · exact ⟨_, hdirect, rfl⟩

/-- The byte of a pixel lies in the bitmap of its glyph. -/
theorem offset_lt (h : font.Sound) {g x y : Nat} (hg : g < font.glyphCount) (hx : x < font.width)
    (hy : y < font.height) :
    font.headerSize + g * font.charSize + y * font.bytesPerRow + x / 8 < font.glyphDataEnd := by
  have hrow : y * font.bytesPerRow + x / 8 < font.charSize := by
    have hcolumn : x / 8 < font.bytesPerRow := by
      rw [h.bytesPerRow_eq]
      omega
    calc y * font.bytesPerRow + x / 8 < (y + 1) * font.bytesPerRow := by
          rw [Nat.add_mul, Nat.one_mul]
          omega
      _ ≤ font.height * font.bytesPerRow := Nat.mul_le_mul_right _ hy
      _ ≤ font.charSize := by
          rw [Nat.mul_comm]
          exact h.glyph_le
  have hglyph : (g + 1) * font.charSize ≤ font.glyphCount * font.charSize :=
    Nat.mul_le_mul_right _ hg
  rw [Nat.add_mul, Nat.one_mul] at hglyph
  rw [h.end_eq]
  omega

/-- The mask of a column selects its bit, the leftmost one highest. -/
theorem mask_testBit (byte : UInt8) (x : Nat) :
    (byte &&& (0x80 >>> UInt8.ofNat (x % 8)) != 0) = byte.toNat.testBit (7 - x % 8) := by
  have hx : x % 8 < 8 := Nat.mod_lt _ (by decide)
  generalize x % 8 = k at hx ⊢
  have hmask : (0x80 >>> UInt8.ofNat k : UInt8).toNat = 2 ^ (7 - k) := by
    interval_cases k <;> rfl
  have hzero : (byte &&& (0x80 >>> UInt8.ofNat k) != 0) =
      decide (byte.toNat &&& 2 ^ (7 - k) ≠ 0) := by
    rw [← hmask, ← UInt8.toNat_and, bne, Bool.eq_iff_iff]
    simp [← UInt8.toNat_inj]
  rw [hzero]
  exact flag_eq_testBit _ rfl

/-- A pixel of the glyph that the character is looked up to. -/
theorem pixel_eq (h : font.Sound) {character : Char} {g x y : Nat}
    (hglyph : font.glyphIndex character = ok g) (hg : g < font.glyphCount)
    (hx : x < font.width) (hy : y < font.height) :
    ∃ byte, font.data.items[font.headerSize + g * font.charSize + y * font.bytesPerRow + x / 8]? =
        some byte ∧ font.pixel character x y = ok (byte.toNat.testBit (7 - x % 8)) := by
  have hoffset := h.offset_lt hg hx hy
  have hend := h.end_le
  have hfits : font.data.length < wordSize := font.data.fits
  have hin : font.headerSize + g * font.charSize + y * font.bytesPerRow + x / 8 <
      font.data.items.length := lt_of_lt_of_le hoffset hend
  refine ⟨_, List.getElem?_eq_getElem hin, ?_⟩
  rw [pixel, if_neg (by omega), hglyph, ok_bind, mul_of_lt (by omega), ok_bind,
    add_of_lt (by omega), ok_bind, mul_of_lt (by omega), ok_bind, add_of_lt (by omega), ok_bind,
    add_of_lt (by omega), ok_bind, Slice.index_eq_ok (List.getElem?_eq_getElem hin), ok_bind,
    mask_testBit]

end Sound

/-- **Rendering stays in bounds**: no byte string makes the parser panic; and for
every font it accepts, every character has one glyph such that every pixel of the
character is a bit of that glyph's bitmap, which lies before the end of the glyph
data. Outside the glyph's box a pixel is off. -/
theorem pixel_inBounds (data : Slice UInt8) :
    parse data ≠ panic ∧ ∀ font, parse data = ok font →
      font.glyphDataEnd ≤ font.data.length ∧
      ∀ character, ∃ g < font.glyphCount, ∀ x y,
        (¬ (x < font.width ∧ y < font.height) → font.pixel character x y = ok false) ∧
        (x < font.width → y < font.height →
          font.headerSize + g * font.charSize + y * ((font.width + 7) / 8) + x / 8 <
            font.glyphDataEnd ∧
          ∃ byte, font.data.items[font.headerSize + g * font.charSize +
              y * ((font.width + 7) / 8) + x / 8]? = some byte ∧
            font.pixel character x y = ok (byte.toNat.testBit (7 - x % 8))) := by
  refine ⟨(parse_decides data).ne_panic, fun font hfont => ?_⟩
  have hsound := parse_sound hfont
  refine ⟨hsound.end_le, fun character => ?_⟩
  obtain ⟨g, hg, hglyph⟩ := hsound.glyphIndex_lt character
  refine ⟨g, hg, fun x y => ⟨fun hout => if_pos (by omega), fun hx hy => ?_⟩⟩
  rw [← hsound.bytesPerRow_eq]
  exact ⟨hsound.offset_lt hg hx hy, hsound.pixel_eq hglyph hg hx hy⟩

/-- A font of one glyph, eight pixels wide and one high, with the leftmost set. -/
def dotFont : Slice UInt8 where
  items := [0x72, 0xb5, 0x4a, 0x86, 0, 0, 0, 0, 32, 0, 0, 0, 0, 0, 0, 0,
    1, 0, 0, 0, 1, 0, 0, 0, 1, 0, 0, 0, 8, 0, 0, 0, 0x80]
  fits := by rw [wordSize]; decide

theorem pixel_inBounds_dotFont : parse dotFont = ok (fontOf dotFont) ∧
    (fontOf dotFont).pixel 'A' 0 0 = ok true := by
  have haccepts : Accepts dotFont.items := by constructor <;> decide
  have hparse : parse dotFont = ok (fontOf dotFont) := (parse_decides dotFont).accepts haccepts
  obtain ⟨-, hpixel⟩ := (pixel_inBounds dotFont).2 _ hparse
  obtain ⟨g, hg, hpixel⟩ := hpixel 'A'
  obtain ⟨-, byte, hbyte, hread⟩ := (hpixel 0 0).2 (by decide) (by decide)
  have hzero : g = 0 := Nat.lt_one_iff.mp hg
  rw [hzero] at hbyte
  have hdot : byte = 0x80 := Option.some_inj.mp (hbyte.symm.trans rfl)
  rw [hdot] at hread
  exact ⟨hparse, hread⟩

end Psf2Font

end GenericKernel.Psf
