import GenericKernel.Lib.Raster
import GenericKernel.Lib.Word

/-!
# The framebuffer console (`arch/framebuffer.rs`)

`Console n` writes text into a buffer of `n` bytes. The rasters of the built-in fonts come from
the `noto_sans_mono_bitmap` crate and the bitmaps of loaded ones from `psf.rs`; here a font is
what `draw_glyph` reads of either.

A loop over pixels is the list of its `write_pixel` calls, made in order by `paint`. Sums and
products of cell coordinates stay below the width and the height of the screen, so they are
plain numbers; `saturating_mul` and `saturating_add` are kept.
-/

namespace GenericKernel.Framebuffer

open GenericKernel.Lib

def CELL_PADDING_X : Nat := 1

def CELL_PADDING_Y : Nat := 1

structure Color where
  r : UInt8
  g : UInt8
  b : UInt8
  deriving DecidableEq, Repr

def BACKGROUND : Color := ⟨0x00, 0x00, 0x00⟩

def DEFAULT_FG : Color := ⟨0xe6, 0xed, 0xf3⟩

def ACCENT : Color := ⟨0x55, 0xd1, 0x7a⟩

/-- One channel of `with_intensity`, in 16-bit arithmetic. -/
def scaled (channel intensity : UInt8) : UInt8 :=
  UInt8.ofNat (channel.toNat * intensity.toNat / 255)

def Color.withIntensity (color : Color) (intensity : UInt8) : Color :=
  ⟨scaled color.r intensity, scaled color.g intensity, scaled color.b intensity⟩

/-- A built-in font: its cell and the rasters of the crate, `fallback` being that of `?`. -/
structure FontPreset where
  glyphWidth : Nat
  glyphHeight : Nat
  getRaster : Char → Option (List (List UInt8))
  fallback : List (List UInt8)

def FontPreset.raster (preset : FontPreset) (character : Char) : List (List UInt8) :=
  (preset.getRaster character).getD preset.fallback

/-- A loaded font, as far as the console looks into it. -/
structure Psf2Glyphs where
  width : Nat
  height : Nat
  pixel : Char → Nat → Nat → Bool

inductive FontSelection where
  | builtin (preset : FontPreset)
  | psf2 (font : Psf2Glyphs)

def FontSelection.glyphWidth : FontSelection → Nat
  | .builtin preset => preset.glyphWidth
  | .psf2 font => font.width

def FontSelection.glyphHeight : FontSelection → Nat
  | .builtin preset => preset.glyphHeight
  | .psf2 font => font.height

def FontSelection.cellWidth (font : FontSelection) : Nat := font.glyphWidth + CELL_PADDING_X * 2

def FontSelection.cellHeight (font : FontSelection) : Nat := font.glyphHeight + CELL_PADDING_Y * 2

inductive PixelFormat where
  | rgb | bgr | u8 | unknown
  deriving DecidableEq

structure FrameBufferInfo extends Layout where
  pixelFormat : PixelFormat

/-! ## Pixels -/

section Pixels

variable {n : Nat}

/-- The four bytes of a colour. -/
def PixelFormat.encode (format : PixelFormat) (color : Color) : List UInt8 :=
  match format with
  | .rgb => [color.r, color.g, color.b, 0]
  | .bgr => [color.b, color.g, color.r, 0]
  | .u8 => [UInt8.ofNat ((color.r.toNat + color.g.toNat + color.b.toNat) / 3), 0, 0, 0]
  | .unknown => [color.r, color.g, color.b, 0]

def writePixel (info : FrameBufferInfo) (buffer : Vector UInt8 n) (x y : Nat) (color : Color) :
    Vector UInt8 n :=
  if info.width ≤ x ∨ info.height ≤ y then buffer
  else
    let pixel := saturatingAdd (saturatingMul y info.stride) x
    let offset := saturatingMul pixel info.bytesPerPixel
    if n ≤ offset then buffer
    else
      let encoded := info.pixelFormat.encode color
      let count := min (min info.bytesPerPixel encoded.length) (n - offset)
      splice buffer offset (encoded.take count)

/-- The arguments of one `write_pixel`. -/
structure Dot where
  x : Nat
  y : Nat
  color : Color

/-- A sequence of `write_pixel` calls. -/
def paint (info : FrameBufferInfo) (dots : List Dot) (buffer : Vector UInt8 n) : Vector UInt8 n :=
  dots.foldl (fun buffer dot => writePixel info buffer dot.x dot.y dot.color) buffer

/-- `for y in y0..y1 { for x in x0..x1 { … } }` in one colour. -/
def rectangle (x0 x1 y0 y1 : Nat) (color : Color) : List Dot :=
  (List.range' y0 (y1 - y0)).flatMap fun y =>
    (List.range' x0 (x1 - x0)).map fun x => ⟨x, y, color⟩

/-- The lit pixels of a glyph, in the order `draw_glyph` visits them. -/
def FontSelection.glyphDots (font : FontSelection) (character : Char) (foreground : Color)
    (originX originY : Nat) : List Dot :=
  match font with
  | .builtin preset =>
    (preset.raster character).zipIdx.flatMap fun (row, glyphY) =>
      row.zipIdx.filterMap fun (intensity, glyphX) =>
        if intensity = 0 then none
        else some ⟨originX + CELL_PADDING_X + glyphX, originY + CELL_PADDING_Y + glyphY,
          foreground.withIntensity intensity⟩
  | .psf2 font =>
    (List.range font.height).flatMap fun glyphY =>
      (List.range font.width).filterMap fun glyphX =>
        if font.pixel character glyphX glyphY then
          some ⟨originX + CELL_PADDING_X + glyphX, originY + CELL_PADDING_Y + glyphY, foreground⟩
        else none

end Pixels

/-! ## The console -/

structure Console (n : Nat) where
  buffer : Vector UInt8 n
  info : FrameBufferInfo
  column : Nat
  row : Nat
  columns : Nat
  rows : Nat
  foreground : Color
  font : FontSelection

namespace Console

variable {n : Nat}

def cellWidth (console : Console n) : Nat := console.font.cellWidth

def cellHeight (console : Console n) : Nat := console.font.cellHeight

def recalculateGrid (console : Console n) : Console n :=
  { console with
    columns := max (console.info.width / console.cellWidth) 1
    rows := max (console.info.height / console.cellHeight) 1
    column := 0
    row := 0 }

def setDefaultColor (console : Console n) : Console n := { console with foreground := DEFAULT_FG }

def setAccentColor (console : Console n) : Console n := { console with foreground := ACCENT }

def fillBackground (console : Console n) : Console n :=
  if BACKGROUND.r = 0 ∧ BACKGROUND.g = 0 ∧ BACKGROUND.b = 0 then
    { console with buffer := Vector.replicate n 0 }
  else
    let dots := rectangle 0 console.info.width 0 console.info.height BACKGROUND
    { console with buffer := paint console.info dots console.buffer }

def clear (console : Console n) : Console n :=
  { console.fillBackground with column := 0, row := 0 }

/-- A console on a buffer with a font: what `from_buffer` builds with its own font, and
`set_font_preset` and `load_psf2` with another. -/
def opened (buffer : Vector UInt8 n) (info : FrameBufferInfo) (foreground : Color)
    (font : FontSelection) : Console n :=
  (recalculateGrid ⟨buffer, info, 0, 0, 1, 1, foreground, font⟩).clear

def clearCell (console : Console n) (column row : Nat) : Console n :=
  let startX := column * console.cellWidth
  let startY := row * console.cellHeight
  let dots := rectangle startX (min (startX + console.cellWidth) console.info.width)
    startY (min (startY + console.cellHeight) console.info.height) BACKGROUND
  { console with buffer := paint console.info dots console.buffer }

def drawGlyph (console : Console n) (character : Char) (originX originY : Nat) : Console n :=
  let dots := console.font.glyphDots character console.foreground originX originY
  { console with buffer := paint console.info dots console.buffer }

def scroll (console : Console n) : Console n :=
  let bytesPerRow := saturatingMul console.info.stride console.info.bytesPerPixel
  let shift := saturatingMul console.cellHeight bytesPerRow
  let visible := min (saturatingMul console.info.height bytesPerRow) n
  if visible ≤ shift then console.clear
  else
    -- `copy_within(shift..visible, 0)`, then zeros up to `visible`
    { console with
      buffer := Layout.scrolled console.buffer shift visible
      row := console.rows - 1 }

def newline (console : Console n) : Console n :=
  let console := { console with column := 0 }
  if console.row + 1 < console.rows then { console with row := console.row + 1 }
  else console.scroll

/-- `write_character` on a character that is shown. -/
def writeGraphic (console : Console n) (character : Char) : Console n :=
  let console := if console.columns ≤ console.column then console.newline else console
  let x := console.column * console.cellWidth
  let y := console.row * console.cellHeight
  let console := console.drawGlyph character x y
  { console with column := console.column + 1 }

def writeTab (console : Console n) : Console n :=
  let spaces := 4 - console.column % 4
  (List.replicate spaces ' ').foldl writeGraphic console

/-- `char::is_control`. -/
def isControl (character : Char) : Bool :=
  character.toNat < 0x20 || (0x7f ≤ character.toNat && character.toNat ≤ 0x9f)

def writeCharacter (console : Console n) (character : Char) : Console n :=
  if character = '\n' then console.newline
  else if character = '\r' then { console with column := 0 }
  else if character = '\t' then console.writeTab
  else if ¬ isControl character then console.writeGraphic character
  else console

def writeByte (console : Console n) (byte : UInt8) : Console n :=
  if byte.toNat = 10 then console.newline
  else if byte.toNat = 13 then { console with column := 0 }
  else if byte.toNat = 9 then console.writeTab
  else if 0x20 ≤ byte.toNat ∧ byte.toNat ≤ 0x7e then
    console.writeCharacter (Char.ofNat byte.toNat)
  else console

def writeStr (console : Console n) (text : List Char) : Console n :=
  text.foldl writeCharacter console

def backspace (console : Console n) : Console n :=
  if 0 < console.column then
    let console := { console with column := console.column - 1 }
    console.clearCell console.column console.row
  else if 0 < console.row then
    let console := { console with row := console.row - 1, column := console.columns - 1 }
    console.clearCell console.column console.row
  else console

/-- What the kernel does with its console once the font is chosen. -/
inductive Action where
  | writeByte (byte : UInt8)
  | writeStr (text : List Char)
  | backspace
  | clear
  | setDefaultColor
  | setAccentColor

def step (console : Console n) : Action → Console n
  | .writeByte byte => console.writeByte byte
  | .writeStr text => console.writeStr text
  | .backspace => console.backspace
  | .clear => console.clear
  | .setDefaultColor => console.setDefaultColor
  | .setAccentColor => console.setAccentColor

def run (console : Console n) (actions : List Action) : Console n := actions.foldl step console

end Console

end GenericKernel.Framebuffer
