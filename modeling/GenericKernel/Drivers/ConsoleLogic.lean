import GenericKernel.Drivers.Console
import GenericKernel.Lib.Transition

/-!
# The console as a grid of characters

* `Grid` — what the console is for: a cell holds the character last written to it, lines move
  up when the cursor leaves the last one. `Grid.colorAt` is its picture.
* `Grid.console`, `Displays` — the console is that of a grid, with some framebuffer; so it is after
  every run (`Displays.run`).
* `Shows` — the framebuffer is the picture of the grid. Everything keeps it but `draw_glyph`,
  which lights pixels of the new glyph and erases none of the old one: it keeps `Shows` exactly
  when the new glyph covers the old (`Covered`).
-/

namespace GenericKernel.Framebuffer

open GenericKernel.Lib

variable {n : Nat}

/-! ## Pixels -/

/-- How many bytes of a pixel are written. -/
def FrameBufferInfo.depth (info : FrameBufferInfo) : Nat := min info.bytesPerPixel 4

def FrameBufferInfo.pixel (info : FrameBufferInfo) (buffer : Vector UInt8 n) (x y : Nat) :
    List UInt8 :=
  info.toLayout.pixel info.depth buffer x y

/-- The bytes of a pixel in this colour. -/
def FrameBufferInfo.encoded (info : FrameBufferInfo) (color : Color) : List UInt8 :=
  (info.pixelFormat.encode color).take info.depth

@[simp] theorem PixelFormat.length_encode (format : PixelFormat) (color : Color) :
    (format.encode color).length = 4 := by
  cases format <;> rfl

theorem FrameBufferInfo.encoded_background (info : FrameBufferInfo) :
    info.encoded BACKGROUND = List.replicate info.depth 0 := by
  have hzero : info.pixelFormat.encode BACKGROUND = List.replicate 4 0 := by
    cases info.pixelFormat <;> rfl
  rw [encoded, hzero, List.take_replicate, Nat.min_eq_left (show info.depth ≤ 4 from Nat.min_le_right _ _)]

theorem FrameBufferInfo.depth_le (info : FrameBufferInfo) : info.depth ≤ info.bytesPerPixel :=
  Nat.min_le_left _ _

section Paint

variable {info : FrameBufferInfo} (hfits : info.Fits n) (hn : n < wordSize)
include hfits hn

theorem pixel_writePixel (buffer : Vector UInt8 n) (color : Color) {x y x' y' : Nat}
    (hx' : x' < info.width) (hy' : y' < info.height) :
    info.pixel (writePixel info buffer x y color) x' y' =
      if x' = x ∧ y' = y then info.encoded color else info.pixel buffer x' y' := by
  unfold writePixel
  by_cases hout : info.width ≤ x ∨ info.height ≤ y
  · rw [if_pos hout, if_neg (by omega)]
  rw [if_neg hout]
  have hx : x < info.width := by omega
  have hy : y < info.height := by omega
  have hfit := hfits.offset_add_le hx hy
  have hbytes := hfits.bytes
  -- nothing saturates: the pixel's number is at most its offset, and that is in the buffer
  have hindex : y * info.stride + x ≤ info.toLayout.offset x y :=
    Nat.le_mul_of_pos_right _ hbytes
  have hadd : saturatingAdd (saturatingMul y info.stride) x = y * info.stride + x := by
    unfold saturatingAdd saturatingMul
    omega
  have hmul : saturatingMul (y * info.stride + x) info.bytesPerPixel = info.toLayout.offset x y := by
    show min (info.toLayout.offset x y) (wordSize - 1) = _
    omega
  simp only [hadd, hmul]
  rw [if_neg (by omega), PixelFormat.length_encode, Nat.min_eq_left (by omega)]
  exact hfits.pixel_splice buffer info.depth_le
    (by rw [List.length_take, PixelFormat.length_encode, FrameBufferInfo.depth]; omega) hx hy hx'

/-- After a sequence of writes that agree on the colour of a pixel. -/
theorem pixel_paint {dots : List Dot} {color : Color} {x y : Nat}
    (hx : x < info.width) (hy : y < info.height)
    (hsame : ∀ dot ∈ dots, dot.x = x → dot.y = y → dot.color = color) (buffer : Vector UInt8 n) :
    info.pixel (paint info dots buffer) x y =
      if ∃ dot ∈ dots, dot.x = x ∧ dot.y = y then info.encoded color
      else info.pixel buffer x y := by
  induction dots generalizing buffer with
  | nil => simp [paint]
  | cons dot dots ih =>
    show info.pixel (paint info dots (writePixel info buffer dot.x dot.y dot.color)) x y = _
    rw [ih (fun d hd => hsame d (List.mem_cons_of_mem _ hd)), pixel_writePixel hfits hn _ _ hx hy]
    by_cases hlater : ∃ d ∈ dots, d.x = x ∧ d.y = y
    · rw [if_pos hlater, if_pos]
      obtain ⟨d, hd, hat⟩ := hlater
      exact ⟨d, List.mem_cons_of_mem _ hd, hat⟩
    · rw [if_neg hlater]
      by_cases hat : x = dot.x ∧ y = dot.y
      · rw [if_pos hat, if_pos ⟨dot, List.mem_cons_self, hat.1.symm, hat.2.symm⟩,
          hsame dot List.mem_cons_self hat.1.symm hat.2.symm]
      · rw [if_neg hat, if_neg]
        rintro ⟨d, hd, hdx, hdy⟩
        rcases List.mem_cons.mp hd with rfl | hd
        · exact hat ⟨hdx.symm, hdy.symm⟩
        · exact hlater ⟨d, hd, hdx, hdy⟩

end Paint

theorem mem_rectangle {x0 x1 y0 y1 : Nat} {color : Color} {dot : Dot} :
    dot ∈ rectangle x0 x1 y0 y1 color ↔
      (x0 ≤ dot.x ∧ dot.x < x1) ∧ (y0 ≤ dot.y ∧ dot.y < y1) ∧ dot.color = color := by
  unfold rectangle
  simp only [List.mem_flatMap, List.mem_map, List.mem_range'_1]
  constructor
  · rintro ⟨y, hy, x, hx, rfl⟩
    exact ⟨by simp only; omega, by simp only; omega, rfl⟩
  · rintro ⟨hx, hy, rfl⟩
    exact ⟨dot.y, by omega, dot.x, by omega, rfl⟩

/-! ## Glyphs -/

/-- The colour a glyph gives one of its pixels, if it lights it. -/
def FontSelection.ink (font : FontSelection) (character : Char) (foreground : Color)
    (glyphX glyphY : Nat) : Option Color :=
  match font with
  | .builtin preset =>
    ((preset.raster character)[glyphY]?.bind (·[glyphX]?)).bind fun intensity =>
      if intensity = 0 then none else some (foreground.withIntensity intensity)
  | .psf2 font =>
    if glyphX < font.width ∧ glyphY < font.height ∧ font.pixel character glyphX glyphY then
      some foreground
    else none

/-- The glyph pixels lie inside `glyph_width` by `glyph_height`. -/
def FontSelection.Inside : FontSelection → Prop
  | .builtin preset => ∀ character, (preset.raster character).length ≤ preset.glyphHeight ∧
      ∀ row ∈ preset.raster character, row.length ≤ preset.glyphWidth
  | .psf2 _ => True

theorem FontSelection.Inside.ink {font : FontSelection} (h : font.Inside) {character : Char}
    {foreground color : Color} {gx gy : Nat}
    (hink : font.ink character foreground gx gy = some color) :
    gx < font.glyphWidth ∧ gy < font.glyphHeight := by
  cases font with
  | builtin preset =>
    simp only [FontSelection.ink, Option.bind_eq_some_iff] at hink
    obtain ⟨intensity, ⟨row, hrow, hcol⟩, -⟩ := hink
    obtain ⟨hheight, hwidth⟩ := h character
    have hy := (List.getElem?_eq_some_iff.mp hrow).1
    have hx := (List.getElem?_eq_some_iff.mp hcol).1
    have hw := hwidth row (List.mem_of_getElem? hrow)
    exact ⟨show gx < preset.glyphWidth by omega, show gy < preset.glyphHeight by omega⟩
  | psf2 font =>
    simp only [FontSelection.ink] at hink
    split at hink
    · rename_i hin
      exact ⟨hin.1, hin.2.1⟩
    · cases hink

theorem FontSelection.mem_glyphDots {font : FontSelection} {character : Char} {foreground : Color}
    {ox oy : Nat} {dot : Dot} :
    dot ∈ font.glyphDots character foreground ox oy ↔ ∃ gx gy,
      dot.x = ox + 1 + gx ∧ dot.y = oy + 1 + gy ∧
        font.ink character foreground gx gy = some dot.color := by
  cases font with
  | builtin preset =>
    simp only [glyphDots, ink, CELL_PADDING_X, CELL_PADDING_Y, List.mem_flatMap,
      List.mem_filterMap, List.mem_zipIdx_iff_getElem?, Prod.exists, Option.bind_eq_some_iff]
    constructor
    · rintro ⟨row, gy, hrow, intensity, gx, hcol, hdot⟩
      split at hdot
      · cases hdot
      · rename_i hlit
        obtain rfl := Option.some.inj hdot
        exact ⟨gx, gy, rfl, rfl, intensity, ⟨row, hrow, hcol⟩, if_neg hlit⟩
    · rintro ⟨gx, gy, hx, hy, intensity, ⟨row, hrow, hcol⟩, hlit⟩
      refine ⟨row, gy, hrow, intensity, gx, hcol, ?_⟩
      split at hlit
      · cases hlit
      · rename_i hne
        rw [if_neg hne, ← hx, ← hy, Option.some.inj hlit]
  | psf2 font =>
    simp only [glyphDots, ink, CELL_PADDING_X, CELL_PADDING_Y, List.mem_flatMap,
      List.mem_filterMap, List.mem_range]
    constructor
    · rintro ⟨gy, hgy, gx, hgx, hdot⟩
      split at hdot
      · rename_i hlit
        obtain rfl := Option.some.inj hdot
        exact ⟨gx, gy, rfl, rfl, if_pos ⟨hgx, hgy, hlit⟩⟩
      · cases hdot
    · rintro ⟨gx, gy, hx, hy, hlit⟩
      split at hlit
      · rename_i hin
        refine ⟨gy, hin.2.1, gx, hin.1, ?_⟩
        rw [if_pos hin.2.2, ← hx, ← hy, Option.some.inj hlit]
      · cases hlit

theorem FontSelection.cellWidth_pos (font : FontSelection) : 0 < font.cellWidth :=
  Nat.zero_lt_succ _

theorem FontSelection.cellHeight_pos (font : FontSelection) : 0 < font.cellHeight :=
  Nat.zero_lt_succ _

/-- The colour a glyph gives a pixel of its cell, the padding included. -/
def FontSelection.inkAt (font : FontSelection) (character : Char) (foreground : Color)
    (dx dy : Nat) : Option Color :=
  if dx = 0 ∨ dy = 0 then none else font.ink character foreground (dx - 1) (dy - 1)

/-- The place of a pixel in its cell. -/
theorem cell_div_mod {index size d : Nat} (hd : d < size) :
    (index * size + d) / size = index ∧ (index * size + d) % size = d := by
  rw [Nat.mul_comm, Nat.mul_add_div (by omega), Nat.div_eq_of_lt hd, Nat.mul_add_mod,
    Nat.mod_eq_of_lt hd]
  exact ⟨rfl, rfl⟩

/-- A glyph drawn at a cell stays in it. -/
theorem FontSelection.Inside.mem_glyphDots {font : FontSelection} (h : font.Inside)
    {character : Char} {foreground : Color} {column row : Nat} {dot : Dot} :
    dot ∈ font.glyphDots character foreground (column * font.cellWidth) (row * font.cellHeight) ↔
      (dot.x / font.cellWidth = column ∧ dot.y / font.cellHeight = row) ∧
        font.inkAt character foreground (dot.x % font.cellWidth) (dot.y % font.cellHeight) =
          some dot.color := by
  rw [FontSelection.mem_glyphDots]
  constructor
  · rintro ⟨gx, gy, hx, hy, hink⟩
    obtain ⟨hgx, hgy⟩ := h.ink hink
    obtain ⟨hxdiv, hxmod⟩ := @cell_div_mod column font.cellWidth (1 + gx)
      (by unfold cellWidth CELL_PADDING_X; omega)
    obtain ⟨hydiv, hymod⟩ := @cell_div_mod row font.cellHeight (1 + gy)
      (by unfold cellHeight CELL_PADDING_Y; omega)
    rw [hx, hy, Nat.add_assoc, Nat.add_assoc, hxdiv, hxmod, hydiv, hymod]
    refine ⟨⟨rfl, rfl⟩, ?_⟩
    rw [inkAt, if_neg (by omega), Nat.add_sub_cancel_left, Nat.add_sub_cancel_left, hink]
  · rintro ⟨⟨rfl, rfl⟩, hink⟩
    unfold inkAt at hink
    split at hink
    · cases hink
    · rename_i hpad
      have hxdiv := Nat.div_add_mod' dot.x font.cellWidth
      have hydiv := Nat.div_add_mod' dot.y font.cellHeight
      exact ⟨_, _, by omega, by omega, hink⟩

/-! ## The grid -/

structure Cell where
  character : Char
  color : Color

/-- The text the console is meant to show, and its cursor. -/
structure Grid where
  columns : Nat
  rows : Nat
  cell : Nat → Nat → Option Cell
  row : Nat
  column : Nat
  foreground : Color

namespace Grid

/-- Nothing written yet. -/
def clear (grid : Grid) : Grid := { grid with cell := fun _ _ => none, row := 0, column := 0 }

/-- The next line; below the last one the text moves up. -/
def newline (grid : Grid) : Grid :=
  if grid.row + 1 < grid.rows then { grid with row := grid.row + 1, column := 0 }
  else
    { grid with
      cell := fun row column => if row + 1 < grid.rows then grid.cell (row + 1) column else none
      column := 0 }

/-- A character that does not fit on the line goes to the next. -/
def wrapped (grid : Grid) : Grid :=
  if grid.columns ≤ grid.column then grid.newline else grid

/-- The cell under the cursor replaced. -/
def setCell (grid : Grid) (content : Option Cell) : Grid :=
  { grid with cell := fun row column =>
      if row = grid.row ∧ column = grid.column then content else grid.cell row column }

def writeGraphic (grid : Grid) (character : Char) : Grid :=
  let grid := grid.wrapped
  { grid.setCell (some ⟨character, grid.foreground⟩) with column := grid.column + 1 }

def writeTab (grid : Grid) : Grid :=
  (List.replicate (4 - grid.column % 4) ' ').foldl writeGraphic grid

def writeCharacter (grid : Grid) (character : Char) : Grid :=
  if character = '\n' then grid.newline
  else if character = '\r' then { grid with column := 0 }
  else if character = '\t' then grid.writeTab
  else if ¬ Console.isControl character then grid.writeGraphic character
  else grid

def writeStr (grid : Grid) (text : List Char) : Grid := text.foldl writeCharacter grid

/-- The text of a byte: itself, if it is a line end, a tab or printable ASCII. -/
def byteText (byte : UInt8) : List Char :=
  if byte.toNat = 9 ∨ byte.toNat = 10 ∨ byte.toNat = 13 ∨ (0x20 ≤ byte.toNat ∧ byte.toNat ≤ 0x7e)
  then [Char.ofNat byte.toNat] else []

def backspace (grid : Grid) : Grid :=
  if 0 < grid.column then ({ grid with column := grid.column - 1 }).setCell none
  else if 0 < grid.row then
    ({ grid with row := grid.row - 1, column := grid.columns - 1 }).setCell none
  else grid

def step (grid : Grid) : Console.Action → Grid
  | .writeByte byte => grid.writeStr (byteText byte)
  | .writeStr text => grid.writeStr text
  | .backspace => grid.backspace
  | .clear => grid.clear
  | .setDefaultColor => { grid with foreground := DEFAULT_FG }
  | .setAccentColor => { grid with foreground := ACCENT }

def run (grid : Grid) (actions : List Console.Action) : Grid := actions.foldl step grid

/-- The colour of a pixel of a cell. -/
def shade (font : FontSelection) (content : Option Cell) (dx dy : Nat) : Color :=
  match content with
  | none => BACKGROUND
  | some cell => (font.inkAt cell.character cell.color dx dy).getD BACKGROUND

/-- The picture of the grid: its cells side by side, background around them. -/
def colorAt (grid : Grid) (font : FontSelection) (x y : Nat) : Color :=
  if y / font.cellHeight < grid.rows ∧ x / font.cellWidth < grid.columns then
    shade font (grid.cell (y / font.cellHeight) (x / font.cellWidth))
      (x % font.cellWidth) (y % font.cellHeight)
  else BACKGROUND

end Grid

/-- The framebuffer is the picture of the grid. -/
def Shows (info : FrameBufferInfo) (font : FontSelection) (buffer : Vector UInt8 n) (grid : Grid) :
    Prop :=
  ∀ x < info.width, ∀ y < info.height,
    info.pixel buffer x y = info.encoded (grid.colorAt font x y)

/-- A framebuffer at least one cell wide and high. A Rust slice has less than `2^63` bytes. -/
structure Screen (n : Nat) (info : FrameBufferInfo) (font : FontSelection) : Prop where
  fits : info.Fits n
  length : 2 * n < wordSize
  wide : font.cellWidth ≤ info.width
  high : font.cellHeight ≤ info.height
  inside : font.Inside

/-- A grid of the screen's size, with the cursor on it. -/
structure Grid.On (info : FrameBufferInfo) (font : FontSelection) (grid : Grid) : Prop where
  columns : grid.columns = info.width / font.cellWidth
  rows : grid.rows = info.height / font.cellHeight
  row : grid.row < grid.rows
  column : grid.column ≤ grid.columns

/-- The console of a grid, with any framebuffer. -/
def Grid.console (grid : Grid) (info : FrameBufferInfo) (font : FontSelection)
    (buffer : Vector UInt8 n) : Console n :=
  ⟨buffer, info, grid.column, grid.row, grid.columns, grid.rows, grid.foreground, font⟩

/-- Every pixel of the old cell that differs from the background is lit by the new glyph. -/
def Covered (info : FrameBufferInfo) (font : FontSelection) (old : Option Cell) (character : Char)
    (foreground : Color) : Prop :=
  ∀ dx < font.cellWidth, ∀ dy < font.cellHeight,
    font.inkAt character foreground dx dy = none →
      info.encoded (Grid.shade font old dx dy) = info.encoded BACKGROUND

variable {info : FrameBufferInfo} {font : FontSelection} {buffer : Vector UInt8 n} {grid : Grid}

theorem Grid.On.newline (h : grid.On info font) : grid.newline.On info font := by
  unfold Grid.newline
  split
  · exact ⟨h.columns, h.rows, ‹_›, Nat.zero_le _⟩
  · exact ⟨h.columns, h.rows, h.row, Nat.zero_le _⟩

namespace Screen

variable (h : Screen n info font)
include h

theorem columns_pos : 0 < info.width / font.cellWidth := Nat.div_pos h.wide font.cellWidth_pos

theorem rows_pos : 0 < info.height / font.cellHeight := Nat.div_pos h.high font.cellHeight_pos

/-- A blank screen shows a grid without text. -/
theorem shows_clear (grid : Grid) : Shows info font (Vector.replicate n 0) grid.clear := by
  intro x hx y hy
  have hblank : grid.clear.colorAt font x y = BACKGROUND := by
    unfold Grid.colorAt
    split <;> rfl
  rw [hblank, FrameBufferInfo.encoded_background]
  exact h.fits.pixel_replicate 0 info.depth_le hx hy

/-- The byte counts of a scroll do not saturate. -/
theorem scroll_exact {lines : Nat} (hlines : lines ≤ info.height) :
    saturatingMul lines (saturatingMul info.stride info.bytesPerPixel) =
      lines * (info.stride * info.bytesPerPixel) := by
  have hlen := h.length
  have hhigh : 2 ≤ info.height := Nat.le_trans (Nat.le_add_left 2 _) h.high
  -- all lines but the last are in the buffer, and the last is no longer than the others
  have hlast : (info.height - 1) * (info.stride * info.bytesPerPixel) ≤ n :=
    calc (info.height - 1) * (info.stride * info.bytesPerPixel)
        = (info.height - 1) * info.stride * info.bytesPerPixel := by ring
      _ ≤ ((info.height - 1) * info.stride + info.width) * info.bytesPerPixel :=
          Nat.mul_le_mul_right _ (Nat.le_add_right _ _)
      _ ≤ n := h.fits.covers
  have hone : info.stride * info.bytesPerPixel ≤ n :=
    Nat.le_trans (Nat.le_mul_of_pos_left _ (by omega)) hlast
  have hall : lines * (info.stride * info.bytesPerPixel) ≤ 2 * n :=
    calc lines * (info.stride * info.bytesPerPixel)
        ≤ (info.height - 1 + 1) * (info.stride * info.bytesPerPixel) :=
          Nat.mul_le_mul_right _ (by omega)
      _ = (info.height - 1) * (info.stride * info.bytesPerPixel) +
            info.stride * info.bytesPerPixel := by ring
      _ ≤ 2 * n := by omega
  have hinner : saturatingMul info.stride info.bytesPerPixel = info.stride * info.bytesPerPixel := by
    unfold saturatingMul
    omega
  rw [hinner]
  unfold saturatingMul
  omega

/-- A screen that a scroll would leave empty is one cell high. -/
theorem height_eq_cell (hshift : min (info.height * (info.stride * info.bytesPerPixel)) n ≤
      font.cellHeight * (info.stride * info.bytesPerPixel)) : info.height = font.cellHeight := by
  have hcell := font.cellWidth_pos
  have hwide := h.wide
  have hstride := h.fits.stride
  have hpos : 0 < info.stride * info.bytesPerPixel := Nat.mul_pos (by omega) h.fits.bytes
  refine Nat.le_antisymm (Nat.le_of_not_lt fun hlt => ?_) h.high
  have hbig : font.cellHeight * (info.stride * info.bytesPerPixel) <
      min (info.height * (info.stride * info.bytesPerPixel)) n := by
    refine Nat.lt_min.mpr ⟨Nat.mul_lt_mul_of_pos_right hlt hpos, ?_⟩
    have hlines : font.cellHeight * info.stride ≤ (info.height - 1) * info.stride :=
      Nat.mul_le_mul_right _ (by omega)
    calc font.cellHeight * (info.stride * info.bytesPerPixel)
        = font.cellHeight * info.stride * info.bytesPerPixel := by ring
      _ < ((info.height - 1) * info.stride + info.width) * info.bytesPerPixel :=
          Nat.mul_lt_mul_of_pos_right (by omega) h.fits.bytes
      _ ≤ n := h.fits.covers
  omega

/-- Below the last row, `newline` moves the picture up by one cell. -/
theorem newline_scrolls (hon : grid.On info font) (hlast : ¬ grid.row + 1 < grid.rows)
    (buffer : Vector UInt8 n) :
    ∃ buffer', (grid.console info font buffer).newline = grid.newline.console info font buffer' ∧
      ∀ x < info.width, ∀ y < info.height, info.pixel buffer' x y =
        if y + font.cellHeight < info.height then info.pixel buffer x (y + font.cellHeight)
        else info.encoded BACKGROUND := by
  have hrow : grid.row = grid.rows - 1 := by have := hon.row; omega
  have hnewline : (grid.console info font buffer).newline =
      ({ grid with column := 0 }.console info font buffer).scroll := if_neg hlast
  rw [hnewline, Grid.newline, if_neg hlast]
  unfold Console.scroll
  simp only [Console.cellHeight, Grid.console, h.scroll_exact h.high,
    h.scroll_exact (Nat.le_refl info.height)]
  split
  · rename_i hsmall
    -- nothing would be left, and the code clears the screen
    have hheight := h.height_eq_cell hsmall
    have hzero : grid.row = 0 := by
      rw [hrow, hon.rows, hheight, Nat.div_self font.cellHeight_pos]
    refine ⟨Vector.replicate n 0, ?_, fun x hx y hy => ?_⟩
    · rw [hzero]
      rfl
    · rw [if_neg (by omega), FrameBufferInfo.encoded_background]
      exact h.fits.pixel_replicate 0 info.depth_le hx hy
  · refine ⟨_, by rw [hrow], fun x hx y hy => ?_⟩
    rw [FrameBufferInfo.encoded_background]
    exact h.fits.pixel_scrolled buffer info.depth_le hx hy

omit h in
/-- The picture moved up is that of the grid with its lines moved up. -/
theorem shows_scrolled {buffer' : Vector UInt8 n} (hon : grid.On info font)
    (hlast : ¬ grid.row + 1 < grid.rows) (hshows : Shows info font buffer grid)
    (hpixel : ∀ x < info.width, ∀ y < info.height, info.pixel buffer' x y =
      if y + font.cellHeight < info.height then info.pixel buffer x (y + font.cellHeight)
      else info.encoded BACKGROUND) : Shows info font buffer' grid.newline := by
  rw [Grid.newline, if_neg hlast]
  intro x hx y hy
  refine (hpixel x hx y hy).trans ?_
  have hnext : (y + font.cellHeight) / font.cellHeight = y / font.cellHeight + 1 :=
    Nat.add_div_right _ font.cellHeight_pos
  split
  -- the line below was on the screen
  · rename_i hbelow
    rw [hshows x hx _ hbelow]
    unfold Grid.colorAt
    rw [hnext, Nat.add_mod_right]
    simp only
    by_cases hrow : y / font.cellHeight + 1 < grid.rows
    · by_cases hcolumn : x / font.cellWidth < grid.columns
      · rw [if_pos ⟨hrow, hcolumn⟩, if_pos ⟨by omega, hcolumn⟩, if_pos hrow]
      · rw [if_neg (fun hin => hcolumn hin.2), if_neg (fun hin => hcolumn hin.2)]
    · rw [if_neg (fun hin => hrow hin.1), if_neg hrow]
      split <;> rfl
  -- a new line, in the last row of cells or below it
  · rename_i hbelow
    have hrow : ¬ y / font.cellHeight + 1 < grid.rows := by
      rw [hon.rows, ← hnext]
      exact Nat.not_lt.mpr (Nat.div_le_div_right (by omega))
    unfold Grid.colorAt
    simp only [if_neg hrow]
    split <;> rfl

/-- Writes to one cell, of the colours `f`. -/
theorem pixel_paint_cell {dots : List Dot} {column row : Nat} {f : Nat → Nat → Option Color}
    (hdots : ∀ x < info.width, ∀ y < info.height, ∀ color, ⟨x, y, color⟩ ∈ dots ↔
      (x / font.cellWidth = column ∧ y / font.cellHeight = row) ∧
        f (x % font.cellWidth) (y % font.cellHeight) = some color)
    {x y : Nat} (hx : x < info.width) (hy : y < info.height) :
    info.pixel (paint info dots buffer) x y =
      if x / font.cellWidth = column ∧ y / font.cellHeight = row then
        ((f (x % font.cellWidth) (y % font.cellHeight)).map info.encoded).getD
          (info.pixel buffer x y)
      else info.pixel buffer x y := by
  have hn : n < wordSize := by have := h.length; omega
  have hat : ∀ dot ∈ dots, dot.x = x → dot.y = y →
      (x / font.cellWidth = column ∧ y / font.cellHeight = row) ∧
        f (x % font.cellWidth) (y % font.cellHeight) = some dot.color := by
    rintro ⟨dx, dy, color⟩ hdot rfl rfl
    exact (hdots _ hx _ hy color).mp hdot
  cases hf : f (x % font.cellWidth) (y % font.cellHeight) with
  | none =>
    have hnone : ¬ ∃ dot ∈ dots, dot.x = x ∧ dot.y = y := by
      rintro ⟨dot, hdot, hdx, hdy⟩
      have := (hat dot hdot hdx hdy).2
      rw [hf] at this
      cases this
    rw [@pixel_paint _ _ h.fits hn dots BACKGROUND _ _ hx hy
      (fun dot hdot hdx hdy => absurd ⟨dot, hdot, hdx, hdy⟩ hnone), if_neg hnone]
    simp
  | some color =>
    rw [@pixel_paint _ _ h.fits hn dots color _ _ hx hy
      (fun dot hdot hdx hdy => by
        have := (hat dot hdot hdx hdy).2
        rw [hf] at this
        exact (Option.some.inj this).symm)]
    by_cases hcell : x / font.cellWidth = column ∧ y / font.cellHeight = row
    · rw [if_pos ⟨_, (hdots x hx y hy color).mpr ⟨hcell, hf⟩, rfl, rfl⟩, if_pos hcell]
      rfl
    · rw [if_neg hcell, if_neg]
      rintro ⟨dot, hdot, hdx, hdy⟩
      exact hcell (hat dot hdot hdx hdy).1

omit h in
/-- A cell of the grid lies on the screen. -/
theorem on_screen {i total size d : Nat} (hi : i < total / size) (hd : d < size) :
    i * size + d < total := by
  have hle := Nat.div_mul_le_self total size
  have hnext : (i + 1) * size ≤ total / size * size := Nat.mul_le_mul_right _ hi
  rw [Nat.succ_mul] at hnext
  omega

/-- Writes to the cell under the cursor show its new content exactly when they do so pixel by
pixel. -/
theorem shows_setCell_iff (hon : grid.On info font) (hshows : Shows info font buffer grid)
    (hcolumn : grid.column < grid.columns) {dots : List Dot} {content : Option Cell}
    {f : Nat → Nat → Option Color}
    (hdots : ∀ x < info.width, ∀ y < info.height, ∀ color, ⟨x, y, color⟩ ∈ dots ↔
      (x / font.cellWidth = grid.column ∧ y / font.cellHeight = grid.row) ∧
        f (x % font.cellWidth) (y % font.cellHeight) = some color) :
    Shows info font (paint info dots buffer) (grid.setCell content) ↔
      ∀ dx < font.cellWidth, ∀ dy < font.cellHeight,
        info.encoded ((f dx dy).getD (Grid.shade font (grid.cell grid.row grid.column) dx dy)) =
          info.encoded (Grid.shade font content dx dy) := by
  -- a pixel of the cell, before the writes and after them
  have hold : ∀ x < info.width, ∀ y < info.height,
      x / font.cellWidth = grid.column → y / font.cellHeight = grid.row →
      info.pixel buffer x y = info.encoded (Grid.shade font (grid.cell grid.row grid.column)
        (x % font.cellWidth) (y % font.cellHeight)) := by
    intro x hx y hy hxc hyr
    rw [hshows x hx y hy, Grid.colorAt, hxc, hyr, if_pos ⟨hon.row, hcolumn⟩]
  have hnew : ∀ x y, x / font.cellWidth = grid.column → y / font.cellHeight = grid.row →
      (grid.setCell content).colorAt font x y =
        Grid.shade font content (x % font.cellWidth) (y % font.cellHeight) := by
    intro x y hxc hyr
    rw [Grid.colorAt, hxc, hyr]
    simp only [Grid.setCell, hon.row, hcolumn, and_self, if_true]
  constructor
  · intro hset dx hdx dy hdy
    have hx := on_screen (hcolumn.trans_eq hon.columns) hdx
    have hy := on_screen (hon.row.trans_eq hon.rows) hdy
    obtain ⟨hxdiv, hxmod⟩ := @cell_div_mod grid.column _ _ hdx
    obtain ⟨hydiv, hymod⟩ := @cell_div_mod grid.row _ _ hdy
    have hpixel := hset _ hx _ hy
    rw [h.pixel_paint_cell hdots hx hy, if_pos ⟨hxdiv, hydiv⟩, hnew _ _ hxdiv hydiv,
      hold _ hx _ hy hxdiv hydiv, hxmod, hymod] at hpixel
    rw [← hpixel]
    cases f dx dy <;> rfl
  · intro hcell x hx y hy
    rw [h.pixel_paint_cell hdots hx hy]
    split
    · rename_i hin
      rw [hold x hx y hy hin.1 hin.2, hnew x y hin.1 hin.2,
        ← hcell _ (Nat.mod_lt _ font.cellWidth_pos) _ (Nat.mod_lt _ font.cellHeight_pos)]
      cases f (x % font.cellWidth) (y % font.cellHeight) <;> rfl
    -- the other cells are untouched
    · rename_i hout
      rw [hshows x hx y hy]
      congr 1
      unfold Grid.colorAt
      have hother : (grid.setCell content).cell (y / font.cellHeight) (x / font.cellWidth) =
          grid.cell (y / font.cellHeight) (x / font.cellWidth) :=
        if_neg fun hin => hout ⟨hin.2, hin.1⟩
      rw [hother]
      rfl

end Screen

/-! ## Runs -/

namespace Grid

variable (info : FrameBufferInfo) (font : FontSelection)

/-- The character goes to a cell whose present content its glyph covers. -/
def Lands (grid : Grid) (character : Char) : Prop :=
  Covered info font (grid.wrapped.cell grid.wrapped.row grid.wrapped.column) character
    grid.wrapped.foreground

/-- So does every character that is shown, the spaces of a tab included. -/
def LandsAll (grid : Grid) (character : Char) : Prop :=
  if character = '\t' then
    Each writeGraphic (Lands info font) grid (List.replicate (4 - grid.column % 4) ' ')
  else character = '\n' ∨ character = '\r' ∨ Console.isControl character ∨
    grid.Lands info font character

/-- Nothing is written over a character that shows through. -/
def Clean (grid : Grid) : Console.Action → Prop
  | .writeByte byte => Each writeCharacter (LandsAll info font) grid (byteText byte)
  | .writeStr text => Each writeCharacter (LandsAll info font) grid text
  | _ => True

end Grid

/-- A byte is written as its text. -/
theorem Console.writeByte_eq (console : Console n) (byte : UInt8) :
    console.writeByte byte = console.writeStr (Grid.byteText byte) := by
  unfold Console.writeByte Grid.byteText
  by_cases h10 : byte.toNat = 10
  · simp only [h10]
    rfl
  by_cases h13 : byte.toNat = 13
  · simp only [h13]
    rfl
  by_cases h9 : byte.toNat = 9
  · simp only [h9]
    rfl
  rw [if_neg h10, if_neg h13, if_neg h9]
  by_cases hprint : 0x20 ≤ byte.toNat ∧ byte.toNat ≤ 0x7e
  · rw [if_pos hprint, if_pos (Or.inr (Or.inr (Or.inr hprint)))]
    rfl
  · rw [if_neg hprint, if_neg (by omega)]
    rfl

/-- The console is that of the grid, and shows it if `clean`. -/
def Displays (info : FrameBufferInfo) (font : FontSelection) (clean : Prop) (console : Console n)
    (grid : Grid) : Prop :=
  grid.On info font ∧
    ∃ buffer, console = grid.console info font buffer ∧ (clean → Shows info font buffer grid)

namespace Displays

variable {p q : Prop} {console : Console n}

theorem mono (hqp : q → p) (h : Displays info font p console grid) :
    Displays info font q console grid := by
  obtain ⟨hon, buffer, hconsole, hshows⟩ := h
  exact ⟨hon, buffer, hconsole, fun hq => hshows (hqp hq)⟩

variable (hs : Screen n info font) (h : Displays info font p console grid)
include hs h

theorem clear : Displays info font q console.clear grid.clear := by
  obtain ⟨hon, buffer, rfl, -⟩ := h
  exact ⟨⟨hon.columns, hon.rows, Nat.zero_lt_of_lt hon.row, Nat.zero_le _⟩, _, rfl,
    fun _ => hs.shows_clear grid⟩

theorem newline : Displays info font p console.newline grid.newline := by
  obtain ⟨hon, buffer, rfl, hshows⟩ := h
  refine ⟨hon.newline, ?_⟩
  by_cases hlast : grid.row + 1 < grid.rows
  · rw [Grid.newline, if_pos hlast]
    exact ⟨buffer, if_pos hlast, hshows⟩
  · obtain ⟨buffer', heq, hpixel⟩ := hs.newline_scrolls hon hlast buffer
    exact ⟨buffer', heq, fun hp => Screen.shows_scrolled hon hlast (hshows hp) hpixel⟩

theorem wrapped : Displays info font p
    (if console.columns ≤ console.column then console.newline else console) grid.wrapped ∧
    grid.wrapped.column < grid.wrapped.columns := by
  have hnewline := newline hs h
  obtain ⟨hon, buffer, rfl, hshows⟩ := h
  unfold Grid.wrapped
  by_cases hfull : grid.columns ≤ grid.column
  · rw [if_pos hfull]
    refine ⟨(if_pos hfull).symm ▸ hnewline, ?_⟩
    have hcolumn : grid.newline.column = 0 := by
      unfold Grid.newline
      split <;> rfl
    rw [hcolumn, hnewline.1.columns]
    exact hs.columns_pos
  · rw [if_neg hfull]
    exact ⟨⟨hon, buffer, if_neg hfull, hshows⟩, Nat.not_le.mp hfull⟩

/-- One drawn character: the screen shows it exactly when its glyph covers what was there. -/
theorem writeGraphic_iff (character : Char) :
    ∃ buffer, (grid.writeGraphic character).On info font ∧
      console.writeGraphic character = (grid.writeGraphic character).console info font buffer ∧
      (p → (Shows info font buffer (grid.writeGraphic character) ↔
        grid.Lands info font character)) := by
  obtain ⟨⟨hon, buffer, hconsole, hshows⟩, hlt⟩ := wrapped hs h
  unfold Console.writeGraphic
  rw [hconsole]
  refine ⟨_, ⟨hon.columns, hon.rows, hon.row, hlt⟩, rfl, fun hp => ?_⟩
  refine (@Screen.shows_setCell_iff _ info font buffer grid.wrapped hs hon (hshows hp) hlt _
    (some ⟨character, grid.wrapped.foreground⟩) (font.inkAt character grid.wrapped.foreground)
    (fun x _ y _ color => @FontSelection.Inside.mem_glyphDots font hs.inside character
      grid.wrapped.foreground grid.wrapped.column grid.wrapped.row ⟨x, y, color⟩)).trans ?_
  refine forall₄_congr fun dx _ dy _ => ?_
  show info.encoded ((font.inkAt character grid.wrapped.foreground dx dy).getD _) =
    info.encoded ((font.inkAt character grid.wrapped.foreground dx dy).getD BACKGROUND) ↔ _
  cases font.inkAt character grid.wrapped.foreground dx dy with
  | none => simp
  | some color => simp

theorem writeGraphic (character : Char) :
    Displays info font (p ∧ grid.Lands info font character) (console.writeGraphic character)
      (grid.writeGraphic character) := by
  obtain ⟨buffer, hon, hconsole, hiff⟩ := writeGraphic_iff hs h character
  exact ⟨hon, buffer, hconsole, fun hclean => (hiff hclean.1).mpr hclean.2⟩

theorem writeCharacter (character : Char) :
    Displays info font (p ∧ grid.LandsAll info font character) (console.writeCharacter character)
      (grid.writeCharacter character) := by
  unfold Console.writeCharacter Grid.writeCharacter Grid.LandsAll
  by_cases hline : character = '\n'
  · rw [if_pos hline, if_pos hline]
    exact mono And.left (newline hs h)
  rw [if_neg hline, if_neg hline]
  by_cases hreturn : character = '\r'
  · rw [if_pos hreturn, if_pos hreturn]
    obtain ⟨hon, buffer, rfl, hshows⟩ := h
    exact ⟨⟨hon.columns, hon.rows, hon.row, Nat.zero_le _⟩, buffer, rfl, fun hp => hshows hp.1⟩
  rw [if_neg hreturn, if_neg hreturn]
  by_cases htab : character = '\t'
  · rw [if_pos htab, if_pos htab, if_pos htab]
    have hcolumn : console.column = grid.column := by
      obtain ⟨_, _, rfl, _⟩ := h
      rfl
    rw [Console.writeTab, Grid.writeTab, hcolumn]
    exact Each.foldl (R := Displays info font) mono (fun c hc => writeGraphic hs hc c) h
  rw [if_neg htab, if_neg htab, if_neg htab]
  by_cases hcontrol : Console.isControl character
  · rw [if_neg (not_not.mpr hcontrol), if_neg (not_not.mpr hcontrol)]
    exact mono And.left h
  · rw [if_pos hcontrol, if_pos hcontrol]
    refine mono (And.imp_right fun hlands => ?_) (writeGraphic hs h character)
    simpa [hline, hreturn, hcontrol] using hlands

theorem writeStr (text : List Char) :
    Displays info font (p ∧ Each Grid.writeCharacter (Grid.LandsAll info font) grid text)
      (console.writeStr text) (grid.writeStr text) :=
  Each.foldl (R := Displays info font) mono (fun c hc => writeCharacter hs hc c) h

/-- `clear_cell` at the cursor erases the cell. -/
theorem clearCell (hcolumn : grid.column < grid.columns) :
    Displays info font p (console.clearCell console.column console.row) (grid.setCell none) := by
  obtain ⟨hon, buffer, rfl, hshows⟩ := h
  refine ⟨⟨hon.columns, hon.rows, hon.row, hon.column⟩, _, rfl, fun hp => ?_⟩
  refine (@Screen.shows_setCell_iff _ _ _ _ _ hs hon (hshows hp) hcolumn _ _
    (fun _ _ => some BACKGROUND) ?_).mpr fun dx _ dy _ => rfl
  intro x hx y hy color
  have hcell : ∀ {a size i : Nat}, 0 < size → (a / size = i ↔ i * size ≤ a ∧ a < i * size + size) :=
    fun {a size i} hsize => by rw [Nat.div_eq_iff hsize, Nat.le_sub_one_iff_lt (by omega)]
  rw [mem_rectangle, hcell font.cellWidth_pos, hcell font.cellHeight_pos]
  show (grid.column * font.cellWidth ≤ x ∧
    x < min (grid.column * font.cellWidth + font.cellWidth) info.width) ∧
    (grid.row * font.cellHeight ≤ y ∧
      y < min (grid.row * font.cellHeight + font.cellHeight) info.height) ∧ color = BACKGROUND ↔ _
  rw [Option.some.injEq, eq_comm (a := BACKGROUND)]
  constructor
  · rintro ⟨hxs, hys, rfl⟩
    exact ⟨by omega, rfl⟩
  · rintro ⟨hin, rfl⟩
    exact ⟨by omega, by omega, rfl⟩

/-- A backspace moves the cursor to the cell before it, if there is one, and erases that. -/
theorem backspace : Displays info font p console.backspace grid.backspace := by
  obtain ⟨hon, buffer, rfl, hshows⟩ := h
  have hle := hon.column
  have hlt := hon.row
  have hpos := hs.columns_pos.trans_eq hon.columns.symm
  -- the cursor on the cell to erase
  have hmoved : ∀ column row, row < grid.rows → column ≤ grid.columns →
      Displays info font p ({ grid with row := row, column := column }.console info font buffer)
        { grid with row := row, column := column } := fun _ _ hrow hcolumn =>
    ⟨⟨hon.columns, hon.rows, hrow, hcolumn⟩, buffer, rfl, hshows⟩
  unfold Console.backspace Grid.backspace
  by_cases hcolumn : 0 < grid.column
  · rw [if_pos hcolumn, if_pos (show 0 < (grid.console info font buffer).column from hcolumn)]
    exact clearCell hs (hmoved (grid.column - 1) grid.row hlt (by omega))
      (show grid.column - 1 < grid.columns by omega)
  rw [if_neg hcolumn, if_neg (show ¬ 0 < (grid.console info font buffer).column from hcolumn)]
  by_cases hrow : 0 < grid.row
  · rw [if_pos hrow, if_pos (show 0 < (grid.console info font buffer).row from hrow)]
    exact clearCell hs (hmoved (grid.columns - 1) (grid.row - 1) (by omega) (by omega))
      (show grid.columns - 1 < grid.columns by omega)
  · rw [if_neg hrow, if_neg (show ¬ 0 < (grid.console info font buffer).row from hrow)]
    exact ⟨hon, buffer, rfl, hshows⟩

/-- Console and grid keep step, and the picture with them while nothing shows through. -/
theorem step (action : Console.Action) :
    Displays info font (p ∧ grid.Clean info font action) (console.step action)
      (grid.step action) := by
  cases action with
  | writeByte byte =>
    show Displays info font _ (console.writeByte byte) _
    rw [Console.writeByte_eq]
    exact writeStr hs h _
  | writeStr text => exact writeStr hs h text
  | backspace => exact mono And.left (backspace hs h)
  | clear => exact clear hs h
  | setDefaultColor | setAccentColor =>
    obtain ⟨hon, buffer, rfl, hshows⟩ := h
    exact ⟨⟨hon.columns, hon.rows, hon.row, hon.column⟩, buffer, rfl, fun hp => hshows hp.1⟩

theorem run (actions : List Console.Action) :
    Displays info font (p ∧ Each Grid.step (Grid.Clean info font) grid actions)
      (console.run actions) (grid.run actions) :=
  Each.foldl (R := Displays info font) mono (fun a ha => step hs ha a) h

end Displays

/-- The empty grid of a screen. -/
def Grid.blank (info : FrameBufferInfo) (font : FontSelection) (foreground : Color) : Grid :=
  ⟨info.width / font.cellWidth, info.height / font.cellHeight, fun _ _ => none, 0, 0, foreground⟩

theorem Screen.opened (h : Screen n info font) (buffer : Vector UInt8 n) (foreground : Color) :
    Displays info font True (Console.opened buffer info foreground font)
      (Grid.blank info font foreground) := by
  have hconsole : Console.opened buffer info foreground font =
      (Grid.blank info font foreground).console info font (Vector.replicate n 0) := by
    have hcolumns : max (info.width / font.cellWidth) 1 = _ := Nat.max_eq_left h.columns_pos
    have hrows : max (info.height / font.cellHeight) 1 = _ := Nat.max_eq_left h.rows_pos
    show (⟨_, info, 0, 0, max (info.width / font.cellWidth) 1, max (info.height / font.cellHeight) 1,
      foreground, font⟩ : Console n) = _
    rw [hcolumns, hrows]
    rfl
  exact ⟨⟨rfl, rfl, h.rows_pos, Nat.zero_le _⟩, _, hconsole,
    fun _ => h.shows_clear (Grid.blank info font foreground)⟩

/-- The cursor stays on the grid over every run. As long as no character is written over one
that shows through, the framebuffer is the picture of the grid, and it stays so with the next
character exactly when that one's glyph covers the cell it goes to. -/
theorem console_shows_grid {info : FrameBufferInfo} {font : FontSelection} (h : Screen n info font)
    (buffer : Vector UInt8 n) (foreground : Color) (actions : List Console.Action) :
    let console := (Console.opened buffer info foreground font).run actions
    let grid := (Grid.blank info font foreground).run actions
    ((console.row = grid.row ∧ console.column = grid.column) ∧
        console.row < info.height / font.cellHeight ∧
        console.column ≤ info.width / font.cellWidth) ∧
      (Each Grid.step (Grid.Clean info font) (Grid.blank info font foreground) actions →
        Shows info font console.buffer grid ∧
          ∀ character, ¬ Console.isControl character →
            (Shows info font (console.writeCharacter character).buffer
                (grid.writeCharacter character) ↔ grid.Lands info font character)) := by
  intro console grid
  have hrun := Displays.run h (h.opened buffer foreground) actions
  obtain ⟨hon, buffer', hconsole, hshows⟩ := hrun
  have hconsole : console = grid.console info font buffer' := hconsole
  have hbuffer : console.buffer = buffer' := congrArg Console.buffer hconsole
  refine ⟨⟨⟨congrArg Console.row hconsole, congrArg Console.column hconsole⟩, ?_, ?_⟩,
    fun hclean => ⟨hbuffer ▸ hshows ⟨trivial, hclean⟩, fun character hshown => ?_⟩⟩
  · rw [hconsole]
    exact hon.row.trans_eq hon.rows
  · rw [hconsole]
    exact hon.column.trans_eq hon.columns
  -- a character that is no control character is drawn
  have hne : ∀ c, Console.isControl c → character ≠ c := by
    rintro c hc rfl
    exact hshown hc
  unfold Console.writeCharacter Grid.writeCharacter
  simp only [if_neg (hne '\n' rfl), if_neg (hne '\r' rfl), if_neg (hne '\t' rfl), if_pos hshown]
  obtain ⟨drawn, _, hdrawn, hiff⟩ := Displays.writeGraphic_iff h
    ⟨hon, buffer', hconsole, hshows⟩ character
  rw [hdrawn]
  exact hiff ⟨trivial, hclean⟩

/-- A font with one pixel a glyph, which only `A` lights. -/
def dotFont : FontSelection := .psf2 ⟨1, 1, fun character _ _ => character == 'A'⟩

/-- A screen of one cell. -/
def dotInfo : FrameBufferInfo := ⟨⟨3, 3, 3, 1⟩, .u8⟩

theorem dotScreen : Screen 9 dotInfo dotFont :=
  ⟨⟨by decide, by decide, by decide⟩, by rw [wordSize]; decide, by decide, by decide, trivial⟩

/-- The second and the third character each scroll the screen. -/
theorem console_shows_grid_scroll :
    Shows dotInfo dotFont
      ((Console.opened (Vector.replicate 9 0) dotInfo DEFAULT_FG dotFont).run
        [.writeStr ['A', 'B', 'A']]).buffer
      ((Grid.blank dotInfo dotFont DEFAULT_FG).run [.writeStr ['A', 'B', 'A']]) ∧
    ((Grid.blank dotInfo dotFont DEFAULT_FG).run [.writeStr ['A', 'B', 'A']]).cell 0 0 =
      some ⟨'A', DEFAULT_FG⟩ := by
  refine ⟨((console_shows_grid dotScreen (Vector.replicate 9 0) DEFAULT_FG
    [.writeStr ['A', 'B', 'A']]).2 ⟨⟨?_, ?_, ?_, trivial⟩, trivial⟩).1, rfl⟩
  -- each of them goes to a blank cell
  all_goals exact Or.inr (Or.inr (Or.inr fun _ _ _ _ _ => rfl))

/-- A space written over an `A` leaves the `A` on the screen. -/
theorem overwritten_shows_through :
    Screen 9 dotInfo dotFont ∧
      ¬ Shows dotInfo dotFont
        ((Console.opened (Vector.replicate 9 0) dotInfo DEFAULT_FG dotFont).run
          [.writeStr ['A', '\r', ' ']]).buffer
        ((Grid.blank dotInfo dotFont DEFAULT_FG).run [.writeStr ['A', '\r', ' ']]) := by
  refine ⟨dotScreen, fun hshows => ?_⟩
  have hpixel := hshows 1 (by decide) 1 (by decide)
  revert hpixel
  decide +kernel

end GenericKernel.Framebuffer
