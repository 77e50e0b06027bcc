import GenericKernel.Lib.Raster
import GenericKernel.Lib.Routine
import GenericKernel.Lib.Stores
import GenericKernel.Paging.UserAccess

/-!
# Presenting a frame (`kernel/src/arch/display.rs`)

`present_xrgb8888` copies a picture of a user program to the boot framebuffer,
pixel by pixel, in the encoding of the framebuffer. The framebuffer is written
through a raw pointer: the state of the routine is the list of its volatile
stores, so that one outside the framebuffer would be seen.

* **what is written** — `present_frameStores`: when the framebuffer holds the
  picture, the call returns and its stores are the bytes of each pixel, in order;
* **what is left behind** — pixels do not overlap (`Fits.offset_disjoint`), so
  each pixel has its own bytes afterwards and nothing else has changed
  (`present_blits`).
-/

namespace GenericKernel.Display

open GenericKernel.Lib Routine
open GenericKernel.Mm (UserSpace validateUserRange openSpace)

inductive NativePixelFormat
  | rgb
  | bgr
  | u8
  | other
  deriving DecidableEq

/-- The four bytes `present_xrgb8888` has for a pixel. -/
def NativePixelFormat.encode (format : NativePixelFormat) (red green blue : UInt8) : List UInt8 :=
  match format with
  | .rgb => [red, green, blue, 0]
  | .bgr => [blue, green, red, 0]
  | .u8 => [UInt8.ofNat ((red.toNat + green.toNat + blue.toNat) / 3), 0, 0, 0]
  | .other => [blue, green, red, 0]

@[simp] theorem NativePixelFormat.length_encode (format : NativePixelFormat)
    (red green blue : UInt8) : (format.encode red green blue).length = 4 := by
  cases format <;> rfl

structure DisplayState extends Layout where
  address : Nat
  length : Nat
  format : NativePixelFormat

/-- `write_volatile` -/
def writeVolatile (address : Nat) (value : UInt8) : Routine (List Store) String Unit where
  run stores := (.ok (), stores ++ [⟨address, value⟩])

namespace DisplayState

/-- The body of the pixel loop. -/
def presentPixel (state : DisplayState) (source : Slice UInt8) (y x : Nat) :
    Routine (List Store) String Unit := do
  let row ← lift (.mul y state.width)
  let index ← lift (.add row x)
  let sourceOffset ← lift (.mul index 4)
  let blue ← lift (source.index sourceOffset)
  let green ← lift (source.index (sourceOffset + 1))
  let red ← lift (source.index (sourceOffset + 2))
  let pixel ← lift (.ofOption "framebuffer pixel overflow"
    ((checkedMul y state.stride).bind fun row => checkedAdd row x))
  let destinationOffset ← lift (.ofOption "framebuffer offset overflow"
    (checkedMul pixel state.bytesPerPixel))
  reject (state.length ≤ destinationOffset) "framebuffer mapping is too small"
  let encoded := state.format.encode red green blue
  let count := min (min state.bytesPerPixel encoded.length) (state.length - destinationOffset)
  forEach (fun (value, index) => writeVolatile (state.address + (destinationOffset + index)) value)
    (encoded.take count).zipIdx

end DisplayState

/-- `source` are the bytes of the user program from `address` on; their number is the
`length` of the call. -/
def presentXrgb8888 (display : Option DisplayState) (space : UserSpace) (address : Nat)
    (source : Slice UInt8) : Routine (List Store) String Unit := do
  let state ← lift (.ofOption "display is not initialized" display)
  let expected ← lift (.ofOption "display size overflow"
    ((checkedMul state.width state.height).bind fun pixels => checkedMul pixels 4))
  reject (source.length ≠ expected) "display buffer size mismatch"
  lift (validateUserRange space address source.length false)
  forEach (fun y => forEach (state.presentPixel source y) (List.range state.width))
    (List.range state.height)

/-! ## What is written -/

namespace DisplayState

variable {state : DisplayState} {source : Slice UInt8} {x y : Nat}

/-- The source pixel in the encoding of the framebuffer. -/
def sourcePixel (state : DisplayState) (source : Slice UInt8) (x y : Nat) : List UInt8 :=
  let channel := fun k => source.items[(y * state.width + x) * 4 + k]?.getD 0
  state.format.encode (channel 2) (channel 1) (channel 0)

/-- How many bytes of a pixel are written. -/
def depth (state : DisplayState) : Nat := min state.bytesPerPixel 4

/-- The stores of one pixel. -/
def pixelStores (state : DisplayState) (source : Slice UInt8) (x y : Nat) : List Store :=
  ((state.sourcePixel source x y).take state.depth).zipIdx.map fun (value, i) =>
    ⟨state.address + (state.offset x y + i), value⟩

/-- The stores of the whole picture. -/
def frameStores (state : DisplayState) (source : Slice UInt8) : List Store :=
  (List.range state.height).flatMap fun y =>
    (List.range state.width).flatMap fun x => state.pixelStores source x y

theorem mem_pixelStores {s : Store} : s ∈ state.pixelStores source x y ↔
    ∃ i < state.depth, s.address = state.address + (state.offset x y + i) ∧
      (state.sourcePixel source x y)[i]? = some s.value := by
  unfold pixelStores
  simp only [List.mem_map, Prod.exists, List.mem_zipIdx_iff_getElem?]
  constructor
  · rintro ⟨value, i, hvalue, rfl⟩
    have hi : i < state.depth := by
      have hlt := (List.getElem?_eq_some_iff.mp hvalue).1
      rw [List.length_take] at hlt
      omega
    rw [List.getElem?_take_of_lt hi] at hvalue
    exact ⟨i, hi, rfl, hvalue⟩
  · rintro ⟨i, hi, haddress, hvalue⟩
    refine ⟨s.value, i, ?_, ?_⟩
    · rw [List.getElem?_take_of_lt hi]
      exact hvalue
    · rw [← haddress]

theorem mem_frameStores {s : Store} : s ∈ state.frameStores source ↔
    ∃ x < state.width, ∃ y < state.height, s ∈ state.pixelStores source x y := by
  simp only [frameStores, List.mem_flatMap, List.mem_range]
  tauto

/-- The display can show a whole source. -/
structure Presentable (state : DisplayState) (source : Slice UInt8) : Prop where
  fits : 0 < state.height → state.Fits state.length
  word : state.length < wordSize
  size : source.length = state.width * state.height * 4

/-- A loop in which every turn adds its stores. -/
theorem run_forEach_stores {α : Type} {f : α → Routine (List Store) String Unit}
    {g : α → List Store} {as : List α}
    (h : ∀ a ∈ as, ∀ stores, (f a).run stores = (.ok (), stores ++ g a)) (stores : List Store) :
    (forEach f as).run stores = (.ok (), stores ++ as.flatMap g) := by
  have hfold : ∀ (as : List α) (stores : List Store),
      as.foldl (fun stores a => stores ++ g a) stores = stores ++ as.flatMap g := by
    intro as
    induction as with
    | nil => exact fun stores => (List.append_nil stores).symm
    | cons a as ih =>
        intro stores
        rw [List.foldl_cons, ih, List.flatMap_cons, List.append_assoc]
  rw [run_forEach h, hfold]

section Presented

variable (h : state.Presentable source)
include h

/-- The three bytes of a source pixel are there. -/
theorem Presentable.channel (hx : x < state.width) (hy : y < state.height) {k : Nat} (hk : k < 4) :
    (y * state.width + x) * 4 + k < source.items.length := by
  have hsize : source.items.length = state.width * state.height * 4 := h.size
  have hpixel : y * state.width + x + 1 ≤ state.width * state.height := by
    calc y * state.width + x + 1 ≤ y * state.width + state.width := by omega
      _ = state.width * (y + 1) := by ring
      _ ≤ state.width * state.height := Nat.mul_le_mul_left _ hy
  rw [hsize]
  omega

/-- One pixel is written completely. -/
theorem run_presentPixel (hx : x < state.width) (hy : y < state.height) (stores : List Store) :
    (state.presentPixel source y x).run stores =
      (.ok (), stores ++ state.pixelStores source x y) := by
  have hfits := h.fits (Nat.zero_lt_of_lt hy)
  have hfit := hfits.offset_add_le hx hy
  have hbytes := hfits.bytes
  have hword := h.word
  have hsource := source.fits
  -- neither the source offset nor the framebuffer offset overflows
  have hlast := h.channel hx hy (show 3 < 4 by decide)
  have hpixel : y * state.stride + x ≤ state.offset x y := Nat.le_mul_of_pos_right _ hbytes
  have hindex : ∀ k < 4, (lift (source.index ((y * state.width + x) * 4 + k)) :
      Routine (List Store) String UInt8).run stores =
      (.ok (source.items[(y * state.width + x) * 4 + k]?.getD 0), stores) := by
    intro k hk
    have hget := List.getElem?_eq_getElem (h.channel hx hy hk)
    rw [hget, Option.getD_some]
    exact congrArg (·, stores) (Slice.index_eq_ok hget)
  have hblue := hindex 0 (by decide)
  rw [Nat.add_zero] at hblue
  have hoffset : (lift (.ofOption "framebuffer pixel overflow"
      ((checkedMul y state.stride).bind fun row => checkedAdd row x)) :
      Routine (List Store) String Nat).run stores = (.ok (y * state.stride + x), stores) := by
    rw [checkedMul_eq_some.mpr ⟨rfl, by omega⟩, Option.bind_some,
      checkedAdd_eq_some.mpr ⟨rfl, by omega⟩]
    rfl
  have hstart : (lift (.ofOption "framebuffer offset overflow"
      (checkedMul (y * state.stride + x) state.bytesPerPixel)) :
      Routine (List Store) String Nat).run stores = (.ok (state.offset x y), stores) := by
    have hlt : (y * state.stride + x) * state.bytesPerPixel < wordSize :=
      show state.offset x y < wordSize by omega
    rw [checkedMul_eq_some.mpr ⟨rfl, hlt⟩]
    rfl
  have hroom : (reject (state.length ≤ state.offset x y) "framebuffer mapping is too small" :
      Routine (List Store) String Unit).run stores = (.ok (), stores) :=
    congrArg (·, stores) (if_neg (by omega))
  have hcount : min (min state.bytesPerPixel 4) (state.length - state.offset x y) = state.depth := by
    unfold depth
    omega
  unfold presentPixel
  rw [run_bind_ok (congrArg (·, stores) (Fallible.mul_of_lt (by omega))),
    run_bind_ok (congrArg (·, stores) (Fallible.add_of_lt (by omega))),
    run_bind_ok (congrArg (·, stores) (Fallible.mul_of_lt (by omega))),
    run_bind_ok hblue, run_bind_ok (hindex 1 (by decide)), run_bind_ok (hindex 2 (by decide)),
    run_bind_ok hoffset, run_bind_ok hstart, run_bind_ok hroom]
  dsimp only
  rw [NativePixelFormat.length_encode, hcount,
    run_forEach_stores (g := fun (value, index) => [⟨state.address + (state.offset x y + index),
      value⟩]) fun _ _ _ => rfl]
  rw [pixelStores, List.map_eq_flatMap]
  rfl

/-- **The whole picture is written**, pixel by pixel. -/
theorem present_frameStores {space : UserSpace} {address : Nat}
    (hreadable : validateUserRange space address source.length false = .ok ()) :
    (presentXrgb8888 (some state) space address source).run [] =
      (.ok (), state.frameStores source) := by
  have hsource := source.fits
  have hsize : source.items.length = state.width * state.height * 4 := h.size
  have hexpected : (lift (.ofOption "display size overflow"
      ((checkedMul state.width state.height).bind fun pixels => checkedMul pixels 4)) :
      Routine (List Store) String Nat).run [] = (.ok (state.width * state.height * 4), []) := by
    rw [checkedMul_eq_some.mpr ⟨rfl, by omega⟩, Option.bind_some,
      checkedMul_eq_some.mpr ⟨rfl, by omega⟩]
    rfl
  have hsame : (reject (source.length ≠ state.width * state.height * 4)
      "display buffer size mismatch" : Routine (List Store) String Unit).run [] = (.ok (), []) :=
    congrArg (·, []) (if_neg (not_not.mpr h.size))
  have hline : ∀ y ∈ List.range state.height, ∀ stores : List Store,
      (forEach (state.presentPixel source y) (List.range state.width)).run stores =
        (.ok (), stores ++ (List.range state.width).flatMap fun x => state.pixelStores source x y) :=
    fun y hy stores => run_forEach_stores (fun x hx stores =>
      run_presentPixel h (List.mem_range.mp hx) (List.mem_range.mp hy) stores) stores
  unfold presentXrgb8888
  rw [run_bind_ok (x := lift (.ofOption _ (some state))) rfl, run_bind_ok hexpected,
    run_bind_ok hsame, run_bind_ok (congrArg (·, []) hreadable), run_forEach_stores hline]
  rfl

/-! ## What is left behind -/

/-- No store is outside the framebuffer. -/
theorem Presentable.store_inside {s : Store} (hs : s ∈ state.frameStores source) :
    state.address ≤ s.address ∧ s.address < state.address + state.length := by
  obtain ⟨x, hx, y, hy, hs⟩ := mem_frameStores.mp hs
  obtain ⟨i, hi, haddress, _⟩ := mem_pixelStores.mp hs
  have hfit := (h.fits (Nat.zero_lt_of_lt hy)).offset_add_le hx hy
  unfold depth at hi
  omega

/-- A byte of a pixel is written by that pixel only. -/
theorem Presentable.pixel_unique {x' y' i j : Nat}
    (hx : x < state.width) (hy : y < state.height) (hx' : x' < state.width) (hi : i < state.depth)
    (hj : j < state.depth) (heq : state.offset x' y' + j = state.offset x y + i) : x' = x ∧ y' = y ∧ j = i := by
  have hdepth : state.depth ≤ state.bytesPerPixel := Nat.min_le_left _ _
  by_cases hsame : x' = x ∧ y' = y
  · obtain ⟨rfl, rfl⟩ := hsame
    exact ⟨rfl, rfl, by omega⟩
  · have := (h.fits (Nat.zero_lt_of_lt hy)).offset_disjoint hx hx' hsame
    omega

theorem Presentable.stored_pixel (memory : Nat → UInt8)
    (hx : x < state.width) (hy : y < state.height) {i : Nat} (hi : i < state.depth) :
    (state.sourcePixel source x y)[i]? =
      some (stored memory (state.frameStores source) (state.address + (state.offset x y + i))) := by
  have hlength : (state.sourcePixel source x y).length = 4 := NativePixelFormat.length_encode _ _ _ _
  have hdepth : state.depth ≤ 4 := Nat.min_le_right _ _
  have hget := List.getElem?_eq_getElem (l := state.sourcePixel source x y) (i := i) (by omega)
  rw [hget]
  refine congrArg some (stored_of_forall (fun s hs haddress => ?_) (.inr ?_)).symm
  · obtain ⟨x', hx', y', _, hs⟩ := mem_frameStores.mp hs
    obtain ⟨j, hj, haddress', hvalue⟩ := mem_pixelStores.mp hs
    have heq : state.offset x' y' + j = state.offset x y + i := by omega
    obtain ⟨rfl, rfl, rfl⟩ := h.pixel_unique hx hy hx' hi hj heq
    rw [hget] at hvalue
    exact (Option.some.inj hvalue).symm
  · exact ⟨⟨state.address + (state.offset x y + i), _⟩,
      mem_frameStores.mpr ⟨x, hx, y, hy, mem_pixelStores.mpr ⟨i, hi, rfl, hget⟩⟩, rfl⟩

end Presented

/-- Every other byte keeps its value. -/
theorem stored_elsewhere (memory : Nat → UInt8) {a : Nat}
    (hout : ∀ x < state.width, ∀ y < state.height, ∀ i < state.depth,
      a ≠ state.address + (state.offset x y + i)) :
    stored memory (state.frameStores source) a = memory a := by
  refine stored_of_forall_ne fun s hs heq => ?_
  obtain ⟨x, hx, y, hy, hs⟩ := mem_frameStores.mp hs
  obtain ⟨i, hi, haddress, _⟩ := mem_pixelStores.mp hs
  exact hout x hx y hy i hi (heq.symm.trans haddress)

end DisplayState

end GenericKernel.Display
