import GenericKernel.Lib.Bytes

/-!
# Linear pixel buffers

A picture of `width` by `height` pixels in a flat byte buffer, one line every `stride` pixels.

* `Layout`, `Layout.offset` — where a pixel's bytes stand.
* `Layout.Fits` — a buffer that holds every pixel. Its pixels lie inside the buffer and apart
  from each other.
* `Layout.pixel` — the first `k` bytes of a pixel, and what writing a pixel (`pixel_splice`),
  filling (`pixel_replicate`) and moving lines up (`pixel_scrolled`) make of it.
-/

namespace GenericKernel.Lib

/-- The geometry of a picture; all but `bytesPerPixel` count pixels. -/
structure Layout where
  width : Nat
  height : Nat
  stride : Nat
  bytesPerPixel : Nat

namespace Layout

variable {l : Layout} {n : Nat}

/-- The first byte of a pixel. -/
def offset (l : Layout) (x y : Nat) : Nat := (y * l.stride + x) * l.bytesPerPixel

/-- A buffer of `n` bytes holds every pixel, the padding after the last line excepted. -/
structure Fits (l : Layout) (n : Nat) : Prop where
  stride : l.width ≤ l.stride
  bytes : 0 < l.bytesPerPixel
  covers : ((l.height - 1) * l.stride + l.width) * l.bytesPerPixel ≤ n

theorem Fits.offset_add_le (h : l.Fits n) {x y : Nat} (hx : x < l.width) (hy : y < l.height) :
    l.offset x y + l.bytesPerPixel ≤ n := by
  have hline : y * l.stride ≤ (l.height - 1) * l.stride := Nat.mul_le_mul_right _ (by omega)
  calc l.offset x y + l.bytesPerPixel
      = (y * l.stride + x + 1) * l.bytesPerPixel := by rw [offset]; ring
    _ ≤ ((l.height - 1) * l.stride + l.width) * l.bytesPerPixel :=
        Nat.mul_le_mul_right _ (by omega)
    _ ≤ n := h.covers

/-- Different pixels have different places in the order of the buffer. -/
theorem Fits.index_inj (h : l.Fits n) {x y x' y' : Nat} (hx : x < l.width) (hx' : x' < l.width)
    (heq : y * l.stride + x = y' * l.stride + x') : x = x' ∧ y = y' := by
  have hstride := h.stride
  have hy : y = y' := by
    have hdiv : ∀ {a b : Nat}, b < l.width → (a * l.stride + b) / l.stride = a := fun {a b} hb => by
      rw [Nat.mul_comm, Nat.mul_add_div (by omega), Nat.div_eq_of_lt (by omega), Nat.add_zero]
    rw [← hdiv (a := y) hx, heq, hdiv hx']
  subst hy
  exact ⟨by omega, rfl⟩

/-- Different pixels do not share a byte. -/
theorem Fits.offset_disjoint (h : l.Fits n) {x y x' y' : Nat} (hx : x < l.width)
    (hx' : x' < l.width) (hne : ¬ (x' = x ∧ y' = y)) :
    l.offset x' y' + l.bytesPerPixel ≤ l.offset x y ∨
      l.offset x y + l.bytesPerPixel ≤ l.offset x' y' := by
  have hapart : ∀ {a b : Nat}, a < b →
      a * l.bytesPerPixel + l.bytesPerPixel ≤ b * l.bytesPerPixel := fun {a b} hab => by
    rw [← Nat.succ_mul]
    exact Nat.mul_le_mul_right _ hab
  rcases Nat.lt_trichotomy (y' * l.stride + x') (y * l.stride + x) with hlt | heq | hgt
  · exact Or.inl (hapart hlt)
  · exact absurd (h.index_inj hx' hx heq) hne
  · exact Or.inr (hapart hgt)

/-- The first `k` bytes of a pixel. -/
def pixel (l : Layout) (k : Nat) (raw : Vector UInt8 n) (x y : Nat) : List UInt8 :=
  slice raw (l.offset x y) k

/-- Writing one pixel changes that pixel and no other. -/
theorem Fits.pixel_splice (h : l.Fits n) (raw : Vector UInt8 n) {k x y x' y' : Nat}
    {bytes : List UInt8} (hk : k ≤ l.bytesPerPixel) (hbytes : bytes.length = k)
    (hx : x < l.width) (hy : y < l.height) (hx' : x' < l.width) :
    l.pixel k (splice raw (l.offset x y) bytes) x' y' =
      if x' = x ∧ y' = y then bytes else l.pixel k raw x' y' := by
  subst hbytes
  have hfit := h.offset_add_le hx hy
  by_cases hsame : x' = x ∧ y' = y
  · obtain ⟨rfl, rfl⟩ := hsame
    simp only [and_self, if_true, pixel]
    exact slice_splice raw (by omega)
  · rw [if_neg hsame]
    refine slice_splice_of_disjoint raw ?_
    have := h.offset_disjoint hx hx' hsame
    omega

/-- A buffer of one byte has pixels of that byte. -/
theorem Fits.pixel_replicate (h : l.Fits n) {k x y : Nat} (b : UInt8) (hk : k ≤ l.bytesPerPixel)
    (hx : x < l.width) (hy : y < l.height) :
    l.pixel k (Vector.replicate n b) x y = List.replicate k b := by
  have hfit := h.offset_add_le hx hy
  unfold pixel slice
  rw [Vector.toList_replicate, List.drop_replicate, List.take_replicate]
  congr 1
  omega

/-- The bytes below `visible` moved towards the start by `shift`, zeros behind them. -/
def scrolled (raw : Vector UInt8 n) (shift visible : Nat) : Vector UInt8 n :=
  Vector.ofFn fun i =>
    if i.val + shift < visible then raw[i.val + shift]?.getD 0
    else if i.val < visible then 0 else getElem raw i.val i.isLt

theorem getElem?_scrolled (raw : Vector UInt8 n) {shift visible i : Nat} (hn : visible ≤ n)
    (hi : i < visible) : (scrolled raw shift visible)[i]? =
      if i + shift < visible then raw[i + shift]? else some 0 := by
  have hin : i < n := by omega
  rw [Vector.getElem?_eq_getElem hin]
  unfold scrolled
  rw [Vector.getElem_ofFn]
  by_cases hs : i + shift < visible
  · simp only [if_pos hs]
    rw [Vector.getElem?_eq_getElem (show i + shift < n by omega)]
    rfl
  · simp only [if_neg hs, if_pos hi]

/-- Moving the buffer by `lines` lines moves the picture up and leaves black lines below. -/
theorem Fits.pixel_scrolled (h : l.Fits n) (raw : Vector UInt8 n) {k lines x y : Nat}
    (hk : k ≤ l.bytesPerPixel) (hx : x < l.width) (hy : y < l.height) :
    l.pixel k (scrolled raw (lines * (l.stride * l.bytesPerPixel))
        (min (l.height * (l.stride * l.bytesPerPixel)) n)) x y =
      if y + lines < l.height then l.pixel k raw x (y + lines) else List.replicate k 0 := by
  have hfit := h.offset_add_le hx hy
  have hrow : ∀ y < l.height, l.offset x y + l.bytesPerPixel ≤
      l.height * (l.stride * l.bytesPerPixel) := fun y hy => by
    have hstride := h.stride
    calc l.offset x y + l.bytesPerPixel
        = (y * l.stride + (x + 1)) * l.bytesPerPixel := by rw [offset]; ring
      _ ≤ (y * l.stride + l.stride) * l.bytesPerPixel := Nat.mul_le_mul_right _ (by omega)
      _ = (y + 1) * (l.stride * l.bytesPerPixel) := by ring
      _ ≤ l.height * (l.stride * l.bytesPerPixel) := Nat.mul_le_mul_right _ hy
  have hmoved : l.offset x y + lines * (l.stride * l.bytesPerPixel) = l.offset x (y + lines) := by
    unfold offset
    ring
  have hhere := hrow y hy
  refine List.ext_getElem? fun i => ?_
  by_cases hi : i < k
  swap
  · -- beyond the pixel there is nothing on either side
    have hlen : ∀ (raw : Vector UInt8 n) y, (l.pixel k raw x y)[i]? = none := fun raw y => by
      refine List.getElem?_eq_none ?_
      unfold pixel slice
      rw [List.length_take]
      omega
    rw [hlen]
    split
    · rw [hlen]
    · rw [List.getElem?_eq_none (by simpa using Nat.le_of_not_lt hi)]
  have hvisible : l.offset x y + i < min (l.height * (l.stride * l.bytesPerPixel)) n := by omega
  unfold pixel
  rw [getElem?_slice _ _ _ hi, getElem?_scrolled raw (Nat.min_le_right _ _) hvisible]
  by_cases hlines : y + lines < l.height
  · have hfit' := h.offset_add_le hx hlines
    have hthere := hrow _ hlines
    rw [if_pos (by omega), if_pos hlines, getElem?_slice _ _ _ hi]
    congr 1
    omega
  · have hbelow : l.height * (l.stride * l.bytesPerPixel) ≤ l.offset x (y + lines) := by
      calc l.height * (l.stride * l.bytesPerPixel)
          ≤ (y + lines) * (l.stride * l.bytesPerPixel) := Nat.mul_le_mul_right _ (by omega)
        _ ≤ (y + lines) * (l.stride * l.bytesPerPixel) + x * l.bytesPerPixel := Nat.le_add_right _ _
        _ = l.offset x (y + lines) := by rw [offset]; ring
    rw [if_neg (by omega), if_neg hlines, List.getElem?_replicate, if_pos hi]

end Layout

end GenericKernel.Lib
