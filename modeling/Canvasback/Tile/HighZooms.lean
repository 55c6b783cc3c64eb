import Canvasback.Tile.Boxes

/-!
# High zooms

From zoom 18 on the margin is finer than what the two functions' worlds drift
apart by across the map, so right of its first columns a box reaches past the
pixels of its tile. From zoom 23 on the pixel origin of a tile need not fit an
`int`.
-/

namespace Canvasback

open Memory

-- ---------------------------------------------------------------------------
-- Integers
-- ---------------------------------------------------------------------------

def FitsInt (x : Int) : Prop := -2 ^ 31 ≤ x ∧ x < 2 ^ 31

/-- The `int` expressions of `read_cb`, `tms2bbox` and `scale` have values an
`int` can hold, and the origins `scale` subtracts are those of the tile. -/
structure NoOverflow (n : Longs) : Prop where
  shift : ShiftDefined n.zz
  row : FitsInt (shl1 n.zz - n.yy)
  nextColumn : FitsInt (n.tile.x + 1)
  previousRow : FitsInt (n.tile.y - 1)
  pixelsX : FitsInt (n.tile.x * 256)
  pixelsY : FitsInt (n.tile.y * 256)
  originX : i32 (n.tile.x * 256) = 256 * n.xx
  originY : i32 (n.tile.y * 256) = 256 * (2 ^ n.zz.toNat - n.yy)

/-- **Which tiles have a pixel origin.** -/
theorem noOverflow_iff (h : InRange z x y) :
    NoOverflow ⟨z, x, y⟩ ↔ x < 2 ^ 23 ∧ 2 ^ z.toNat - y < 2 ^ 23 := by
  have hsd : ShiftDefined z := ⟨h.1, h.2.1⟩
  have hN30 : (2 : Int) ^ z.toNat ≤ 2 ^ 30 := by
    have := h.2.1
    exact pow_le_pow_right₀ (by norm_num) (by omega)
  have ht : Longs.tile ⟨z, x, y⟩ = ⟨z, x, 2 ^ z.toNat - y⟩ := (InRange.kept (n := ⟨z, x, y⟩) h).1
  have hs : shl1 z = 2 ^ z.toNat := shl1_eq hsd
  obtain ⟨-, -, hx0, hx, hy0, hy⟩ := h
  constructor
  · intro hno
    have hpx := hno.pixelsX
    have hpy := hno.pixelsY
    simp only [ht] at hpx hpy
    have h₁ := hpx.2
    have h₂ := hpy.2
    omega
  · rintro ⟨hcol, hrow⟩
    have hox : i32 (x * 256) = 256 * x := by
      rw [i32_eq (by omega) (by omega)]
      ring
    have hoy : i32 ((2 ^ z.toNat - y) * 256) = 256 * (2 ^ z.toNat - y) := by
      rw [i32_eq (by omega) (by omega)]
      ring
    refine ⟨hsd, ?_, ?_, ?_, ?_, ?_, ?_, ?_⟩ <;> simp only [ht, hs, FitsInt]
    · omega
    · omega
    · omega
    · omega
    · omega
    · exact hox
    · exact hoy

/-- A column of zoom 24 whose origin is one pixel more than an `int` holds, and
the origin subtracted in its place. -/
theorem origin_overflows : InRange 24 8388608 0 ∧ i32 (8388608 * 256) = -2147483648 ∧
    ¬ NoOverflow ⟨24, 8388608, 0⟩ := by
  refine ⟨by unfold InRange; decide, by norm_num [i32, Int.bmod], fun h => ?_⟩
  have hx := h.originX
  norm_num [Longs.tile, i32, Int.bmod] at hx

theorem noOverflow_corner : NoOverflow ⟨30, 0, 1073741823⟩ ↔
    (0 : Int) < 2 ^ 23 ∧ (2 : Int) ^ (30 : Int).toNat - 1073741823 < 2 ^ 23 :=
  noOverflow_iff (by unfold InRange; decide)

-- ---------------------------------------------------------------------------
-- The finer margin
-- ---------------------------------------------------------------------------

/-- No point of the box is sent as an offset outside the tile. -/
def KeepsInside (z x y : Int) : Prop :=
  ∀ cx cy, (tms2bbox ⟨z, x, y⟩).Holds cx cy →
    (0 ≤ (scale cx z x).toInt ∧ (scale cx z x).toInt ≤ 2559) ∧
    (-2559 ≤ (scale cy z y).toInt ∧ (scale cy z y).toInt ≤ 0)

section
variable {z x y : Int} {c : Rat}

theorem pow_le_of_le (hz : 18 ≤ z ∧ z ≤ 22) :
    (2 : Rat) ^ z.toNat ≤ 2 ^ 22 ∧ (2 : Int) ^ z.toNat ≤ 2 ^ 22 :=
  ⟨pow_le_pow_right₀ (by norm_num) (by omega), pow_le_pow_right₀ (by norm_num) (by omega)⟩

/-- Across, in pixels: a point of the box is right of the tile's left edge and
at most as far right as the box's own edge, which is to the left of the tile's
only while the drift of the worlds stays below a tenth of the margin. -/
theorem pixel_fine_x (hz : 18 ≤ z ∧ z ≤ 22) (hx : 0 ≤ x ∧ x < 2 ^ z.toNat)
    (hl : (tms2bbox ⟨z, x, y⟩).x1 ≤ c) (hu : c ≤ (tms2bbox ⟨z, x, y⟩).x2) :
    0 < pixel c z x ∧ (pixel c z x - 256) * 156543.033928041 ≤
      (x + 1) * 0.000021504 - 0.000001 * 2 ^ z.toNat := by
  have hsd : ShiftDefined z := ⟨by omega, by omega⟩
  have hN22 := (pow_le_of_le hz).2
  have hN : (0 : Rat) < 2 ^ z.toNat := by positivity
  have hx0 : (0 : Rat) ≤ x := by exact_mod_cast hx.1
  have he : edgeErr z = 0.00001 := by simp [edgeErr, hz.1]
  simp only [tms2bbox, shl1_eq hsd, he] at hl hu
  rw [i32_eq (by omega) (by omega)] at hu
  push_cast at hl hu
  simp only [pixel]
  generalize (2 : Rat) ^ z.toNat = N at *
  have hl' := mul_of_lower_edge hN hl
  have hu' := mul_of_upper_edge hN hu
  constructor
  · rw [sub_pos, lt_div_iff₀ (by norm_num)]
    linarith
  · rw [sub_mul, sub_mul, div_mul_cancel₀ _ (by norm_num)]
    linarith

theorem pixel_x2 (hz : 18 ≤ z ∧ z ≤ 22) (hx : 0 ≤ x ∧ x < 2 ^ z.toNat) :
    pixel (tms2bbox ⟨z, x, y⟩).x2 z x = 256 +
      ((x + 1) * 0.000021504 - 0.000001 * 2 ^ z.toNat) / 156543.033928041 := by
  have hsd : ShiftDefined z := ⟨by omega, by omega⟩
  have hN22 := (pow_le_of_le hz).2
  have hN : (2 : Rat) ^ z.toNat ≠ 0 := by positivity
  have he : edgeErr z = 0.00001 := by simp [edgeErr, hz.1]
  simp only [tms2bbox, shl1_eq hsd, he, pixel]
  rw [i32_eq (by omega) (by omega)]
  push_cast
  field_simp
  ring

/-- Down, a point of the box may lie above the tile's upper edge, but by less
than the tenth of a pixel that truncation takes off. -/
theorem pixel_fine_y (hz : 18 ≤ z ∧ z ≤ 22) (hy : 1 ≤ y ∧ y ≤ 2 ^ z.toNat)
    (hl : (tms2bbox ⟨z, x, y⟩).y1 ≤ c) (hu : c ≤ (tms2bbox ⟨z, x, y⟩).y2) :
    -256 < pixel c z y ∧ pixel c z y < 0.1 := by
  have hsd : ShiftDefined z := ⟨by omega, by omega⟩
  obtain ⟨hN22', hN22⟩ := pow_le_of_le hz
  have hN : (0 : Rat) < 2 ^ z.toNat := by positivity
  have hy0 : (1 : Rat) ≤ y := by exact_mod_cast hy.1
  have hy1 : (y : Rat) ≤ 2 ^ z.toNat := by exact_mod_cast hy.2
  have he : edgeErr z = 0.00001 := by simp [edgeErr, hz.1]
  simp only [tms2bbox, shl1_eq hsd, he] at hl hu
  rw [i32_eq (by omega) (by omega)] at hl
  push_cast at hl hu
  simp only [pixel]
  generalize (2 : Rat) ^ z.toNat = N at *
  have hl' := mul_of_lower_edge hN hl
  have hu' := mul_of_upper_edge hN hu
  constructor
  · rw [lt_sub_iff_add_lt, lt_div_iff₀ (by norm_num)]
    linarith
  · rw [sub_lt_iff_lt_add, div_lt_iff₀ (by norm_num)]
    linarith

theorem scaled_fine_x (hz : 18 ≤ z ∧ z ≤ 22) (hx : 0 ≤ x ∧ x < 2 ^ z.toNat) (c : Rat) :
    scaled c z x = truncate (10 * pixel c z x) := by
  have hN22 := (pow_le_of_le hz).2
  exact scaled_eq ⟨by omega, by omega⟩ ⟨by omega, by omega⟩

/-- The rows of a box never leave the tile. -/
theorem scale_fine_y (hz : 18 ≤ z ∧ z ≤ 22) (hy : 1 ≤ y ∧ y ≤ 2 ^ z.toNat)
    (hl : (tms2bbox ⟨z, x, y⟩).y1 ≤ c) (hu : c ≤ (tms2bbox ⟨z, x, y⟩).y2) :
    -2559 ≤ (scale c z y).toInt ∧ (scale c z y).toInt ≤ 0 := by
  have hN22 := (pow_le_of_le hz).2
  obtain ⟨hlo, hhi⟩ := pixel_fine_y hz hy hl hu
  have hs : scaled c z y = truncate (10 * pixel c z y) :=
    scaled_eq ⟨by omega, by omega⟩ ⟨by omega, by omega⟩
  have ht : -2559 ≤ scaled c z y ∧ scaled c z y ≤ 0 := by
    rw [hs]
    rcases lt_or_ge (pixel c z y) 0 with hneg | hpos
    · obtain ⟨h₁, h₂, -⟩ := truncate_neg (q := 10 * pixel c z y) (n := -2560)
        (by push_cast; linarith) (by linarith)
      omega
    · have hfloor : ⌊10 * pixel c z y⌋ = 0 :=
        Int.floor_eq_iff.mpr ⟨by push_cast; linarith, by push_cast; linarith⟩
      rw [truncate, if_pos (by linarith), hfloor]
      omega
  have hi : (scale c z y).toInt = scaled c z y := int16_toInt (by omega) (by omega)
  rw [hi]
  exact ht

theorem scale_fine_x (hz : 18 ≤ z ∧ z ≤ 22) (hx : 0 ≤ x ∧ x < 2 ^ z.toNat)
    (hcol : 21504 * (x + 1) < 1000 * 2 ^ z.toNat)
    (hl : (tms2bbox ⟨z, x, y⟩).x1 ≤ c) (hu : c ≤ (tms2bbox ⟨z, x, y⟩).x2) :
    0 ≤ (scale c z x).toInt ∧ (scale c z x).toInt ≤ 2559 := by
  obtain ⟨hlo, hhi⟩ := pixel_fine_x hz hx hl hu
  have hcol' : 21504 * ((x : Rat) + 1) < 1000 * 2 ^ z.toNat := by exact_mod_cast hcol
  obtain ⟨h₁, h₂, -⟩ := truncate_pos (q := 10 * pixel c z x) (n := 2560) (by linarith)
    (by push_cast; linarith)
  rw [← scaled_fine_x hz hx] at h₁ h₂
  have hi : (scale c z x).toInt = scaled c z x := int16_toInt (by omega) (by omega)
  rw [hi]
  omega

/-- The right edge of a box further right is sent as the first offset outside. -/
theorem scale_x2 (hz : 18 ≤ z ∧ z ≤ 22) (hx : 0 ≤ x ∧ x < 2 ^ z.toNat)
    (hcol : 1000 * 2 ^ z.toNat ≤ 21504 * (x + 1)) :
    (scale (tms2bbox ⟨z, x, y⟩).x2 z x).toInt = 2560 := by
  have hN22 := (pow_le_of_le hz).1
  have hcol' : 1000 * (2 : Rat) ^ z.toNat ≤ 21504 * (x + 1) := by exact_mod_cast hcol
  have hx1 : (x : Rat) + 1 ≤ 2 ^ z.toNat := by exact_mod_cast hx.2
  have hN : (0 : Rat) < 2 ^ z.toNat := by positivity
  have hpix := pixel_x2 (y := y) hz hx
  have hover : 0 ≤ ((x : Rat) + 1) * 0.000021504 - 0.000001 * 2 ^ z.toNat := by linarith
  have hfloor : ⌊10 * pixel (tms2bbox ⟨z, x, y⟩).x2 z x⌋ = 2560 := by
    rw [Int.floor_eq_iff, hpix]
    constructor
    · have := div_nonneg hover (show (0 : Rat) ≤ 156543.033928041 by norm_num)
      push_cast
      linarith
    · have : (((x : Rat) + 1) * 0.000021504 - 0.000001 * 2 ^ z.toNat) / 156543.033928041 <
          0.1 := by
        rw [div_lt_iff₀ (by norm_num)]
        linarith
      push_cast
      linarith
  have ht : scaled (tms2bbox ⟨z, x, y⟩).x2 z x = 2560 := by
    rw [scaled_fine_x hz hx, truncate, if_pos, hfloor]
    rw [← Int.floor_nonneg, hfloor]
    norm_num
  have hi : (scale (tms2bbox ⟨z, x, y⟩).x2 z x).toInt = scaled (tms2bbox ⟨z, x, y⟩).x2 z x :=
    int16_toInt (by omega) (by omega)
  rw [hi, ht]

/-- A box of these zooms holds its right lower corner. -/
theorem holds_corner (hz : 18 ≤ z ∧ z ≤ 22) (hx : 0 ≤ x ∧ x < 2 ^ z.toNat)
    (hy : 1 ≤ y ∧ y ≤ 2 ^ z.toNat) : (tms2bbox ⟨z, x, y⟩).Holds
      (tms2bbox ⟨z, x, y⟩).x2 (tms2bbox ⟨z, x, y⟩).y1 := by
  obtain ⟨hN22', hN22⟩ := pow_le_of_le hz
  have hsd : ShiftDefined z := ⟨by omega, by omega⟩
  have hN : (0 : Rat) < 2 ^ z.toNat := by positivity
  have he : edgeErr z = 0.00001 := by simp [edgeErr, hz.1]
  have hw : (1 : Rat) ≤ 40075016.6856 / 2 ^ z.toNat := by
    rw [le_div_iff₀ hN]
    linarith
  refine ⟨⟨?_, le_rfl⟩, le_rfl, ?_⟩
  · simp only [tms2bbox, shl1_eq hsd, he]
    rw [i32_eq (by omega) (by omega)]
    push_cast
    rw [add_mul, add_div]
    linarith
  · simp only [tms2bbox, shl1_eq hsd, he]
    rw [i32_eq (by omega) (by omega)]
    push_cast
    rw [sub_mul, sub_div]
    linarith

/-- **Where the finer margin is wide enough.** -/
theorem keepsInside_iff (hz : 18 ≤ z ∧ z ≤ 22) (hx : 0 ≤ x ∧ x < 2 ^ z.toNat)
    (hy : 1 ≤ y ∧ y ≤ 2 ^ z.toNat) :
    KeepsInside z x y ↔ 21504 * (x + 1) < 1000 * 2 ^ z.toNat := by
  constructor
  · intro h
    by_contra hcol
    have hout := (h _ _ (holds_corner hz hx hy)).1.2
    rw [scale_x2 hz hx (by omega)] at hout
    norm_num at hout
  · rintro hcol cx cy ⟨hcx, hcy⟩
    exact ⟨scale_fine_x hz hx hcol hcx.1 hcx.2, scale_fine_y hz hy hcy.1 hcy.2⟩

end

/-- The last column of zoom 18. -/
theorem lastColumn_outside :
    (tms2bbox ⟨18, 262143, 1⟩).Holds (tms2bbox ⟨18, 262143, 1⟩).x2 (tms2bbox ⟨18, 262143, 1⟩).y1 ∧
    (scale (tms2bbox ⟨18, 262143, 1⟩).x2 18 262143).toInt = 2560 ∧ ¬ KeepsInside 18 262143 1 := by
  have hin := holds_corner (z := 18) (x := 262143) (y := 1) (by decide) (by decide) (by decide)
  have hout := scale_x2 (z := 18) (x := 262143) (y := 1) (by decide) (by decide) (by decide)
  refine ⟨hin, hout, fun h => ?_⟩
  have := (h _ _ hin).1.2
  rw [hout] at this
  norm_num at this

theorem keepsInside_firstColumn :
    KeepsInside 18 0 1 ↔ 21504 * ((0 : Int) + 1) < 1000 * 2 ^ (18 : Int).toNat :=
  keepsInside_iff (by decide) (by decide) (by decide)

end Canvasback
