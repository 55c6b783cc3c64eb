import Canvasback.Lib.Memory
import Mathlib.Data.Rat.Floor
import Mathlib.Tactic.Linarith
import Mathlib.Tactic.FieldSimp
import Mathlib.Tactic.Positivity

/-!
# Tiles: the clip box and the quantiser

`tms2bbox` computes the box a query clips to, `scale` the offset a coordinate
is sent as. Both are taken in exact rational arithmetic; `int` expressions
stay 32 bits wide.
-/

namespace Canvasback

open Memory

structure Tms where
  z : Int
  x : Int
  y : Int
  deriving DecidableEq, Repr

structure Bbox where
  x1 : Rat
  y1 : Rat
  x2 : Rat
  y2 : Rat
  deriving DecidableEq, Repr

/-- `1 << n`. C defines it for `ShiftDefined` counts only; the value given
beyond them is the one an x86 shift leaves, which looks at five bits of the
count. -/
def shl1 (n : Int) : Int := i32 (2 ^ (n % 32).toNat)

def ShiftDefined (n : Int) : Prop := 0 ≤ n ∧ n ≤ 30

instance (n : Int) : Decidable (ShiftDefined n) := inferInstanceAs (Decidable (_ ∧ _))

theorem shl1_eq (h : ShiftDefined z) : shl1 z = 2 ^ z.toNat := by
  obtain ⟨hl, hu⟩ := h
  obtain ⟨n, rfl⟩ := Int.eq_ofNat_of_zero_le hl
  have hn : n ≤ 30 := by omega
  have hp : (2 : Int) ^ n ≤ 2 ^ 30 := pow_le_pow_right₀ (by norm_num) hn
  have h32 : ((n : Int) % 32).toNat = n := by omega
  rw [shl1, h32, Int.toNat_natCast]
  have h0 : (0 : Int) ≤ 2 ^ n := by positivity
  exact i32_eq (by omega) (by omega)

-- ---------------------------------------------------------------------------
-- The source's functions
-- ---------------------------------------------------------------------------

/-- Conversion of a real to an integer type: toward zero. -/
def truncate (q : Rat) : Int := if 0 ≤ q then ⌊q⌋ else ⌈q⌉

/-- What `scale` hands to its `int16_t` cast, truncated. -/
def scaled (coord : Rat) (zoom tile : Int) : Int :=
  truncate (((coord + 20037508.342789) * shl1 zoom / 156543.033928041 - i32 (tile * 256)) * 10)

def scale (coord : Rat) (zoom tile : Int) : Int16 := Int16.ofInt (scaled coord zoom tile)

def edgeErr (z : Int) : Rat := if 18 ≤ z then 0.00001 else 0.01

def tms2bbox (tile : Tms) : Bbox where
  x1 := tile.x * 40075016.6856 / shl1 tile.z - 20037508.34278 + edgeErr tile.z
  x2 := i32 (tile.x + 1) * 40075016.6856 / shl1 tile.z - 20037508.34278 - edgeErr tile.z
  y1 := i32 (tile.y - 1) * 40075016.6856 / shl1 tile.z - 20037508.34278 + edgeErr tile.z
  y2 := tile.y * 40075016.6856 / shl1 tile.z - 20037508.34278 - edgeErr tile.z

/-- The coordinate an offset stands for. -/
def unscale (v : Int) (zoom tile : Int) : Rat :=
  (v / 10 + 256 * tile) * 156543.033928041 / shl1 zoom - 20037508.342789

-- ---------------------------------------------------------------------------
-- Truncation
-- ---------------------------------------------------------------------------

theorem truncate_pos {q : Rat} {n : Int} (hl : 0 < q) (hu : q < n) :
    0 ≤ truncate q ∧ truncate q < n ∧ (truncate q : Rat) ≤ q ∧ q < truncate q + 1 := by
  have ht : truncate q = ⌊q⌋ := by simp [truncate, hl.le]
  rw [ht]
  exact ⟨Int.floor_nonneg.mpr hl.le, Int.floor_lt.mpr hu, Int.floor_le q, Int.lt_floor_add_one q⟩

theorem truncate_neg {q : Rat} {n : Int} (hl : n < q) (hu : q < 0) :
    n < truncate q ∧ truncate q ≤ 0 ∧ q ≤ truncate q ∧ (truncate q : Rat) - 1 < q := by
  have ht : truncate q = ⌈q⌉ := by simp [truncate, not_le.mpr hu]
  rw [ht]
  refine ⟨Int.lt_ceil.mpr hl, Int.ceil_le.mpr (by exact_mod_cast hu.le), Int.le_ceil q, ?_⟩
  linarith [Int.ceil_lt_add_one q]

-- ---------------------------------------------------------------------------
-- Pixels
-- ---------------------------------------------------------------------------

/-- A coordinate's place in pixels, from the origin of a tile. -/
def pixel (coord : Rat) (zoom tile : Int) : Rat :=
  (coord + 20037508.342789) * 2 ^ zoom.toNat / 156543.033928041 - 256 * tile

theorem scaled_eq (hz : ShiftDefined z) (ht : -2 ^ 23 ≤ t ∧ t < 2 ^ 23) :
    scaled c z t = truncate (10 * pixel c z t) := by
  rw [scaled, shl1_eq hz, i32_eq (by omega) (by omega), pixel]
  congr 1
  push_cast
  ring

theorem unscale_eq (hz : ShiftDefined z) (v : Int) :
    unscale v z t = c - (pixel c z t - v / 10) * 156543.033928041 / 2 ^ z.toNat := by
  have hN : (2 : Rat) ^ z.toNat ≠ 0 := by positivity
  rw [unscale, shl1_eq hz, pixel]
  push_cast
  field_simp
  ring

theorem mul_of_lower_edge {a h e c N : Rat} (hN : 0 < N) (hl : a / N - h + e ≤ c) :
    a - (h - e) * N ≤ c * N := by
  have hm := mul_le_mul_of_nonneg_right hl hN.le
  have he : (a / N - h + e) * N = a - (h - e) * N := by field_simp; ring
  linarith

theorem mul_of_upper_edge {a h e c N : Rat} (hN : 0 < N) (hu : c ≤ a / N - h - e) :
    c * N ≤ a - (h + e) * N := by
  have hm := mul_le_mul_of_nonneg_right hu hN.le
  have he : (a / N - h - e) * N = a - (h + e) * N := by field_simp; ring
  linarith

/-- Between a tile's left and right clip edges a point is strictly inside the
tile's 256 pixels. The two functions' worlds differ in width by 0.0000215; the
index is at most the number of tiles, so the mismatch stays below the margin. -/
theorem pixel_clip_x (hz : 0 ≤ z ∧ z ≤ 17) (hx : 0 ≤ x ∧ x < 2 ^ z.toNat)
    (hl : (tms2bbox ⟨z, x, y⟩).x1 ≤ c) (hu : c ≤ (tms2bbox ⟨z, x, y⟩).x2) :
    0 < pixel c z x ∧ pixel c z x < 256 := by
  have hsd : ShiftDefined z := ⟨hz.1, by omega⟩
  have hN17 : (2 : Int) ^ z.toNat ≤ 2 ^ 17 := pow_le_pow_right₀ (by norm_num) (by omega)
  have hN : (0 : Rat) < 2 ^ z.toNat := by positivity
  have hx0 : (0 : Rat) ≤ x := by exact_mod_cast hx.1
  have hx1 : (x : Rat) + 1 ≤ 2 ^ z.toNat := by exact_mod_cast hx.2
  have he : edgeErr z = 0.01 := by simp [edgeErr, show ¬ (18 ≤ z) by omega]
  simp only [tms2bbox, shl1_eq hsd, he] at hl hu
  rw [i32_eq (by omega) (by omega)] at hu
  push_cast at hl hu
  simp only [pixel]
  generalize (2 : Rat) ^ z.toNat = N at *
  have hl' := mul_of_lower_edge hN hl
  have hu' := mul_of_upper_edge hN hu
  constructor
  · rw [sub_pos, lt_div_iff₀ (by norm_num)]
    linarith
  · rw [sub_lt_iff_lt_add, div_lt_iff₀ (by norm_num)]
    linarith

/-- The same between the lower and the upper edge, where `scale` measures down
from the upper one. -/
theorem pixel_clip_y (hz : 0 ≤ z ∧ z ≤ 17) (hy : 1 ≤ y ∧ y ≤ 2 ^ z.toNat)
    (hl : (tms2bbox ⟨z, x, y⟩).y1 ≤ c) (hu : c ≤ (tms2bbox ⟨z, x, y⟩).y2) :
    -256 < pixel c z y ∧ pixel c z y < 0 := by
  have hsd : ShiftDefined z := ⟨hz.1, by omega⟩
  have hN17 : (2 : Int) ^ z.toNat ≤ 2 ^ 17 := pow_le_pow_right₀ (by norm_num) (by omega)
  have hN : (0 : Rat) < 2 ^ z.toNat := by positivity
  have hy0 : (1 : Rat) ≤ y := by exact_mod_cast hy.1
  have hy1 : (y : Rat) ≤ 2 ^ z.toNat := by exact_mod_cast hy.2
  have he : edgeErr z = 0.01 := by simp [edgeErr, show ¬ (18 ≤ z) by omega]
  simp only [tms2bbox, shl1_eq hsd, he] at hl hu
  rw [i32_eq (by omega) (by omega)] at hl
  push_cast at hl hu
  simp only [pixel]
  generalize (2 : Rat) ^ z.toNat = N at *
  have hl' := mul_of_lower_edge hN hl
  have hu' := mul_of_upper_edge hN hu
  constructor
  · rw [lt_sub_iff_add_lt, lt_div_iff₀ (by norm_num)]
    linarith
  · rw [sub_neg, div_lt_iff₀ (by norm_num)]
    linarith

-- ---------------------------------------------------------------------------
-- The clip box and the quantiser agree
-- ---------------------------------------------------------------------------

theorem int16_toInt (hl : -2 ^ 15 ≤ v) (hu : v < 2 ^ 15) : (Int16.ofInt v).toInt = v := by
  rw [Int16.toInt_ofInt, show Int16.size = 2 ^ 16 from rfl]
  exact Int.bmod_eq_of_le (by omega) (by omega)

/-- A point of the box the query of a tile clips to is sent as an offset
inside the tile, and the offset gives the point back to within a tenth of a
pixel: from the left across, from above down. -/
theorem scale_clip (hz : 0 ≤ z ∧ z ≤ 17) (hx : 0 ≤ x ∧ x < 2 ^ z.toNat)
    (hy : 1 ≤ y ∧ y ≤ 2 ^ z.toNat)
    (hcx : (tms2bbox ⟨z, x, y⟩).x1 ≤ cx ∧ cx ≤ (tms2bbox ⟨z, x, y⟩).x2)
    (hcy : (tms2bbox ⟨z, x, y⟩).y1 ≤ cy ∧ cy ≤ (tms2bbox ⟨z, x, y⟩).y2) :
    (scale cx z x).toInt = scaled cx z x ∧ (scale cy z y).toInt = scaled cy z y ∧
    (0 ≤ (scale cx z x).toInt ∧ (scale cx z x).toInt ≤ 2559) ∧
    (-2559 ≤ (scale cy z y).toInt ∧ (scale cy z y).toInt ≤ 0) ∧
    (unscale (scale cx z x).toInt z x ≤ cx ∧
      cx - unscale (scale cx z x).toInt z x < 156543.033928041 / (10 * 2 ^ z.toNat)) ∧
    (cy ≤ unscale (scale cy z y).toInt z y ∧
      unscale (scale cy z y).toInt z y - cy < 156543.033928041 / (10 * 2 ^ z.toNat)) := by
  have hsd : ShiftDefined z := ⟨hz.1, by omega⟩
  have hN17 : (2 : Int) ^ z.toNat ≤ 2 ^ 17 := pow_le_pow_right₀ (by norm_num) (by omega)
  have hN : (0 : Rat) < 2 ^ z.toNat := by positivity
  obtain ⟨hxl, hxu⟩ := pixel_clip_x hz hx hcx.1 hcx.2
  obtain ⟨hyl, hyu⟩ := pixel_clip_y hz hy hcy.1 hcy.2
  obtain ⟨hx1, hx2, hx3, hx4⟩ :=
    truncate_pos (q := 10 * pixel cx z x) (n := 2560) (by linarith) (by push_cast; linarith)
  obtain ⟨hy1, hy2, hy3, hy4⟩ :=
    truncate_neg (q := 10 * pixel cy z y) (n := -2560) (by push_cast; linarith) (by linarith)
  rw [← scaled_eq hsd (by omega)] at hx1 hx2 hx3 hx4 hy1 hy2 hy3 hy4
  have hsx : (scale cx z x).toInt = scaled cx z x := int16_toInt (by omega) (by omega)
  have hsy : (scale cy z y).toInt = scaled cy z y := int16_toInt (by omega) (by omega)
  rw [hsx, hsy, unscale_eq (c := cx) hsd, unscale_eq (c := cy) hsd]
  have hstep : 156543.033928041 / (10 * 2 ^ z.toNat) =
      (1 / 10 : Rat) * 156543.033928041 / 2 ^ z.toNat := by field_simp
  rw [hstep]
  refine ⟨rfl, rfl, ⟨hx1, by omega⟩, ⟨by omega, hy2⟩, ⟨?_, ?_⟩, ⟨?_, ?_⟩⟩
  · have : 0 ≤ (pixel cx z x - scaled cx z x / 10) * 156543.033928041 / 2 ^ z.toNat :=
      div_nonneg (mul_nonneg (by linarith) (by norm_num)) hN.le
    linarith
  · rw [sub_sub_cancel, div_lt_div_iff_of_pos_right hN]
    linarith
  · have : 0 ≤ (scaled cy z y / 10 - pixel cy z y) * 156543.033928041 / 2 ^ z.toNat :=
      div_nonneg (mul_nonneg (by linarith) (by norm_num)) hN.le
    have he : (pixel cy z y - scaled cy z y / 10) * 156543.033928041 / 2 ^ z.toNat =
        -((scaled cy z y / 10 - pixel cy z y) * 156543.033928041 / 2 ^ z.toNat) := by ring
    linarith
  · have he : cy - (pixel cy z y - scaled cy z y / 10) * 156543.033928041 / 2 ^ z.toNat - cy =
        (scaled cy z y / 10 - pixel cy z y) * 156543.033928041 / 2 ^ z.toNat := by ring
    rw [he, div_lt_div_iff_of_pos_right hN]
    linarith

/-- In the last tile of the last zoom that clips. -/
theorem scale_clip_corner :
    (scale 20037355 17 131071).toInt = scaled 20037355 17 131071 ∧
    (scale 20037355 17 131072).toInt = scaled 20037355 17 131072 ∧
    (0 ≤ (scale 20037355 17 131071).toInt ∧ (scale 20037355 17 131071).toInt ≤ 2559) ∧
    (-2559 ≤ (scale 20037355 17 131072).toInt ∧ (scale 20037355 17 131072).toInt ≤ 0) ∧
    (unscale (scale 20037355 17 131071).toInt 17 131071 ≤ 20037355 ∧
      20037355 - unscale (scale 20037355 17 131071).toInt 17 131071 <
        156543.033928041 / (10 * 2 ^ (17 : Int).toNat)) ∧
    (20037355 ≤ unscale (scale 20037355 17 131072).toInt 17 131072 ∧
      unscale (scale 20037355 17 131072).toInt 17 131072 - 20037355 <
        156543.033928041 / (10 * 2 ^ (17 : Int).toNat)) := by
  have hshl : shl1 17 = 131072 := by rw [shl1_eq (by decide)]; rfl
  have hright : i32 131072 = 131072 := i32_eq (by norm_num) (by norm_num)
  have hbelow : i32 131071 = 131071 := i32_eq (by norm_num) (by norm_num)
  exact scale_clip (by norm_num) (by decide) (by decide)
    (by norm_num [tms2bbox, edgeErr, hshl, hright]) (by norm_num [tms2bbox, edgeErr, hshl, hbelow])

end Canvasback
