import Canvasback.Lib.Grid
import Canvasback.TokenLoop.RealTiles

/-!
# The boxes of a zoom

A request counts rows from the top, the box is computed from the row above the
one asked for counted from the bottom. Taken together, `read_cb` and `tms2bbox`
give the request the square it names, less the margin; the squares of a zoom
are the cells of one grid, the same across and up.
-/

namespace Canvasback

open Memory

def worldWidth : Rat := 40075016.6856

/-- Half the world, as the source has it. -/
def worldEdge : Rat := 20037508.34278

def margin (z : Int) : Rat := if z < 18 then 0.01 else 0.00001

/-- The square of column `x` and row `y`, rows counted from the top. -/
def square (z x y : Int) : Bbox where
  x1 := x * worldWidth / 2 ^ z.toNat - worldEdge
  y1 := (2 ^ z.toNat - 1 - y) * worldWidth / 2 ^ z.toNat - worldEdge
  x2 := (x + 1) * worldWidth / 2 ^ z.toNat - worldEdge
  y2 := (2 ^ z.toNat - y) * worldWidth / 2 ^ z.toNat - worldEdge

def Bbox.shrink (b : Bbox) (e : Rat) : Bbox := ⟨b.x1 + e, b.y1 + e, b.x2 - e, b.y2 - e⟩

def Bbox.Holds (b : Bbox) (cx cy : Rat) : Prop :=
  (b.x1 ≤ cx ∧ cx ≤ b.x2) ∧ b.y1 ≤ cy ∧ cy ≤ b.y2

/-- The box of the query a request is answered with. -/
def requestBox (z x y : Int) : Bbox := tms2bbox (Longs.tile ⟨z, x, y⟩)

/-- The tile lines of a zoom, across and up alike. -/
def tileGrid (z : Int) : Grid Rat where
  origin := -worldEdge
  width := worldWidth / 2 ^ z.toNat
  width_pos := div_pos (by norm_num [worldWidth]) (by positivity)

def OnMap (c : Rat) : Prop := -worldEdge ≤ c ∧ c < worldWidth - worldEdge

/-- Farther than the margin from every tile line. -/
def Clear (z : Int) (c : Rat) : Prop :=
  ∀ k : Int, 0 ≤ k → k ≤ 2 ^ z.toNat →
    margin z < |c - (k * worldWidth / 2 ^ z.toNat - worldEdge)|

section
variable {z x y : Int} {c cx cy : Rat}

theorem tileGrid_line (z k : Int) :
    (tileGrid z).line k = k * worldWidth / 2 ^ z.toNat - worldEdge := by
  simp only [Grid.line, tileGrid]
  ring

theorem margin_pos (z : Int) : 0 < margin z := by
  unfold margin
  split <;> norm_num

/-- Even the smallest cells are wider than their margins. -/
theorem margin_lt_width (hz : 0 ≤ z ∧ z ≤ 30) : 2 * margin z < (tileGrid z).width := by
  have hN : (0 : Rat) < 2 ^ z.toNat := by positivity
  have hpow (k : Nat) (hk : z.toNat ≤ k) : (2 : Rat) ^ z.toNat ≤ 2 ^ k :=
    pow_le_pow_right₀ (by norm_num) hk
  simp only [tileGrid, worldWidth]
  rw [lt_div_iff₀ hN]
  unfold margin
  split
  · have := hpow 17 (by omega)
    linarith
  · have := hpow 30 (by omega)
    linarith

theorem requestBox_eq (h : InRange z x y) :
    requestBox z x y = (square z x y).shrink (margin z) := by
  have hsd : ShiftDefined z := ⟨h.1, h.2.1⟩
  have hN30 : (2 : Int) ^ z.toNat ≤ 2 ^ 30 := by
    have := h.2.1
    exact pow_le_pow_right₀ (by norm_num) (by omega)
  have ht : Longs.tile ⟨z, x, y⟩ = ⟨z, x, 2 ^ z.toNat - y⟩ := (InRange.kept (n := ⟨z, x, y⟩) h).1
  have he : edgeErr z = margin z := by
    unfold edgeErr margin
    split <;> split <;> first | rfl | omega
  obtain ⟨-, -, hx0, hx, hy0, hy⟩ := h
  have hxr : i32 (x + 1) = x + 1 := i32_eq (by omega) (by omega)
  have hyr : i32 (2 ^ z.toNat - y - 1) = 2 ^ z.toNat - 1 - y := by
    rw [i32_eq (by omega) (by omega)]
    ring
  rw [requestBox, ht]
  simp only [tms2bbox, shl1_eq hsd, he, hxr, hyr, square, Bbox.shrink, worldWidth, worldEdge]
  push_cast
  rfl

/-- A point is in a request's box if each coordinate is in its cell. -/
theorem requestBox_holds (h : InRange z x y) : (requestBox z x y).Holds cx cy ↔
    cx ∈ (tileGrid z).cell (margin z) x ∧
      cy ∈ (tileGrid z).cell (margin z) (2 ^ z.toNat - 1 - y) := by
  rw [requestBox_eq h]
  have hrow : (2 : Int) ^ z.toNat - 1 - y + 1 = 2 ^ z.toNat - y := by ring
  simp only [Bbox.Holds, Bbox.shrink, square, Grid.cell, Set.mem_Icc, tileGrid_line, hrow]
  push_cast
  rfl

theorem existsUnique_column (hmap : OnMap c) (hclear : Clear z c) :
    ∃! k, (0 ≤ k ∧ k < 2 ^ z.toNat) ∧ c ∈ (tileGrid z).cell (margin z) k := by
  refine Grid.existsUnique_cell (margin_pos z) ?_ ?_ fun k h0 hk => ?_
  · rw [tileGrid_line]
    simpa using hmap.1
  · have hN : (2 : Rat) ^ z.toNat ≠ 0 := by positivity
    rw [tileGrid_line]
    push_cast
    rw [mul_div_cancel_left₀ _ hN]
    exact hmap.2
  · rw [tileGrid_line]
    exact hclear k h0 hk

end

/-- The boxes of a zoom partition the map but for its tile lines. -/
structure BoxesPartition (z : Int) : Prop where
  /-- Each is its request's square less the margin, and is not empty. -/
  square : ∀ x y, InRange z x y →
    (requestBox z x y).x1 < (requestBox z x y).x2 ∧
    (requestBox z x y).y1 < (requestBox z x y).y2 ∧
    requestBox z x y = (square z x y).shrink (margin z)
  disjoint : ∀ x y x' y', InRange z x y → InRange z x' y' → (x, y) ≠ (x', y') →
    ∀ cx cy, (requestBox z x y).Holds cx cy → ¬ (requestBox z x' y').Holds cx cy
  covers : ∀ cx cy, OnMap cx → OnMap cy → Clear z cx → Clear z cy →
    ∃! t : Int × Int, InRange z t.1 t.2 ∧ (requestBox z t.1 t.2).Holds cx cy

/-- **Tile boxes partition the map.** -/
theorem boxesPartition (hz : 0 ≤ z ∧ z ≤ 30) : BoxesPartition z := by
  refine ⟨fun x y hr => ?_, fun x y x' y' hr hr' hne cx cy hc hc' => hne ?_,
    fun cx cy hmx hmy hx hy => ?_⟩
  · have heq := requestBox_eq hr
    have hbx := Grid.cell_bounds (margin_lt_width hz) x
    have hby := Grid.cell_bounds (margin_lt_width hz) (2 ^ z.toNat - 1 - y)
    have hrow : (2 : Int) ^ z.toNat - 1 - y + 1 = 2 ^ z.toNat - y := by ring
    rw [hrow] at hby
    simp only [tileGrid_line] at hbx hby
    push_cast at hbx hby
    refine ⟨?_, ?_, heq⟩
    · rw [heq]
      exact hbx
    · rw [heq]
      exact hby
  · rw [requestBox_holds hr] at hc
    rw [requestBox_holds hr'] at hc'
    have hcol := Grid.cell_inj (margin_pos z) hc.1 hc'.1
    have hrow := Grid.cell_inj (margin_pos z) hc.2 hc'.2
    rw [Prod.mk.injEq]
    omega
  · obtain ⟨x, ⟨hxr, hxc⟩, hxu⟩ := existsUnique_column hmx hx
    obtain ⟨k, ⟨hkr, hkc⟩, hku⟩ := existsUnique_column hmy hy
    have hr : InRange z x (2 ^ z.toNat - 1 - k) := ⟨hz.1, hz.2, hxr.1, hxr.2, by omega, by omega⟩
    refine ⟨(x, 2 ^ z.toNat - 1 - k), ⟨hr, ?_⟩, ?_⟩
    · rw [requestBox_holds hr, sub_sub_cancel]
      exact ⟨hxc, hkc⟩
    · rintro ⟨x', y'⟩ ⟨hr', hc'⟩
      rw [requestBox_holds hr'] at hc'
      obtain ⟨-, -, hx0, hx1, hy0, hy1⟩ := hr'
      have hcol := hxu x' ⟨⟨hx0, hx1⟩, hc'.1⟩
      have hrow := hku (2 ^ z.toNat - 1 - y') ⟨⟨by omega, by omega⟩, hc'.2⟩
      rw [Prod.mk.injEq]
      omega

/-- A point in the corner of the map is in one box of zoom 17 and in no other. -/
theorem boxesPartition_corner : BoxesPartition 17 ∧
    (requestBox 17 131071 0).Holds 20037355 20037355 ∧
    ∀ x y, InRange 17 x y → (131071, 0) ≠ (x, y) →
      ¬ (requestBox 17 x y).Holds 20037355 20037355 := by
  have hpart : BoxesPartition 17 := boxesPartition (by decide)
  have hpow : (17 : Int).toNat = 17 := rfl
  have hin : InRange 17 131071 0 := by norm_num [InRange, hpow]
  have hholds : (requestBox 17 131071 0).Holds 20037355 20037355 := by
    rw [(hpart.square 131071 0 hin).2.2]
    norm_num [Bbox.Holds, Bbox.shrink, square, margin, worldWidth, worldEdge, hpow]
  exact ⟨hpart, hholds, fun x y hr hne =>
    hpart.disjoint 131071 0 x y hin hr hne _ _ hholds⟩

end Canvasback
