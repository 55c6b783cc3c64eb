import Mathlib.Algebra.Order.Floor.Ring
import Mathlib.Order.Interval.Set.Basic
import Mathlib.Tactic.FieldSimp
import Mathlib.Tactic.Linarith
import Mathlib.Tactic.Ring

/-!
# Uniform grids

A line cut into cells of one width. Cells from whose ends the same margin is
taken are disjoint, and a point that keeps the margin from all grid lines lies
in exactly one of them (`existsUnique_cell`).
-/

namespace Canvasback

structure Grid (K : Type) [Field K] [LinearOrder K] where
  origin : K
  width : K
  width_pos : 0 < width

namespace Grid

section
variable {K : Type} [Field K] [LinearOrder K] {g : Grid K} {e c : K}

def line (g : Grid K) (k : ℤ) : K := g.origin + k * g.width

/-- The cell between lines `k` and `k + 1`, less the margin. -/
def cell (g : Grid K) (e : K) (k : ℤ) : Set K := Set.Icc (g.line k + e) (g.line (k + 1) - e)

theorem line_succ (g : Grid K) (k : ℤ) : g.line (k + 1) = g.line k + g.width := by
  unfold line
  push_cast
  ring

variable [IsStrictOrderedRing K]

theorem line_mono (h : i ≤ j) : g.line i ≤ g.line j := by
  have hc : (i : K) ≤ j := by exact_mod_cast h
  have := mul_le_mul_of_nonneg_right hc g.width_pos.le
  unfold line
  linarith

theorem cell_bounds (h : 2 * e < g.width) (k : ℤ) : g.line k + e < g.line (k + 1) - e := by
  rw [line_succ]
  linarith

/-- A cell ends before a later one begins. -/
theorem lt_of_mem_cell (he : 0 < e) (hij : i < j) (hc : c ∈ g.cell e i) (hd : d ∈ g.cell e j) :
    c < d := by
  have := line_mono (g := g) (show i + 1 ≤ j by omega)
  have h₁ := hc.2
  have h₂ := hd.1
  linarith

theorem cell_inj (he : 0 < e) (hi : c ∈ g.cell e i) (hj : c ∈ g.cell e j) : i = j := by
  rcases lt_trichotomy i j with h | h | h
  · exact absurd (lt_of_mem_cell he h hi hj) (lt_irrefl c)
  · exact h
  · exact absurd (lt_of_mem_cell he h hj hi) (lt_irrefl c)

variable [FloorRing K]

/-- The cell a point lies in. -/
def index (g : Grid K) (c : K) : ℤ := ⌊(c - g.origin) / g.width⌋

theorem line_index_le (g : Grid K) (c : K) : g.line (g.index c) ≤ c := by
  have h := Int.floor_le ((c - g.origin) / g.width)
  rw [le_div_iff₀ g.width_pos] at h
  unfold line index
  linarith

theorem lt_line_index (g : Grid K) (c : K) : c < g.line (g.index c + 1) := by
  have h := Int.lt_floor_add_one ((c - g.origin) / g.width)
  rw [div_lt_iff₀ g.width_pos] at h
  unfold line index
  push_cast
  linarith

theorem existsUnique_cell (he : 0 < e) (hl : g.line 0 ≤ c) (hu : c < g.line n)
    (hclear : ∀ k, 0 ≤ k → k ≤ n → e < |c - g.line k|) :
    ∃! k, (0 ≤ k ∧ k < n) ∧ c ∈ g.cell e k := by
  have hlo := g.line_index_le c
  have hhi := g.lt_line_index c
  have h0 : 0 ≤ g.index c := by
    by_contra h
    have := line_mono (g := g) (show g.index c + 1 ≤ 0 by omega)
    linarith
  have hn : g.index c < n := by
    by_contra h
    have := line_mono (g := g) (show n ≤ g.index c by omega)
    linarith
  have hleft := hclear (g.index c) h0 hn.le
  have hright := hclear (g.index c + 1) (by omega) (by omega)
  rw [abs_of_nonneg (by linarith)] at hleft
  rw [abs_of_neg (by linarith)] at hright
  have hmem : c ∈ g.cell e (g.index c) := ⟨by linarith, by linarith⟩
  exact ⟨g.index c, ⟨⟨h0, hn⟩, hmem⟩, fun k hk => cell_inj he hk.2 hmem⟩

end

end Grid

end Canvasback
