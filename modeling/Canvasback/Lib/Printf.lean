import Mathlib.Data.Rat.Floor
import Mathlib.Tactic.Linarith
import Mathlib.Tactic.NormNum
import Mathlib.Tactic.Positivity

/-!
# `sprintf` with `%f`

Formats with no directive but `%f`, on exact rationals, and how long what they
make can get.
-/

namespace Canvasback.Printf

-- ---------------------------------------------------------------------------
-- Numbers as text
-- ---------------------------------------------------------------------------

/-- To the nearest integer, a half to the even one. -/
def roundEven (q : Rat) : Int :=
  if q - ⌊q⌋ < 1 / 2 then ⌊q⌋
  else if 1 / 2 < q - ⌊q⌋ then ⌊q⌋ + 1
  else if ⌊q⌋ % 2 = 0 then ⌊q⌋ else ⌊q⌋ + 1

def decimal (n : Nat) : List UInt8 := (Nat.toDigits 10 n).map fun c => UInt8.ofNat c.toNat

/-- With leading zeros, to `width` digits. -/
def padded (width n : Nat) : List UInt8 :=
  List.replicate (width - (decimal n).length) 48 ++ decimal n

/-- `%f`: a minus sign if there is one, the integer digits, a point and six
digits, of the nearest millionth. -/
def fixed (q : Rat) : List UInt8 :=
  let millionths := (roundEven (|q| * 10 ^ 6)).toNat
  (if q < 0 then [45] else []) ++ decimal (millionths / 10 ^ 6) ++
    46 :: padded 6 (millionths % 10 ^ 6)

/-- `sprintf(.., fmt, args)`. A directive without an argument, which C leaves
undefined, is copied. -/
def sprintf : (fmt : List UInt8) → (args : List Rat) → List UInt8
  | 37 :: 102 :: fmt, arg :: args => fixed arg ++ sprintf fmt args
  | b :: fmt, args => b :: sprintf fmt args
  | [], _ => []

example : fixed (-1 / 3) = [45, 48, 46, 51, 51, 51, 51, 51, 51] := by decide +kernel

-- ---------------------------------------------------------------------------
-- Lengths
-- ---------------------------------------------------------------------------

theorem roundEven_le (q : Rat) : (roundEven q : Rat) ≤ q + 1 / 2 := by
  have hl := Int.floor_le q
  unfold roundEven
  split_ifs with hlow hhigh heven
  · linarith
  · push_cast
    linarith
  · linarith
  · push_cast
    linarith

theorem decimal_length (hk : 0 < k) (h : n < 10 ^ k) : (decimal n).length ≤ k := by
  rw [decimal, List.length_map]
  exact (Nat.length_toDigits_le_iff (by norm_num) hk).mpr h

theorem padded_length (hw : 0 < width) (h : n < 10 ^ width) : (padded width n).length = width := by
  have hd := decimal_length hw h
  rw [padded, List.length_append, List.length_replicate]
  omega

/-- A number of at most `k` integer digits, and not about to get one more by
rounding. -/
theorem fixed_length (hk : 0 < k) (h : |q| ≤ 10 ^ k - 1) : (fixed q).length ≤ k + 8 := by
  have hround := roundEven_le (|q| * 10 ^ 6)
  have hlt : (roundEven (|q| * 10 ^ 6) : Rat) < 10 ^ k * 10 ^ 6 := by
    have hscaled := mul_le_mul_of_nonneg_right h (by norm_num : (0 : Rat) ≤ 10 ^ 6)
    rw [sub_mul] at hscaled
    norm_num at hscaled hround ⊢
    linarith
  have hlt' : roundEven (|q| * 10 ^ 6) < (10 ^ k * 10 ^ 6 : Nat) := by exact_mod_cast hlt
  have hint : (roundEven (|q| * 10 ^ 6)).toNat / 10 ^ 6 < 10 ^ k := by
    have hpos : 0 < 10 ^ k := by positivity
    rw [Nat.div_lt_iff_lt_mul (by norm_num)]
    omega
  have hdigits := decimal_length hk hint
  have hfrac := padded_length (by norm_num : 0 < 6)
    (Nat.mod_lt (roundEven (|q| * 10 ^ 6)).toNat (by norm_num : 0 < 10 ^ 6))
  have hsign : (if q < 0 then [45] else [] : List UInt8).length ≤ 1 := by
    split <;> simp
  simp only [fixed, List.length_append, List.length_cons]
  omega

/-- Each argument takes the place of the two bytes of its directive. -/
theorem sprintf_length (hw : 2 ≤ w) (fmt : List UInt8) (h : ∀ a ∈ args, (fixed a).length ≤ w) :
    (sprintf fmt args).length ≤ fmt.length + (w - 2) * args.length := by
  induction fmt, args using sprintf.induct with
  | case1 fmt arg args ih =>
    have harg := h arg (by simp)
    have := ih fun a ha => h a (by simp [ha])
    rw [sprintf, List.length_append, List.length_cons, List.length_cons, List.length_cons, mul_add]
    omega
  | case2 b fmt args hne ih =>
    have := ih h
    rw [sprintf]
    · simp only [List.length_cons]
      omega
    · exact hne
  | case3 => simp [sprintf]

end Canvasback.Printf
