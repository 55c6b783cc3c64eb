import Mathlib.Tactic.Ring
import Mathlib.Data.List.Basic
import Mathlib.Data.Nat.Digits.Lemmas

/-!
# Bytes, words and buffers of a C program

32-bit `int` arithmetic, little-endian words, memory read through a partial
map from offsets to bytes, and bounded buffers written at an offset. Nothing
here knows what the bytes mean.
-/

namespace Canvasback.Memory

/-- Why a piece of straight-line C code did not come to its end. -/
inductive Fault where
  | badRead
  | badWrite
  /-- The loop was given fewer iterations than it needs. -/
  | outOfFuel
  deriving DecidableEq, Repr

-- ---------------------------------------------------------------------------
-- Machine integers
-- ---------------------------------------------------------------------------

/-- The value a 32-bit `int` holds after computing `x` (two's complement). -/
def i32 (x : Int) : Int := x.bmod (2 ^ 32)

theorem i32_eq (hl : -2 ^ 31 ≤ x) (hu : x < 2 ^ 31) : i32 x = x := by
  unfold i32
  apply Int.bmod_eq_of_le <;> omega

theorem i32_inj (h : i32 x = i32 y) : (x - y) % 2 ^ 32 = 0 := by
  simp only [i32, Int.bmod] at h
  omega

theorem i32_congr (h : (x - y) % 2 ^ 32 = 0) : i32 x = i32 y := by
  simp only [i32, Int.bmod]
  omega

theorem i32_sub_mod (x : Int) : (i32 x - x) % 2 ^ 32 = 0 := by
  simp only [i32, Int.bmod]
  omega

theorem i32_range (x : Int) : -2 ^ 31 ≤ i32 x ∧ i32 x < 2 ^ 31 := by
  simp only [i32, Int.bmod]
  omega

theorem i32_add (hx : i32 x = o) (hr : -2 ^ 31 ≤ o + y ∧ o + y < 2 ^ 31) : i32 (x + y) = o + y := by
  have hcong := i32_sub_mod x
  rw [i32_congr (y := o + y) (by omega), i32_eq hr.1 hr.2]

/-- One past the largest `int` is the smallest. -/
theorem i32_wrap : i32 (2 ^ 31) = -2 ^ 31 := by
  norm_num [i32, Int.bmod]

-- ---------------------------------------------------------------------------
-- Little-endian words
-- ---------------------------------------------------------------------------

/-- The `k` low bytes of `n`, least significant first. -/
def toLe : Nat → Nat → List UInt8
  | 0, _ => []
  | k + 1, n => UInt8.ofNat n :: toLe k (n / 256)

def ofLe : List UInt8 → Nat
  | [] => 0
  | b :: bs => b.toNat + 256 * ofLe bs

@[simp] theorem toLe_length (k n : Nat) : (toLe k n).length = k := by
  induction k generalizing n with
  | zero => rfl
  | succ k ih => simp [toLe, ih]

theorem ofLe_append (xs ys : List UInt8) :
    ofLe (xs ++ ys) = ofLe xs + 256 ^ xs.length * ofLe ys := by
  induction xs with
  | nil => simp [ofLe]
  | cons x xs ih =>
    rw [List.cons_append, ofLe, ofLe, ih, List.length_cons]
    ring

theorem toLe_add (j k n : Nat) : toLe (j + k) n = toLe j n ++ toLe k (n / 256 ^ j) := by
  induction j generalizing n with
  | zero => simp [toLe]
  | succ j ih =>
    rw [Nat.succ_add, toLe, toLe, ih, Nat.div_div_eq_div_mul, ← Nat.pow_succ', List.cons_append]

theorem ofLe_toLe (k n : Nat) : ofLe (toLe k n) = n % 256 ^ k := by
  induction k generalizing n with
  | zero => simp [toLe, ofLe, Nat.mod_one]
  | succ k ih =>
    have hb : (UInt8.ofNat n).toNat = n % 256 := by simp
    rw [toLe, ofLe, ih, hb, Nat.pow_succ', Nat.mod_mul]

theorem ofLe_toLe_of_lt (h : n < 256 ^ k) : ofLe (toLe k n) = n := by
  rw [ofLe_toLe, Nat.mod_eq_of_lt h]

-- ---------------------------------------------------------------------------
-- Reading
-- ---------------------------------------------------------------------------

/-- Memory seen from a pointer: the byte at each offset, `none` where the page
is not mapped. -/
abbrev Mem := Int → Option UInt8

def fetch (m : Mem) (off : Int) : Nat → Except Fault (List UInt8)
  | 0 => .ok []
  | n + 1 => do
    let b ← match m off with
      | some b => .ok b
      | none => .error .badRead
    let bs ← fetch m (off + 1) n
    .ok (b :: bs)

/-- `*(uint32_t*)(p + off)`. -/
def u32 (m : Mem) (off : Int) : Except Fault Nat := do
  let bs ← fetch m off 4
  .ok (ofLe bs)

/-- The bit pattern of `*(double*)(p + off)`. -/
def f64 (m : Mem) (off : Int) : Except Fault UInt64 := do
  let bs ← fetch m off 8
  .ok (UInt64.ofNat (ofLe bs))

/-- `bs` stands in memory from `off` on. -/
def Holds (m : Mem) (off : Int) : List UInt8 → Prop
  | [] => True
  | b :: bs => m off = some b ∧ Holds m (off + 1) bs

theorem holds_append {m : Mem} {off : Int} {xs ys : List UInt8} :
    Holds m off (xs ++ ys) ↔ Holds m off xs ∧ Holds m (off + xs.length) ys := by
  induction xs generalizing off with
  | nil => simp [Holds]
  | cons x xs ih =>
    have he : off + 1 + xs.length = off + (x :: xs).length := by simp; ring
    simp only [List.cons_append, Holds, ih, he, and_assoc]

theorem holds_of_getElem {m : Mem} {off : Int} {bs : List UInt8}
    (h : ∀ i (hi : i < bs.length), m (off + i) = some bs[i]) : Holds m off bs := by
  induction bs generalizing off with
  | nil => trivial
  | cons b bs ih =>
    refine ⟨?_, ih fun i hi => ?_⟩
    · have h0 := h 0 (Nat.zero_lt_succ _)
      rwa [List.getElem_cons_zero, Nat.cast_zero, add_zero] at h0
    · have hs := h (i + 1) (Nat.succ_lt_succ hi)
      rw [List.getElem_cons_succ] at hs
      rw [← hs]
      congr 1
      push_cast
      ring

theorem fetch_holds {m : Mem} {off : Int} {bs : List UInt8} (h : Holds m off bs) :
    fetch m off bs.length = .ok bs := by
  induction bs generalizing off with
  | nil => rfl
  | cons b bs ih =>
    simp only [List.length_cons, fetch, h.1]
    rw [ih h.2]
    rfl

theorem u32_holds (h : Holds m off (toLe 4 n)) (hn : n < 2 ^ 32) : u32 m off = .ok n := by
  have hf := fetch_holds h
  rw [toLe_length] at hf
  simp only [u32, hf, bind, Except.bind]
  rw [ofLe_toLe_of_lt (by simpa using hn)]

theorem u32_unmapped {m : Mem} (h : m off = none) : u32 m off = .error .badRead := by
  simp only [u32, fetch, h, bind, Except.bind]

theorem f64_holds {x : UInt64} (h : Holds m off (toLe 8 x.toNat)) : f64 m off = .ok x := by
  have hf := fetch_holds h
  rw [toLe_length] at hf
  simp only [f64, hf, bind, Except.bind]
  rw [ofLe_toLe_of_lt (by simpa using x.toNat_lt)]
  simp

-- ---------------------------------------------------------------------------
-- Writing
-- ---------------------------------------------------------------------------

/-- `memcpy(&buf[off], bs, |bs|)` into a buffer of fixed size. -/
def put (buf : List UInt8) (off : Int) (bs : List UInt8) : Except Fault (List UInt8) :=
  if 0 ≤ off ∧ off + bs.length ≤ buf.length then
    .ok (buf.take off.toNat ++ bs ++ buf.drop (off.toNat + bs.length))
  else .error .badWrite

theorem put_ok (h : put buf off bs = .ok buf') :
    0 ≤ off ∧ off + bs.length ≤ buf.length ∧ buf'.length = buf.length ∧
      buf' = buf.take off.toNat ++ bs ++ buf.drop (off.toNat + bs.length) := by
  unfold put at h
  split at h
  · rename_i hc
    injection h with h
    subst h
    refine ⟨hc.1, hc.2, ?_, rfl⟩
    simp only [List.length_append, List.length_take, List.length_drop]
    omega
  · simp at h

theorem put_fits (hl : 0 ≤ off) (hu : off + (bs.length : Int) ≤ buf.length) :
    put buf off bs = .ok (buf.take off.toNat ++ bs ++ buf.drop (off.toNat + bs.length)) := by
  simp [put, hl, hu]

theorem put_overflow (h : (buf.length : Int) < off + bs.length) :
    put buf off bs = .error .badWrite := by
  unfold put
  rw [if_neg (by omega)]

/-- Two writes back to back are one write. -/
theorem put_put {buf xs ys : List UInt8} {off : Int} :
    (put buf off xs >>= fun b => put b (off + xs.length) ys) = put buf off (xs ++ ys) := by
  by_cases hx : 0 ≤ off ∧ off + xs.length ≤ buf.length
  · rw [put_fits hx.1 hx.2]
    simp only [bind, Except.bind]
    obtain ⟨n, rfl⟩ := Int.eq_ofNat_of_zero_le hx.1
    have hn : n + xs.length ≤ buf.length := by omega
    have hlen : (buf.take n ++ xs ++ buf.drop (n + xs.length)).length = buf.length := by
      simp; omega
    by_cases hy : n + xs.length + ys.length ≤ buf.length
    · rw [put_fits (by omega) (by simp; omega), put_fits (by omega) (by simp; omega)]
      have htake : (buf.take n ++ xs).length = n + xs.length := by simp; omega
      have h1 : ((n : Int) + xs.length).toNat = (buf.take n ++ xs).length := by omega
      simp only [Int.toNat_natCast, h1, List.take_left', List.drop_append, List.drop_drop]
      rw [List.drop_of_length_le (show (buf.take n).length ≤ _ by simp; omega),
        List.drop_of_length_le (show xs.length ≤ _ by simp; omega)]
      simp [htake, Nat.add_assoc]
    · rw [put_overflow (by simp only [Int.toNat_natCast, hlen]; omega),
        put_overflow (by simp; omega)]
  · have hxy : ¬ (0 ≤ off ∧ off + ((xs ++ ys).length : Int) ≤ buf.length) := by
      simp; omega
    simp only [put, hx, hxy, if_false]
    rfl

/-- What a run of writes from the start of a buffer leaves at its front. -/
theorem take_put_zero (h : put buf 0 bs = .ok buf') : buf'.take bs.length = bs := by
  obtain ⟨-, -, -, rfl⟩ := put_ok h
  simp

-- ---------------------------------------------------------------------------
-- Straight-line code
-- ---------------------------------------------------------------------------

/-- Only loops run out of fuel. -/
structure Straight {α : Type} (x : Except Fault α) : Prop where
  ne : x ≠ .error .outOfFuel

theorem straight_ok {α : Type} (a : α) : Straight (.ok a) := ⟨nofun⟩

theorem Straight.bind {α β : Type} {x : Except Fault α} {f : α → Except Fault β}
    (hx : Straight x) (hf : ∀ a, Straight (f a)) : Straight (x >>= f) := by
  cases x with
  | error e => exact ⟨fun h => hx.ne (by simpa [Bind.bind, Except.bind] using h)⟩
  | ok a => exact hf a

theorem straight_fetch (mem : Mem) (off : Int) (n : Nat) : Straight (fetch mem off n) := by
  induction n generalizing off with
  | zero => exact straight_ok _
  | succ n ih =>
    unfold fetch
    cases mem off with
    | none => exact ⟨nofun⟩
    | some b => exact (straight_ok b).bind fun _ => (ih _).bind fun _ => straight_ok _

theorem straight_u32 (mem : Mem) (off : Int) : Straight (u32 mem off) :=
  Straight.bind (straight_fetch ..) fun _ => straight_ok _

theorem straight_f64 (mem : Mem) (off : Int) : Straight (f64 mem off) :=
  Straight.bind (straight_fetch ..) fun _ => straight_ok _

theorem straight_put (buf : List UInt8) (off : Int) (bs : List UInt8) :
    Straight (put buf off bs) := by
  unfold put
  split
  · exact straight_ok _
  · exact ⟨nofun⟩

end Canvasback.Memory
