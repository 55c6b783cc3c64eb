import Mathlib.Data.List.Basic
import Mathlib.Logic.Function.Basic
import Mathlib.Tactic.Ring

/-!
# Bit sets of two levels

A set of numbers as the bits of a row of words, counted from each word's sign
bit, and over the row a second one with a bit for every word that is not zero.
The second level lets a scan step over empty words; `Wf` says that it never
steps over another.
-/

namespace Canvasback.TwoLevel

-- ---------------------------------------------------------------------------
-- Words
-- ---------------------------------------------------------------------------

section
variable {w : Nat} {v : BitVec w}

/-- The sign bit, shifted down by `k`. -/
def bit (w k : Nat) : BitVec w := BitVec.intMin w >>> k

theorem getMsbD_bit (hi : i < w) : (bit w k).getMsbD i = decide (i = k) := by
  have hw : 0 < w := by omega
  rw [bit, BitVec.getMsbD_ushiftRight, BitVec.getMsbD_intMin]
  by_cases h : i = k
  · simp [h, h ▸ hi, hw]
  · by_cases hk : i < k
    · simp [h, hk]
    · simp [h, show i - k ≠ 0 by omega]

theorem getMsbD_set (hi : i < w) : (v ||| bit w k).getMsbD i = (v.getMsbD i || decide (i = k)) := by
  rw [BitVec.getMsbD_or, getMsbD_bit hi]

theorem getMsbD_clear (hi : i < w) :
    (v &&& ~~~bit w k).getMsbD i = (v.getMsbD i && !decide (i = k)) := by
  rw [BitVec.getMsbD_and, BitVec.getMsbD_not, getMsbD_bit hi]
  simp [hi]

theorem eq_zero_iff : v = 0#w ↔ ∀ i < w, v.getMsbD i = false := by
  constructor
  · rintro rfl i -
    exact BitVec.getMsbD_zero
  · intro h
    refine BitVec.eq_of_getMsbD_eq fun i hi => ?_
    rw [h i hi, BitVec.getMsbD_zero]

theorem ne_zero_iff : v ≠ 0#w ↔ ∃ i < w, v.getMsbD i = true := by
  rw [ne_eq, eq_zero_iff]
  push Not
  simp

/-- The places of a word's bits, the sign bit first. -/
def places (v : BitVec w) : List Nat := (List.range w).filter v.getMsbD

section
variable {σ ε : Type} (visit : Nat → σ → Except ε σ)

/-- Shifts a word up until nothing is left of it and visits what comes by at
its sign; `w` shifts leave nothing. -/
def scanWord : (left : Nat) → (k : Nat) → BitVec w → σ → Except ε σ
  | 0, _, _, s => .ok s
  | left + 1, k, v, s =>
    if v = 0#w then .ok s
    else do
      let s ← if v.msb then visit k s else .ok s
      scanWord left (k + 1) (v <<< 1) s

theorem scanWord_filter (left k : Nat) (h : ∀ i, left ≤ i → v.getMsbD i = false) (s : σ) :
    scanWord visit left k v s =
      ((List.range left).filter v.getMsbD).foldlM (fun s i => visit (k + i) s) s := by
  induction left generalizing k v s with
  | zero => rfl
  | succ left ih =>
    have hshift (i : Nat) : (v <<< 1).getMsbD i = v.getMsbD (i + 1) := by
      rw [BitVec.getMsbD_shiftLeft]
    have hrest (s : σ) : scanWord visit left (k + 1) (v <<< 1) s =
        (((List.range left).filter (v.getMsbD ∘ Nat.succ)).map Nat.succ).foldlM
          (fun s i => visit (k + i) s) s := by
      have hfilter : (List.range left).filter (v <<< 1).getMsbD =
          (List.range left).filter (v.getMsbD ∘ Nat.succ) :=
        List.filter_congr fun i _ => hshift i
      have hplace (i : Nat) : k + 1 + i = k + i.succ := by omega
      rw [ih _ (fun i hi => by rw [hshift, h _ (by omega)]), hfilter, List.foldlM_map]
      simp only [hplace]
    rw [scanWord, List.range_succ_eq_map, List.filter_cons, List.filter_map]
    split
    · rename_i hv
      rw [hv] at hrest ⊢
      rw [if_neg (by simp [BitVec.getMsbD_zero])]
      have hnone : (List.range left).filter ((0#w).getMsbD ∘ Nat.succ) = [] := by
        simp [BitVec.getMsbD_zero]
      rw [hnone]
      rfl
    · rw [← BitVec.msb_eq_getMsbD_zero]
      split
      · rw [List.foldlM_cons]
        exact bind_congr hrest
      · exact hrest s

/-- The scan visits a word's bits, one after the other. -/
theorem scanWord_places (k : Nat) (v : BitVec w) (s : σ) :
    scanWord visit w k v s = (places v).foldlM (fun s i => visit (k + i) s) s :=
  scanWord_filter visit w k (fun _ hi => BitVec.getMsbD_of_ge _ _ hi) s

end

end

-- ---------------------------------------------------------------------------
-- Rows
-- ---------------------------------------------------------------------------

structure Rows (w : Nat) where
  words : Nat → BitVec w
  summary : Nat → BitVec w

namespace Rows

section
variable {w : Nat}

def empty : Rows w := ⟨fun _ => 0, fun _ => 0⟩

def setWord (r : Rows w) (j : Nat) (v : BitVec w) : Rows w :=
  { r with words := Function.update r.words j v }

def setSummary (r : Rows w) (i : Nat) (v : BitVec w) : Rows w :=
  { r with summary := Function.update r.summary i v }

/-- The bit of a number. -/
def Mem (r : Rows w) (n : Nat) : Prop := (r.words (n / w)).getMsbD (n % w) = true

instance (r : Rows w) (n : Nat) : Decidable (r.Mem n) := inferInstanceAs (Decidable (_ = true))

def insert (r : Rows w) (n : Nat) : Rows w :=
  let vi := n / w
  (r.setWord vi (r.words vi ||| bit w (n % w))).setSummary (vi / w)
    (r.summary (vi / w) ||| bit w (vi % w))

/-- Takes the bit out, and the word's if it was its last. -/
def erase (r : Rows w) (n : Nat) : Rows w :=
  let vi := n / w
  let v := r.words vi &&& ~~~bit w (n % w)
  if v = 0#w then (r.setWord vi v).setSummary (vi / w) (r.summary (vi / w) &&& ~~~bit w (vi % w))
  else r.setWord vi v

/-- The bit of a word in the second level. -/
def Marked (r : Rows w) (j : Nat) : Prop := (r.summary (j / w)).getMsbD (j % w) = true

structure Wf (r : Rows w) : Prop where
  marked : r.Marked j ↔ r.words j ≠ 0#w

variable {r : Rows w} {n m i j : Nat}

theorem Wf.empty : (Rows.empty : Rows w).Wf :=
  ⟨by simp [Marked, Rows.empty]⟩

theorem not_mem_empty : ¬ (Rows.empty : Rows w).Mem n := by simp [Mem, Rows.empty]

/-- Two numbers are one if their words and places are. -/
theorem eq_iff_place (w : Nat) : n = m ↔ n / w = m / w ∧ n % w = m % w := by
  constructor
  · rintro rfl
    exact ⟨rfl, rfl⟩
  · rintro ⟨hd, hm⟩
    rw [← Nat.div_add_mod n w, ← Nat.div_add_mod m w, hd, hm]

theorem mem_insert (hw : 0 < w) : (r.insert n).Mem m ↔ m = n ∨ r.Mem m := by
  rw [eq_iff_place w]
  simp only [Mem, insert, setWord, setSummary, Function.update_apply]
  split
  · rename_i hd
    rw [hd, getMsbD_set (Nat.mod_lt _ hw)]
    simp [or_comm]
  · rename_i hd
    simp [hd]

theorem mem_erase (hw : 0 < w) : (r.erase n).Mem m ↔ m ≠ n ∧ r.Mem m := by
  have hword : (r.erase n).words =
      Function.update r.words (n / w) (r.words (n / w) &&& ~~~bit w (n % w)) := by
    simp only [erase]
    split <;> rfl
  rw [ne_eq, eq_iff_place w]
  simp only [Mem, hword, Function.update_apply]
  split
  · rename_i hd
    rw [hd, getMsbD_clear (Nat.mod_lt _ hw)]
    simp [and_comm]
  · rename_i hd
    simp [hd]

theorem Wf.insert (h : r.Wf) (hw : 0 < w) (n : Nat) : (r.insert n).Wf := by
  refine ⟨fun {j} => ?_⟩
  have hset : r.words (n / w) ||| bit w (n % w) ≠ 0#w :=
    ne_zero_iff.mpr ⟨n % w, Nat.mod_lt _ hw, by rw [getMsbD_set (Nat.mod_lt _ hw)]; simp⟩
  simp only [Marked, Rows.insert, setWord, setSummary, Function.update_apply]
  split
  · rename_i hd
    rw [getMsbD_set (Nat.mod_lt _ hw)]
    split
    · rename_i hj
      simp [hj, hset]
    · rename_i hj
      have hp : j % w ≠ n / w % w := fun hp => hj ((eq_iff_place w).mpr ⟨hd, hp⟩)
      simp only [hp, decide_false, Bool.or_false]
      rw [← hd]
      exact h.marked
  · rename_i hd
    have hj : j ≠ n / w := fun hj => hd (by rw [hj])
    rw [if_neg hj]
    exact h.marked

theorem Wf.erase (h : r.Wf) (hw : 0 < w) (n : Nat) : (r.erase n).Wf := by
  refine ⟨fun {j} => ?_⟩
  unfold Rows.erase
  simp only
  split
  · rename_i hv
    simp only [Marked, setWord, setSummary, Function.update_apply]
    split
    · rename_i hd
      rw [getMsbD_clear (Nat.mod_lt _ hw)]
      split
      · rename_i hj
        simp [hj, hv]
      · rename_i hj
        have hp : j % w ≠ n / w % w := fun hp => hj ((eq_iff_place w).mpr ⟨hd, hp⟩)
        simp only [hp, decide_false, Bool.not_false, Bool.and_true]
        rw [← hd]
        exact h.marked
    · rename_i hd
      have hj : j ≠ n / w := fun hj => hd (by rw [hj])
      rw [if_neg hj]
      exact h.marked
  · rename_i hv
    simp only [Marked, setWord, Function.update_apply]
    split
    · rename_i hj
      -- a word that still has a bit had one before
      have hold : r.words j ≠ 0#w := by
        rw [hj]
        intro h0
        exact hv (by rw [h0, BitVec.zero_and])
      exact ⟨fun _ => hv, fun _ => h.marked.mpr hold⟩
    · exact h.marked

end

end Rows

end Canvasback.TwoLevel
