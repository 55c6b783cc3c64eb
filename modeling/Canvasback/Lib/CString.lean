import Mathlib.Data.List.Infix
import Mathlib.Data.List.TakeWhile
import Mathlib.Tactic.Ring

/-!
# C strings

`strtok`, `strtol`, `atoi`, `memcmp` and `strcmp` over memory given as a list
of bytes: what stands at a `char*` and after it. A string ends at its zero
byte; the end of the list counts as one.

`strtok_words` is the reading of `strtok` everything else goes through:
calling it again and again yields the words of the string.
-/

namespace Canvasback.CString

/-- The bytes of an ASCII literal, without the terminating zero. -/
def ascii (s : String) : List UInt8 := s.toList.map fun c => UInt8.ofNat c.toNat

/-- The string at a pointer: everything before the first zero byte. -/
def cstr (s : List UInt8) : List UInt8 := s.takeWhile (· != 0)

theorem cstr_nul (h : 0 ∉ xs) : cstr (xs ++ 0 :: ys) = xs := by
  unfold cstr
  rw [List.takeWhile_append_of_pos]
  · simp
  · intro b hb
    have : b ≠ 0 := fun e => h (e ▸ hb)
    simpa using this

theorem cstr_of_not_mem (h : 0 ∉ xs) : cstr xs = xs := by
  unfold cstr
  rw [List.takeWhile_eq_self_iff]
  intro b hb
  have : b ≠ 0 := fun e => h (e ▸ hb)
  simpa using this

theorem cstr_append (h : 0 ∉ xs) : cstr (xs ++ ys) = xs ++ cstr ys := by
  unfold cstr
  rw [List.takeWhile_append_of_pos]
  intro b hb
  have : b ≠ 0 := fun e => h (e ▸ hb)
  simpa using this

theorem cstr_append_of_mem (h : 0 ∈ xs) (ys : List UInt8) : cstr (xs ++ ys) = cstr xs := by
  obtain ⟨as, bs, rfl, ha⟩ := List.eq_append_cons_of_mem h
  rw [List.append_assoc, List.cons_append, cstr_nul ha, cstr_nul ha]

theorem zero_not_mem_cstr (s : List UInt8) : 0 ∉ cstr s := by
  intro h
  simpa using List.mem_takeWhile_imp h

-- ---------------------------------------------------------------------------
-- Comparing
-- ---------------------------------------------------------------------------

/-- `memcmp(q, lit, n) == 0`. -/
def memcmpEq (q lit : List UInt8) (n : Nat) : Bool := q.take n == lit.take n

/-- `strcmp(q, lit) == 0`. -/
def strcmpEq (q lit : List UInt8) : Bool := cstr q == cstr lit

/-- Comparing with a literal that has no zero byte looks at the string alone:
what stands behind its end never decides. -/
theorem memcmpEq_iff (h : 0 ∉ lit) (hn : lit.length = n) :
    memcmpEq q lit n = true ↔ lit <+: cstr q := by
  subst hn
  simp only [memcmpEq, List.take_length, beq_iff_eq]
  constructor
  · intro he
    obtain ⟨t, ht⟩ : lit <+: q := he ▸ List.take_prefix _ _
    rw [← ht, cstr_append h]
    exact List.prefix_append _ _
  · intro hp
    have : lit <+: q := hp.trans (List.takeWhile_prefix _)
    exact (List.prefix_iff_eq_take.mp this).symm

-- ---------------------------------------------------------------------------
-- Words
-- ---------------------------------------------------------------------------

section
variable (d : UInt8 → Bool)

/-- The maximal delimiter-free pieces of the string at a pointer. -/
def words (s : List UInt8) : List (List UInt8) := ((cstr s).splitOnP d).filter (· ≠ [])

/-- `strtok(s, delims)`: the memory at the token returned, the delimiter after
it cut to zero, and the memory at the place `strtok` keeps for its next call. -/
def strtok (s : List UInt8) : Option (List UInt8 × List UInt8) :=
  match s.dropWhile d with
  | [] => none
  | b :: bs =>
    if b = 0 then none else
    match (b :: bs).dropWhile fun c => c != 0 && !d c with
    | [] => some (b :: bs, [])
    | c :: rest =>
      if c = 0 then some (b :: bs, [])
      else some ((b :: bs).takeWhile (fun c => c != 0 && !d c) ++ 0 :: rest, rest)

end

section
variable {d : UInt8 → Bool}

@[simp] theorem words_nil : words d [] = [] := by simp [words, cstr]

theorem words_nul (h : 0 ∉ xs) : words d (xs ++ 0 :: ys) = words d xs := by
  rw [words, words, cstr_nul h, cstr_of_not_mem h]

theorem words_of_mem (h : 0 ∈ xs) (ys : List UInt8) : words d (xs ++ ys) = words d xs := by
  rw [words, words, cstr_append_of_mem h]

theorem words_delim (h : 0 ∉ xs) (hb : d b = true) (h0 : d 0 = false) :
    words d (xs ++ b :: ys) = words d xs ++ words d ys := by
  have hb0 : b ≠ 0 := by
    rintro rfl
    simp [h0] at hb
  have hc : cstr (b :: ys) = b :: cstr ys := by simp [cstr, hb0]
  rw [words, words, words, cstr_append h, hc, cstr_of_not_mem h, List.splitOnP_append_cons _ _ hb,
    List.filter_append]

theorem words_word (h : ∀ b ∈ xs, b ≠ 0 ∧ d b = false) (hx : xs ≠ []) : words d xs = [xs] := by
  have h0 : 0 ∉ xs := fun hm => (h 0 hm).1 rfl
  rw [words, cstr_of_not_mem h0, List.splitOnP_eq_singleton fun b hb => (h b hb).2]
  simp [hx]

/-- A word runs on up to the next delimiter or the end of the string. -/
theorem words_append_word (h : ∀ b ∈ xs, b ≠ 0 ∧ d b = false) (hx : xs ≠ []) (h0 : d 0 = false) :
    words d (xs ++ ys) = (xs ++ ys.takeWhile fun c => c != 0 && !d c) ::
      words d (ys.dropWhile fun c => c != 0 && !d c) := by
  induction ys generalizing xs with
  | nil => simp [words_word h hx]
  | cons y ys ih =>
    by_cases hy : (y != 0 && !d y) = true
    · have hy' : y ≠ 0 ∧ d y = false := by simpa using hy
      have hxs : ∀ b ∈ xs ++ [y], b ≠ 0 ∧ d b = false := by
        intro b hb
        rcases List.mem_append.mp hb with hb | hb
        · exact h b hb
        · rw [List.mem_singleton.mp hb]
          exact hy'
      have hstep := ih hxs (by simp)
      simpa [List.takeWhile_cons, List.dropWhile_cons, hy, hy'] using hstep
    · have hz : 0 ∉ xs := fun hm => (h 0 hm).1 rfl
      simp only [List.takeWhile_cons, List.dropWhile_cons, hy, Bool.false_eq_true, if_false,
        List.append_nil]
      by_cases hy0 : y = 0
      · subst hy0
        rw [words_nul hz, words_word h hx]
        simp [words, cstr]
      · have hd : d y = true := by simpa [hy0] using hy
        rw [words_delim hz hd h0, words_word h hx]
        have hn : words d ([] ++ y :: ys) = words d [] ++ words d ys := words_delim (by simp) hd h0
        simp only [List.nil_append, words_nil] at hn
        rw [hn]
        rfl

theorem exists_last_delim (h : ∃ b ∈ s, d b = true) :
    ∃ xs c ys, s = xs ++ c :: ys ∧ d c = true ∧ ∀ b ∈ ys, d b = false := by
  induction s with
  | nil => simp at h
  | cons b s ih =>
    by_cases hs : ∃ b ∈ s, d b = true
    · obtain ⟨xs, c, ys, rfl, hc, hys⟩ := ih hs
      exact ⟨b :: xs, c, ys, rfl, hc, hys⟩
    · obtain ⟨c, hc, hd⟩ := h
      rcases List.mem_cons.mp hc with rfl | hc
      · exact ⟨[], c, s, rfl, hd, by simpa using hs⟩
      · exact absurd ⟨c, hc, hd⟩ hs

/-- Behind its last delimiter a string runs on into what is appended to it. -/
theorem words_last (h0 : d 0 = false) (hs : 0 ∉ s) : ∃ init w,
    (∀ b ∈ w, b ≠ 0 ∧ d b = false) ∧ ∀ ys, words d (s ++ ys) = init ++ words d (w ++ ys) := by
  by_cases hd : ∃ b ∈ s, d b = true
  · obtain ⟨xs, c, w, rfl, hc, hw⟩ := exists_last_delim hd
    refine ⟨words d xs, w, fun b hb => ⟨fun e => hs ?_, hw b hb⟩, fun ys => ?_⟩
    · simp [← e, hb]
    · rw [List.append_assoc, List.cons_append]
      exact words_delim (fun hx => hs (by simp [hx])) hc h0
  · refine ⟨[], s, fun b hb => ⟨fun e => hs (e ▸ hb), ?_⟩, fun ys => rfl⟩
    simpa using fun h => hd ⟨b, hb, h⟩

theorem words_dropWhile (h0 : d 0 = false) : words d (s.dropWhile d) = words d s := by
  induction s with
  | nil => rfl
  | cons b s ih =>
    by_cases hb : d b = true
    · rw [List.dropWhile_cons_of_pos hb, ih]
      have hn : words d ([] ++ b :: s) = words d [] ++ words d s := words_delim (by simp) hb h0
      simpa using hn.symm
    · rw [List.dropWhile_cons_of_neg hb]

theorem words_delims (hs : ∀ b ∈ s, d b = true) (h0 : d 0 = false) (t : List UInt8) :
    words d (s ++ t) = words d t := by
  rw [← words_dropWhile h0, List.dropWhile_append_of_pos hs, words_dropWhile h0]

/-- A run of delimiters parts the words before it from those behind. -/
theorem words_separator (h : 0 ∉ xs) (hs : ∀ b ∈ s, d b = true) (hne : s ≠ []) (h0 : d 0 = false)
    (ys : List UInt8) : words d (xs ++ (s ++ ys)) = words d xs ++ words d ys := by
  obtain ⟨b, s, rfl⟩ := List.exists_cons_of_ne_nil hne
  rw [List.cons_append, words_delim h (hs b (by simp)) h0,
    words_delims (fun c hc => hs c (by simp [hc])) h0]

theorem words_token (h : ∀ b ∈ xs, b ≠ 0 ∧ d b = false) (hx : xs ≠ [])
    (hs : ∀ b ∈ s, d b = true) (hne : s ≠ []) (h0 : d 0 = false) (ys : List UInt8) :
    words d (xs ++ (s ++ ys)) = xs :: words d ys := by
  rw [words_separator (fun hm => (h 0 hm).1 rfl) hs hne h0, words_word h hx]
  rfl

/-- No word holds a delimiter or a zero byte, and none is empty. -/
theorem mem_words (h : w ∈ words d s) : w ≠ [] ∧ ∀ b ∈ w, b ≠ 0 ∧ d b = false := by
  unfold words at h
  have h0 := zero_not_mem_cstr s
  generalize cstr s = t at h h0
  simp only [List.mem_filter, decide_eq_true_eq] at h
  refine ⟨h.2, ?_⟩
  obtain ⟨hw, -⟩ := h
  -- every piece of a split is made of bytes of the string that are no delimiters
  induction t generalizing w with
  | nil =>
    have : w = [] := by simpa using hw
    simp [this]
  | cons b t ih =>
    have ht : 0 ∉ t := fun hm => h0 (List.mem_cons_of_mem _ hm)
    rw [List.splitOnP_cons_eq_if_modifyHead] at hw
    split at hw
    · rcases List.mem_cons.mp hw with rfl | hw
      · simp
      · exact ih ht hw
    · rename_i hb
      obtain ⟨p, ps, hp⟩ := List.exists_cons_of_ne_nil (List.splitOnP_ne_nil d t)
      rw [hp, List.modifyHead_cons] at hw
      rcases List.mem_cons.mp hw with rfl | hw
      · intro c hc
        rcases List.mem_cons.mp hc with rfl | hc
        · exact ⟨fun e => h0 (by simp [e]), by simpa using hb⟩
        · exact ih ht (hp ▸ List.mem_cons_self) c hc
      · exact ih ht (hp ▸ List.mem_cons_of_mem _ hw)

/-- `strtok` reads the words of its string one after the other. -/
theorem strtok_words (h0 : d 0 = false) (s : List UInt8) :
    words d s = match strtok d s with
      | none => []
      | some (qval, save) => cstr qval :: words d save := by
  rw [← words_dropWhile h0]
  unfold strtok
  cases hs : s.dropWhile d with
  | nil => simp
  | cons b bs =>
    have hb : d b = false := by
      have := List.head_dropWhile_not d (show s.dropWhile d ≠ [] by simp [hs])
      simpa [hs] using this
    by_cases hb0 : b = 0
    · simp [hb0, words, cstr]
    · have hw : ∀ c ∈ [b], c ≠ 0 ∧ d c = false := by simp [hb0, hb]
      have happ : words d ([b] ++ bs) = _ := words_append_word hw (by simp) h0
      have htok : 0 ∉ (b :: bs).takeWhile fun c => c != 0 && !d c := by
        intro hm
        simpa using List.mem_takeWhile_imp hm
      have hsplit := List.takeWhile_append_dropWhile (p := fun c => c != 0 && !d c) (l := b :: bs)
      simp only [List.cons_append, List.nil_append] at happ
      have htd : (b :: bs).dropWhile (fun c => c != 0 && !d c) =
          bs.dropWhile (fun c => c != 0 && !d c) := by
        rw [List.dropWhile_cons_of_pos (by simp [hb0, hb])]
      have htt : (b :: bs).takeWhile (fun c => c != 0 && !d c) =
          b :: bs.takeWhile (fun c => c != 0 && !d c) := by
        rw [List.takeWhile_cons_of_pos (by simp [hb0, hb])]
      rw [← htd, ← htt] at happ
      simp only [hb0, if_false]
      cases hr : (b :: bs).dropWhile fun c => c != 0 && !d c with
      | nil =>
        rw [hr, List.append_nil] at hsplit
        rw [hr] at happ
        simp only
        rw [happ, hsplit, cstr_of_not_mem (hsplit ▸ htok)]
      | cons c rest =>
        rw [hr] at happ hsplit
        by_cases hc0 : c = 0
        · subst hc0
          have hcs : cstr (b :: bs) = (b :: bs).takeWhile fun c => c != 0 && !d c := by
            conv_lhs => rw [← hsplit]
            exact cstr_nul htok
          have hz : words d (0 :: rest) = [] := by simp [words, cstr]
          simp only [if_true]
          rw [happ, hcs, hz, words_nil]
        · have hdc : d c = true := by
            have hne : (b :: bs).dropWhile (fun c => c != 0 && !d c) ≠ [] := by simp [hr]
            have hh := List.head_dropWhile_not _ hne
            simp only [hr, List.head_cons] at hh
            simpa [hc0] using hh
          have hn : words d ([] ++ c :: rest) = words d [] ++ words d rest :=
            words_delim (by simp) hdc h0
          simp only [List.nil_append, words_nil] at hn
          simp only [hc0, if_false]
          rw [happ, hn, cstr_nul htok]

end

-- ---------------------------------------------------------------------------
-- Numbers
-- ---------------------------------------------------------------------------

def isSpace (b : UInt8) : Bool := b == 32 || (9 ≤ b && b ≤ 13)

def isDigit (b : UInt8) : Bool := 48 ≤ b && b ≤ 57

/-- The number spelled by the digits `s` starts with, after `acc`. -/
def readDigits (acc : Int) : List UInt8 → Int
  | [] => acc
  | b :: bs => if isDigit b then readDigits (acc * 10 + (b.toNat - 48)) bs else acc

def unsigned? : List UInt8 → Option Int
  | [] => none
  | b :: bs => if isDigit b then some (readDigits 0 (b :: bs)) else none

/-- The decimal integer a string begins with: blanks, a sign, digits. -/
def decimal? (s : List UInt8) : Option Int :=
  match s.dropWhile isSpace with
  | [] => none
  | b :: bs =>
    if b = 45 then (unsigned? bs).map (- ·)
    else if b = 43 then unsigned? bs
    else unsigned? (b :: bs)

def longMin : Int := -2 ^ 63
def longMax : Int := 2 ^ 63 - 1

/-- `strtol(s, NULL, 10)` with a 64-bit `long`: zero without digits, the
nearest `long` where the number is none. -/
def strtol (s : List UInt8) : Int :=
  match decimal? s with
  | none => 0
  | some n => max longMin (min longMax n)

/-- `atoi(s)`: the low 32 bits of `strtol`, as an `int`. -/
def atoi (s : List UInt8) : Int := (strtol s).bmod (2 ^ 32)

theorem strtol_eq (h : decimal? s = some n) (hl : longMin ≤ n) (hu : n ≤ longMax) :
    strtol s = n := by
  simp only [strtol, h]
  omega

theorem readDigits_cstr (s : List UInt8) (acc : Int) :
    readDigits acc (cstr s) = readDigits acc s := by
  induction s generalizing acc with
  | nil => rfl
  | cons b s ih =>
    by_cases hb : b = 0
    · subst hb
      simp [cstr, readDigits, isDigit]
    · have hc : cstr (b :: s) = b :: cstr s := by simp [cstr, hb]
      rw [hc, readDigits, readDigits, ih]

theorem unsigned?_cstr (s : List UInt8) : unsigned? (cstr s) = unsigned? s := by
  cases s with
  | nil => rfl
  | cons b s =>
    by_cases hb : b = 0
    · subst hb
      simp [cstr, unsigned?, isDigit]
    · have hc : cstr (b :: s) = b :: cstr s := by simp [cstr, hb]
      rw [hc, unsigned?, unsigned?, ← hc, readDigits_cstr]

theorem decimal?_cstr (s : List UInt8) : decimal? (cstr s) = decimal? s := by
  induction s with
  | nil => rfl
  | cons b s ih =>
    by_cases hb : b = 0
    · subst hb
      simp [cstr, decimal?, unsigned?, isDigit, isSpace]
    · have hc : cstr (b :: s) = b :: cstr s := by simp [cstr, hb]
      rw [hc]
      unfold decimal? at ih ⊢
      by_cases hs : isSpace b = true
      · rw [List.dropWhile_cons_of_pos hs, List.dropWhile_cons_of_pos hs]
        exact ih
      · rw [List.dropWhile_cons_of_neg hs, List.dropWhile_cons_of_neg hs]
        simp only [← hc, unsigned?_cstr]

theorem readDigits_append (s : List UInt8) (acc : Int) (hc : isDigit c = false) :
    readDigits acc (s ++ c :: t) = readDigits acc s := by
  induction s generalizing acc with
  | nil => simp [readDigits, hc]
  | cons b s ih => rw [List.cons_append, readDigits, readDigits, ih]

theorem unsigned?_append (s : List UInt8) (hc : isDigit c = false) :
    unsigned? (s ++ c :: t) = unsigned? s := by
  cases s with
  | nil => simp [unsigned?, hc]
  | cons b s =>
    rw [List.cons_append, unsigned?, unsigned?, ← List.cons_append, readDigits_append _ _ hc]

/-- Once there is something that is no blank, a number is read up to the first
byte that is no digit. -/
theorem decimal?_append (hs : ∃ b ∈ s, isSpace b = false) (hc : isDigit c = false) :
    decimal? (s ++ c :: t) = decimal? s := by
  have hne : s.dropWhile isSpace ≠ [] := by
    simpa [List.dropWhile_eq_nil_iff] using hs
  have hdrop : (s ++ c :: t).dropWhile isSpace = s.dropWhile isSpace ++ c :: t := by
    rw [List.dropWhile_append, if_neg (by simpa using hne)]
  obtain ⟨b, bs, hbs⟩ := List.exists_cons_of_ne_nil hne
  unfold decimal?
  rw [hdrop, hbs, List.cons_append]
  simp only [unsigned?_append _ hc]
  rw [← List.cons_append, unsigned?_append _ hc]

theorem strtol_append (hs : ∃ b ∈ s, isSpace b = false) (hc : isDigit c = false) :
    strtol (s ++ c :: t) = strtol s := by
  simp only [strtol, decimal?_append hs hc]

theorem strtol_blanks (hs : ∀ b ∈ s, isSpace b = true) : strtol (s ++ t) = strtol t := by
  simp only [strtol, decimal?, List.dropWhile_append_of_pos hs]

theorem readDigits_zeros (n : Nat) (s : List UInt8) :
    readDigits 0 (List.replicate n 48 ++ s) = readDigits 0 s := by
  induction n with
  | zero => rfl
  | succ n ih => simpa [List.replicate_succ, readDigits, show isDigit 48 = true by decide] using ih

theorem strtol_zeros (n : Nat) : strtol (List.replicate n 48 ++ [55]) = 7 := by
  have hread := readDigits_zeros n [55]
  cases n with
  | zero => decide
  | succ n =>
    have hdec : decimal? (List.replicate (n + 1) 48 ++ [55]) = some 7 := by
      rw [List.replicate_succ, List.cons_append] at hread ⊢
      rw [decimal?, List.dropWhile_cons_of_neg (by decide)]
      simp only
      rw [if_neg (by decide), if_neg (by decide), unsigned?, if_pos (by decide), hread]
      rfl
    exact strtol_eq hdec (by decide) (by decide)

/-- The positional value of a run of digits. -/
def digitsValue (ds : List UInt8) : Int :=
  ds.foldl (fun (n : Int) b => n * 10 + (b.toNat - 48)) 0

def Digits (ds : List UInt8) : Prop := ds ≠ [] ∧ ∀ b ∈ ds, isDigit b = true

/-- The texts of a decimal integer. -/
inductive Numeral : List UInt8 → Int → Prop
  | plain (h : Digits ds) : Numeral ds (digitsValue ds)
  | plus (h : Digits ds) : Numeral (43 :: ds) (digitsValue ds)
  | minus (h : Digits ds) : Numeral (45 :: ds) (-digitsValue ds)

theorem readDigits_digits (h : ∀ b ∈ ds, isDigit b = true) (acc : Int) :
    readDigits acc ds = ds.foldl (fun (n : Int) b => n * 10 + (b.toNat - 48)) acc := by
  induction ds generalizing acc with
  | nil => rfl
  | cons b ds ih =>
    rw [readDigits, if_pos (h b (by simp)), ih fun c hc => h c (by simp [hc]), List.foldl_cons]

theorem unsigned?_digits (h : Digits ds) : unsigned? ds = some (digitsValue ds) := by
  obtain ⟨hne, hds⟩ := h
  have hread := readDigits_digits hds 0
  obtain ⟨b, ds, rfl⟩ := List.exists_cons_of_ne_nil hne
  rw [unsigned?, if_pos (hds b (by simp)), hread]
  rfl

theorem isDigit_iff : isDigit b = true ↔ 48 ≤ b ∧ b ≤ 57 := by
  simp [isDigit]

theorem Numeral.decimal? (h : Numeral w n) : decimal? w = some n := by
  cases h with
  | plain h =>
    obtain ⟨b, ds, rfl⟩ := List.exists_cons_of_ne_nil h.1
    obtain ⟨hl, hu⟩ := isDigit_iff.mp (h.2 b (by simp))
    have hspace : ¬ isSpace b = true := by
      simp only [isSpace, Bool.or_eq_true, beq_iff_eq, Bool.and_eq_true, decide_eq_true_eq]
      rintro (rfl | ⟨-, h⟩)
      · exact absurd hl (by decide)
      · exact absurd (UInt8.le_trans hl h) (by decide)
    have hminus : b ≠ 45 := by
      rintro rfl
      exact absurd hl (by decide)
    have hplus : b ≠ 43 := by
      rintro rfl
      exact absurd hl (by decide)
    rw [CString.decimal?, List.dropWhile_cons_of_neg hspace]
    simp only [hminus, hplus, if_false]
    exact unsigned?_digits h
  | plus h =>
    rw [CString.decimal?, List.dropWhile_cons_of_neg (by decide)]
    simp only [if_true]
    rw [if_neg (by decide), unsigned?_digits h]
  | minus h =>
    rw [CString.decimal?, List.dropWhile_cons_of_neg (by decide)]
    simp only [if_true]
    rw [unsigned?_digits h]
    rfl

/-- A numeral is made of signs and digits. -/
theorem Numeral.bytes (h : Numeral w n) :
    w ≠ [] ∧ ∀ b ∈ w, b = 43 ∨ b = 45 ∨ isDigit b = true := by
  cases h with
  | plain h => exact ⟨h.1, fun b hb => .inr (.inr (h.2 b hb))⟩
  | plus h =>
    refine ⟨by simp, fun b hb => ?_⟩
    rcases List.mem_cons.mp hb with rfl | hb
    · exact .inl rfl
    · exact .inr (.inr (h.2 b hb))
  | minus h =>
    refine ⟨by simp, fun b hb => ?_⟩
    rcases List.mem_cons.mp hb with rfl | hb
    · exact .inr (.inl rfl)
    · exact .inr (.inr (h.2 b hb))

theorem strtol_cstr (s : List UInt8) : strtol (cstr s) = strtol s := by
  simp only [strtol, decimal?_cstr]

end Canvasback.CString
