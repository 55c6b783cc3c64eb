import Canvasback.PicoHttp.Texts

/-!
# Bytes that come in pieces

`last_len` of the two parsers: with it `is_complete` first looks for a blank
line from a little before what has come last, and without one nothing is
parsed. It changes no answer, but that a malformed beginning is not told before
the blank line is there.
-/

namespace Canvasback

open Incremental CString

/-- An empty line behind another line's end. -/
def BlankLine (bs : List UInt8) : Prop :=
  ∃ a eol eol' b, bs = a ++ (eol ++ (eol' ++ b)) ∧ Eol eol ∧ Eol eol'

/-- A carriage return that ends no line. -/
def BareCr (bs : List UInt8) : Prop := ∃ a x b, bs = a ++ 13 :: x :: b ∧ x ≠ 10

-- ---------------------------------------------------------------------------
-- What `is_complete` looks for
-- ---------------------------------------------------------------------------

section
variable {k k' : Nat} {x : UInt8} {bs cs : List UInt8}

theorem isComplete_other (h : ¬ (x = 13 ∨ x = 10)) (k : Nat) (bs : List UInt8) :
    isComplete k (x :: bs) = isComplete 0 bs := by
  obtain ⟨h13, h10⟩ := not_or.mp h
  rw [isComplete]
  · exact fun heq => h13 heq
  · exact fun heq => h10 heq

theorem isComplete_lf (k : Nat) (bs : List UInt8) : isComplete k (10 :: bs) =
    if k = 1 then .ok () else isComplete (k + 1) bs := by rw [isComplete]

theorem isComplete_crlf (k : Nat) (bs : List UInt8) : isComplete k (13 :: 10 :: bs) =
    if k = 1 then .ok () else isComplete (k + 1) bs := by
  rw [isComplete]
  exact if_pos rfl

theorem Eol.isComplete (h : Eol eol) (k : Nat) (bs : List UInt8) :
    Canvasback.isComplete k (eol ++ bs) =
      if k = 1 then .ok () else Canvasback.isComplete (k + 1) bs := by
  cases h
  · exact isComplete_crlf k bs
  · exact isComplete_lf k bs

theorem BareCr.cons (x : UInt8) (h : BareCr bs) : BareCr (x :: bs) := by
  obtain ⟨a, y, b, rfl, hy⟩ := h
  exact ⟨x :: a, y, b, rfl, hy⟩

theorem BlankLine.append_left (cs : List UInt8) (h : BlankLine bs) : BlankLine (cs ++ bs) := by
  obtain ⟨a, eol, eol', b, rfl, h, h'⟩ := h
  exact ⟨cs ++ a, eol, eol', b, by simp, h, h'⟩

/-- A blank line, or the empty line that makes one of what came before. -/
theorem isComplete_ok (h : isComplete k bs = .ok ()) :
    BlankLine bs ∨ k = 1 ∧ ∃ eol b, bs = eol ++ b ∧ Eol eol := by
  have hstep {k : Nat} {bs eol : List UInt8} (heol : Eol eol)
      (h : BlankLine bs ∨ k + 1 = 1 ∧ ∃ eol b, bs = eol ++ b ∧ Eol eol) :
      BlankLine (eol ++ bs) ∨ k = 1 ∧ ∃ eol' b, eol ++ bs = eol' ++ b ∧ Eol eol' := by
    rcases h with h | ⟨-, eol', b, rfl, heol'⟩
    · exact .inl (h.append_left eol)
    · exact .inl ⟨[], eol, eol', b, rfl, heol, heol'⟩
  fun_induction isComplete k bs with
  | case1 => cases h
  | case2 => cases h
  | case3 b => exact .inr ⟨rfl, [13, 10], b, rfl, .crlf⟩
  | case4 k b hk ih => exact hstep .crlf (ih h)
  | case5 => cases h
  | case6 b => exact .inr ⟨rfl, [10], b, rfl, .lf⟩
  | case7 k b hk ih => exact hstep .lf (ih h)
  | case8 k x b h13 h10 ih =>
    rcases ih h with h | ⟨h, -⟩
    · exact .inl (h.append_left [x])
    · cases h

theorem isComplete_malformed (h : isComplete k bs = .error .malformed) : BareCr bs := by
  fun_induction isComplete k bs with
  | case1 => cases h
  | case2 => cases h
  | case3 => cases h
  | case4 k b hk ih => exact ((ih h).cons 10).cons 13
  | case5 k x b hx => exact ⟨[], x, b, rfl, hx⟩
  | case6 => cases h
  | case7 k b hk ih => exact (ih h).cons 10
  | case8 k x b h13 h10 ih => exact (ih h).cons x

/-- More bytes do not undo it. -/
theorem isComplete_append (h : isComplete k bs = .ok ()) (cs : List UInt8) :
    isComplete k (bs ++ cs) = .ok () := by
  fun_induction isComplete k bs with
  | case1 => cases h
  | case2 => cases h
  | case3 b => exact isComplete_crlf 1 (b ++ cs)
  | case4 k b hk ih =>
    rw [List.cons_append, List.cons_append, isComplete_crlf, if_neg hk]
    exact ih h
  | case5 => cases h
  | case6 b => exact isComplete_lf 1 (b ++ cs)
  | case7 k b hk ih =>
    rw [List.cons_append, isComplete_lf, if_neg hk]
    exact ih h
  | case8 k x b h13 h10 ih =>
    rw [List.cons_append, isComplete_other (not_or.mpr ⟨h13, h10⟩)]
    exact ih h

theorem BareCr.uncons (h : BareCr (x :: bs)) :
    BareCr bs ∨ x = 13 ∧ ∃ y b, bs = y :: b ∧ y ≠ 10 := by
  obtain ⟨a, y, b, hb, hy⟩ := h
  cases a with
  | nil =>
    cases hb
    exact .inr ⟨rfl, y, b, rfl, hy⟩
  | cons z a =>
    cases hb
    exact .inl ⟨a, y, b, rfl, hy⟩

theorem BlankLine.uncons (h : BlankLine (x :: bs)) :
    BlankLine bs ∨ ∃ eol eol' b, x :: bs = eol ++ (eol' ++ b) ∧ Eol eol ∧ Eol eol' := by
  obtain ⟨a, eol, eol', b, hb, heol, heol'⟩ := h
  cases a with
  | nil => exact .inr ⟨eol, eol', b, hb, heol, heol'⟩
  | cons z a =>
    cases hb
    exact .inl ⟨a, eol, eol', b, rfl, heol, heol'⟩

theorem isComplete_incomplete (h : isComplete k bs = .error .incomplete) (hk : k ≤ 1) :
    ¬ BareCr bs ∧ ¬ BlankLine bs := by
  -- an empty line now would be the second one
  have hsecond {bs eol b : List UInt8} (h : isComplete 1 bs = .error .incomplete)
      (heol : Eol eol) (hb : bs = eol ++ b) : False := by
    rw [hb, heol.isComplete, if_pos rfl] at h
    cases h
  fun_induction isComplete k bs with
  | case1 =>
    constructor
    · rintro ⟨a, x, b, hb, -⟩
      cases a <;> cases hb
    · rintro ⟨a, eol, eol', b, hb, heol, -⟩
      exact heol.ne_nil (List.append_eq_nil_iff.mp (List.append_eq_nil_iff.mp hb.symm).2).1
  | case2 k =>
    constructor
    · intro hbare
      rcases hbare.uncons with ⟨a, x, b, hb, -⟩ | ⟨-, y, b, hb, -⟩
      · cases a <;> cases hb
      · cases hb
    · intro hblank
      rcases hblank.uncons with ⟨a, eol, eol', b, hb, heol, -⟩ | ⟨eol, eol', b, hb, heol, -⟩
      · exact heol.ne_nil (List.append_eq_nil_iff.mp (List.append_eq_nil_iff.mp hb.symm).2).1
      · cases heol <;> cases hb
  | case3 => cases h
  | case4 k b hk1 ih =>
    obtain rfl : k = 0 := by omega
    obtain ⟨hbare, hblank⟩ := ih h le_rfl
    constructor
    · intro hb
      rcases hb.uncons with hb | ⟨-, y, c, hc, hy⟩
      · rcases hb.uncons with hb | ⟨hx, -⟩
        · exact hbare hb
        · cases hx
      · cases hc
        exact hy rfl
    · intro hb
      rcases hb.uncons with hb | ⟨eol, eol', c, hc, heol, heol'⟩
      · rcases hb.uncons with hb | ⟨eol, eol', c, hc, heol, heol'⟩
        · exact hblank hb
        · cases heol
          · cases hc
          · exact hsecond h heol' (List.cons.inj hc).2
      · cases heol
        · exact hsecond h heol' (List.cons.inj (List.cons.inj hc).2).2
        · cases hc
  | case5 => cases h
  | case6 => cases h
  | case7 k b hk1 ih =>
    obtain rfl : k = 0 := by omega
    obtain ⟨hbare, hblank⟩ := ih h le_rfl
    constructor
    · intro hb
      rcases hb.uncons with hb | ⟨hx, -⟩
      · exact hbare hb
      · cases hx
    · intro hb
      rcases hb.uncons with hb | ⟨eol, eol', c, hc, heol, heol'⟩
      · exact hblank hb
      · cases heol
        · cases hc
        · exact hsecond h heol' (List.cons.inj hc).2
  | case8 k x b h13 h10 ih =>
    obtain ⟨hbare, hblank⟩ := ih h (Nat.zero_le _)
    constructor
    · intro hb
      rcases hb.uncons with hb | ⟨hx, -⟩
      · exact hbare hb
      · exact h13 hx
    · intro hb
      rcases hb.uncons with hb | ⟨eol, eol', c, hc, heol, -⟩
      · exact hblank hb
      · cases heol
        · exact h13 (List.cons.inj hc).1
        · exact h10 (List.cons.inj hc).1

theorem isComplete_eq_incomplete : isComplete 0 bs = .error .incomplete ↔
    ¬ BareCr bs ∧ ¬ BlankLine bs := by
  constructor
  · exact fun h => isComplete_incomplete h (Nat.zero_le _)
  · rintro ⟨hbare, hblank⟩
    cases h : isComplete 0 bs with
    | ok u =>
      rcases isComplete_ok h with h | ⟨h, -⟩
      · exact absurd h hblank
      · cases h
    | error halt =>
      cases halt with
      | incomplete => rfl
      | malformed => exact absurd (isComplete_malformed h) hbare

-- ---------------------------------------------------------------------------
-- From a little before the last bytes
-- ---------------------------------------------------------------------------

/-- Four bytes in a row stand in what was there before, or in what is looked
at. -/
theorem window {w a b : List UInt8} (h : bs ++ cs = a ++ (w ++ b)) (hw : w.length ≤ 4) :
    (∃ b', bs = a ++ (w ++ b')) ∨
      (bs ++ cs).drop (bs.length - 3) = a.drop (bs.length - 3) ++ (w ++ b) := by
  by_cases hlen : a.length + w.length ≤ bs.length
  · have htake : bs = (a ++ (w ++ b)).take bs.length := by rw [← h, List.take_left]
    refine .inl ⟨b.take (bs.length - a.length - w.length), ?_⟩
    rw [List.take_append, List.take_append, List.take_of_length_le (by omega),
      List.take_of_length_le (by omega)] at htake
    exact htake
  · refine .inr ?_
    rw [h, List.drop_append_of_le_length (by omega)]

theorem Eol.length_le (h : Eol eol) : eol.length ≤ 2 := by cases h <;> decide

theorem BareCr.window (h : BareCr (bs ++ cs)) :
    BareCr bs ∨ BareCr ((bs ++ cs).drop (bs.length - 3)) := by
  obtain ⟨a, x, b, hb, hx⟩ := h
  rcases Canvasback.window (w := [13, x]) hb (by simp) with ⟨b', h⟩ | h
  · exact .inl ⟨a, x, b', h, hx⟩
  · exact .inr ⟨_, x, b, h, hx⟩

theorem BlankLine.window (h : BlankLine (bs ++ cs)) :
    BlankLine bs ∨ BlankLine ((bs ++ cs).drop (bs.length - 3)) := by
  obtain ⟨a, eol, eol', b, hb, heol, heol'⟩ := h
  have hlen := heol.length_le
  have hlen' := heol'.length_le
  rw [← List.append_assoc eol] at hb
  rcases Canvasback.window hb (by rw [List.length_append]; omega) with ⟨b', h⟩ | h
  · exact .inl ⟨a, eol, eol', b', by rw [h, List.append_assoc], heol, heol'⟩
  · exact .inr ⟨_, eol, eol', b, by rw [h, List.append_assoc], heol, heol'⟩

theorem BareCr.append_left (cs : List UInt8) (h : BareCr bs) : BareCr (cs ++ bs) := by
  obtain ⟨a, x, b, rfl, hx⟩ := h
  exact ⟨cs ++ a, x, b, (List.append_assoc ..).symm, hx⟩

theorem BareCr.of_drop {n : Nat} (h : BareCr (bs.drop n)) : BareCr bs := by
  rw [← List.take_append_drop n bs]
  exact h.append_left _

end

-- ---------------------------------------------------------------------------
-- A parser that waits, waits for a blank line
-- ---------------------------------------------------------------------------

section
variable {α β : Type} {p q : Parser UInt8 α} {f : α → Parser UInt8 β} {K K' K₀ : Nat}
  {stop bad : UInt8 → Bool}

/-- After at most `K` line ends `p` waits only where `is_complete` does. -/
def Waits (K : Nat) (p : Parser UInt8 α) : Prop :=
  ∀ k ≤ K, ∀ b, p b = .error .incomplete → isComplete k b = .error .incomplete

/-- And what it takes leaves at most `K'` line ends behind it. -/
structure Tracks (K : Nat) (p : Parser UInt8 α) (K' : Nat) : Prop where
  waits : Waits K p
  ok : ∀ k ≤ K, ∀ b a r, p b = .ok (a, r) → ∃ k' ≤ K', isComplete k b = isComplete k' r

theorem Tracks.bind_waits (hp : Tracks K p K') (hf : ∀ a, Waits K' (f a)) : Waits K (p >>= f) := by
  intro k hk b h
  rcases bind_error h with h | ⟨a, r, ha, h⟩
  · exact hp.waits k hk b h
  · obtain ⟨k', hk', heq⟩ := hp.ok k hk b a r ha
    rw [heq]
    exact hf a k' hk' r h

theorem Waits.map (hp : Waits K p) (g : α → β) : Waits K (p >>= fun a => pure (g a)) := by
  intro k hk b h
  rcases bind_error h with h | ⟨_, _, -, h⟩
  · exact hp k hk b h
  · cases h

theorem Tracks.bind (hp : Tracks K p K') (hf : ∀ a, Tracks K' (f a) K₀) :
    Tracks K (p >>= f) K₀ := by
  refine ⟨hp.bind_waits fun a => (hf a).waits, fun k hk b y r h => ?_⟩
  obtain ⟨a, s, ha, hy⟩ := bind_ok h
  obtain ⟨k', hk', heq⟩ := hp.ok k hk b a s ha
  rw [heq]
  exact (hf a).ok k' hk' s y r hy

theorem tracks_pure (a : α) : Tracks K (pure a) K := by
  refine ⟨fun k _ b h => (nomatch h), fun k hk b x r h => ?_⟩
  cases h
  exact ⟨k, hk, rfl⟩

theorem tracks_reject : Tracks K (reject : Parser UInt8 α) K' :=
  ⟨fun _ _ _ h => (nomatch h), fun _ _ _ _ _ h => (nomatch h)⟩

theorem Tracks.ite (c : Prop) [Decidable c] (hp : Tracks K p K') (hq : Tracks K q K') :
    Tracks K (if c then p else q) K' := by
  split
  · exact hp
  · exact hq

theorem tracks_expectChar (hx : ¬ (x = 13 ∨ x = 10)) : Tracks K (expectChar x) 0 := by
  refine ⟨fun k _ b h => ?_, fun k _ b _ r h => ?_⟩
  · cases b with
    | nil => rfl
    | cons y b =>
      rw [expectChar, ok_bind (next_cons y b)] at h
      split at h <;> cases h
  · obtain rfl := expectChar_ok h
    exact ⟨0, le_rfl, isComplete_other hx k r⟩

/-- Only a carriage return is left then. -/
theorem waits_endOfLine : Waits K endOfLine := by
  intro k _ b h
  cases b with
  | nil => rfl
  | cons x b =>
    rw [endOfLine, ok_bind (next_cons x b)] at h
    split at h
    · rename_i hx
      cases b with
      | nil => rw [hx, isComplete]
      | cons y b =>
        rw [expectChar, ok_bind (next_cons y b)] at h
        split at h <;> cases h
    · split at h <;> cases h

theorem tracks_endOfLine : Tracks 0 endOfLine 1 := by
  refine ⟨waits_endOfLine, fun k hk b _ r h => ?_⟩
  obtain ⟨eol, rfl, heol⟩ := (parses_endOfLine _ _ _).mp h
  obtain rfl := Nat.le_zero.mp hk
  exact ⟨1, le_rfl, heol.isComplete 0 r⟩

theorem tracks_scan (h : ∀ x, stop x = false → bad x = false → ¬ (x = 13 ∨ x = 10)) :
    Tracks K (Incremental.scan stop bad) K := by
  refine ⟨fun k hk b hs => ?_, fun k hk b token r hs => ?_⟩
  · induction b generalizing k with
    | nil => rfl
    | cons x b ih =>
      unfold Incremental.scan at hs
      split at hs
      · cases hs
      · rename_i hstop
        split at hs
        · cases hs
        · rename_i hbad
          rw [isComplete_other (h x (by simpa using hstop) (by simpa using hbad))]
          cases hb : Incremental.scan stop bad b with
          | error halt =>
            rw [hb] at hs
            exact ih 0 (Nat.zero_le _) (hb.trans hs)
          | ok v =>
            rw [hb] at hs
            cases hs
  · obtain ⟨rfl, htoken, -⟩ := scan_ok hs
    clear hs
    induction token generalizing k with
    | nil => exact ⟨k, hk, rfl⟩
    | cons x token ih =>
      obtain ⟨hstop, hbad⟩ := htoken x (List.mem_cons_self ..)
      rw [List.cons_append, isComplete_other (h x hstop hbad)]
      exact ih 0 (Nat.zero_le _) fun z hz => htoken z (List.mem_cons_of_mem _ hz)

/-- Where a scan stops at something within a line, no line end is behind. -/
theorem Waits.scan_next {g : List UInt8 → Parser UInt8 β}
    (h : ∀ x, stop x = false → bad x = false → ¬ (x = 13 ∨ x = 10))
    (hstop : ∀ x, stop x = true → ¬ (x = 13 ∨ x = 10)) (hg : ∀ token, Waits 0 (g token)) :
    Waits K (Incremental.scan stop bad >>= fun token => next >>= fun _ => g token) := by
  intro k hk b hb
  rcases bind_error hb with hb | ⟨token, s, hs, hb⟩
  · exact (tracks_scan h).waits k hk b hb
  · obtain ⟨k', -, heq⟩ := (tracks_scan h).ok k hk b token s hs
    obtain ⟨-, -, x, t, rfl, hx⟩ := scan_ok hs
    rw [heq, isComplete_other (hstop x hx)]
    rw [ok_bind (next_cons x t)] at hb
    exact hg token 0 le_rfl t hb

/-- Where it does not, the line is still the one before. -/
theorem Waits.peek {g : UInt8 → Parser UInt8 β} (hend : ∀ x, x = 13 ∨ x = 10 → Waits K (g x))
    (hin : ∀ x, ¬ (x = 13 ∨ x = 10) → Waits 0 (g x)) : Waits K (Incremental.peek >>= g) := by
  intro k hk b h
  cases b with
  | nil => rfl
  | cons x b =>
    rw [ok_bind (peek_cons x b)] at h
    by_cases hx : x = 13 ∨ x = 10
    · exact hend x hx k hk _ h
    · have hzero := hin x hx 0 le_rfl _ h
      rw [isComplete_other hx] at hzero ⊢
      exact hzero

theorem Tracks.scan_next {g : List UInt8 → Parser UInt8 β}
    (h : ∀ x, stop x = false → bad x = false → ¬ (x = 13 ∨ x = 10))
    (hstop : ∀ x, stop x = true → ¬ (x = 13 ∨ x = 10)) (hg : ∀ token, Tracks 0 (g token) K') :
    Tracks K (Incremental.scan stop bad >>= fun token => next >>= fun _ => g token) K' := by
  refine ⟨.scan_next h hstop fun token => (hg token).waits, fun k hk b y r hb => ?_⟩
  obtain ⟨token, s, hs, hb⟩ := bind_ok hb
  obtain ⟨k', -, heq⟩ := (tracks_scan h).ok k hk b token s hs
  obtain ⟨-, -, x, t, rfl, hx⟩ := scan_ok hs
  rw [heq, isComplete_other (hstop x hx)]
  rw [ok_bind (next_cons x t)] at hb
  exact (hg token).ok 0 le_rfl t y r hb

theorem tracks_peek : Tracks K Incremental.peek K := by
  refine ⟨fun k _ b h => ?_, fun k hk b x r h => ?_⟩
  · cases b with
    | nil => rfl
    | cons x b => cases h
  · obtain ⟨rfl, -⟩ := peek_ok h
    exact ⟨k, hk, rfl⟩

-- ---------------------------------------------------------------------------
-- The two parsers
-- ---------------------------------------------------------------------------

theorem not_eol_of_digit {x : UInt8} (h : isDigit x = true) : ¬ (x = 13 ∨ x = 10) := by
  rintro (rfl | rfl) <;> cases h

theorem not_eol_of_blank {x : UInt8} (h : isBlank x = true) : ¬ (x = 13 ∨ x = 10) := by
  rintro (rfl | rfl) <;> cases h

theorem tracks_getTokenToEol : Tracks 0 getTokenToEol 1 :=
  (tracks_scan fun x h _ => by simpa using h).bind fun _ =>
    tracks_endOfLine.bind fun _ => tracks_pure _

theorem tracks_parseInt : Tracks 0 parseInt 0 :=
  tracks_peek.bind fun _ => .ite _ ((tracks_scan fun x h _ =>
    not_eol_of_digit (by simpa using h)).bind fun _ => tracks_pure _) tracks_reject

theorem tracks_parseHttpVersion : Tracks 0 parseHttpVersion 0 :=
  (tracks_expectChar (by decide)).bind fun _ => (tracks_expectChar (by decide)).bind fun _ =>
    (tracks_expectChar (by decide)).bind fun _ => (tracks_expectChar (by decide)).bind fun _ =>
    (tracks_expectChar (by decide)).bind fun _ => (tracks_expectChar (by decide)).bind fun _ =>
    (tracks_expectChar (by decide)).bind fun _ => tracks_parseInt

theorem tracks_headerName : Tracks K headerName 0 := by
  refine .scan_next (fun x _ h => ?_) (fun x h => ?_) fun _ =>
    (tracks_scan fun x h _ => not_eol_of_blank (by simpa using h)).bind fun _ => tracks_pure _
  · rintro (rfl | rfl) <;> cases h
  · rintro (rfl | rfl) <;> cases h

theorem tracks_headerLine (first : Bool) (x : UInt8) : Tracks 0 (headerLine first x) 1 :=
  .ite _ (tracks_headerName.bind fun _ => tracks_getTokenToEol.bind fun _ => tracks_pure _)
    (tracks_getTokenToEol.bind fun _ => tracks_pure _)

theorem waits_parseHeaders (first : Bool) (left : Nat) : Waits 1 (parseHeaders first left) := by
  have hend : Waits 1 (endOfLine >>= fun _ => pure ([] : List Header)) :=
    waits_endOfLine.map fun _ => []
  induction left generalizing first with
  | zero =>
    refine .peek (fun x hx => ?_) fun x hx => ?_
    · rw [if_pos hx]
      exact hend
    · rw [if_neg hx]
      exact fun _ _ _ h => (nomatch h)
  | succ left ih =>
    refine .peek (fun x hx => ?_) fun x hx => ?_
    · rw [if_pos hx]
      exact hend
    · rw [if_neg hx]
      exact (tracks_headerLine first x).bind_waits fun header => (ih false).map fun _ => _

theorem tracks_skipEmptyLine : Tracks 0 skipEmptyLine 1 := by
  have hrun (x : UInt8) (b : List UInt8) : skipEmptyLine (x :: b) = (if x = 13 then
      expectChar 10 >>= fun _ => pure 2 else if x = 10 then pure 1
      else fun b => .ok (0, x :: b) : Parser UInt8 Nat) b := by
    rw [skipEmptyLine, ok_bind (peek_cons x b)]
    split
    · rfl
    · split <;> rfl
  refine ⟨fun k hk b h => ?_, fun k hk b n r h => ?_⟩
  · cases b with
    | nil => rfl
    | cons x b =>
      rw [hrun] at h
      split at h
      · rename_i hx
        cases b with
        | nil => rw [hx, isComplete]
        | cons y b =>
          rw [expectChar, bind_assoc, ok_bind (next_cons y b)] at h
          split at h <;> cases h
      · split at h <;> cases h
  · obtain rfl := Nat.le_zero.mp hk
    cases b with
    | nil => cases h
    | cons x b =>
      rw [hrun] at h
      split at h
      · rename_i hx
        obtain ⟨_, s, hs, h⟩ := bind_ok h
        obtain rfl := expectChar_ok hs
        cases h
        rw [hx]
        exact ⟨1, le_rfl, isComplete_crlf 0 r⟩
      · split at h
        · rename_i hx
          cases h
          rw [hx]
          exact ⟨1, le_rfl, isComplete_lf 0 r⟩
        · cases h
          exact ⟨0, Nat.zero_le _, rfl⟩

theorem waits_parseRequest (maxHeaders : Nat) : Waits 0 (parseRequest maxHeaders) := by
  have htoken {g : List UInt8 → Parser UInt8 Request} {K : Nat} (hg : ∀ token, Waits 0 (g token)) :
      Waits K (advanceToken >>= fun token => next >>= fun _ => g token) := by
    refine .scan_next (fun x _ h => by simpa using h) (fun x h => ?_) hg
    rintro (rfl | rfl) <;> cases h
  exact tracks_skipEmptyLine.bind_waits fun skipped => htoken fun method => htoken fun path =>
    tracks_parseHttpVersion.bind_waits fun minorVersion => tracks_endOfLine.bind_waits fun _ =>
    (waits_parseHeaders true maxHeaders).map fun _ => _

theorem waits_parseResponse (maxHeaders : Nat) : Waits 0 (parseResponse maxHeaders) := by
  exact tracks_parseHttpVersion.bind_waits fun _ =>
    (tracks_expectChar (by decide)).bind_waits fun _ => tracks_parseInt.bind_waits fun _ =>
    (tracks_expectChar (by decide)).bind_waits fun _ => tracks_getTokenToEol.bind_waits fun _ =>
    (waits_parseHeaders true maxHeaders).map fun _ => _

-- ---------------------------------------------------------------------------
-- Answers are final
-- ---------------------------------------------------------------------------

theorem steady_expectChar (ch : UInt8) : Steady (expectChar ch) :=
  steady_next.bind fun _ => .ite _ (steady_pure ()) steady_reject

theorem steady_endOfLine : Steady endOfLine :=
  steady_next.bind fun _ => .ite _ (steady_expectChar 10) (.ite _ (steady_pure ()) steady_reject)

theorem steady_getTokenToEol : Steady getTokenToEol :=
  (steady_scan _ _).bind fun _ => steady_endOfLine.bind fun _ => steady_pure _

theorem steady_parseInt : Steady parseInt :=
  steady_peek.bind fun _ => .ite _ ((steady_scan _ _).bind fun _ => steady_pure _) steady_reject

theorem steady_parseHttpVersion : Steady parseHttpVersion :=
  (steady_expectChar _).bind fun _ => (steady_expectChar _).bind fun _ =>
    (steady_expectChar _).bind fun _ => (steady_expectChar _).bind fun _ =>
    (steady_expectChar _).bind fun _ => (steady_expectChar _).bind fun _ =>
    (steady_expectChar _).bind fun _ => steady_parseInt

theorem steady_headerLine (first : Bool) (x : UInt8) : Steady (headerLine first x) := by
  have hname : Steady headerName := (steady_scan _ _).bind fun _ => steady_next.bind fun _ =>
    (steady_scan _ _).bind fun _ => steady_pure _
  exact .ite _ (hname.bind fun _ => steady_getTokenToEol.bind fun _ => steady_pure _)
    (steady_getTokenToEol.bind fun _ => steady_pure _)

theorem steady_parseHeaders (first : Bool) (left : Nat) : Steady (parseHeaders first left) := by
  have hend : Steady (endOfLine >>= fun _ => pure ([] : List Header)) :=
    steady_endOfLine.bind fun _ => steady_pure _
  induction left generalizing first with
  | zero => exact steady_peek.bind fun _ => .ite _ hend steady_reject
  | succ left ih =>
    exact steady_peek.bind fun _ => .ite _ hend ((steady_headerLine first _).bind fun _ =>
      (ih false).bind fun _ => steady_pure _)

theorem steady_skipEmptyLine : Steady skipEmptyLine :=
  steady_peek.bind fun _ => .ite _ (steady_next.bind fun _ => (steady_expectChar 10).bind fun _ =>
    steady_pure 2) (.ite _ (steady_next.bind fun _ => steady_pure 1) (steady_pure 0))

theorem steady_parseRequest (maxHeaders : Nat) : Steady (parseRequest maxHeaders) :=
  steady_skipEmptyLine.bind fun _ => (steady_scan _ _).bind fun _ => steady_next.bind fun _ =>
    (steady_scan _ _).bind fun _ => steady_next.bind fun _ => steady_parseHttpVersion.bind fun _ =>
    steady_endOfLine.bind fun _ => (steady_parseHeaders true maxHeaders).bind fun _ => steady_pure _

theorem steady_parseResponse (maxHeaders : Nat) : Steady (parseResponse maxHeaders) :=
  steady_parseHttpVersion.bind fun _ => (steady_expectChar 32).bind fun _ =>
    steady_parseInt.bind fun _ => (steady_expectChar 32).bind fun _ =>
    steady_getTokenToEol.bind fun _ => (steady_parseHeaders true maxHeaders).bind fun _ =>
    steady_pure _

end

-- ---------------------------------------------------------------------------
-- Texts that end in a blank line
-- ---------------------------------------------------------------------------

section
variable {α : Type} {p : Parser UInt8 α} {G : α → List UInt8 → Prop} {a : α} {c : List UInt8}

/-- The end of a line, and an empty one. -/
def EndsBlank (c : List UInt8) : Prop :=
  ∃ front eol eol', c = front ++ (eol ++ eol') ∧ Eol eol ∧ Eol eol'

theorem HeaderText.ends {first : Bool} {header : Header} (h : HeaderText first header c) :
    ∃ front eol, c = front ++ eol ∧ Eol eol := by
  cases h with
  | @named name blanks value eol hname hfirst hblanks hvalue hflush heol =>
    exact ⟨name ++ 58 :: (blanks ++ value), eol, by simp, heol⟩
  | @continued x value eol hfirst hblank hvalue heol => exact ⟨x :: value, eol, rfl, heol⟩

theorem HeadersText.ends {first : Bool} {left : Nat} {headers : List Header} {eol : List UInt8}
    (h : HeadersText first left headers c) (heol : Eol eol) : EndsBlank (eol ++ c) := by
  induction h generalizing eol with
  | done heol' => exact ⟨[], eol, _, rfl, heol, heol'⟩
  | line hline _ ih =>
    obtain ⟨front, eol', rfl, heol'⟩ := hline.ends
    obtain ⟨front', e, e', hends, he, he'⟩ := ih heol'
    exact ⟨eol ++ (front ++ front'), e, e', by rw [List.append_assoc, hends]; simp, he, he'⟩

theorem EndsBlank.append_left (front : List UInt8) (h : EndsBlank c) : EndsBlank (front ++ c) := by
  obtain ⟨front', eol, eol', rfl, h, h'⟩ := h
  exact ⟨front ++ front', eol, eol', (List.append_assoc ..).symm, h, h'⟩

theorem EndsBlank.cons (x : UInt8) (h : EndsBlank c) : EndsBlank (x :: c) := h.append_left [x]

/-- A parser whose texts end in a blank line, and which waits only for one. -/
structure Framed (p : Parser UInt8 α) (G : α → List UInt8 → Prop) : Prop where
  parses : Parses p G
  steady : Steady p
  waits : Waits 0 p
  ends : ∀ a c, G a c → EndsBlank c

theorem framed_parseRequest (maxHeaders : Nat) :
    Framed (parseRequest maxHeaders) (RequestText maxHeaders) := by
  refine ⟨parses_parseRequest maxHeaders, steady_parseRequest maxHeaders,
    waits_parseRequest maxHeaders, ?_⟩
  rintro _ _ ⟨hlead, hmethod, hpath, hversion, heol, hlines⟩
  exact .append_left _ (.append_left _ (.cons 32 (.append_left _ (.cons 32 (.append_left _
    (.append_left _ (hlines.ends heol)))))))

theorem framed_parseResponse (maxHeaders : Nat) :
    Framed (parseResponse maxHeaders) (ResponseText maxHeaders) := by
  refine ⟨parses_parseResponse maxHeaders, steady_parseResponse maxHeaders,
    waits_parseResponse maxHeaders, ?_⟩
  rintro _ _ ⟨hversion, hstatus, hmsg, heol, hlines⟩
  exact .append_left _ (.append_left _ (.cons 32 (.append_left _ (.cons 32 (.append_left _
    (hlines.ends heol))))))

-- ---------------------------------------------------------------------------
-- One call
-- ---------------------------------------------------------------------------

variable {b buf packet : List UInt8} {l n : Nat}

theorem Framed.no_bareCr (h : Framed p G) (hG : G a c) : ¬ BareCr c := by
  obtain ⟨front, eol, eol', hc, heol, heol'⟩ := h.ends a c hG
  obtain ⟨d, rfl⟩ : ∃ d, c = d ++ [10] := by
    cases heol'
    · exact ⟨front ++ (eol ++ [13]), by rw [hc]; simp⟩
    · exact ⟨front ++ eol, by rw [hc]; simp⟩
  -- all but its last byte the parser still waits behind
  have hwait : isComplete 0 d = .error .incomplete :=
    h.waits 0 le_rfl d (h.steady.waits h.parses hG)
  rintro ⟨e, x, f, hf, hx⟩
  rcases List.eq_nil_or_concat f with rfl | ⟨f, y, rfl⟩
  · have hlast : d ++ [10] = (e ++ [13]) ++ [x] := by rw [hf]; simp
    exact hx (List.append_inj' hlast rfl |>.2 |> List.singleton_inj.mp).symm
  · have hlast : d ++ [10] = (e ++ 13 :: x :: f) ++ [y] := by rw [hf]; simp
    refine (isComplete_eq_incomplete.mp hwait).1 ⟨e, x, f, ?_, hx⟩
    exact (List.append_inj' hlast rfl).1

/-- A text that was not there before is found to be there. -/
theorem Framed.complete (h : Framed p G) (hG : G a c) (hl : l < c.length) (r : List UInt8) :
    isComplete 0 ((c ++ r).drop (l - 3)) = .ok () := by
  have hbare := h.no_bareCr hG
  obtain ⟨front, eol, eol', rfl, heol, heol'⟩ := h.ends a c hG
  have hlen := heol.length_le
  have hlen' := heol'.length_le
  simp only [List.length_append] at hl
  rw [List.drop_append_of_le_length (by simp only [List.length_append]; omega)]
  refine isComplete_append ?_ r
  rw [List.drop_append_of_le_length (by omega)]
  have hblank : BlankLine (front.drop (l - 3) ++ (eol ++ eol')) :=
    ⟨_, eol, eol', [], by rw [List.append_nil], heol, heol'⟩
  have hclean : ¬ BareCr (front.drop (l - 3) ++ (eol ++ eol')) := fun hb => by
    refine hbare (BareCr.of_drop (n := l - 3) ?_)
    rw [List.drop_append_of_le_length (by omega)]
    exact hb
  cases hc : isComplete 0 (front.drop (l - 3) ++ (eol ++ eol')) with
  | ok u => rfl
  | error halt =>
    cases halt with
    | incomplete => exact absurd hblank (isComplete_eq_incomplete.mp hc).2
    | malformed => exact absurd (isComplete_malformed hc) hclean

/-- What comes of a packet. -/
inductive Heard (p : Parser UInt8 α) (buf b : List UInt8) (l : Nat) : Prop
  | accepted {a : α} {n : Nat} (hcall : guarded p b l = .ok (a, n))
    (hplain : guarded p b 0 = .ok (a, n))
  | rejected (hcall : guarded p b l = .error .malformed) (hplain : p b = .error .malformed)
  | waiting (hcall : guarded p b l = .error .incomplete) (hplain : ∀ a r, p b ≠ .ok (a, r))
      (hblank : isComplete 0 buf = .error .incomplete → isComplete 0 b = .error .incomplete)

theorem Framed.heard (h : Framed p G) (hno : ∀ a r, p buf ≠ .ok (a, r)) (packet : List UInt8) :
    Heard p buf (buf ++ packet) buf.length := by
  have hguard {e : Halt} (he : p (buf ++ packet) = .error e) (hl : buf.length ≠ 0)
      {u : Except Halt Unit} (hu : isComplete 0 ((buf ++ packet).drop (buf.length - 3)) = u) :
      guarded p (buf ++ packet) buf.length = u >>= fun _ => .error e := by
    rw [guarded_error he, if_pos hl, hu]
  have hnone {e : Halt} (he : p (buf ++ packet) = .error e) (a : α) (r : List UInt8) :
      p (buf ++ packet) ≠ .ok (a, r) := by
    intro hok
    cases he.symm.trans hok
  cases hp : p (buf ++ packet) with
  | ok v =>
    obtain ⟨a, r⟩ := v
    obtain ⟨c, hc, hG⟩ := (h.parses _ _ _).mp hp
    have hlen : buf.length < c.length := by
      by_contra hle
      have htake : buf = (c ++ r).take buf.length := by rw [← hc, List.take_left]
      rw [List.take_append, List.take_of_length_le (Nat.not_lt.mp hle)] at htake
      exact hno a _ ((congrArg p htake).trans (h.parses.text hG _))
    refine .accepted (a := a) (n := (buf ++ packet).length - r.length) ?_
      (guarded_plain.mpr ⟨r, hp, rfl⟩)
    simp only [guarded, hp]
    rw [hc, h.complete hG hlen]
    split <;> rfl
  | error e =>
    by_cases hl : buf.length = 0
    · have hcall : guarded p (buf ++ packet) buf.length = .error e := by
        rw [guarded_error hp, if_neg (not_not.mpr hl)]
      cases e with
      | incomplete =>
        exact .waiting hcall (hnone hp) fun _ =>
          h.waits 0 le_rfl _ hp
      | malformed => exact .rejected hcall hp
    · cases hu : isComplete 0 ((buf ++ packet).drop (buf.length - 3)) with
      | ok u =>
        have hcall := hguard hp hl hu
        cases e with
        | incomplete =>
          exact .waiting hcall (hnone hp) fun _ =>
            h.waits 0 le_rfl _ hp
        | malformed => exact .rejected hcall hp
      | error e' =>
        have hcall := hguard hp hl hu
        cases e' with
        | incomplete =>
          refine .waiting hcall (hnone hp) fun hbuf => ?_
          obtain ⟨hbare, hblank⟩ := isComplete_eq_incomplete.mp hbuf
          obtain ⟨hbare', hblank'⟩ := isComplete_eq_incomplete.mp hu
          exact isComplete_eq_incomplete.mpr ⟨fun hb => hb.window.elim hbare hbare',
            fun hb => hb.window.elim hblank hblank'⟩
        | malformed =>
          have hbare : BareCr (buf ++ packet) := (isComplete_malformed hu).of_drop
          cases e with
          | incomplete =>
            exact absurd hbare (isComplete_eq_incomplete.mp (h.waits 0 le_rfl _ hp)).1
          | malformed => exact .rejected hcall hp

-- ---------------------------------------------------------------------------
-- Packets
-- ---------------------------------------------------------------------------

/-- A call as each packet comes, with the length there was before as `last_len`,
up to an answer. -/
def receive (parse : List UInt8 → Nat → Except Halt (α × Nat)) (buf : List UInt8) :
    List (List UInt8) → Except Halt (α × Nat)
  | [] => .error .incomplete
  | packet :: packets =>
    match parse (buf ++ packet) buf.length with
    | .error .incomplete => receive parse (buf ++ packet) packets
    | answer => answer

/-- `last_len` changes no answer to what is accepted, or has a blank line. -/
structure FastPath (parse : List UInt8 → Nat → Except Halt (α × Nat)) : Prop where
  accepted : ∀ packets a n,
    receive parse [] packets = .ok (a, n) ↔ parse packets.flatten 0 = .ok (a, n)
  rejected : ∀ packets, receive parse [] packets = .error .malformed →
    parse packets.flatten 0 = .error .malformed
  decided : ∀ packets, BlankLine packets.flatten ∨ BareCr packets.flatten →
    receive parse [] packets = parse packets.flatten 0

theorem guarded_append (h : Framed p G) (hb : guarded p b 0 = .ok (a, n)) (e : List UInt8) :
    guarded p (b ++ e) 0 = .ok (a, n) := by
  obtain ⟨r, hp, rfl⟩ := guarded_plain.mp hb
  refine guarded_plain.mpr ⟨r ++ e, h.steady.ok hp e, ?_⟩
  simp only [List.length_append]
  omega

theorem receive_accepted (h : Framed p G) (hno : ∀ a r, p buf ≠ .ok (a, r))
    (packets : List (List UInt8)) : receive (guarded p) buf packets = .ok (a, n) ↔
      guarded p (buf ++ packets.flatten) 0 = .ok (a, n) := by
  induction packets generalizing buf with
  | nil =>
    rw [List.flatten_nil, List.append_nil]
    constructor
    · rintro ⟨⟩
    · intro hok
      obtain ⟨r, hp, -⟩ := guarded_plain.mp hok
      exact absurd hp (hno a r)
  | cons packet packets ih =>
    rw [receive, List.flatten_cons, ← List.append_assoc]
    cases h.heard hno packet with
    | accepted hcall hplain => rw [hcall, guarded_append h hplain]
    | rejected hcall hplain =>
      rw [hcall, guarded_error (h.steady.malformed hplain _)]
      rfl
    | waiting hcall hplain _ =>
      rw [hcall]
      exact ih hplain

theorem receive_rejected (h : Framed p G) (hno : ∀ a r, p buf ≠ .ok (a, r))
    {packets : List (List UInt8)} (hr : receive (guarded p) buf packets = .error .malformed) :
    guarded p (buf ++ packets.flatten) 0 = .error .malformed := by
  induction packets generalizing buf with
  | nil => cases hr
  | cons packet packets ih =>
    rw [receive] at hr
    rw [List.flatten_cons, ← List.append_assoc]
    cases h.heard hno packet with
    | accepted hcall hplain =>
      rw [hcall] at hr
      cases hr
    | rejected hcall hplain => exact guarded_error (h.steady.malformed hplain _)
    | waiting hcall hplain _ =>
      rw [hcall] at hr
      exact ih hplain hr

/-- As long as the calls wait, there is no blank line. -/
theorem receive_incomplete (h : Framed p G) (hno : ∀ a r, p buf ≠ .ok (a, r))
    (hbuf : isComplete 0 buf = .error .incomplete) {packets : List (List UInt8)}
    (hr : receive (guarded p) buf packets = .error .incomplete) :
    isComplete 0 (buf ++ packets.flatten) = .error .incomplete := by
  induction packets generalizing buf with
  | nil =>
    rw [List.flatten_nil, List.append_nil]
    exact hbuf
  | cons packet packets ih =>
    rw [receive] at hr
    rw [List.flatten_cons, ← List.append_assoc]
    cases h.heard hno packet with
    | accepted hcall hplain =>
      rw [hcall] at hr
      cases hr
    | rejected hcall hplain =>
      rw [hcall] at hr
      cases hr
    | waiting hcall hplain hblank =>
      rw [hcall] at hr
      exact ih hplain (hblank hbuf) hr

theorem Framed.fastPath (h : Framed p G) : FastPath (guarded p) := by
  have hno : ∀ a r, p [] ≠ .ok (a, r) := by
    intro a r hp
    obtain ⟨c, hc, hG⟩ := (h.parses _ _ _).mp hp
    obtain ⟨front, eol, eol', rfl, heol, -⟩ := h.ends a c hG
    obtain ⟨x, t, rfl, -⟩ := heol.cases_head
    simp at hc
  refine ⟨fun packets a n => receive_accepted h hno packets,
    fun packets hr => receive_rejected h hno hr, fun packets hblank => ?_⟩
  cases hr : receive (guarded p) [] packets with
  | ok v => exact ((receive_accepted h hno packets).mp hr).symm
  | error e =>
    cases e with
    | malformed => exact (receive_rejected h hno hr).symm
    | incomplete =>
      obtain ⟨hbare, hno⟩ := isComplete_eq_incomplete.mp (receive_incomplete h hno rfl hr)
      exact (hblank.elim hno hbare).elim

/-- **`last_len`.** However a request or a response is cut into packets. -/
theorem parse_fastPath (maxHeaders : Nat) :
    FastPath (fun buf lastLen => phrParseRequest buf maxHeaders lastLen) ∧
      FastPath (fun buf lastLen => phrParseResponse buf maxHeaders lastLen) :=
  ⟨(framed_parseRequest maxHeaders).fastPath, (framed_parseResponse maxHeaders).fastPath⟩

end

end Canvasback
