import Canvasback.TokenLoop.RealTiles

/-!
# Which requests settle the tile

A request ends in a line feed, and that is no delimiter: its last token runs on
into whatever stands behind it in memory. `Settles` says which requests the
loop is through with before anything behind them counts; with any other, some
bytes behind it change the tile.
-/

namespace Canvasback

open CString Memory

/-- What is left of an outcome in `client->tile`. -/
def Outcome.tile? : Outcome → Option Tms
  | .close => none
  | .tile n => some n.tile

/-- The string holds a zero byte; or three tokens follow the first that starts
with `tms`, one of the first 46, and the third is not a blank one at the very
end; or the loop gives up. -/
def Settles (s : List UInt8) : Prop :=
  0 ∈ s ∨
  (∃ front w z x y rest, words isDelim s = front ++ w :: z :: x :: y :: rest ∧
    (∀ v ∈ front, ¬ IsTms v) ∧ IsTms w ∧ front.length ≤ 45 ∧
    (rest = [] → ∃ b ∈ y, isSpace b = false)) ∨
  GivesUp s

-- ---------------------------------------------------------------------------
-- The last token
-- ---------------------------------------------------------------------------

theorem words_line (h0 : 0 ∉ s) : ∃ init w, (∀ b ∈ w ++ [10], b ≠ 0 ∧ isDelim b = false) ∧
    ∀ more, words isDelim (s ++ 10 :: more) = init ++ words isDelim ((w ++ [10]) ++ more) := by
  obtain ⟨init, w, hw, hwords⟩ := words_last (show isDelim 0 = false by decide) h0
  refine ⟨init, w, fun b hb => ?_, fun more => by rw [hwords]; simp⟩
  rcases List.mem_append.mp hb with hb | hb
  · exact hw b hb
  · rw [List.mem_singleton.mp hb]
    decide

theorem words_line_end (h : ∀ b ∈ w ++ [10], b ≠ 0 ∧ isDelim b = false) (more : List UInt8) :
    words isDelim ((w ++ [10]) ++ []) = [w ++ [10]] ∧
      ∃ x ws, words isDelim ((w ++ [10]) ++ more) = (w ++ 10 :: x) :: ws := by
  refine ⟨by rw [List.append_nil, words_word h (by simp)], ?_⟩
  have hws : words isDelim ((w ++ [10]) ++ more) = _ := words_append_word h (by simp) (by decide)
  exact ⟨_, _, hws.trans (by rw [List.append_assoc, List.singleton_append])⟩

theorem prefix_of_not_mem {p w x : List UInt8} {c : UInt8} (hc : c ∉ p) :
    p <+: w ++ c :: x ↔ p <+: w := by
  refine ⟨fun h => ?_, fun h => h.trans (List.prefix_append _ _)⟩
  rcases le_or_gt p.length w.length with hl | hl
  · exact List.prefix_of_prefix_length_le h (List.prefix_append _ _) hl
  · have hw : w ++ [c] <+: p :=
      List.prefix_of_prefix_length_le ⟨x, by simp⟩ h (by simpa using hl)
    exact absurd (hw.subset (by simp)) hc

/-- What runs on behind a line feed makes no marker. -/
theorem isTms_line (w x : List UInt8) : IsTms (w ++ 10 :: x) ↔ IsTms (w ++ [10]) := by
  have h10 : 10 ∉ ascii "tms" := by decide
  rw [IsTms, IsTms, prefix_of_not_mem h10, prefix_of_not_mem h10]

-- ---------------------------------------------------------------------------
-- Settled
-- ---------------------------------------------------------------------------

theorem Settles.tokenLoop_eq (h : Settles (s ++ [10])) (more : List UInt8) :
    tokenLoop (s ++ 10 :: more) = tokenLoop (s ++ [10]) := by
  have hsplit : s ++ 10 :: more = (s ++ [10]) ++ more := by simp
  by_cases h0 : 0 ∈ s ++ [10]
  · obtain ⟨o, ho⟩ := tokens_total (words isDelim (s ++ [10]))
    rw [tokenLoop_words rfl ho, hsplit, tokenLoop_words (words_of_mem h0 more) ho]
  obtain ⟨init, w, hw, hwords⟩ := words_line (show 0 ∉ s from fun hm => h0 (by simp [hm]))
  obtain ⟨hend, x, ws, hmore⟩ := words_line_end hw more
  have hs : words isDelim (s ++ [10]) = init ++ [w ++ [10]] := by rw [hwords, hend]
  have hs' : words isDelim (s ++ 10 :: more) = init ++ (w ++ 10 :: x) :: ws := by
    rw [hwords, hmore]
  rcases h with h | ⟨front, t, a, b, c, rest, hp, hfront, htms, hlen, hblank⟩ | ⟨hn, hlen⟩
  · exact absurd h h0
  · rw [tokenLoop_words hp (.tms hfront htms hlen)]
    rw [hs] at hp
    rcases List.eq_nil_or_concat rest with rfl | ⟨rest, last, rfl⟩
    · -- the third number is the token that runs on
      obtain ⟨hinit, hy⟩ : init = front ++ [t, a, b] ∧ w ++ [10] = c := by
        have heq : init ++ [w ++ [10]] = (front ++ [t, a, b]) ++ [c] := by simpa using hp
        simpa using List.append_inj' heq rfl
      have hc : strtol (w ++ 10 :: x) = strtol c := by
        obtain ⟨d, hd, hsp⟩ := hblank rfl
        have hw : ∃ d ∈ w, isSpace d = false := by
          rw [← hy, List.mem_append, List.mem_singleton] at hd
          rcases hd with hd | rfl
          · exact ⟨d, hd, hsp⟩
          · exact absurd hsp (by decide)
        rw [← hy, strtol_append hw (by decide), strtol_append hw (by decide)]
      have hwords' : words isDelim (s ++ 10 :: more) =
          front ++ t :: a :: b :: (w ++ 10 :: x) :: ws := by
        rw [hs', hinit]
        simp
      rw [tokenLoop_words hwords' (.tms hfront htms hlen)]
      simp [numbers, hc]
    · have hinit : init = front ++ t :: a :: b :: c :: rest := by
        have heq : init ++ [w ++ [10]] = (front ++ t :: a :: b :: c :: rest) ++ [last] := by
          simpa using hp
        exact (List.append_inj' heq rfl).1
      have hwords' : words isDelim (s ++ 10 :: more) =
          front ++ t :: a :: b :: c :: (rest ++ (w ++ 10 :: x) :: ws) := by
        rw [hs', hinit]
        simp
      rw [tokenLoop_words hwords' (.tms hfront htms hlen)]
      simp [numbers]
  · rw [tokenLoop_close.mpr ⟨hn, hlen⟩, tokenLoop_close]
    rw [hs] at hn hlen
    simp only [List.length_append, List.length_singleton] at hlen
    rw [GivesUp, hs']
    refine ⟨fun v hv => ?_, by simp; omega⟩
    rw [List.take_append, List.mem_append] at hv
    rcases hv with hv | hv
    · exact hn v (by rw [List.take_append, List.mem_append]; exact .inl hv)
    · have hle : 46 - init.length ≤ 1 := by omega
      have hone : v ∈ [w ++ 10 :: x] := List.take_subset_take_left _ hle hv
      rw [List.mem_singleton.mp hone, isTms_line]
      have hpos : 46 - init.length = 1 := by
        rcases Nat.eq_zero_or_pos (46 - init.length) with h | h
        · simp [h] at hv
        · omega
      exact hn _ (by rw [List.take_append, hpos]; simp)

-- ---------------------------------------------------------------------------
-- Not settled
-- ---------------------------------------------------------------------------

/-- Tiles whose rows differ, but not by a multiple of 2^32, are different. -/
theorem tile_ne {z x x' y y' : Int} (hy : (y' - y) % 2 ^ 32 ≠ 0) :
    (Outcome.tile ⟨z, x, y⟩).tile? ≠ (Outcome.tile ⟨z, x', y'⟩).tile? := by
  intro h
  simp only [Outcome.tile?, Option.some.injEq, Longs.tile, Tms.mk.injEq] at h
  have := i32_inj h.2.2
  rw [sub_sub_sub_cancel_left] at this
  exact hy this

/-- If as many bytes as there are behind a request, whatever they are, leave
the same tile, the request settles it. -/
theorem settles_of_same (hsame : ∀ u u' more, u.length = k + 1 → u'.length = k + 1 →
    (tokenLoop (s ++ 10 :: (u ++ more))).tile? = (tokenLoop (s ++ 10 :: (u' ++ more))).tile?) :
    Settles (s ++ [10]) := by
  by_cases h0 : 0 ∈ s ++ [10]
  · exact .inl h0
  obtain ⟨init, w, hw, hwords⟩ := words_line (show 0 ∉ s from fun hm => h0 (by simp [hm]))
  obtain ⟨hend, -⟩ := words_line_end hw []
  have hs : words isDelim (s ++ [10]) = init ++ [w ++ [10]] := by rw [hwords, hend]
  -- with zeros behind it the string ends there
  have hstop (u more : List UInt8) (hu : u.length = k + 1) :
      (tokenLoop (s ++ 10 :: (u ++ more))).tile? = (tokenLoop (s ++ [10])).tile? := by
    have hzero : s ++ 10 :: (List.replicate (k + 1) 0 ++ more) =
        (s ++ [10]) ++ 0 :: (List.replicate k 0 ++ more) := by simp [List.replicate_succ]
    obtain ⟨o, ho⟩ := tokens_total (words isDelim (s ++ [10]))
    rw [hsame u (List.replicate (k + 1) 0) more hu (by simp), hzero,
      tokenLoop_words (words_nul h0) ho, tokenLoop_words rfl ho]
  have hblank (more : List UInt8) (o : Outcome)
      (ho : Tokens (words isDelim (s ++ [10]) ++ words isDelim more) o) :
      o.tile? = (tokenLoop (s ++ [10])).tile? := by
    have hspace : words isDelim (s ++ 10 :: (List.replicate (k + 1) 32 ++ more)) =
        words isDelim (s ++ [10]) ++ words isDelim more := by
      have hsplit : s ++ 10 :: (List.replicate (k + 1) 32 ++ more) =
          (s ++ [10]) ++ 32 :: (List.replicate k 32 ++ more) := by simp [List.replicate_succ]
      have hblanks : ∀ b ∈ List.replicate k 32, isDelim b = true := fun b hb => by
        rw [List.eq_of_mem_replicate hb]
        decide
      rw [hsplit, words_delim h0 (by decide) (by decide), words_delims hblanks (by decide)]
    rw [← hstop (List.replicate (k + 1) 32) more (by simp), tokenLoop_words hspace ho]
  have hseven : words isDelim [55] = [[55]] := by decide
  obtain ⟨o, ho⟩ := tokens_total (words isDelim (s ++ [10]))
  have hout : tokenLoop (s ++ [10]) = o := tokenLoop_words rfl ho
  rw [hout] at hblank hstop
  generalize hws : words isDelim (s ++ [10]) = ws at ho hblank
  cases ho with
  | close hn hlen => exact .inr (.inr ⟨by rwa [hws], by rwa [hws]⟩)
  | exhausted hn hlen =>
    have hmark : words isDelim (ascii "tms 7") = [ascii "tms", [55]] := by decide
    have := hblank (ascii "tms 7") _ (by
      rw [hmark]
      exact .tms hn (by decide) hlen)
    exact absurd this (by decide)
  | @tms front t ns hfront htms hlen =>
    have hmore := hblank [55] _ (by
      rw [hseven, List.append_assoc, List.cons_append]
      exact .tms hfront htms hlen)
    rcases ns with _ | ⟨a, _ | ⟨b, _ | ⟨c, _ | ⟨e, rest⟩⟩⟩⟩
    · exact absurd hmore (by decide)
    · have hx : i32 7 = i32 (-1) := congrArg Tms.x (Option.some.inj hmore)
      exact absurd hx (by decide)
    · have hvalue : strtol [55] = 7 := by decide
      exact absurd hmore (tile_ne (by simp [hvalue]))
    · by_cases hc : ∃ b ∈ c, isSpace b = false
      · exact .inr (.inl ⟨front, t, a, b, c, [], hws, hfront, htms, hlen, fun _ => hc⟩)
      · -- the blank third token runs on into digits
        obtain ⟨rfl, rfl⟩ : init = front ++ [t, a, b] ∧ w ++ [10] = c := by
          have heq : init ++ [w ++ [10]] = (front ++ [t, a, b]) ++ [c] := by
            rw [← hs, hws]
            simp
          simpa using List.append_inj' heq rfl
        have hdigits : ∀ d ∈ (w ++ [10]) ++ (List.replicate k 48 ++ [55]),
            d ≠ 0 ∧ isDelim d = false := by
          intro d hd
          rcases List.mem_append.mp hd with hd | hd
          · exact hw d hd
          · have : d = 48 ∨ d = 55 := by
              simp only [List.mem_append, List.mem_replicate, List.mem_singleton] at hd
              tauto
            rcases this with rfl | rfl <;> decide
        have hwords' : words isDelim (s ++ 10 :: (List.replicate k 48 ++ [55] ++ [])) =
            front ++ t :: [a, b, (w ++ [10]) ++ (List.replicate k 48 ++ [55])] := by
          rw [List.append_nil, hwords, words_word hdigits (by simp)]
          simp
        have hrun := hstop (List.replicate k 48 ++ [55]) [] (by simp)
        rw [tokenLoop_words hwords' (.tms hfront htms hlen)] at hrun
        have hsp : ∀ d ∈ w ++ [10], isSpace d = true := by
          intro d hd
          by_contra hblank
          exact hc ⟨d, hd, by simpa using hblank⟩
        have hnone : strtol (w ++ [10]) = 0 := by
          have := strtol_blanks (t := []) hsp
          rw [List.append_nil] at this
          rw [this]
          decide
        refine absurd hrun (tile_ne ?_)
        simp only [List.getElem?_cons_succ, List.getElem?_cons_zero, Option.map_some,
          Option.getD_some, strtol_blanks hsp, strtol_zeros, hnone]
        decide
    · exact .inr (.inl ⟨front, t, a, b, c, e :: rest, hws, hfront, htms, hlen, by simp⟩)

end Canvasback
