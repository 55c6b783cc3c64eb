import Canvasback.TokenLoop

/-!
# Which paths settle the tile

Behind the path of an accepted request always stand the tokens `HTTP` and `1`,
a token that starts with a digit, and then anything: headers, further bytes of
the read, bytes of earlier requests. A path settles the outcome if the loop is
through before it gets to what may be anything.
-/

namespace Canvasback

open CString

/-- `sizeof(buf)`. -/
def bufSize : Nat := 16384

/-- A call of `read_cb` whose bytes the parser accepts: the bytes just read, and
what memory holds behind them, the rest of the buffer first. -/
structure Reading where
  data : List UInt8
  behind : List UInt8
  request : Request
  n : Nat
  fits : data.length ≤ bufSize
  accepted : parseRead data = .ok (request, n)

/-- Memory from the path pointer on. -/
def Reading.memory (r : Reading) : List UInt8 := (r.data ++ r.behind).drop r.request.pathOff

def Reading.outcome (r : Reading) : Outcome := tokenLoop r.memory

/-- All requests with this path end the loop alike. -/
def PathAlone (path : List UInt8) : Prop :=
  ∀ r r' : Reading, r.request.path = path → r'.request.path = path → r.outcome = r'.outcome

/-- The loop is through with the path's own tokens and the two and a bit that
are the same for all: the path holds a zero byte, or the first of its tokens
that starts with `tms`, one of the first 46, is not its last, or none of these
starts so and there are 43 of them. -/
def PathDecides (path : List UInt8) : Prop :=
  0 ∈ path ∨
  (∃ front w z ns, words isDelim path = front ++ w :: z :: ns ∧ (∀ v ∈ front, ¬ IsTms v) ∧
    IsTms w ∧ front.length ≤ 45) ∨
  ((∀ v ∈ (words isDelim path).take 46, ¬ IsTms v) ∧ 43 ≤ (words isDelim path).length)

-- ---------------------------------------------------------------------------
-- The tokens behind a path
-- ---------------------------------------------------------------------------

theorem Reading.memory_eq (r : Reading) : ∃ d more,
    r.memory = r.request.path ++ 32 :: (ascii "HTTP/1." ++ d :: more) ∧ isDigit d = true := by
  obtain ⟨d, tail, htake, hd, -, -, hoff⟩ := parseRead_path r.accepted
  obtain ⟨hn, -⟩ := parseRead_local r.accepted
  refine ⟨d, tail ++ [10] ++ (r.data.drop r.n ++ r.behind), ?_, hd⟩
  have hsplit : r.data ++ r.behind = r.data.take r.n ++ (r.data.drop r.n ++ r.behind) := by
    rw [← List.append_assoc, List.take_append_drop]
  have hlen : (r.data.take r.n).length = r.n := by
    rw [List.length_take]
    omega
  rw [Reading.memory, hsplit, List.drop_append_of_le_length (by omega), htake]
  simp

theorem exists_reading (hpath : ∀ x ∈ path, x ≠ 32 ∧ x ≠ 13 ∧ x ≠ 10)
    (hlen : path.length + 12 ≤ bufSize) (hd : isDigit d = true) (behind : List UInt8) :
    ∃ r : Reading, r.request.path = path ∧
      r.memory = path ++ 32 :: (ascii "HTTP/1." ++ d :: 10 :: 10 :: behind) := by
  obtain ⟨request, hok, hp, hoff⟩ := parseRead_shortRequest hpath hd
  have hfits : (shortRequest path d).length ≤ bufSize := by
    have hseven : (ascii "HTTP/1.").length = 7 := rfl
    simp only [shortRequest, List.length_cons, List.length_append, hseven, List.length_nil]
    omega
  refine ⟨⟨shortRequest path d, behind, request, _, hfits, hok⟩, hp, ?_⟩
  simp [Reading.memory, hoff, shortRequest]

theorem words_path (h0 : 0 ∉ path) (more : List UInt8) :
    words isDelim (path ++ 32 :: (ascii "HTTP/1." ++ more)) =
      words isDelim path ++ ascii "HTTP" :: ascii "1" :: words isDelim more := by
  have hdelim : isDelim 0 = false := by decide
  have hbytes : ascii "HTTP/1." ++ more = ascii "HTTP" ++ 47 :: (ascii "1" ++ 46 :: more) := rfl
  have hhttp : words isDelim (ascii "HTTP") = [ascii "HTTP"] := by decide
  have hone : words isDelim (ascii "1") = [ascii "1"] := by decide
  rw [words_delim h0 (by decide) hdelim, hbytes, words_delim (by decide) (by decide) hdelim,
    words_delim (by decide) (by decide) hdelim, hhttp, hone]
  rfl

theorem isDigit_not_delim (h : isDigit d = true) : d ≠ 0 ∧ isDelim d = false := by
  have hdelims : (ascii "&/?,=. ").all (fun b => !isDigit b) = true := by decide
  refine ⟨?_, decide_eq_false fun hd => ?_⟩
  · rintro rfl
    exact absurd h (by decide)
  · have hn := List.all_eq_true.mp hdelims d hd
    simp [h] at hn

/-- A digit starts a token that is no marker. -/
theorem words_digit (hd : isDigit d = true) (more : List UInt8) :
    ∃ w ws, words isDelim (d :: more) = w :: ws ∧ ¬ IsTms w := by
  refine ⟨_, _, words_append_word (show ∀ b ∈ [d], b ≠ 0 ∧ isDelim b = false
    by simpa using isDigit_not_delim hd) (by simp) (by decide), ?_⟩
  rintro ⟨t, ht⟩
  have h116 : d = 116 := by
    have := congrArg List.head? ht
    simpa [ascii] using this.symm
  rw [h116] at hd
  exact absurd hd (by decide)

/-- The tokens of a reading: the path's, the protocol's, and what follows. -/
theorem Reading.words_eq (r : Reading) (h0 : 0 ∉ r.request.path) : ∃ w ws,
    words isDelim r.memory =
      words isDelim r.request.path ++ ascii "HTTP" :: ascii "1" :: w :: ws ∧ ¬ IsTms w := by
  obtain ⟨d, more, hmem, hd⟩ := r.memory_eq
  obtain ⟨w, ws, hw, ht⟩ := words_digit hd more
  exact ⟨w, ws, by rw [hmem, words_path h0, hw], ht⟩

-- ---------------------------------------------------------------------------
-- Settled or not
-- ---------------------------------------------------------------------------

theorem numbers_append (ns ms : List (List UInt8)) (h : 3 ≤ ns.length) :
    numbers (ns ++ ms) = numbers ns := by
  simp only [numbers, List.getElem?_append_left (show 0 < ns.length by omega),
    List.getElem?_append_left (show 1 < ns.length by omega),
    List.getElem?_append_left (show 2 < ns.length by omega)]

theorem http_not_tms : ¬ IsTms (ascii "HTTP") ∧ ¬ IsTms (ascii "1") := by decide

/-- With 43 tokens before them, the last of the first 46 is the digit's. -/
theorem tokens_close (hn : ∀ v ∈ ps.take 46, ¬ IsTms v) (hlen : 43 ≤ ps.length)
    (hw : ¬ IsTms w) : Tokens (ps ++ ascii "HTTP" :: ascii "1" :: w :: ws) .close := by
  refine .close (fun v hv => ?_) (by simp; omega)
  rw [List.take_append, List.mem_append] at hv
  rcases hv with hv | hv
  · exact hn v hv
  · have hsub : v ∈ (ascii "HTTP" :: ascii "1" :: w :: ws).take 3 :=
      List.take_subset_take_left _ (by omega) hv
    simp only [List.take_succ_cons, List.take_zero, List.mem_cons, List.not_mem_nil,
      or_false] at hsub
    rcases hsub with rfl | rfl | rfl
    · exact http_not_tms.1
    · exact http_not_tms.2
    · exact hw

theorem PathDecides.alone (h : PathDecides path) : PathAlone path := by
  rintro r r' rfl hpath
  by_cases h0 : 0 ∈ r.request.path
  · -- a zero byte ends the string inside the path
    obtain ⟨d, more, hmem, -⟩ := r.memory_eq
    obtain ⟨d', more', hmem', -⟩ := r'.memory_eq
    obtain ⟨o, ho⟩ := tokens_total (words isDelim r.request.path)
    rw [Reading.outcome, Reading.outcome, tokenLoop_words (by rw [hmem, words_of_mem h0]) ho,
      tokenLoop_words (by rw [hmem', hpath, words_of_mem h0]) ho]
  · obtain ⟨w, ws, hw, ht⟩ := r.words_eq h0
    obtain ⟨w', ws', hw', ht'⟩ := r'.words_eq (hpath ▸ h0)
    rw [hpath] at hw'
    rcases h with h | ⟨front, t, z, ns, hp, hfront, htms, hlen⟩ | ⟨hn, hlen⟩
    · exact absurd h h0
    · have hout (more : List (List UInt8)) :
          numbers (z :: ns ++ ascii "HTTP" :: ascii "1" :: more) =
            numbers (z :: ns ++ [ascii "HTTP", ascii "1"]) := by
        rw [← numbers_append (z :: ns ++ [ascii "HTTP", ascii "1"]) more (by simp)]
        simp
      rw [hp, List.append_assoc, List.cons_append] at hw hw'
      rw [Reading.outcome, Reading.outcome, tokenLoop_words hw (.tms hfront htms hlen),
        tokenLoop_words hw' (.tms hfront htms hlen), hout (w :: ws), hout (w' :: ws')]
    · rw [Reading.outcome, Reading.outcome, tokenLoop_words hw (tokens_close hn hlen ht),
        tokenLoop_words hw' (tokens_close hn hlen ht')]

theorem PathAlone.decides (h : PathAlone path) (hpath : ∀ x ∈ path, x ≠ 32 ∧ x ≠ 13 ∧ x ≠ 10)
    (hlen : path.length + 12 ≤ bufSize) : PathDecides path := by
  by_cases h0 : 0 ∈ path
  · exact .inl h0
  -- two readings with this path that differ in the digit and behind the request
  have key {d d' : UInt8} (hd : isDigit d = true) (hd' : isDigit d' = true) (m m' : List UInt8) :
      tokenLoop (path ++ 32 :: (ascii "HTTP/1." ++ d :: 10 :: 10 :: m)) =
        tokenLoop (path ++ 32 :: (ascii "HTTP/1." ++ d' :: 10 :: 10 :: m')) := by
    obtain ⟨r, hr, hm⟩ := exists_reading hpath hlen hd m
    obtain ⟨r', hr', hm'⟩ := exists_reading hpath hlen hd' m'
    rw [← hm, ← hm']
    exact h r r' hr hr'
  obtain ⟨o, ho⟩ := tokens_total (words isDelim path)
  generalize hws : words isDelim path = ws at ho
  cases ho with
  | @tms front t ns hfront htms hl =>
    cases ns with
    | cons z ns => exact .inr (.inl ⟨front, t, z, ns, hws, hfront, htms, hl⟩)
    | nil =>
      -- the digit becomes the third number
      have hrun (x : UInt8) (n : List (List UInt8))
          (hx : words isDelim (x :: 10 :: 10 :: []) = n) :
          tokenLoop (path ++ 32 :: (ascii "HTTP/1." ++ x :: 10 :: 10 :: [])) =
            .tile (numbers (ascii "HTTP" :: ascii "1" :: n)) :=
        tokenLoop_words (by rw [words_path h0, hws, hx, List.append_assoc]; rfl)
          (.tms hfront htms hl)
      have hne := key (show isDigit 48 = true by decide) (show isDigit 49 = true by decide) [] []
      rw [hrun 48 [[48, 10, 10]] (by decide), hrun 49 [[49, 10, 10]] (by decide)] at hne
      exact absurd hne (by decide)
  | exhausted hn hl =>
    by_cases hm : 43 ≤ ws.length
    · exact .inr (.inr ⟨fun v hv => hn v (List.mem_of_mem_take (hws ▸ hv)), by rwa [hws]⟩)
    · -- there is room for a marker behind the request
      have hfirst : ∀ v ∈ ws ++ [ascii "HTTP", ascii "1", [48, 10, 10]], ¬ IsTms v := by
        have hmore : ∀ v ∈ [ascii "HTTP", ascii "1", [48, 10, 10]], ¬ IsTms v := by decide
        intro v hv
        rcases List.mem_append.mp hv with hv | hv
        · exact hn v hv
        · exact hmore v hv
      have hshort : tokenLoop (path ++ 32 :: (ascii "HTTP/1." ++ 48 :: 10 :: 10 :: [])) =
          .tile ⟨-1, -1, -1⟩ := by
        have hw : words isDelim (48 :: 10 :: 10 :: []) = [[48, 10, 10]] := by decide
        exact tokenLoop_words (by rw [words_path h0, hws, hw]) (.exhausted hfirst (by simp; omega))
      have hlong : tokenLoop (path ++ 32 :: (ascii "HTTP/1." ++ 48 :: 10 :: 10 :: ascii " tms 7")) =
          .tile (numbers [ascii "7"]) := by
        have hw : words isDelim (48 :: 10 :: 10 :: ascii " tms 7") =
            [[48, 10, 10], ascii "tms", ascii "7"] := by decide
        have htms : IsTms (ascii "tms") := by decide
        refine tokenLoop_words ?_ (.tms hfirst htms (by simp; omega))
        rw [words_path h0, hws, hw, List.append_assoc]
        rfl
      have hne := key (show isDigit 48 = true by decide) (show isDigit 48 = true by decide) []
        (ascii " tms 7")
      rw [hshort, hlong] at hne
      exact absurd hne (by decide)
  | close hn hl => exact .inr (.inr ⟨by rwa [hws], by rw [hws]; omega⟩)

/-- **Which paths settle the tile.** -/
theorem pathAlone_iff (r : Reading) : PathAlone r.request.path ↔ PathDecides r.request.path := by
  obtain ⟨d, tail, -, -, hpath, hlen, -⟩ := parseRead_path r.accepted
  obtain ⟨hn, -⟩ := parseRead_local r.accepted
  have hfits := r.fits
  exact ⟨fun h => h.decides hpath (by omega), fun h => h.alone⟩

/-- `GET /`, and the same from a page about a tile. -/
def plain : Reading where
  data := ascii "GET / HTTP/1.1\r\n\r\n"
  behind := []
  request := ⟨ascii "GET", ascii "/", 4, 1, []⟩
  n := 18
  fits := by decide
  accepted := by decide +kernel

def referred : Reading where
  data := ascii "GET / HTTP/1.1\r\nReferer: /tms,3,2,1\r\n\r\n"
  behind := []
  request := ⟨ascii "GET", ascii "/", 4, 1, [⟨some (ascii "Referer"), ascii "/tms,3,2,1"⟩]⟩
  n := 39
  fits := by decide
  accepted := by decide +kernel

theorem pathAlone_fails : plain.request.path = referred.request.path ∧
    plain.outcome = .tile ⟨-1, -1, -1⟩ ∧ referred.outcome = .tile ⟨3, 2, 1⟩ ∧
    ¬ PathAlone (ascii "/") := by
  have hplain : plain.outcome = .tile ⟨-1, -1, -1⟩ := by decide +kernel
  have hreferred : referred.outcome = .tile ⟨3, 2, 1⟩ := by decide +kernel
  refine ⟨rfl, hplain, hreferred, fun h => ?_⟩
  have := h plain referred rfl rfl
  rw [hplain, hreferred] at this
  exact absurd this (by decide)

end Canvasback
