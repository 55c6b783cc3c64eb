import Canvasback.TokenLoop.PathAlone

/-!
# The address form

`.../tms/Z/X/Y.someext`, or any other text of the delimiters in the place of
the slashes, with anything before and behind it. The form is a structure whose
parts carry what makes them separators and numbers, so every value of it is an
address.
-/

namespace Canvasback

open CString

/-- One delimiter or more. -/
structure Separator where
  bytes : List UInt8
  delims : ∀ b ∈ bytes, isDelim b = true
  ne : bytes ≠ []

/-- A decimal integer that fits a `long`. -/
structure LongText where
  text : List UInt8
  value : Int
  numeral : Numeral text value
  fits : longMin ≤ value ∧ value ≤ longMax

structure Address where
  before : List UInt8
  nonzero : 0 ∉ before
  few : (words isDelim before).length ≤ 45
  noTms : ∀ w ∈ words isDelim before, ¬ IsTms w
  /-- Delimiters in front of `tms`; none only if nothing stands before them. -/
  sep : List UInt8
  sepDelims : ∀ b ∈ sep, isDelim b = true
  sepNe : sep = [] → before = []
  sep₁ : Separator
  z : LongText
  sep₂ : Separator
  x : LongText
  sep₃ : Separator
  y : LongText
  behind : List UInt8
  behindDelim : ∀ b, behind.head? = some b → isDelim b = true

def Address.path (a : Address) : List UInt8 :=
  a.before ++ (a.sep ++ (ascii "tms" ++ (a.sep₁.bytes ++ (a.z.text ++ (a.sep₂.bytes ++ (a.x.text ++
    (a.sep₃.bytes ++ (a.y.text ++ a.behind))))))))

theorem LongText.token (t : LongText) : t.text ≠ [] ∧ ∀ b ∈ t.text, b ≠ 0 ∧ isDelim b = false := by
  obtain ⟨hne, hbytes⟩ := t.numeral.bytes
  refine ⟨hne, fun b hb => ?_⟩
  rcases hbytes b hb with rfl | rfl | hd
  · decide
  · decide
  · exact isDigit_not_delim hd

theorem LongText.strtol (t : LongText) : strtol t.text = t.value :=
  strtol_eq t.numeral.decimal? t.fits.1 t.fits.2

theorem LongText.words (t : LongText) (s : Separator) (ys : List UInt8) :
    words isDelim (t.text ++ (s.bytes ++ ys)) = t.text :: words isDelim ys :=
  words_token t.token.2 t.token.1 s.delims s.ne (by decide) ys

/-- The tokens of an address on the way to a request's end. -/
theorem Address.words (a : Address) (more : List UInt8) : ∃ rest,
    words isDelim (a.path ++ 32 :: more) =
      words isDelim a.before ++ ascii "tms" :: a.z.text :: a.x.text :: a.y.text :: rest := by
  have htms : ∀ b ∈ ascii "tms", b ≠ 0 ∧ isDelim b = false := by decide +kernel
  -- behind the last number stands a delimiter: the path's or the request line's
  obtain ⟨c, rest, hc, hbehind⟩ : ∃ c rest, isDelim c = true ∧
      a.behind ++ 32 :: more = c :: rest := by
    cases hb : a.behind with
    | nil => exact ⟨32, more, by decide, rfl⟩
    | cons b bs => exact ⟨b, bs ++ 32 :: more, a.behindDelim b (by simp [hb]), by simp⟩
  have hy : CString.words isDelim (a.y.text ++ (c :: rest)) =
      a.y.text :: CString.words isDelim rest := by
    have h0 : 0 ∉ a.y.text := fun hm => (a.y.token.2 0 hm).1 rfl
    rw [words_delim h0 hc (by decide), words_word a.y.token.2 a.y.token.1]
    rfl
  refine ⟨CString.words isDelim rest, ?_⟩
  have hform : a.path ++ 32 :: more =
      a.before ++ (a.sep ++ (ascii "tms" ++ (a.sep₁.bytes ++ (a.z.text ++ (a.sep₂.bytes ++
        (a.x.text ++ (a.sep₃.bytes ++ (a.y.text ++ (c :: rest))))))))) := by
    rw [← hbehind]
    simp only [Address.path, List.append_assoc]
  have htail : CString.words isDelim (ascii "tms" ++ (a.sep₁.bytes ++ (a.z.text ++
      (a.sep₂.bytes ++ (a.x.text ++ (a.sep₃.bytes ++ (a.y.text ++ (c :: rest)))))))) =
        ascii "tms" :: a.z.text :: a.x.text :: a.y.text :: CString.words isDelim rest := by
    rw [words_token htms (by decide) a.sep₁.delims a.sep₁.ne (by decide), a.z.words, a.x.words, hy]
  rw [hform]
  rcases eq_or_ne a.sep [] with hs | hs
  · rw [hs, a.sepNe hs, List.nil_append, List.nil_append, htail, words_nil, List.nil_append]
  · rw [words_separator a.nonzero a.sepDelims hs (by decide), htail]

/-- **Every address is understood**, whatever the rest of its request. -/
theorem address_outcome (a : Address) (r : Reading) (hpath : r.request.path = a.path) :
    r.outcome = .tile ⟨a.z.value, a.x.value, a.y.value⟩ := by
  obtain ⟨d, more, hmem, -⟩ := r.memory_eq
  rw [hpath] at hmem
  obtain ⟨rest, hwords⟩ := a.words (ascii "HTTP/1." ++ d :: more)
  rw [← hmem] at hwords
  rw [Reading.outcome, tokenLoop_words hwords (.tms a.noTms (by decide) a.few)]
  simp [numbers, LongText.strtol]

/-- `/anything/who?tms=10,11,12`. -/
def whoAddress : Address where
  before := ascii "/anything/who"
  nonzero := by decide
  few := by decide
  noTms := by decide
  sep := ascii "?"
  sepDelims := by decide +kernel
  sepNe := by decide
  sep₁ := ⟨ascii "=", by decide +kernel, by decide⟩
  z := ⟨ascii "10", 10, .plain ⟨by decide, by decide +kernel⟩, by decide⟩
  sep₂ := ⟨ascii ",", by decide +kernel, by decide⟩
  x := ⟨ascii "11", 11, .plain ⟨by decide, by decide +kernel⟩, by decide⟩
  sep₃ := ⟨ascii ",", by decide +kernel, by decide⟩
  y := ⟨ascii "12", 12, .plain ⟨by decide, by decide +kernel⟩, by decide⟩
  behind := []
  behindDelim := by simp

def whoReading : Reading where
  data := ascii "GET /anything/who?tms=10,11,12 HTTP/1.1\r\n\r\n"
  behind := []
  request := ⟨ascii "GET", ascii "/anything/who?tms=10,11,12", 4, 1, []⟩
  n := 43
  fits := by decide
  accepted := by decide +kernel

theorem address_who : whoReading.outcome = .tile ⟨10, 11, 12⟩ :=
  address_outcome whoAddress whoReading (by decide)

end Canvasback
