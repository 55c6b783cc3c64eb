import Canvasback.Lib.CString
import Canvasback.Lib.Incremental
import Canvasback.Lib.Memory

/-!
# `phr_parse_request`

The request parser of picohttpparser over the bytes of one read. Pointers into
the buffer are the bytes they stand before; of the path the offset is kept as
well, since `read_cb` goes on reading from there.
-/

namespace Canvasback

open Incremental CString Memory

def expectChar (ch : UInt8) : Parser UInt8 Unit := do
  let b ← next
  if b = ch then pure () else reject

def advanceToken : Parser UInt8 (List UInt8) := scan (· == 32) fun b => b == 13 || b == 10

/-- CRLF or LF. -/
def endOfLine : Parser UInt8 Unit := do
  let b ← next
  if b = 13 then expectChar 10 else if b = 10 then pure () else reject

/-- `get_token_to_eol`; the unrolled half of its loop only saves end checks. -/
def getTokenToEol : Parser UInt8 (List UInt8) := do
  let token ← scan (fun b => b == 13 || b == 10) fun _ => false
  endOfLine
  pure token

def parseInt : Parser UInt8 Int := do
  let b ← peek
  if isDigit b then do
    let digits ← scan (fun b => !isDigit b) fun _ => false
    pure (digits.foldl (fun v b => i32 (v * 10 + (b.toNat - 48))) 0)
  else reject

def parseHttpVersion : Parser UInt8 Int := do
  expectChar 72; expectChar 84; expectChar 84; expectChar 80
  expectChar 47; expectChar 49; expectChar 46
  parseInt

/-- `struct phr_header`; a continued line has no name. -/
structure Header where
  name : Option (List UInt8)
  value : List UInt8
  deriving DecidableEq, Repr

def isBlank (b : UInt8) : Bool := b == 32 || b == 9

/-- `*buf < ' '`, where `char` is signed. -/
def belowSpace (b : UInt8) : Bool := b < 32 || 128 ≤ b

/-- The name of a header, its colon and the blanks behind it. -/
def headerName : Parser UInt8 (List UInt8) := do
  let name ← scan (· == 58) belowSpace
  let _ ← next
  let _ ← scan (fun b => !isBlank b) fun _ => false
  pure name

/-- A header line; all but the first may be continued. -/
def headerLine (first : Bool) (b : UInt8) : Parser UInt8 Header :=
  if first || !isBlank b then do
    let name ← headerName
    let value ← getTokenToEol
    pure ⟨some name, value⟩
  else do
    let value ← getTokenToEol
    pure ⟨none, value⟩

/-- The loop of `parse_headers`; `left` is `max_headers - *num_headers`. -/
def parseHeaders (first : Bool) : (left : Nat) → Parser UInt8 (List Header)
  | 0 => do
    let b ← peek
    if b = 13 ∨ b = 10 then do
      endOfLine
      pure []
    else reject
  | left + 1 => do
    let b ← peek
    if b = 13 ∨ b = 10 then do
      endOfLine
      pure []
    else do
      let header ← headerLine first b
      let headers ← parseHeaders false left
      pure (header :: headers)

/-- What `phr_parse_request` hands out. -/
structure Request where
  method : List UInt8
  path : List UInt8
  pathOff : Nat
  minorVersion : Int
  headers : List Header
  deriving DecidableEq, Repr

/-- Skips the empty line some clients send first; yields its length. -/
def skipEmptyLine : Parser UInt8 Nat := do
  let b ← peek
  if b = 13 then do
    let _ ← next
    expectChar 10
    pure 2
  else if b = 10 then do
    let _ ← next
    pure 1
  else pure 0

def parseRequest (maxHeaders : Nat) : Parser UInt8 Request := do
  let skipped ← skipEmptyLine
  let method ← advanceToken
  let _ ← next
  let path ← advanceToken
  let _ ← next
  let minorVersion ← parseHttpVersion
  endOfLine
  let headers ← parseHeaders true maxHeaders
  pure ⟨method, path, skipped + method.length + 1, minorVersion, headers⟩

/-- The loop of `is_complete`. -/
def isComplete : (retCnt : Nat) → List UInt8 → Except Halt Unit
  | _, [] => .error .incomplete
  | retCnt, 13 :: bs =>
    match bs with
    | [] => .error .incomplete
    | b :: bs =>
      if b = 10 then if retCnt = 1 then .ok () else isComplete (retCnt + 1) bs
      else .error .malformed
  | retCnt, 10 :: bs => if retCnt = 1 then .ok () else isComplete (retCnt + 1) bs
  | _, _ :: bs => isComplete 0 bs

/-- `phr_parse_request`: the request and how many bytes it has; its `-2` is
`incomplete`, its `-1` `malformed`. -/
def phrParseRequest (buf : List UInt8) (maxHeaders lastLen : Nat) :
    Except Halt (Request × Nat) := do
  if lastLen ≠ 0 then isComplete 0 (buf.drop (lastLen - 3))
  let (request, rest) ← parseRequest maxHeaders buf
  pure (request, buf.length - rest.length)

-- ---------------------------------------------------------------------------
-- What the parser's answer rests on
-- ---------------------------------------------------------------------------

theorem reads_expectChar (ch : UInt8) : Reads (expectChar ch) 1 0 :=
  (reads_next.bind fun _ => .ite _ (reads_pure _) reads_reject).mono (by decide) (by decide)

theorem reads_endOfLine : Reads endOfLine 1 0 :=
  (reads_next.bind fun _ => .ite _ ((reads_expectChar 10).mono (by decide) (by decide))
    (.ite _ (reads_pure _) reads_reject)).mono (by decide) (by decide)

theorem reads_getTokenToEol : Reads getTokenToEol 1 0 :=
  ((reads_scan _ _).bind fun _ => reads_endOfLine.bind fun _ => reads_pure _).mono
    (by decide) (by decide)

theorem reads_parseInt : Reads parseInt 0 1 := by
  have hdigits (f : List UInt8 → Int) : Reads (do
      let digits ← scan (fun b => !isDigit b) fun _ => false
      pure (f digits)) 0 1 :=
    ((reads_scan _ _).bind fun _ => reads_pure _).mono (by decide) (by decide)
  exact (reads_peek.bind fun _ => .ite _ (hdigits _) reads_reject).mono (by decide) (by decide)

theorem reads_parseHttpVersion : Reads parseHttpVersion 7 1 :=
  ((reads_expectChar _).bind fun _ => (reads_expectChar _).bind fun _ =>
    (reads_expectChar _).bind fun _ => (reads_expectChar _).bind fun _ =>
    (reads_expectChar _).bind fun _ => (reads_expectChar _).bind fun _ =>
    (reads_expectChar _).bind fun _ => reads_parseInt).mono (by decide) (by decide)

theorem reads_headerName : Reads headerName 1 1 :=
  ((reads_scan _ _).bind fun _ => reads_next.bind fun _ => (reads_scan _ _).bind fun _ =>
    reads_pure _).mono (by decide) (by decide)

theorem reads_headerLine (first : Bool) (b : UInt8) : Reads (headerLine first b) 1 0 :=
  .ite _ ((reads_headerName.bind fun _ => reads_getTokenToEol.bind fun _ => reads_pure _).mono
      (by decide) (by decide))
    ((reads_getTokenToEol.bind fun _ => reads_pure _).mono (by decide) (by decide))

theorem reads_parseHeaders (first : Bool) (left : Nat) : Reads (parseHeaders first left) 1 0 := by
  have hend : Reads (do endOfLine; pure ([] : List Header)) 1 0 :=
    (reads_endOfLine.bind fun _ => reads_pure _).mono (by decide) (by decide)
  induction left generalizing first with
  | zero =>
    exact (reads_peek.bind fun _ => .ite _ hend reads_reject).mono (by decide) (by decide)
  | succ left ih =>
    have hline (b : UInt8) : Reads (do
        let header ← headerLine first b
        let headers ← parseHeaders false left
        pure (header :: headers)) 1 0 :=
      ((reads_headerLine first b).bind fun _ => (ih false).bind fun _ => reads_pure _).mono
        (by decide) (by decide)
    exact (reads_peek.bind fun b => .ite _ hend (hline b)).mono (by decide) (by decide)

theorem reads_skipEmptyLine : Reads skipEmptyLine 0 1 := by
  have hcr : Reads (do let _ ← next; expectChar 10; pure 2 : Parser UInt8 Nat) 0 0 :=
    (reads_next.bind fun _ => (reads_expectChar 10).bind fun _ => reads_pure _).mono
      (by decide) (by decide)
  have hlf : Reads (do let _ ← next; pure 1 : Parser UInt8 Nat) 0 0 :=
    (reads_next.bind fun _ => reads_pure _).mono (by decide) (by decide)
  exact (reads_peek.bind fun _ => .ite _ hcr (.ite _ hlf (reads_pure 0))).mono
    (by decide) (by decide)

theorem reads_parseRequest (maxHeaders : Nat) : Reads (parseRequest maxHeaders) 1 0 :=
  (reads_skipEmptyLine.bind fun _ => (reads_scan _ _).bind fun _ => reads_next.bind fun _ =>
    (reads_scan _ _).bind fun _ => reads_next.bind fun _ => reads_parseHttpVersion.bind fun _ =>
    reads_endOfLine.bind fun _ => (reads_parseHeaders true maxHeaders).bind fun _ =>
    reads_pure _).mono (by decide) (by decide)

-- ---------------------------------------------------------------------------
-- What an accepted request looks like
-- ---------------------------------------------------------------------------

theorem expectChar_ok (h : expectChar ch b = .ok (u, r)) : b = ch :: r := by
  obtain ⟨x, s, hx, hk⟩ := bind_ok h
  obtain rfl := next_ok hx
  split at hk
  · rename_i hch
    simp only [pure_apply, Except.ok.injEq, Prod.mk.injEq] at hk
    rw [hch, hk.2]
  · cases hk

theorem endOfLine_ok (h : endOfLine b = .ok (u, r)) : ∃ c, b = c ++ 10 :: r := by
  obtain ⟨x, s, hx, hk⟩ := bind_ok h
  obtain rfl := next_ok hx
  split at hk
  · obtain rfl := expectChar_ok hk
    exact ⟨[x], rfl⟩
  · split at hk
    · rename_i hx
      simp only [pure_apply, Except.ok.injEq, Prod.mk.injEq] at hk
      exact ⟨[], by rw [hx, hk.2]; rfl⟩
    · cases hk

theorem parseInt_ok (h : parseInt b = .ok (v, r)) :
    ∃ d ds, b = d :: (ds ++ r) ∧ isDigit d = true := by
  obtain ⟨x, s, hx, hk⟩ := bind_ok h
  obtain ⟨rfl, bs, rfl⟩ := peek_ok hx
  split at hk
  · rename_i hd
    obtain ⟨digits, s, hs, hp⟩ := bind_ok hk
    simp only [pure_apply, Except.ok.injEq, Prod.mk.injEq] at hp
    obtain ⟨-, rfl⟩ := hp
    obtain ⟨hb, -, y, rs, rfl, hy⟩ := scan_ok hs
    cases digits with
    | nil =>
      simp only [List.nil_append, List.cons.injEq] at hb
      simp [← hb.1, hd] at hy
    | cons d ds =>
      simp only [List.cons_append, List.cons.injEq] at hb
      exact ⟨x, ds, by rw [hb.2], hd⟩
  · cases hk

theorem parseHttpVersion_ok (h : parseHttpVersion b = .ok (v, r)) :
    ∃ d ds, b = ascii "HTTP/1." ++ d :: (ds ++ r) ∧ isDigit d = true := by
  obtain ⟨_, s₁, h₁, k₁⟩ := bind_ok h
  obtain ⟨_, s₂, h₂, k₂⟩ := bind_ok k₁
  obtain ⟨_, s₃, h₃, k₃⟩ := bind_ok k₂
  obtain ⟨_, s₄, h₄, k₄⟩ := bind_ok k₃
  obtain ⟨_, s₅, h₅, k₅⟩ := bind_ok k₄
  obtain ⟨_, s₆, h₆, k₆⟩ := bind_ok k₅
  obtain ⟨_, s₇, h₇, k₇⟩ := bind_ok k₆
  obtain ⟨d, ds, rfl, hd⟩ := parseInt_ok k₇
  rw [expectChar_ok h₁, expectChar_ok h₂, expectChar_ok h₃, expectChar_ok h₄, expectChar_ok h₅,
    expectChar_ok h₆, expectChar_ok h₇]
  exact ⟨d, ds, rfl, hd⟩

theorem parseHeaders_ok (h : parseHeaders first left b = .ok (hs, r)) :
    ∃ c, b = c ++ 10 :: r := by
  have hend {b r : List UInt8} {hs : List Header}
      (h : (do endOfLine; pure ([] : List Header)) b = .ok (hs, r)) : ∃ c, b = c ++ 10 :: r := by
    obtain ⟨u, s, hs, hk⟩ := bind_ok h
    simp only [pure_apply, Except.ok.injEq, Prod.mk.injEq] at hk
    rw [← hk.2]
    exact endOfLine_ok hs
  induction left generalizing first b hs with
  | zero =>
    obtain ⟨x, s, hx, hk⟩ := bind_ok h
    obtain ⟨rfl, -⟩ := peek_ok hx
    split at hk
    · exact hend hk
    · cases hk
  | succ left ih =>
    obtain ⟨x, s, hx, hk⟩ := bind_ok h
    obtain ⟨rfl, -⟩ := peek_ok hx
    split at hk
    · exact hend hk
    · obtain ⟨header, s', hl, hk⟩ := bind_ok hk
      obtain ⟨headers, s'', hh, hk⟩ := bind_ok hk
      simp only [pure_apply, Except.ok.injEq, Prod.mk.injEq] at hk
      obtain ⟨-, rfl⟩ := hk
      obtain ⟨c, rfl, -⟩ := reads_headerLine _ _ hl
      obtain ⟨c', rfl⟩ := ih hh
      exact ⟨c ++ c', by simp⟩

theorem skipEmptyLine_ok (h : skipEmptyLine b = .ok (n, r)) : ∃ c, b = c ++ r ∧ c.length = n := by
  obtain ⟨x, s, hx, hk⟩ := bind_ok h
  obtain ⟨rfl, bs, rfl⟩ := peek_ok hx
  split at hk
  · obtain ⟨y, s, hy, hk⟩ := bind_ok hk
    obtain ⟨u, s', hu, hk⟩ := bind_ok hk
    simp only [pure_apply, Except.ok.injEq, Prod.mk.injEq] at hk
    obtain ⟨rfl, rfl⟩ := hk
    obtain rfl := expectChar_ok hu
    exact ⟨[y, 10], next_ok hy, rfl⟩
  · split at hk
    · obtain ⟨y, s, hy, hk⟩ := bind_ok hk
      simp only [pure_apply, Except.ok.injEq, Prod.mk.injEq] at hk
      obtain ⟨rfl, rfl⟩ := hk
      exact ⟨[y], next_ok hy, rfl⟩
    · simp only [pure_apply, Except.ok.injEq, Prod.mk.injEq] at hk
      obtain ⟨rfl, rfl⟩ := hk
      exact ⟨[], rfl, rfl⟩

theorem advanceToken_ok (h : advanceToken b = .ok (token, r)) :
    b = token ++ r ∧ (∀ x ∈ token, x ≠ 32 ∧ x ≠ 13 ∧ x ≠ 10) ∧ ∃ rs, r = 32 :: rs := by
  obtain ⟨hb, ht, x, rs, rfl, hx⟩ := scan_ok h
  exact ⟨hb, fun y hy => by simpa using ht y hy, rs, by simpa using hx⟩

/-- The shape of an accepted request: what stands before the path, the path, a
blank, the version, and on to a line feed. -/
theorem parseRequest_ok (h : parseRequest maxHeaders b = .ok (request, r)) :
    ∃ front d tail,
      b = front ++ (request.path ++ 32 :: (ascii "HTTP/1." ++ d :: (tail ++ 10 :: r))) ∧
      front.length = request.pathOff ∧ 0 < front.length ∧ tail ≠ [] ∧ isDigit d = true ∧
      ∀ x ∈ request.path, x ≠ 32 ∧ x ≠ 13 ∧ x ≠ 10 := by
  obtain ⟨skipped, s, h₁, h⟩ := bind_ok h
  obtain ⟨method, s, h₂, h⟩ := bind_ok h
  obtain ⟨x, s, h₃, h⟩ := bind_ok h
  obtain ⟨path, s, h₄, h⟩ := bind_ok h
  obtain ⟨y, s, h₅, h⟩ := bind_ok h
  obtain ⟨minor, s, h₆, h⟩ := bind_ok h
  obtain ⟨u, s, h₇, h⟩ := bind_ok h
  obtain ⟨headers, s, h₈, h⟩ := bind_ok h
  simp only [pure_apply, Except.ok.injEq, Prod.mk.injEq] at h
  obtain ⟨rfl, rfl⟩ := h
  obtain ⟨c₁, rfl, hc₁⟩ := skipEmptyLine_ok h₁
  obtain ⟨rfl, -, rs, rfl⟩ := advanceToken_ok h₂
  simp only [next_cons, Except.ok.injEq, Prod.mk.injEq] at h₃
  obtain ⟨rfl, rfl⟩ := h₃
  obtain ⟨rfl, hpath, rs, rfl⟩ := advanceToken_ok h₄
  simp only [next_cons, Except.ok.injEq, Prod.mk.injEq] at h₅
  obtain ⟨rfl, rfl⟩ := h₅
  obtain ⟨d, ds, rfl, hd⟩ := parseHttpVersion_ok h₆
  obtain ⟨c₇, rfl⟩ := endOfLine_ok h₇
  obtain ⟨c₈, rfl⟩ := parseHeaders_ok h₈
  refine ⟨c₁ ++ method ++ [32], d, ds ++ c₇ ++ 10 :: c₈, by simp, by simp [hc₁]; ring, by simp,
    by simp, hd, hpath⟩

-- ---------------------------------------------------------------------------
-- The parser as `read_cb` calls it
-- ---------------------------------------------------------------------------

/-- The call in `read_cb`: room for 128 headers, nothing parsed before. -/
def parseRead (buf : List UInt8) : Except Halt (Request × Nat) := phrParseRequest buf 128 0

theorem parseRead_ok : parseRead buf = .ok (request, n) ↔
    ∃ rest, parseRequest 128 buf = .ok (request, rest) ∧ n = buf.length - rest.length := by
  simp only [parseRead, phrParseRequest, ne_eq, not_true_eq_false, if_false, bind, Except.bind]
  cases parseRequest 128 buf with
  | error e => simp
  | ok v =>
    obtain ⟨request', rest'⟩ := v
    simp only [pure, Except.pure, Except.ok.injEq, Prod.mk.injEq]
    constructor
    · rintro ⟨rfl, rfl⟩
      exact ⟨rest', ⟨rfl, rfl⟩, rfl⟩
    · rintro ⟨rest, ⟨rfl, rfl⟩, rfl⟩
      exact ⟨rfl, rfl⟩

/-- The answer to an accepted request is settled by the request's own bytes. -/
theorem parseRead_local (h : parseRead buf = .ok (request, n)) :
    n ≤ buf.length ∧ ∀ more, parseRead (buf.take n ++ more) = .ok (request, n) := by
  obtain ⟨rest, hp, rfl⟩ := parseRead_ok.mp h
  obtain ⟨c, rfl, -, hc⟩ := (reads_parseRequest 128).prompt hp
  have hn : (c ++ rest).length - rest.length = c.length := by simp
  refine ⟨by omega, fun more => parseRead_ok.mpr ⟨more, ?_, by simp⟩⟩
  rw [hn, List.take_left]
  exact hc more

/-- What memory holds from the path pointer of an accepted request on. -/
theorem parseRead_path (h : parseRead buf = .ok (request, n)) :
    ∃ d tail, (buf.take n).drop request.pathOff =
        request.path ++ 32 :: (ascii "HTTP/1." ++ d :: (tail ++ [10])) ∧
      isDigit d = true ∧ (∀ x ∈ request.path, x ≠ 32 ∧ x ≠ 13 ∧ x ≠ 10) ∧
      request.path.length + 12 ≤ n ∧ request.pathOff ≤ n := by
  obtain ⟨rest, hp, rfl⟩ := parseRead_ok.mp h
  obtain ⟨front, d, tail, rfl, hoff, hfront, htail, hd, hpath⟩ := parseRequest_ok hp
  have ht : 0 < tail.length := List.length_pos_iff.mpr htail
  have hsplit : front ++ (request.path ++ 32 :: (ascii "HTTP/1." ++ d :: (tail ++ 10 :: rest))) =
      front ++ (request.path ++ 32 :: (ascii "HTTP/1." ++ d :: (tail ++ [10]))) ++ rest := by simp
  have hseven : (ascii "HTTP/1.").length = 7 := rfl
  refine ⟨d, tail, ?_, hd, hpath, ?_, ?_⟩
  · rw [hsplit, List.length_append, Nat.add_sub_cancel, List.take_left, ← hoff, List.drop_left]
  · rw [hsplit, List.length_append, Nat.add_sub_cancel]
    simp only [List.length_append, List.length_cons, List.length_nil, hseven]
    omega
  · rw [hsplit, List.length_append, Nat.add_sub_cancel, List.length_append]
    omega

/-- The shortest request with a given path. -/
def shortRequest (path : List UInt8) (d : UInt8) : List UInt8 :=
  32 :: (path ++ 32 :: (ascii "HTTP/1." ++ [d, 10, 10]))

theorem expectChar_cons (ch : UInt8) (bs : List UInt8) :
    expectChar ch (ch :: bs) = .ok ((), bs) := by
  rw [expectChar, ok_bind (next_cons ch bs), if_pos rfl, pure_apply]

theorem parseHttpVersion_digit (hd : isDigit d = true) (hx : isDigit x = false) :
    ∃ v, parseHttpVersion (ascii "HTTP/1." ++ d :: x :: bs) = .ok (v, x :: bs) := by
  have hscan : scan (fun b => !isDigit b) (fun _ => false) (d :: x :: bs) = .ok ([d], x :: bs) := by
    show scan (fun b => !isDigit b) (fun _ => false) ([d] ++ x :: bs) = .ok ([d], x :: bs)
    exact scan_append (by simp [hd]) (by simp [hx])
  have hint : parseInt (d :: x :: bs) = .ok (i32 (0 * 10 + (d.toNat - 48)), x :: bs) := by
    rw [parseInt, ok_bind (peek_cons d _), if_pos hd, ok_bind hscan]
    rfl
  refine ⟨_, Eq.trans ?_ hint⟩
  have hbytes : ascii "HTTP/1." ++ d :: x :: bs =
      72 :: 84 :: 84 :: 80 :: 47 :: 49 :: 46 :: d :: x :: bs := rfl
  rw [hbytes, parseHttpVersion]
  iterate 7 rw [ok_bind (expectChar_cons _ _)]

theorem parseRead_shortRequest (hpath : ∀ x ∈ path, x ≠ 32 ∧ x ≠ 13 ∧ x ≠ 10)
    (hd : isDigit d = true) :
    ∃ request, parseRead (shortRequest path d) = .ok (request, path.length + 12) ∧
      request.path = path ∧ request.pathOff = 1 := by
  obtain ⟨v, hv⟩ : ∃ v, parseHttpVersion (ascii "HTTP/1." ++ [d, 10, 10]) = .ok (v, [10, 10]) :=
    parseHttpVersion_digit hd (by decide)
  have hskip (t : List UInt8) : skipEmptyLine (32 :: t) = .ok (0, 32 :: t) := rfl
  have hmethod (t : List UInt8) : advanceToken (32 :: t) = .ok ([], 32 :: t) := rfl
  have hp (t : List UInt8) : advanceToken (path ++ 32 :: t) = .ok (path, 32 :: t) :=
    scan_append (by simpa using hpath) rfl
  have heol : endOfLine [10, 10] = .ok ((), [10]) := rfl
  have hheaders : parseHeaders true 128 [10] = .ok ([], []) := rfl
  refine ⟨⟨[], path, 1, v, []⟩, parseRead_ok.mpr ⟨[], ?_, ?_⟩, rfl, rfl⟩
  · rw [shortRequest, parseRequest, ok_bind (hskip _), ok_bind (hmethod _), ok_bind (next_cons _ _),
      ok_bind (hp _), ok_bind (next_cons _ _), ok_bind hv, ok_bind heol, ok_bind hheaders]
    rfl
  · have hseven : (ascii "HTTP/1.").length = 7 := rfl
    simp only [shortRequest, List.length_cons, List.length_append, hseven, List.length_nil]
    omega

end Canvasback
