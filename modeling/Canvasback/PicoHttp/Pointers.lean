import Canvasback.PicoHttp.Texts

/-!
# The parsers on pointers

The parsers once more, with the places where the code reads `*buf` without
`CHECK_EOF` before: behind a loop that has just looked there, within a block of
sixteen bytes in `get_token_to_eol`, and behind a number. There a read at
`buf_end` is a fault of its own. None ever happens.
-/

namespace Canvasback

open Incremental CString

/-- Why a function returns no pointer, or a read at `buf_end`. -/
inductive Trap where
  | halt (why : Halt)
  | wild
  deriving DecidableEq, Repr

/-- What stands from `buf` on is passed along. -/
abbrev Raw (α : Type) := StateT (List UInt8) (Except Trap) α

namespace Raw

/-- `CHECK_EOF()`. -/
def checkEof : Raw Unit
  | [] => .error (.halt .incomplete)
  | b :: bs => .ok ((), b :: bs)

/-- `*buf`. -/
def deref : Raw UInt8
  | [] => .error .wild
  | b :: bs => .ok (b, b :: bs)

/-- `++buf`. -/
def advance : Raw Unit
  | [] => .error .wild
  | _ :: bs => .ok ((), bs)

def malformed {α : Type} : Raw α := fun _ => .error (.halt .malformed)

/-- A function that checks before each read. -/
def checked {α : Type} (p : Parser UInt8 α) : Raw α := fun b => (p b).mapError Trap.halt

/-- `EXPECT_CHAR(ch)`. -/
def expectChar (ch : UInt8) : Raw Unit := do
  checkEof
  let b ← deref
  advance
  if b ≠ ch then malformed

/-- How many bytes are read unchecked: a block of sixteen, if so many are left. -/
def block (unchecked left : Nat) : Nat := if unchecked = 0 ∧ 16 ≤ left then 16 else unchecked

/-- The loop of `get_token_to_eol`, with so many bytes of a block to go. -/
def tokenEnd : (unchecked : Nat) → List UInt8 → Except Trap (List UInt8 × List UInt8)
  | unchecked, [] => if unchecked = 0 then .error (.halt .incomplete) else .error .wild
  | unchecked, b :: bs =>
    if b ≤ 13 ∧ (b = 13 ∨ b = 10) then .ok ([], b :: bs)
    else match tokenEnd (block unchecked (bs.length + 1) - 1) bs with
      | .error e => .error e
      | .ok (token, bs) => .ok (b :: token, bs)

def getTokenToEol : Raw (List UInt8) := do
  let token ← tokenEnd 0
  let b ← deref
  if b = 13 then do
    advance
    expectChar 10
  else advance
  pure token

def headerLine (first : Bool) (b : UInt8) : Raw Header :=
  if first || !isBlank b then do
    let name ← checked (scan (· == 58) belowSpace)
    advance
    let _ ← checked (scan (fun b => !isBlank b) fun _ => false)
    let value ← getTokenToEol
    pure ⟨some name, value⟩
  else do
    let value ← getTokenToEol
    pure ⟨none, value⟩

def parseHeaders (first : Bool) (left : Nat) : Raw (List Header) := do
  checkEof
  let b ← deref
  if b = 13 then do
    advance
    expectChar 10
    pure []
  else if b = 10 then do
    advance
    pure []
  else match left with
    | 0 => malformed
    | left + 1 => do
      let header ← headerLine first b
      let headers ← parseHeaders false left
      pure (header :: headers)

def skipEmptyLine : Raw Nat := do
  checkEof
  let b ← deref
  if b = 13 then do
    advance
    expectChar 10
    pure 2
  else if b = 10 then do
    advance
    pure 1
  else pure 0

/-- The end of the request line, behind the version. -/
def endOfLine : Raw Unit := do
  let b ← deref
  if b = 13 then do
    advance
    expectChar 10
  else if b = 10 then advance
  else malformed

/-- `*buf++ != ' '`. -/
def blank : Raw Unit := do
  let b ← deref
  advance
  if b ≠ 32 then malformed

def parseRequest (maxHeaders : Nat) : Raw Request := do
  let skipped ← skipEmptyLine
  let method ← checked advanceToken
  advance
  let path ← checked advanceToken
  advance
  let minorVersion ← checked parseHttpVersion
  endOfLine
  let headers ← parseHeaders true maxHeaders
  pure ⟨method, path, skipped + method.length + 1, minorVersion, headers⟩

def parseResponse (maxHeaders : Nat) : Raw Response := do
  let minorVersion ← checked parseHttpVersion
  blank
  let status ← checked parseInt
  blank
  let msg ← getTokenToEol
  let headers ← parseHeaders true maxHeaders
  pure ⟨minorVersion, status, msg, headers⟩

-- ---------------------------------------------------------------------------
-- Checked and unchecked
-- ---------------------------------------------------------------------------

section
variable {α β : Type} {p : Parser UInt8 α} {b : UInt8} {bs : List UInt8}

theorem checked_bind (p : Parser UInt8 α) (f : α → Parser UInt8 β) :
    checked (p >>= f) = checked p >>= fun a => checked (f a) := by
  funext bs
  show ((p >>= f) bs).mapError Trap.halt = _
  simp only [Bind.bind, StateT.bind, checked]
  cases p bs <;> rfl

theorem checked_pure (a : α) : checked (pure a : Parser UInt8 α) = pure a := rfl

theorem checked_ite (c : Prop) [Decidable c] (p q : Parser UInt8 α) :
    checked (if c then p else q) = if c then checked p else checked q := by
  split <;> rfl

/-- What is done after a parser may count on how the parser left off. -/
theorem checked_bind_congr {f g : α → Raw β}
    (h : ∀ a r, p bs = .ok (a, r) → f a r = g a r) :
    (checked p >>= f) bs = (checked p >>= g) bs := by
  simp only [Bind.bind, StateT.bind, checked]
  cases hp : p bs with
  | error e => rfl
  | ok v => exact h v.1 v.2 hp

/-- `CHECK_EOF` and then a read. -/
theorem checkEof_deref (f : UInt8 → Raw α) :
    (checkEof >>= fun _ => deref >>= f) = checked Incremental.peek >>= f := by
  funext bs
  cases bs <;> rfl

theorem deref_cons (f : UInt8 → Raw α) (b : UInt8) (bs : List UInt8) :
    (deref >>= f) (b :: bs) = f b (b :: bs) := rfl

theorem advance_cons (f : Unit → Raw α) (b : UInt8) (bs : List UInt8) :
    (advance >>= f) (b :: bs) = f () bs := rfl

theorem advance_eq (b : UInt8) (bs : List UInt8) (f : Raw α) :
    (advance >>= fun _ => f) (b :: bs) = (checked next >>= fun _ => f) (b :: bs) := rfl

theorem expectChar_eq (ch : UInt8) : expectChar ch = checked (Canvasback.expectChar ch) := by
  funext bs
  cases bs with
  | nil => rfl
  | cons b bs =>
    show (if b ≠ ch then malformed else pure ()) bs =
      checked (if b = ch then pure () else reject) bs
    rw [checked_ite]
    by_cases hb : b = ch
    · rw [if_neg (not_not.mpr hb), if_pos hb]
      rfl
    · rw [if_pos hb, if_neg hb]
      rfl

theorem tokenEnd_eq (k : Nat) (h : k ≤ bs.length) : tokenEnd k bs =
    checked (Incremental.scan (fun b => b == 13 || b == 10) fun _ => false) bs := by
  induction bs generalizing k with
  | nil =>
    obtain rfl := Nat.le_zero.mp h
    rfl
  | cons b bs ih =>
    have hleft : block k (bs.length + 1) - 1 ≤ bs.length := by
      rw [List.length_cons] at h
      unfold block
      split <;> omega
    unfold tokenEnd checked Incremental.scan
    by_cases hb : b = 13 ∨ b = 10
    · have hle : b ≤ 13 := by rcases hb with rfl | rfl <;> decide
      rw [if_pos ⟨hle, hb⟩, if_pos (by simpa using hb)]
      rfl
    · rw [if_neg (fun h => hb h.2), if_neg (by simpa using hb), ih _ hleft, checked]
      cases Incremental.scan (fun b => b == 13 || b == 10) (fun _ => false) bs <;> rfl

theorem skipEmptyLine_eq : skipEmptyLine = checked Canvasback.skipEmptyLine := by
  unfold skipEmptyLine Canvasback.skipEmptyLine
  rw [checkEof_deref, checked_bind]
  funext bs
  refine checked_bind_congr fun b r hs => ?_
  obtain ⟨rfl, bs, rfl⟩ := peek_ok hs
  rw [checked_ite, checked_ite, expectChar_eq]
  split
  · rw [checked_bind, checked_bind]
    rfl
  · split <;> rfl

/-- Where something stands, the end is not reached. -/
theorem endOfLine_eq (b : UInt8) (bs : List UInt8) :
    endOfLine (b :: bs) = checked Canvasback.endOfLine (b :: bs) := by
  show (if b = 13 then advance >>= fun _ => expectChar 10 else if b = 10 then advance
    else malformed) (b :: bs) = checked
      (if b = 13 then Canvasback.expectChar 10 else if b = 10 then pure () else reject) bs
  rw [checked_ite, checked_ite, expectChar_eq]
  split
  · rfl
  · split <;> rfl

theorem blank_eq (b : UInt8) (bs : List UInt8) :
    blank (b :: bs) = checked (Canvasback.expectChar 32) (b :: bs) := by
  rw [← expectChar_eq]
  rfl

theorem bind_congr_at {q q' : Raw α} {f : α → Raw β} (h : q bs = q' bs) :
    (q >>= f) bs = (q' >>= f) bs := by
  simp only [Bind.bind, StateT.bind, h]

theorem getTokenToEol_eq : getTokenToEol = checked Canvasback.getTokenToEol := by
  have hloop : (tokenEnd 0 : Raw (List UInt8)) =
      checked (Incremental.scan (fun b => b == 13 || b == 10) fun _ => false) :=
    funext fun bs => tokenEnd_eq 0 (Nat.zero_le _)
  unfold getTokenToEol
  rw [Canvasback.getTokenToEol, checked_bind, hloop]
  funext bs
  refine checked_bind_congr fun token r hs => ?_
  obtain ⟨-, -, x, rs, rfl, hx⟩ := scan_ok hs
  rw [checked_bind, deref_cons, ← bind_congr_at (endOfLine_eq x rs)]
  by_cases h13 : x = 13
  · rw [if_pos h13, endOfLine, bind_assoc, deref_cons, if_pos h13]
    rfl
  · have h10 : x = 10 := by simpa [h13] using hx
    rw [if_neg h13, endOfLine, bind_assoc, deref_cons, if_neg h13, if_pos h10]
    rfl

theorem headerLine_eq (first : Bool) (b : UInt8) :
    headerLine first b = checked (Canvasback.headerLine first b) := by
  unfold headerLine Canvasback.headerLine
  rw [checked_ite, getTokenToEol_eq]
  congr 1
  · rw [headerName, bind_assoc, checked_bind]
    funext bs
    refine checked_bind_congr fun name r hs => ?_
    obtain ⟨-, -, x, rs, rfl, -⟩ := scan_ok hs
    rw [advance_cons]
    simp only [bind_assoc, pure_bind, checked_bind]
    rfl
  · rw [checked_bind]
    rfl

theorem parseHeaders_eq (first : Bool) (left : Nat) :
    parseHeaders first left = checked (Canvasback.parseHeaders first left) := by
  -- at a byte that ends a line
  have hend (b : UInt8) (bs : List UInt8) (hb : b = 13 ∨ b = 10) (f : Raw (List Header)) :
      (if b = 13 then advance >>= fun _ => expectChar 10 >>= fun _ => pure ([] : List Header)
        else if b = 10 then advance >>= fun _ => pure [] else f) (b :: bs) =
      checked (Canvasback.endOfLine >>= fun _ => pure []) (b :: bs) := by
    rw [checked_bind, ← bind_congr_at (endOfLine_eq b bs)]
    rcases hb with rfl | rfl <;> rfl
  induction left generalizing first with
  | zero =>
    unfold parseHeaders Canvasback.parseHeaders
    rw [checkEof_deref, checked_bind]
    funext bs
    refine checked_bind_congr fun b r hs => ?_
    obtain ⟨rfl, bs, rfl⟩ := peek_ok hs
    rw [checked_ite]
    by_cases hb : b = 13 ∨ b = 10
    · rw [if_pos hb]
      exact hend b bs hb _
    · rw [if_neg hb, if_neg (not_or.mp hb).1, if_neg (not_or.mp hb).2]
      rfl
  | succ left ih =>
    unfold parseHeaders Canvasback.parseHeaders
    rw [checkEof_deref, checked_bind]
    funext bs
    refine checked_bind_congr fun b r hs => ?_
    obtain ⟨rfl, bs, rfl⟩ := peek_ok hs
    rw [checked_ite]
    by_cases hb : b = 13 ∨ b = 10
    · rw [if_pos hb]
      exact hend b bs hb _
    · rw [if_neg hb, if_neg (not_or.mp hb).1, if_neg (not_or.mp hb).2]
      simp only [headerLine_eq, ih, checked_bind, checked_pure]

/-- A number leaves what stands behind it. -/
theorem parseInt_left {v : Int} {r : List UInt8} (h : parseInt bs = .ok (v, r)) :
    ∃ x rs, r = x :: rs := by
  obtain ⟨x, s, hx, h⟩ := Incremental.bind_ok h
  split at h
  · obtain ⟨digits, s, hs, h⟩ := Incremental.bind_ok h
    obtain ⟨-, -, y, rs, rfl, -⟩ := scan_ok hs
    cases h
    exact ⟨y, rs, rfl⟩
  · cases h

theorem parseHttpVersion_left {v : Int} {r : List UInt8}
    (h : parseHttpVersion bs = .ok (v, r)) : ∃ x rs, r = x :: rs := by
  unfold parseHttpVersion at h
  iterate 7 obtain ⟨_, _, -, h⟩ := Incremental.bind_ok h
  exact parseInt_left h

theorem parseRequest_eq (maxHeaders : Nat) :
    parseRequest maxHeaders = checked (Canvasback.parseRequest maxHeaders) := by
  funext bs
  unfold parseRequest Canvasback.parseRequest
  rw [skipEmptyLine_eq, parseHeaders_eq]
  simp only [checked_bind, checked_pure]
  refine checked_bind_congr fun skipped _ _ => checked_bind_congr fun method r hs => ?_
  obtain ⟨-, -, x, rs, rfl, -⟩ := scan_ok hs
  refine (advance_eq x rs _).trans (checked_bind_congr fun _ _ _ => ?_)
  refine checked_bind_congr fun path r hs => ?_
  obtain ⟨-, -, y, rs, rfl, -⟩ := scan_ok hs
  refine (advance_eq y rs _).trans (checked_bind_congr fun _ _ _ => ?_)
  refine checked_bind_congr fun minorVersion r hs => ?_
  obtain ⟨z, rs, rfl⟩ := parseHttpVersion_left hs
  exact bind_congr_at (endOfLine_eq z rs)

theorem parseResponse_eq (maxHeaders : Nat) :
    parseResponse maxHeaders = checked (Canvasback.parseResponse maxHeaders) := by
  funext bs
  unfold parseResponse Canvasback.parseResponse
  rw [getTokenToEol_eq, parseHeaders_eq]
  simp only [checked_bind, checked_pure]
  refine checked_bind_congr fun minorVersion r hs => ?_
  obtain ⟨x, rs, rfl⟩ := parseHttpVersion_left hs
  refine (bind_congr_at (blank_eq x rs)).trans ?_
  refine checked_bind_congr fun _ _ _ => checked_bind_congr fun status r hs => ?_
  obtain ⟨y, rs, rfl⟩ := parseInt_left hs
  exact bind_congr_at (blank_eq y rs)

/-- **The parsers read within the buffer**, and but for that are the ones that
check everywhere. -/
theorem within_buffer (maxHeaders : Nat) :
    parseRequest maxHeaders = checked (Canvasback.parseRequest maxHeaders) ∧
      parseResponse maxHeaders = checked (Canvasback.parseResponse maxHeaders) :=
  ⟨parseRequest_eq maxHeaders, parseResponse_eq maxHeaders⟩

end

end Raw

end Canvasback
