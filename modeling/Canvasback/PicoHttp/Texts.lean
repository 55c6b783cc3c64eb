import Canvasback.Lib.Grammar
import Canvasback.PicoHttp

/-!
# What requests and responses look like

`phr_parse_response` beside `phr_parse_request`, and the texts the two accept:
a grammar of lines, read off no code, which both parsers are shown to be
parsers of.
-/

namespace Canvasback

open Incremental CString Memory

/-- What `phr_parse_response` hands out. -/
structure Response where
  minorVersion : Int
  status : Int
  msg : List UInt8
  headers : List Header
  deriving DecidableEq, Repr

def parseResponse (maxHeaders : Nat) : Parser UInt8 Response := do
  let minorVersion ← parseHttpVersion
  expectChar 32
  let status ← parseInt
  expectChar 32
  let msg ← getTokenToEol
  let headers ← parseHeaders true maxHeaders
  pure ⟨minorVersion, status, msg, headers⟩

/-- `phr_parse_response`. -/
def phrParseResponse (buf : List UInt8) (maxHeaders lastLen : Nat) :
    Except Halt (Response × Nat) := do
  if lastLen ≠ 0 then isComplete 0 (buf.drop (lastLen - 3))
  let (response, rest) ← parseResponse maxHeaders buf
  pure (response, buf.length - rest.length)

-- ---------------------------------------------------------------------------
-- Texts
-- ---------------------------------------------------------------------------

inductive Eol : List UInt8 → Prop
  | crlf : Eol [13, 10]
  | lf : Eol [10]

/-- Within a line. -/
def Unbroken (bs : List UInt8) : Prop := ∀ x ∈ bs, x ≠ 13 ∧ x ≠ 10

def Token (bs : List UInt8) : Prop := ∀ x ∈ bs, x ≠ 32 ∧ x ≠ 13 ∧ x ≠ 10

def Digits (bs : List UInt8) : Prop := bs ≠ [] ∧ ∀ x ∈ bs, isDigit x = true

/-- What the digits come to in an `int`. -/
def intValue (bs : List UInt8) : Int :=
  bs.foldl (fun v b => i32 (v * 10 + (b.toNat - 48))) 0

/-- No blank in front. -/
def Flush (bs : List UInt8) : Prop := ∀ x ∈ bs.head?, isBlank x = false

/-- A header line. One that begins with a blank goes on with the line before,
so the first does not. -/
inductive HeaderText (first : Bool) : Header → List UInt8 → Prop
  | named {name blanks value eol : List UInt8}
      (hname : ∀ x ∈ name, x ≠ 58 ∧ belowSpace x = false) (hfirst : first = true ∨ Flush name)
      (hblanks : ∀ x ∈ blanks, isBlank x = true) (hvalue : Unbroken value) (hflush : Flush value)
      (heol : Eol eol) :
      HeaderText first ⟨some name, value⟩ (name ++ 58 :: (blanks ++ (value ++ eol)))
  | continued {x : UInt8} {value eol : List UInt8} (hfirst : first = false)
      (hblank : isBlank x = true) (hvalue : Unbroken (x :: value)) (heol : Eol eol) :
      HeaderText first ⟨none, x :: value⟩ (x :: value ++ eol)

/-- Up to `left` header lines and an empty one. -/
inductive HeadersText : (first : Bool) → (left : Nat) → List Header → List UInt8 → Prop
  | done {first left eol} (heol : Eol eol) : HeadersText first left [] eol
  | line {first left header line headers lines} (hline : HeaderText first header line)
      (hlines : HeadersText false left headers lines) :
      HeadersText first (left + 1) (header :: headers) (line ++ lines)

inductive RequestText (maxHeaders : Nat) : Request → List UInt8 → Prop
  | intro {lead method path version eol lines : List UInt8} {headers : List Header}
      (hlead : lead = [] ∨ Eol lead) (hmethod : Token method) (hpath : Token path)
      (hversion : Digits version) (heol : Eol eol)
      (hlines : HeadersText true maxHeaders headers lines) :
      RequestText maxHeaders
        ⟨method, path, lead.length + method.length + 1, intValue version, headers⟩
        (lead ++ (method ++ 32 :: (path ++ 32 :: (ascii "HTTP/1." ++ (version ++ (eol ++ lines))))))

inductive ResponseText (maxHeaders : Nat) : Response → List UInt8 → Prop
  | intro {version status msg eol lines : List UInt8} {headers : List Header}
      (hversion : Digits version) (hstatus : Digits status) (hmsg : Unbroken msg) (heol : Eol eol)
      (hlines : HeadersText true maxHeaders headers lines) :
      ResponseText maxHeaders ⟨intValue version, intValue status, msg, headers⟩
        (ascii "HTTP/1." ++ (version ++ 32 :: (status ++ 32 :: (msg ++ (eol ++ lines)))))

-- ---------------------------------------------------------------------------
-- Parsers of parts
-- ---------------------------------------------------------------------------

section
variable {β : Type} {c : List UInt8}

theorem Eol.cases_head (h : Eol c) : ∃ x t, c = x :: t ∧ (x = 13 ∨ x = 10) := by
  cases h
  · exact ⟨13, [10], rfl, .inl rfl⟩
  · exact ⟨10, [], rfl, .inr rfl⟩

theorem parses_expectChar (ch : UInt8) : Parses (expectChar ch) fun _ c => c = [ch] := by
  refine (parses_next.bind fun b => Parses.ite (b = ch) (fun _ => parses_pure ())
    fun _ => parses_reject).congr fun a c => ?_
  constructor
  · rintro ⟨b, c₁, c₂, rfl, rfl, h⟩
    split at h
    · rename_i hb
      obtain ⟨-, rfl⟩ := h
      rw [hb]
      rfl
    · exact h.elim
  · rintro rfl
    exact ⟨ch, [ch], [], rfl, rfl, by simp⟩

theorem parses_endOfLine : Parses endOfLine fun _ c => Eol c := by
  refine (parses_next.bind fun b => Parses.ite (b = 13) (fun _ => parses_expectChar 10)
    fun _ => Parses.ite (b = 10) (fun _ => parses_pure ()) fun _ => parses_reject).congr
      fun a c => ?_
  constructor
  · rintro ⟨b, c₁, c₂, rfl, rfl, h⟩
    split at h
    · rename_i hb
      rw [hb, h]
      exact .crlf
    · split at h
      · rename_i hb
        rw [hb, h.2]
        exact .lf
      · exact h.elim
  · rintro (_ | _)
    · exact ⟨13, [13], [10], rfl, rfl, by simp⟩
    · exact ⟨10, [10], [], rfl, rfl, by simp⟩

/-- A symbol in front of a parser's texts. -/
theorem Incremental.Parses.char {q : Parser UInt8 β} {G : β → List UInt8 → Prop} (ch : UInt8)
    (hq : Parses q G) : Parses (expectChar ch >>= fun _ => q) fun y c => ∃ t, c = ch :: t ∧ G y t := by
  refine ((parses_expectChar ch).bind fun _ => hq).congr fun y c => ?_
  constructor
  · rintro ⟨-, c₁, c₂, rfl, rfl, h⟩
    exact ⟨c₂, rfl, h⟩
  · rintro ⟨t, rfl, h⟩
    exact ⟨(), [ch], t, rfl, rfl, h⟩

theorem Incremental.Parses.eol {q : Parser UInt8 β} {G : β → List UInt8 → Prop} (hq : Parses q G) :
    Parses (endOfLine >>= fun _ => q) fun y c => ∃ eol t, c = eol ++ t ∧ Eol eol ∧ G y t := by
  refine (parses_endOfLine.bind fun _ => hq).congr fun y c => ?_
  constructor
  · rintro ⟨-, c₁, c₂, rfl, heol, h⟩
    exact ⟨c₁, c₂, rfl, heol, h⟩
  · rintro ⟨eol, t, rfl, heol, h⟩
    exact ⟨(), eol, t, rfl, heol, h⟩

theorem Incremental.Parses.token {g : List UInt8 → Parser UInt8 β}
    {H : List UInt8 → β → List UInt8 → Prop} (hg : ∀ token, Parses (g token) (H token)) :
    Parses (advanceToken >>= fun token => next >>= fun _ => g token) fun y c =>
      ∃ token t, c = token ++ 32 :: t ∧ Token token ∧ H token y t := by
  have hnext (token : List UInt8) := parses_next.bind fun _ : UInt8 => hg token
  refine (Parses.scan _ _ hnext fun token y => ?_).congr fun y c => ?_
  · rintro ⟨x, c₁, c₂, h, rfl, -⟩
    cases h
  · constructor
    · rintro ⟨token, x, t, rfl, htoken, hx, _, c₁, c₂, h, rfl, hH⟩
      obtain rfl : x = 32 := by simpa using hx
      cases h
      exact ⟨token, c₂, rfl, fun z hz => by simpa using htoken z hz, hH⟩
    · rintro ⟨token, t, rfl, htoken, hH⟩
      exact ⟨token, 32, t, rfl, fun z hz => by simpa using htoken z hz, rfl, 32, [32], t, rfl, rfl,
        hH⟩

/-- The first byte of the texts tells that the number has ended. -/
theorem Incremental.Parses.int {g : Int → Parser UInt8 β} {H : Int → β → List UInt8 → Prop}
    (hg : ∀ v, Parses (g v) (H v))
    (hend : ∀ v y c, H v y c → ∃ x t, c = x :: t ∧ isDigit x = false) :
    Parses (parseInt >>= g) fun y c =>
      ∃ ds t, c = ds ++ t ∧ Digits ds ∧ H (intValue ds) y t := by
  have hscan := Parses.scan (fun b => !isDigit b) (fun _ => false)
    (fun ds => hg (intValue ds)) fun ds y h => by
      obtain ⟨x, t, hc, -⟩ := hend _ _ _ h
      cases hc
  have hpeek := Parses.peek (fun x => Parses.ite (isDigit x = true) (fun _ => hscan)
    fun _ => parses_reject) fun x y h => by
      split at h
      · obtain ⟨ds, z, t, hc, -⟩ := h
        cases ds <;> cases hc
      · exact h
  have hrun : parseInt >>= g = Incremental.peek >>= fun x => if isDigit x = true then
      Incremental.scan (fun b => !isDigit b) (fun _ => false) >>= fun ds => g (intValue ds)
      else reject := by
    rw [parseInt, bind_assoc]
    congr 1
    funext x
    split
    · simp only [bind_assoc, pure_bind]
      rfl
    · rfl
  rw [hrun]
  refine hpeek.congr fun y c => ?_
  constructor
  · rintro ⟨x, t, hc, h⟩
    split at h
    · rename_i hx
      obtain ⟨ds, z, t', rfl, hds, hz, hH⟩ := h
      refine ⟨ds, z :: t', rfl, ⟨?_, fun d hd => by simpa using (hds d hd).1⟩, hH⟩
      rintro rfl
      cases hc
      simp [hx] at hz
    · exact h.elim
  · rintro ⟨ds, t, rfl, ⟨hne, hds⟩, hH⟩
    obtain ⟨z, t', rfl, hz⟩ := hend _ _ _ hH
    cases ds with
    | nil => exact absurd rfl hne
    | cons d ds =>
      refine ⟨d, ds ++ z :: t', rfl, ?_⟩
      rw [if_pos (hds d (List.mem_cons_self ..))]
      exact ⟨d :: ds, z, t', rfl, fun x hx => by simp [hds x hx], by simp [hz], hH⟩

theorem Incremental.Parses.version {g : Int → Parser UInt8 β} {H : Int → β → List UInt8 → Prop}
    (hg : ∀ v, Parses (g v) (H v))
    (hend : ∀ v y c, H v y c → ∃ x t, c = x :: t ∧ isDigit x = false) :
    Parses (parseHttpVersion >>= g) fun y c =>
      ∃ ds t, c = ascii "HTTP/1." ++ (ds ++ t) ∧ Digits ds ∧ H (intValue ds) y t := by
  have hint := (((((((Parses.int hg hend).char 46).char 49).char 47).char 80).char 84).char 84).char
    72
  have hrun : parseHttpVersion >>= g = expectChar 72 >>= fun _ => expectChar 84 >>= fun _ =>
      expectChar 84 >>= fun _ => expectChar 80 >>= fun _ => expectChar 47 >>= fun _ =>
      expectChar 49 >>= fun _ => expectChar 46 >>= fun _ => parseInt >>= g := by
    simp only [parseHttpVersion, bind_assoc]
  rw [hrun]
  refine hint.congr fun y c => ?_
  constructor
  · rintro ⟨-, rfl, -, rfl, -, rfl, -, rfl, -, rfl, -, rfl, -, rfl, ds, t, rfl, hds, hH⟩
    exact ⟨ds, t, rfl, hds, hH⟩
  · rintro ⟨ds, t, rfl, hds, hH⟩
    exact ⟨_, rfl, _, rfl, _, rfl, _, rfl, _, rfl, _, rfl, _, rfl, ds, t, rfl, hds, hH⟩

theorem parses_getTokenToEol : Parses getTokenToEol fun token c =>
    ∃ eol, c = token ++ eol ∧ Unbroken token ∧ Eol eol := by
  refine (Parses.scan _ _ (fun token => (parses_pure token).eol) fun token y => ?_).congr
    fun token c => ?_
  · rintro ⟨eol, t, h, heol, -⟩
    cases heol <;> cases h
  · constructor
    · rintro ⟨token', x, t, rfl, htoken, hx, eol, t', ht, heol, rfl, rfl⟩
      rw [List.append_nil] at ht
      exact ⟨eol, by rw [ht], fun z hz => by simpa using (htoken z hz).1, heol⟩
    · rintro ⟨eol, rfl, htoken, heol⟩
      obtain ⟨x, t, rfl, hx⟩ := heol.cases_head
      refine ⟨token, x, t, rfl, fun z hz => by simp [htoken z hz], by simpa using hx, x :: t, [],
        (List.append_nil _).symm, heol, rfl, rfl⟩

/-- An empty line may stand in front of texts that do not begin with one. -/
theorem Incremental.Parses.emptyLine {g : Nat → Parser UInt8 β} {H : Nat → β → List UInt8 → Prop}
    (hg : ∀ n, Parses (g n) (H n))
    (hfull : ∀ n y c, H n y c → ∃ x t, c = x :: t ∧ x ≠ 13 ∧ x ≠ 10) :
    Parses (skipEmptyLine >>= g) fun y c =>
      ∃ lead t, c = lead ++ t ∧ (lead = [] ∨ Eol lead) ∧ H lead.length y t := by
  have hpeek := Parses.peek (fun x => Parses.ite (x = 13)
    (fun _ => parses_next.bind fun _ => (hg 2).char 10)
    fun _ => Parses.ite (x = 10) (fun _ => parses_next.bind fun _ => hg 1) fun _ => hg 0)
    fun x y h => by
      split at h
      · obtain ⟨_, _, _, hc, rfl, -⟩ := h
        cases hc
      · split at h
        · obtain ⟨_, _, _, hc, rfl, -⟩ := h
          cases hc
        · obtain ⟨_, _, hc, -⟩ := hfull _ _ _ h
          cases hc
  have hrun : skipEmptyLine >>= g = Incremental.peek >>= fun x => if x = 13 then
      next >>= fun _ => expectChar 10 >>= fun _ => g 2
      else if x = 10 then next >>= fun _ => g 1 else g 0 := by
    rw [skipEmptyLine, bind_assoc]
    congr 1
    funext x
    split
    · simp only [bind_assoc, pure_bind]
    · split
      · simp only [bind_assoc, pure_bind]
      · rw [pure_bind]
  rw [hrun]
  refine hpeek.congr fun y c => ?_
  constructor
  · rintro ⟨x, t, rfl, h⟩
    split at h
    · rename_i hx
      obtain ⟨_, _, _, hc, rfl, t', rfl, hH⟩ := h
      cases hc
      rw [hx]
      exact ⟨[13, 10], t', rfl, .inr .crlf, hH⟩
    · split at h
      · rename_i hx
        obtain ⟨_, _, t', hc, rfl, hH⟩ := h
        cases hc
        rw [hx]
        exact ⟨[10], t', rfl, .inr .lf, hH⟩
      · exact ⟨[], x :: t, rfl, .inl rfl, h⟩
  · rintro ⟨lead, t, rfl, rfl | hlead, hH⟩
    · obtain ⟨x, t, rfl, h13, h10⟩ := hfull _ _ _ hH
      refine ⟨x, t, rfl, ?_⟩
      rw [if_neg h13, if_neg h10]
      exact hH
    · cases hlead
      · exact ⟨13, 10 :: t, rfl, 13, [13], 10 :: t, rfl, rfl, t, rfl, hH⟩
      · exact ⟨10, t, rfl, 10, [10], t, rfl, rfl, hH⟩

end

-- ---------------------------------------------------------------------------
-- Header lines
-- ---------------------------------------------------------------------------

section
variable {first : Bool} {left maxHeaders : Nat} {header : Header} {headers : List Header}
  {x : UInt8} {c : List UInt8}

theorem Eol.ne_nil (h : Eol c) : c ≠ [] := by
  obtain ⟨x, t, rfl, -⟩ := h.cases_head
  exact List.cons_ne_nil x t

/-- What is taken of a line whose first byte has been looked at. -/
theorem parses_headerLine (first : Bool) (x : UInt8) : Parses (headerLine first x) fun header c =>
    if first || !isBlank x then
      ∃ name blanks value eol, header = ⟨some name, value⟩ ∧
        c = name ++ 58 :: (blanks ++ (value ++ eol)) ∧
        (∀ y ∈ name, y ≠ 58 ∧ belowSpace y = false) ∧ (∀ y ∈ blanks, isBlank y = true) ∧
        Flush value ∧ Unbroken value ∧ Eol eol
    else ∃ value eol, header = ⟨none, value⟩ ∧ c = value ++ eol ∧ Unbroken value ∧ Eol eol := by
  have hvalue (name : Option (List UInt8)) := parses_getTokenToEol.bind fun value =>
    parses_pure (⟨name, value⟩ : Header)
  have hblanks (name : List UInt8) := Parses.scan (fun b => !isBlank b) (fun _ => false)
    (fun _ => hvalue (some name)) fun _ _ h => by
      obtain ⟨_, _, _, hc, ⟨eol, rfl, -, heol⟩, -⟩ := h
      exact heol.ne_nil (List.append_eq_nil_iff.mp (List.append_eq_nil_iff.mp hc.symm).1).2
  have hnamed := Parses.scan (· == 58) belowSpace
    (fun name => parses_next.bind fun _ => hblanks name) fun _ _ h => by
      obtain ⟨_, _, _, hc, rfl, -⟩ := h
      cases hc
  refine Parses.ite _ (fun _ => ?_) fun _ => ?_
  · have hrun : (headerName >>= fun name => getTokenToEol >>= fun value =>
        pure (⟨some name, value⟩ : Header)) = Incremental.scan (· == 58) belowSpace >>= fun name =>
        next >>= fun _ => Incremental.scan (fun b => !isBlank b) (fun _ => false) >>= fun _ =>
        getTokenToEol >>= fun value => pure ⟨some name, value⟩ := by
      simp only [headerName, bind_assoc, pure_bind]
    rw [hrun]
    refine hnamed.congr fun header c => ?_
    constructor
    · rintro ⟨name, y, t, rfl, hname, hy, _, c₁, c₂, ht, rfl, blanks, z, t', rfl, hb, hz, value,
        c₃, c₄, hc₃, ⟨eol, rfl, hv, heol⟩, rfl, rfl⟩
      obtain rfl : y = 58 := by simpa using hy
      rw [List.append_nil] at hc₃
      refine ⟨name, blanks, value, eol, rfl, ?_, fun y hy => by simpa using hname y hy,
        fun y hy => by simpa using hb y hy, fun y hy => ?_, hv, heol⟩
      · cases ht
        rw [hc₃]
        rfl
      · cases value with
        | nil => cases hy
        | cons w ws =>
          cases hc₃
          cases hy
          simpa using hz
    · rintro ⟨name, blanks, value, eol, rfl, rfl, hname, hb, hflush, hv, heol⟩
      obtain ⟨z, t, hzt, hz⟩ : ∃ z t, value ++ eol = z :: t ∧ isBlank z = false := by
        cases value with
        | nil =>
          obtain ⟨z, t, rfl, hz⟩ := heol.cases_head
          exact ⟨z, t, rfl, by rcases hz with rfl | rfl <;> rfl⟩
        | cons w ws => exact ⟨w, ws ++ eol, rfl, hflush w rfl⟩
      rw [hzt]
      refine ⟨name, 58, blanks ++ z :: t, rfl, fun y hy => by simpa using hname y hy, rfl, 58,
        [58], blanks ++ z :: t, rfl, rfl, blanks, z, t, rfl, fun y hy => by simp [hb y hy],
        by simp [hz], value, z :: t, [], (List.append_nil _).symm, ⟨eol, hzt.symm, hv, heol⟩, rfl,
        rfl⟩
  · refine (hvalue none).congr fun header c => ?_
    constructor
    · rintro ⟨value, c₁, c₂, rfl, ⟨eol, rfl, hv, heol⟩, rfl, rfl⟩
      exact ⟨value, eol, rfl, List.append_nil _, hv, heol⟩
    · rintro ⟨value, eol, rfl, rfl, hv, heol⟩
      exact ⟨value, value ++ eol, [], (List.append_nil _).symm, ⟨eol, rfl, hv, heol⟩, rfl, rfl⟩

/-- The first byte of a header line tells it from the end of the headers, and a
line from one that goes on. -/
theorem headerText_iff : HeaderText first header (x :: c) ↔ ¬ (x = 13 ∨ x = 10) ∧
    if first || !isBlank x then
      ∃ name blanks value eol, header = ⟨some name, value⟩ ∧
        x :: c = name ++ 58 :: (blanks ++ (value ++ eol)) ∧
        (∀ y ∈ name, y ≠ 58 ∧ belowSpace y = false) ∧ (∀ y ∈ blanks, isBlank y = true) ∧
        Flush value ∧ Unbroken value ∧ Eol eol
    else ∃ value eol, header = ⟨none, value⟩ ∧ x :: c = value ++ eol ∧ Unbroken value ∧
      Eol eol := by
  have hbelow {y : UInt8} (hy : belowSpace y = false) : y ≠ 13 ∧ y ≠ 10 := by
    constructor <;> rintro rfl <;> cases hy
  constructor
  · generalize hd : x :: c = d
    intro h
    cases h with
    | @named name blanks value eol hname hfirst hblanks hvalue hflush heol =>
      have hx : ¬ (x = 13 ∨ x = 10) ∧ (first || !isBlank x) = true := by
        cases name with
        | nil =>
          cases hd
          exact ⟨by decide, Bool.or_eq_true_iff.mpr (.inr rfl)⟩
        | cons n ns =>
          cases hd
          have hn := hbelow (hname _ (List.mem_cons_self ..)).2
          refine ⟨not_or.mpr hn, Bool.or_eq_true_iff.mpr (hfirst.imp id fun h => ?_)⟩
          rw [h _ rfl]
          rfl
      rw [if_pos hx.2]
      exact ⟨hx.1, name, blanks, value, eol, rfl, rfl, hname, hblanks, hflush, hvalue, heol⟩
    | continued hfirst hblank hvalue heol =>
      cases hd
      rw [if_neg (by simp [hfirst, hblank])]
      exact ⟨not_or.mpr (hvalue _ (List.mem_cons_self ..)), _, _, rfl, rfl, hvalue, heol⟩
  · rintro ⟨hx, h⟩
    split at h
    · rename_i hfirst
      obtain ⟨name, blanks, value, eol, rfl, hc, hname, hb, hflush, hv, heol⟩ := h
      rw [hc]
      refine .named hname ?_ hb hv hflush heol
      refine (Bool.or_eq_true_iff.mp hfirst).imp id fun hblank y hy => ?_
      cases name with
      | nil => cases hy
      | cons n ns =>
        cases hc
        cases hy
        simpa using hblank
    · rename_i hfirst
      obtain ⟨value, eol, rfl, hc, hv, heol⟩ := h
      have hf : first = false ∧ isBlank x = true := by simpa using hfirst
      cases value with
      | nil =>
        obtain ⟨y, t, rfl, hy⟩ := heol.cases_head
        cases hc
        exact absurd hy hx
      | cons v vs =>
        cases hc
        exact .continued hf.1 hf.2 hv heol

theorem HeaderText.ne_nil (h : HeaderText first header c) : c ≠ [] := by
  cases h with
  | named => simp
  | continued => simp

theorem HeadersText.ne_nil (h : HeadersText first left headers c) : c ≠ [] := by
  cases h with
  | done heol => exact heol.ne_nil
  | line hline _ => simp [hline.ne_nil]

theorem parses_parseHeaders (first : Bool) (left : Nat) :
    Parses (parseHeaders first left) (HeadersText first left) := by
  have hdone := (parses_pure ([] : List Header)).eol
  have hempty {y : List Header} (h : ∃ eol t, [] = eol ++ t ∧ Eol eol ∧ y = [] ∧ t = []) :
      False := by
    obtain ⟨eol, t, hc, heol, -⟩ := h
    exact heol.ne_nil (List.append_eq_nil_iff.mp hc.symm).1
  induction left generalizing first with
  | zero =>
    refine (Parses.peek (fun x => Parses.ite (x = 13 ∨ x = 10) (fun _ => hdone)
      fun _ => parses_reject) fun x y h => ?_).congr fun hs c => ?_
    · split at h
      · exact hempty h
      · exact h
    · constructor
      · rintro ⟨x, t, rfl, h⟩
        split at h
        · obtain ⟨eol, t', hc, heol, rfl, rfl⟩ := h
          rw [hc, List.append_nil]
          exact .done heol
        · exact h.elim
      · rintro (_ | _)
        rename_i heol
        obtain ⟨x, t, rfl, hx⟩ := heol.cases_head
        refine ⟨x, t, rfl, ?_⟩
        rw [if_pos hx]
        exact ⟨x :: t, [], (List.append_nil _).symm, heol, rfl, rfl⟩
  | succ left ih =>
    have hline (x : UInt8) := (parses_headerLine first x).bind fun header =>
      (ih false).bind fun headers => parses_pure (header :: headers)
    refine (Parses.peek (fun x => Parses.ite (x = 13 ∨ x = 10) (fun _ => hdone)
      fun _ => hline x) fun x y h => ?_).congr fun hs c => ?_
    · split at h
      · exact hempty h
      · obtain ⟨header, c₁, c₂, hc, -, headers, c₃, c₄, rfl, hlines, -⟩ := h
        exact hlines.ne_nil (List.append_eq_nil_iff.mp (List.append_eq_nil_iff.mp hc.symm).2).1
    · constructor
      · rintro ⟨x, t, rfl, h⟩
        split at h
        · obtain ⟨eol, t', hc, heol, rfl, rfl⟩ := h
          rw [hc, List.append_nil]
          exact .done heol
        · rename_i hx
          obtain ⟨header, c₁, c₂, hc, hl, headers, c₃, c₄, rfl, hlines, rfl, rfl⟩ := h
          rw [List.append_nil] at hc
          cases c₁ with
          | nil =>
            exfalso
            split at hl
            · obtain ⟨name, blanks, value, eol, -, hnil, -⟩ := hl
              cases name <;> cases hnil
            · obtain ⟨value, eol, -, hnil, -, heol⟩ := hl
              exact heol.ne_nil (List.append_eq_nil_iff.mp hnil.symm).2
          | cons y c₁ =>
            obtain ⟨rfl, hc⟩ := List.cons.inj hc
            rw [hc]
            exact .line (headerText_iff.mpr ⟨hx, hl⟩) hlines
      · intro h
        cases h with
        | done heol =>
          obtain ⟨x, t, rfl, hx⟩ := heol.cases_head
          refine ⟨x, t, rfl, ?_⟩
          rw [if_pos hx]
          exact ⟨x :: t, [], (List.append_nil _).symm, heol, rfl, rfl⟩
        | @line _ _ header line headers lines hline hlines =>
          cases line with
          | nil => exact absurd rfl hline.ne_nil
          | cons x line =>
            obtain ⟨hx, hl⟩ := headerText_iff.mp hline
            refine ⟨x, line ++ lines, rfl, ?_⟩
            rw [if_neg hx]
            exact ⟨header, x :: line, lines, rfl, hl, headers, lines, [],
              (List.append_nil _).symm, hlines, rfl, rfl⟩

-- ---------------------------------------------------------------------------
-- Requests and responses
-- ---------------------------------------------------------------------------

theorem Eol.not_digit (h : Eol eol) : ∃ x t, eol ++ c = x :: t ∧ isDigit x = false := by
  cases h
  · exact ⟨13, 10 :: c, rfl, rfl⟩
  · exact ⟨10, c, rfl, rfl⟩

theorem parses_parseRequest (maxHeaders : Nat) :
    Parses (parseRequest maxHeaders) (RequestText maxHeaders) := by
  have hhead (skipped : Nat) (method path : List UInt8) (minorVersion : Int) :=
    ((parses_parseHeaders true maxHeaders).bind fun headers => parses_pure
      (⟨method, path, skipped + method.length + 1, minorVersion, headers⟩ : Request)).eol
  have hline (skipped : Nat) := Parses.token fun method => Parses.token fun path =>
    Parses.version (hhead skipped method path) fun _ _ _ h => by
      obtain ⟨eol, t, rfl, heol, -⟩ := h
      exact heol.not_digit
  refine (Parses.emptyLine hline fun _ _ _ h => ?_).congr fun request c => ?_
  · obtain ⟨method, t, rfl, hmethod, -⟩ := h
    cases method with
    | nil => exact ⟨32, t, rfl, by decide, by decide⟩
    | cons m ms => exact ⟨m, _, rfl, (hmethod m (List.mem_cons_self ..)).2⟩
  · constructor
    · rintro ⟨lead, t, rfl, hlead, method, t, rfl, hmethod, path, t, rfl, hpath, version, t, rfl,
        hversion, eol, t, rfl, heol, headers, lines, t, rfl, hlines, rfl, rfl⟩
      rw [List.append_nil]
      exact .intro hlead hmethod hpath hversion heol hlines
    · rintro ⟨hlead, hmethod, hpath, hversion, heol, hlines⟩
      exact ⟨_, _, rfl, hlead, _, _, rfl, hmethod, _, _, rfl, hpath, _, _, rfl, hversion, _, _, rfl,
        heol, _, _, [], (List.append_nil _).symm, hlines, rfl, rfl⟩

theorem parses_parseResponse (maxHeaders : Nat) :
    Parses (parseResponse maxHeaders) (ResponseText maxHeaders) := by
  have hhead (minorVersion status : Int) := parses_getTokenToEol.bind fun msg =>
    (parses_parseHeaders true maxHeaders).bind fun headers => parses_pure
      (⟨minorVersion, status, msg, headers⟩ : Response)
  have hstatus (minorVersion : Int) := (Parses.int (fun status =>
    (hhead minorVersion status).char 32) fun _ _ _ h => by
      obtain ⟨t, rfl, -⟩ := h
      exact ⟨32, t, rfl, rfl⟩).char 32
  refine (Parses.version hstatus fun _ _ _ h => ?_).congr fun response c => ?_
  · obtain ⟨t, rfl, -⟩ := h
    exact ⟨32, t, rfl, rfl⟩
  · constructor
    · rintro ⟨version, t, rfl, hversion, t, rfl, status, t, rfl, hstatus, t, rfl, msg, t, t', rfl,
        ⟨eol, rfl, hmsg, heol⟩, headers, lines, t, rfl, hlines, rfl, rfl⟩
      rw [List.append_nil, List.append_assoc]
      exact .intro hversion hstatus hmsg heol hlines
    · rintro ⟨hversion, hstatus, hmsg, heol, hlines⟩
      exact ⟨_, _, rfl, hversion, _, rfl, _, _, rfl, hstatus, _, rfl, _, _, _,
        (List.append_assoc ..).symm, ⟨_, rfl, hmsg, heol⟩, _, _, [], (List.append_nil _).symm, hlines,
        rfl, rfl⟩

end

section
variable {α : Type} {p : Parser UInt8 α} {G : α → List UInt8 → Prop} {a : α} {n : Nat}
  {buf : List UInt8}

/-- `phr_parse_request` and `phr_parse_response` for their parsers. -/
def guarded (p : Parser UInt8 α) (buf : List UInt8) (lastLen : Nat) : Except Halt (α × Nat) := do
  if lastLen ≠ 0 then isComplete 0 (buf.drop (lastLen - 3))
  let (a, rest) ← p buf
  pure (a, buf.length - rest.length)

theorem guarded_error {e : Halt} {b : List UInt8} {l : Nat} (h : p b = .error e) :
    guarded p b l = if l ≠ 0 then isComplete 0 (b.drop (l - 3)) >>= fun _ => .error e
      else .error e := by
  unfold guarded
  rw [h]
  split <;> rfl

theorem guarded_plain {b : List UInt8} {n : Nat} :
    guarded p b 0 = .ok (a, n) ↔ ∃ r, p b = .ok (a, r) ∧ n = b.length - r.length := by
  constructor
  · intro h
    cases hp : p b with
    | error e =>
      rw [guarded_error hp] at h
      cases h
    | ok v =>
      simp only [guarded, hp] at h
      cases h
      exact ⟨v.2, rfl, rfl⟩
  · rintro ⟨r, hp, rfl⟩
    simp only [guarded, hp]
    rfl

theorem guarded_iff (h : Parses p G) :
    guarded p buf 0 = .ok (a, n) ↔ n ≤ buf.length ∧ G a (buf.take n) := by
  rw [guarded_plain]
  constructor
  · rintro ⟨r, hp, rfl⟩
    obtain ⟨c, rfl, hG⟩ := (h _ _ _).mp hp
    have hlen : (c ++ r).length - r.length = c.length := by
      rw [List.length_append, Nat.add_sub_cancel]
    rw [hlen, List.take_left]
    exact ⟨by rw [List.length_append]; exact Nat.le_add_right _ _, hG⟩
  · rintro ⟨hn, hG⟩
    refine ⟨buf.drop n, (h _ _ _).mpr ⟨buf.take n, (List.take_append_drop n buf).symm, hG⟩, ?_⟩
    rw [List.length_drop]
    exact (Nat.sub_sub_self hn).symm

/-- **Requests.** `phr_parse_request` accepts a buffer exactly if a request
stands at its beginning, and says how long it is. -/
theorem phrParseRequest_iff {request : Request} {maxHeaders : Nat} :
    phrParseRequest buf maxHeaders 0 = .ok (request, n) ↔
      n ≤ buf.length ∧ RequestText maxHeaders request (buf.take n) :=
  guarded_iff (parses_parseRequest maxHeaders)

theorem phrParseResponse_iff {response : Response} {maxHeaders : Nat} :
    phrParseResponse buf maxHeaders 0 = .ok (response, n) ↔
      n ≤ buf.length ∧ ResponseText maxHeaders response (buf.take n) :=
  guarded_iff (parses_parseResponse maxHeaders)

end

end Canvasback
