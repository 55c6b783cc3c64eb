import Canvasback.Records
import Canvasback.Styles
import Canvasback.Tile

/-!
# The row loop of `fmt_res_bin`

A result row is a WKB geometry and a style text. The loop walks the bytes of
each row with one cursor and streams a record for every point, line and ring
it meets into one buffer of as many bytes as the rows have.

The cursor and the counters are `int`s: what C computes in 32 bits is wrapped
by `i32`. How a coordinate is quantised is a parameter, so nothing here rests
on the arithmetic of doubles; `Tile.scale` is the exact version.
-/

namespace Canvasback

open Memory CString

/-- A row of the result: the first column's bytes, what memory holds around
them, and the second column's text. -/
structure Row where
  value : List UInt8
  around : Mem
  style : List UInt8

/-- `PQgetlength(res, r, 0)`. -/
def Row.reslen (row : Row) : Int := row.value.length

/-- Memory from `PQgetvalue(res, r, 0)` on; libpq ends every value with a zero
byte that its length does not count. -/
def Row.mem (row : Row) : Mem := fun i =>
  if 0 ≤ i ∧ i < row.reslen then row.value[i.toNat]?
  else if i = row.reslen then some 0
  else row.around i

/-- `scale`, on the bit pattern of a coordinate. -/
abbrev Scale := UInt64 → Int → Int → Int16

/-- What the row loop builds up: `pt_count`, `ngeoms` and the buffer. -/
structure Stream where
  ptCount : Int
  ngeoms : Int
  strm : List UInt8
  deriving DecidableEq, Repr

/-- The stream and `geom_pos`, the cursor into the row at hand. -/
structure Walk extends Stream where
  geomPos : Int
  deriving DecidableEq, Repr

/-- `pt_count*4 + ngeoms*12`: how many bytes of the buffer are sent. -/
def Stream.size (s : Stream) : Int := i32 (s.ptCount * 4 + s.ngeoms * 12)

section
variable (scale : Scale) (tile : Tms)

/-- The `for` loop of `short_stream`, at its iteration `i`; `left` is how
often it still runs. -/
def shortStream.points (mem : Mem) (coordbuf idx ngeoms : Int) :
    (left : Nat) → (i : Int) → List UInt8 → Except Fault (List UInt8)
  | 0, _, strm => .ok strm
  | left + 1, i, strm => do
    let c ← f64 mem (coordbuf + 8 * i)
    let strm ← put strm (i32 (i * 2 + idx * 4 + 12 + 12 * ngeoms)) (le16 (scale c tile.z tile.x))
    let c ← f64 mem (coordbuf + 8 * (i + 1))
    let strm ← put strm (i32 (i * 2 + idx * 4 + 14 + 12 * ngeoms)) (le16 (scale c tile.z tile.y))
    shortStream.points mem coordbuf idx ngeoms left (i + 2) strm

def shortStream (mem : Mem) (coordbuf : Int) (strm : List UInt8) (npts idx ngeoms : Int)
    (geomT osmtype : Nat) : Except Fault (List UInt8) := do
  let strm ← put strm (i32 (idx * 4 + 12 * ngeoms)) (toLe 4 geomT)
  let strm ← put strm (i32 (idx * 4 + 12 * ngeoms + 4)) (toLe 4 (npts % 2 ^ 32).toNat)
  let strm ← put strm (i32 (idx * 4 + 12 * ngeoms + 8)) (toLe 4 osmtype)
  shortStream.points scale tile mem coordbuf idx ngeoms ((i32 (2 * npts)).toNat / 2) 0 strm

/-- `while (linear_rings)`. -/
def ringLoop (mem : Mem) (stylenum : Nat) : (linearRings : Nat) → Walk → Except Fault Walk
  | 0, w => .ok w
  | linearRings + 1, w => do
    let n ← u32 mem w.geomPos
    let pts := i32 n
    let strm ← shortStream scale tile mem (i32 (w.geomPos + 4)) w.strm pts w.ptCount w.ngeoms 3
      stylenum
    ringLoop mem stylenum linearRings
      { ptCount := i32 (w.ptCount + pts), ngeoms := i32 (w.ngeoms + 1), strm
        geomPos := i32 (w.geomPos + (pts * 16 + 4)) }

/-- The body of `while (geom_pos < reslen)`. -/
def rowStep (mem : Mem) (stylenum : Nat) (w : Walk) : Except Fault Walk := do
  let wkbType ← u32 mem w.geomPos
  if wkbType = 1 then
    let strm ← shortStream scale tile mem (i32 (w.geomPos + 4)) w.strm 1 w.ptCount w.ngeoms wkbType
      10
    .ok { ptCount := i32 (w.ptCount + 1), ngeoms := i32 (w.ngeoms + 1), strm
          geomPos := i32 (w.geomPos + 17) }
  else if wkbType = 2 then
    let n ← u32 mem (i32 (w.geomPos + 4))
    let pts := i32 n
    let strm ← shortStream scale tile mem (i32 (w.geomPos + 8)) w.strm pts w.ptCount w.ngeoms
      wkbType stylenum
    .ok { ptCount := i32 (w.ptCount + pts), ngeoms := i32 (w.ngeoms + 1), strm
          geomPos := i32 (w.geomPos + (pts * 16 + 9)) }
  else if wkbType = 3 then
    let linearRings ← u32 mem (i32 (w.geomPos + 4))
    let w ← ringLoop scale tile mem stylenum linearRings { w with geomPos := i32 (w.geomPos + 8) }
    .ok { w with geomPos := i32 (w.geomPos + 1) }
  else
    .ok { w with geomPos := i32 (w.geomPos + 9) }

/-- `while (geom_pos < reslen)`, for so many iterations. -/
def rowLoop (mem : Mem) (reslen : Int) (stylenum : Nat) : (fuel : Nat) → Walk → Except Fault Walk
  | 0, w => if w.geomPos < reslen then .error .outOfFuel else .ok w
  | fuel + 1, w =>
    if w.geomPos < reslen then do
      let w ← rowStep scale tile mem stylenum w
      rowLoop mem reslen stylenum fuel w
    else .ok w

/-- The style of a row: a number as text from zoom 17 on, a highway name
below. -/
def stylenum (style : List UInt8) : Nat :=
  if 17 ≤ tile.z then (atoi style % 2 ^ 32).toNat else osmstylenum style

/-- One round of the `for` loop over the rows. -/
def fmtRow (fuel : Nat) (row : Row) (s : Stream) : Except Fault Stream := do
  let w ← rowLoop scale tile row.mem row.reslen (stylenum tile row.style) fuel
    { s with geomPos := 1 }
  .ok w.toStream

def fmtRows (fuel : Nat) : List Row → Stream → Except Fault Stream
  | [], s => .ok s
  | row :: rows, s => do
    let s ← fmtRow scale tile fuel row s
    fmtRows fuel rows s

end

/-- `chunk_cnt`, the bytes of all first columns. -/
def chunkCnt (rows : List Row) : Int := rows.foldl (fun n row => i32 (n + row.reslen)) 0

/-- `malloc(n)`: what stands in the buffer is left over from elsewhere. -/
def malloc (junk : Nat → UInt8) (n : Int) : List UInt8 := (List.range n.toNat).map junk

@[simp] theorem malloc_length (junk : Nat → UInt8) (n : Int) :
    (malloc junk n).length = n.toNat := by
  simp [malloc]

-- ---------------------------------------------------------------------------
-- More fuel changes nothing
-- ---------------------------------------------------------------------------

section
variable {scale : Scale} {tile : Tms} {mem : Mem} {reslen : Int} {st : Nat}

theorem rowLoop_mono (h : rowLoop scale tile mem reslen st fuel w = r) (hr : r ≠ .error .outOfFuel)
    (hf : fuel ≤ fuel') : rowLoop scale tile mem reslen st fuel' w = r := by
  induction fuel generalizing fuel' w with
  | zero =>
    simp only [rowLoop] at h
    split at h
    · exact absurd h.symm hr
    · rename_i hw
      cases fuel' <;> simp [rowLoop, hw, h]
  | succ fuel ih =>
    obtain ⟨fuel', rfl⟩ : ∃ k, fuel' = k + 1 := ⟨fuel' - 1, by omega⟩
    simp only [rowLoop] at h ⊢
    split at h
    · rename_i hw
      simp only [hw, if_true]
      cases hs : rowStep scale tile mem st w with
      | error e => simpa [hs, bind, Except.bind] using h
      | ok w' =>
        simp only [hs, bind, Except.bind] at h ⊢
        exact ih h (by omega)
    · rename_i hw
      simpa [hw] using h

theorem fmtRow_mono (h : fmtRow scale tile fuel row s = r) (hr : r ≠ .error .outOfFuel)
    (hf : fuel ≤ fuel') : fmtRow scale tile fuel' row s = r := by
  simp only [fmtRow] at h ⊢
  cases hs : rowLoop scale tile row.mem row.reslen (stylenum tile row.style) fuel
      { s with geomPos := 1 } with
  | error e =>
    simp only [hs, bind, Except.bind] at h
    have he : (Except.error e : Except Fault Walk) ≠ .error .outOfFuel := by
      rintro ⟨⟩
      exact hr h.symm
    rw [rowLoop_mono hs he hf]
    exact h
  | ok w =>
    rw [rowLoop_mono hs (by simp) hf]
    simpa [hs, bind, Except.bind] using h

theorem fmtRows_mono (h : fmtRows scale tile fuel rows s = r) (hr : r ≠ .error .outOfFuel)
    (hf : fuel ≤ fuel') : fmtRows scale tile fuel' rows s = r := by
  induction rows generalizing s with
  | nil => simpa [fmtRows] using h
  | cons row rows ih =>
    simp only [fmtRows] at h ⊢
    cases hs : fmtRow scale tile fuel row s with
    | error e =>
      simp only [hs, bind, Except.bind] at h
      have he : (Except.error e : Except Fault Stream) ≠ .error .outOfFuel := by
        rintro ⟨⟩
        exact hr h.symm
      rw [fmtRow_mono hs he hf]
      exact h
    | ok s' =>
      rw [fmtRow_mono hs (by simp) hf]
      simp only [hs, bind, Except.bind] at h ⊢
      exact ih h

end

end Canvasback
