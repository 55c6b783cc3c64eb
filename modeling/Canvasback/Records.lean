import Canvasback.Lib.Memory

/-!
# The tile format

What the server answers with: an array of records, back to back. A record is
`uint32 geometry_type`, `uint32 num_pts`, `uint32 osm_type`, then one pair of
`int16` offsets from the tile origin for each point.
-/

namespace Canvasback

open Memory

/-- `num_pts` is the length of `points`. -/
structure Record where
  geometryType : Nat
  osmType : Nat
  points : List (Int16 × Int16)
  deriving DecidableEq, Repr

/-- The counters and codes fit their words. -/
def Record.Wf (r : Record) : Prop :=
  r.geometryType < 2 ^ 32 ∧ r.osmType < 2 ^ 32 ∧ r.points.length < 2 ^ 32

def le16 (x : Int16) : List UInt8 := toLe 2 x.toUInt16.toNat

def offsetBytes (p : Int16 × Int16) : List UInt8 := le16 p.1 ++ le16 p.2

def Record.encode (r : Record) : List UInt8 :=
  toLe 4 r.geometryType ++ toLe 4 r.points.length ++ toLe 4 r.osmType ++
    r.points.flatMap offsetBytes

-- ---------------------------------------------------------------------------
-- Reading records back
-- ---------------------------------------------------------------------------

def readU32 (bs : List UInt8) : Option (Nat × List UInt8) :=
  if 4 ≤ bs.length then some (ofLe (bs.take 4), bs.drop 4) else none

def readI16 (bs : List UInt8) : Option (Int16 × List UInt8) :=
  if 2 ≤ bs.length then some ((UInt16.ofNat (ofLe (bs.take 2))).toInt16, bs.drop 2) else none

def readOffsets : Nat → List UInt8 → Option (List (Int16 × Int16) × List UInt8)
  | 0, bs => some ([], bs)
  | n + 1, bs => do
    let (x, bs) ← readI16 bs
    let (y, bs) ← readI16 bs
    let (ps, bs) ← readOffsets n bs
    some ((x, y) :: ps, bs)

def readRecord (bs : List UInt8) : Option (Record × List UInt8) := do
  let (geometryType, bs) ← readU32 bs
  let (numPts, bs) ← readU32 bs
  let (osmType, bs) ← readU32 bs
  let (points, bs) ← readOffsets numPts bs
  some ({ geometryType, osmType, points }, bs)

/-- Records back to back, up to exactly the last byte. A record takes twelve
bytes or more, so one attempt a byte is enough. -/
def readRecords (bs : List UInt8) : Option (List Record) := go bs.length bs
where
  go : Nat → List UInt8 → Option (List Record)
    | _, [] => some []
    | 0, _ :: _ => none
    | n + 1, b :: bs => do
      let (r, rest) ← readRecord (b :: bs)
      let rs ← go n rest
      some (r :: rs)

@[simp] theorem le16_length (x : Int16) : (le16 x).length = 2 := by simp [le16]

@[simp] theorem offsetBytes_length (p : Int16 × Int16) : (offsetBytes p).length = 4 := by
  simp [offsetBytes]

@[simp] theorem offsets_length (ps : List (Int16 × Int16)) :
    (ps.flatMap offsetBytes).length = 4 * ps.length := by
  induction ps with
  | nil => rfl
  | cons p ps ih =>
    rw [List.flatMap_cons, List.length_append, ih, offsetBytes_length, List.length_cons]
    ring

@[simp] theorem Record.encode_length (r : Record) : r.encode.length = 12 + 4 * r.points.length := by
  simp only [encode, List.length_append, toLe_length, offsets_length]

theorem readU32_append (h : n < 2 ^ 32) : readU32 (toLe 4 n ++ bs) = some (n, bs) := by
  have ht : (toLe 4 n ++ bs).take 4 = toLe 4 n := List.take_left' (by simp)
  have hd : (toLe 4 n ++ bs).drop 4 = bs := List.drop_left' (by simp)
  simp only [readU32, List.length_append, toLe_length, ht, hd]
  rw [if_pos (by omega), ofLe_toLe_of_lt (by simpa using h)]

theorem readI16_append (x : Int16) : readI16 (le16 x ++ bs) = some (x, bs) := by
  have ht : (le16 x ++ bs).take 2 = le16 x := List.take_left' (by simp)
  have hd : (le16 x ++ bs).drop 2 = bs := List.drop_left' (by simp)
  simp only [readI16, List.length_append, le16_length, ht, hd]
  rw [if_pos (by omega), le16, ofLe_toLe_of_lt (by simpa using x.toUInt16.toNat_lt)]
  simp

theorem readOffsets_append (ps : List (Int16 × Int16)) :
    readOffsets ps.length (ps.flatMap offsetBytes ++ bs) = some (ps, bs) := by
  induction ps with
  | nil => rfl
  | cons p ps ih =>
    simp only [List.length_cons, readOffsets, List.flatMap_cons, offsetBytes, List.append_assoc,
      readI16_append, bind, Option.bind]
    rw [ih]

theorem readRecord_append {r : Record} (h : r.Wf) : readRecord (r.encode ++ bs) = some (r, bs) := by
  obtain ⟨ht, ho, hn⟩ := h
  simp only [readRecord, Record.encode, List.append_assoc, readU32_append ht, readU32_append hn,
    readU32_append ho, bind, Option.bind, readOffsets_append]

theorem readRecords_go {rs : List Record} (h : ∀ r ∈ rs, r.Wf)
    (hn : (rs.flatMap Record.encode).length ≤ n) :
    readRecords.go n (rs.flatMap Record.encode) = some rs := by
  induction rs generalizing n with
  | nil => cases n <;> rfl
  | cons r rs ih =>
    have hlen := r.encode_length
    rw [List.flatMap_cons] at hn ⊢
    rw [List.length_append] at hn
    obtain ⟨b, bs, hb⟩ := List.exists_cons_of_length_pos (l := r.encode) (by omega)
    cases n with
    | zero => omega
    | succ n =>
      have hr : readRecord (r.encode ++ rs.flatMap Record.encode) = _ :=
        readRecord_append (h r (by simp))
      rw [hb, List.cons_append] at hr ⊢
      rw [readRecords.go, hr]
      simp only [bind, Option.bind]
      rw [ih (fun r hr => h r (by simp [hr])) (by omega)]

/-- What is written as records reads back as those records, to the last byte. -/
theorem readRecords_encode {rs : List Record} (h : ∀ r ∈ rs, r.Wf) :
    readRecords (rs.flatMap Record.encode) = some rs :=
  readRecords_go h Nat.le.refl

end Canvasback
