import Canvasback.FmtRes.Rows

/-!
# What a tile is, and that it fits

`roundTrip`: a result of lines and polygons without empty lines and rings
streams into its buffer and reads back as its records. `inBounds_iff`: which
results fit at all.
-/

namespace Canvasback

open Memory Wkb CString

/-- No point leaves, no empty lines and no empty rings. -/
def Solid (g : Geom) : Prop := ∀ l ∈ g.leaves, l.type ≠ 1 ∧ l.points ≠ []

/-- The row loop comes to its end in a buffer of `chunk_cnt` bytes, no write
falls outside, and the bytes that are sent read back as the records of the
result. -/
def RoundTrips (scale : Scale) (tile : Tms) (rows : List TreeRow) : Prop :=
  ∀ strm : List UInt8, strm.length = (chunkCnt (rows.map TreeRow.row)).toNat →
    ∃ n, ∀ fuel, n ≤ fuel → ∃ s,
      fmtRows scale tile fuel (rows.map TreeRow.row) ⟨0, 0, strm⟩ = .ok s ∧
      0 ≤ s.size ∧ s.size ≤ chunkCnt (rows.map TreeRow.row) ∧
      readRecords (s.strm.take s.size.toNat) = some (records scale tile rows)

/-- No index `short_stream` writes to leaves the buffer, and what is sent in
the end lies inside it. -/
def InBounds (scale : Scale) (tile : Tms) (rows : List TreeRow) : Prop :=
  ∀ strm : List UInt8, strm.length = (chunkCnt (rows.map TreeRow.row)).toNat → ∀ fuel,
    fmtRows scale tile fuel (rows.map TreeRow.row) ⟨0, 0, strm⟩ ≠ .error .badWrite ∧
    ∀ s, fmtRows scale tile fuel (rows.map TreeRow.row) ⟨0, 0, strm⟩ = .ok s →
      0 ≤ s.size ∧ s.size ≤ chunkCnt (rows.map TreeRow.row)

-- ---------------------------------------------------------------------------
-- Solid geometries
-- ---------------------------------------------------------------------------

theorem no_point_part {g : Geom} (h : ∀ l ∈ g.leaves, l.type ≠ 1) :
    ∀ p ∈ g.parts, ∀ q, p ≠ .point q := by
  rintro p hp q rfl
  have hl : (⟨1, [q]⟩ : Leaf) ∈ g.leaves := by
    rw [g.leaves_parts]
    exact List.mem_flatMap.mpr ⟨_, hp, by simp [Part.leaves]⟩
  exact h _ hl rfl

theorem Solid.no_point {g : Geom} (h : Solid g) : ∀ p ∈ g.parts, ∀ q, p ≠ .point q :=
  no_point_part fun l hl => (h l hl).1

/-- A part without empty lines and rings leaves bytes over. -/
theorem slack_nonneg {p : Part} (h : ∀ l ∈ p.leaves, l.points ≠ []) : 0 ≤ slack p := by
  cases p with
  | point => simp [slack]
  | container => simp [slack]
  | line ps =>
    have hn : 0 < ps.length := List.length_pos_iff.mpr (h ⟨2, ps⟩ (by simp [Part.leaves]))
    simp only [slack]
    omega
  | polygon rings =>
    have hr : 0 ≤ (rings.map fun r => 12 * (r.length : Int) - 8).sum := by
      refine List.sum_nonneg fun x hx => ?_
      obtain ⟨r, hr, rfl⟩ := List.mem_map.mp hx
      have hn : 0 < r.length := List.length_pos_iff.mpr
        (h ⟨3, r⟩ (by simp only [Part.leaves, ringLeaves, List.mem_map]; exact ⟨r, hr, rfl⟩))
      omega
    simp only [slack]
    omega

theorem Solid.slack_nonneg {g : Geom} (h : Solid g) : 0 ≤ (g.parts.map slack).sum := by
  refine List.sum_nonneg fun x hx => ?_
  obtain ⟨p, hp, rfl⟩ := List.mem_map.mp hx
  refine Canvasback.slack_nonneg fun l hl => (h l ?_).2
  rw [g.leaves_parts]
  exact List.mem_flatMap.mpr ⟨p, hp, hl⟩

theorem Solid.walkable {t : TreeRow} (h : Solid t.geom) (hl : t.geom.encode.length < 2 ^ 31 - 1) :
    t.Walkable := by
  obtain ⟨hp, ho⟩ := pointsLast_of_no_point h.no_point
  exact ⟨hp, by omega⟩

-- ---------------------------------------------------------------------------
-- From the first row to the last
-- ---------------------------------------------------------------------------

theorem length_le_totalLength {rows : List TreeRow} {t : TreeRow} (ht : t ∈ rows) :
    t.geom.encode.length ≤ totalLength rows :=
  List.le_sum_of_mem (List.mem_map.mpr ⟨t, ht, rfl⟩)

theorem stylenum_lt (tile : Tms) (style : List UInt8) : stylenum tile style < 2 ^ 32 := by
  unfold stylenum
  split
  · omega
  · have := osmstylenum_lt style
    simp [osmstyles] at this
    omega

theorem leaf_type_lt {g : Geom} (h : l ∈ g.leaves) : l.type < 2 ^ 32 := by
  rw [g.leaves_parts] at h
  obtain ⟨p, -, hl⟩ := List.mem_flatMap.mp h
  cases p with
  | point | line =>
    simp only [Part.leaves, List.mem_singleton] at hl
    subst hl
    norm_num
  | polygon rings =>
    simp only [Part.leaves, ringLeaves, List.mem_map] at hl
    obtain ⟨r, -, rfl⟩ := hl
    norm_num
  | container => simp [Part.leaves] at hl

section
variable {scale : Scale} {tile : Tms} {rows : List TreeRow} {strm : List UInt8}

/-- The whole run: the records of the result put at the front of the buffer. -/
theorem fmtRows_emit (hw : ∀ t ∈ rows, t.Walkable) (hs : strm.length < 2 ^ 31)
    (hf : totalLength rows ≤ fuel) :
    fmtRows scale tile fuel (rows.map TreeRow.row) ⟨0, 0, strm⟩ =
      (⟨0, 0, strm⟩ : Stream).emit (records scale tile rows) := by
  have hi : (⟨0, 0, strm⟩ : Stream).Inv := ⟨le_rfl, le_rfl, by simp [Stream.off], hs⟩
  exact fmtRows_eq hi hw fun t ht => (length_le_totalLength ht).trans hf

theorem chunkCnt_lt (rows : List TreeRow) :
    (chunkCnt (rows.map TreeRow.row)).toNat < 2 ^ 31 := by
  have := i32_range (totalLength rows)
  rw [chunkCnt_i32]
  omega

theorem emit_fits (h : ((records scale tile rows).flatMap Record.encode).length ≤ strm.length)
    (hs : strm.length < 2 ^ 31) :
    ∃ s, (⟨0, 0, strm⟩ : Stream).emit (records scale tile rows) = .ok s ∧
      s.size = ((records scale tile rows).flatMap Record.encode).length ∧
      s.strm.take s.size.toNat = (records scale tile rows).flatMap Record.encode := by
  have hi : (⟨0, 0, strm⟩ : Stream).Inv := ⟨le_rfl, le_rfl, by simp [Stream.off], hs⟩
  have hoff₀ : (⟨0, 0, strm⟩ : Stream).off = 0 := rfl
  obtain ⟨s, he⟩ := hi.emit_of_room (records scale tile rows)
    (by rw [hoff₀, zero_add]; exact_mod_cast h)
  obtain ⟨hinv, hlen⟩ := hi.emit he
  have hoff := Stream.off_emit he
  have hsize : s.size = ((records scale tile rows).flatMap Record.encode).length := by
    have := hinv.inside
    have := hinv.off_nonneg
    simp only [Stream.off, zero_mul, mul_zero, add_zero, zero_add] at *
    rw [Stream.size, i32_eq (by omega) (by omega)]
    omega
  refine ⟨s, he, hsize, ?_⟩
  rw [hsize, Int.toNat_natCast]
  exact take_put_zero (Stream.emit_ok he).1

theorem records_wf (h : ((records scale tile rows).flatMap Record.encode).length < 2 ^ 31) :
    ∀ r ∈ records scale tile rows, r.Wf := by
  intro r hr
  have hn : r.points.length ≤ npts (records scale tile rows) :=
    List.le_sum_of_mem (List.mem_map.mpr ⟨r, hr, rfl⟩)
  rw [encode_size] at h
  obtain ⟨t, ht, hl⟩ := List.mem_flatMap.mp hr
  obtain ⟨l, hl', rfl⟩ := List.mem_map.mp hl
  refine ⟨leaf_type_lt hl', ?_, by omega⟩
  simp only [leafRecord]
  split
  · norm_num
  · exact stylenum_lt tile t.style

/-- **The tile round trip.** Lines and polygons nested to any depth, with no
empty line and no empty ring, stream into the buffer and read back as one
record a line and one a ring: its type, its points quantised one by one, the
style of its row. -/
theorem roundTrip (hsolid : ∀ t ∈ rows, Solid t.geom) (hlen : totalLength rows < 2 ^ 31)
    (hrow : ∀ t ∈ rows, t.geom.encode.length < 2 ^ 31 - 1) : RoundTrips scale tile rows := by
  intro strm hs
  have hw : ∀ t ∈ rows, t.Walkable := fun t ht => (hsolid t ht).walkable (hrow t ht)
  have hslack : 0 ≤ totalSlack rows := by
    refine List.sum_nonneg fun x hx => ?_
    obtain ⟨t, ht, rfl⟩ := List.mem_map.mp hx
    exact (hsolid t ht).slack_nonneg
  have hfit := total_slack scale tile rows
  have hcnt := chunkCnt_eq hlen
  have hstrm : strm.length = totalLength rows := by rw [hs, hcnt, Int.toNat_natCast]
  obtain ⟨s, hs', hsize, htake⟩ := @emit_fits scale tile rows strm (by omega)
    (by omega)
  refine ⟨totalLength rows, fun fuel hf => ⟨s, ?_, by omega, by omega, ?_⟩⟩
  · rw [fmtRows_emit hw (by omega) hf, hs']
  · rw [htake]
    exact readRecords_encode (records_wf (by omega))

end

/-- A street and a footprint inside a collection, at zoom 16. -/
theorem roundTrip_street : RoundTrips (fun _ _ _ => 0) ⟨16, 10485, 40209⟩
    [⟨.lineString [(0, 1), (2, 3)], ascii "residential", fun _ => none⟩,
      ⟨.collection [.polygon [[(4, 5)], [(6, 7)]], .multiLineString []], ascii "path",
        fun _ => none⟩] :=
  roundTrip (by simp [Solid, Geom.leaves, leavesAll, ringLeaves]) (by decide) (by decide)

/-- The shape of a row one byte short of 2^31: its last part is an empty
collection. -/
def longGeom (n : Nat) : Geom := .collection [.polygon [List.replicate n (0, 0)], .collection []]

def longRow (n : Nat) : TreeRow := ⟨longGeom n, [], fun _ => none⟩

def longFront (n : Nat) : List Part := [.container 7 2, .polygon [List.replicate n (0, 0)]]

theorem longGeom_parts (n : Nat) : (longGeom n).parts = longFront n ++ [.container 7 0] := rfl

theorem longFront_length (n : Nat) :
    ((longFront n).flatMap Part.bytes).length = 22 + 16 * n := by
  simp only [longFront, List.flatMap_cons, List.flatMap_nil, List.append_nil, List.length_append,
    Part.bytes, encodePolygon_length, lineBytes_length, head_length, toLe_length,
    List.length_replicate]
  ring

theorem longGeom_length (n : Nat) : (longGeom n).encode.length = 31 + 16 * n := by
  rw [Geom.encode_parts, longGeom_parts, List.flatMap_append, List.length_append, longFront_length]
  simp only [List.flatMap_cons, List.flatMap_nil, List.append_nil, List.length_append, Part.bytes,
    head_length, toLe_length]
  ring

theorem longGeom_solid (hn : 0 < n) : Solid (longGeom n) := by
  intro l hl
  simp only [longGeom, Geom.leaves, leavesAll, ringLeaves, List.map_cons, List.map_nil,
    List.append_nil, List.mem_singleton] at hl
  subst hl
  refine ⟨by simp, fun h => ?_⟩
  have := congrArg List.length h
  simp only [List.length_replicate, List.length_nil] at this
  omega

/-- Behind the last part the cursor wraps to -2^31, and the loop reads there. -/
theorem longRow_fails {scale : Scale} {tile : Tms} {s : Stream} (hi : s.Inv)
    (hn : 31 + 16 * n = 2 ^ 31 - 1) (k : Nat) :
    fmtRow scale tile (2 + (k + 2)) (longRow n).row s ≠ .ok s' := by
  have hval : (longRow n).row.value = (longGeom n).encode := rfl
  have hres : (longRow n).row.reslen = 2 ^ 31 - 1 := by
    rw [Row.reslen, hval, longGeom_length]
    omega
  have hm := (longRow n).row.holds_value
  rw [hval, Geom.encode_parts, longGeom_parts, List.flatMap_append, List.append_assoc,
    holds_append] at hm
  obtain ⟨hfront, hlast⟩ := hm
  have hL := longFront_length n
  have hwf : ∀ p ∈ longFront n, (∀ q, p ≠ .point q) ∧ p.Wf := by
    simp only [longFront, List.mem_cons, List.not_mem_nil, or_false]
    rintro p (rfl | rfl) <;> simp [Part.Wf]
  have hout : (longRow n).row.mem (-2 ^ 31) = none := by
    rw [Row.mem, if_neg (by omega), if_neg (by omega)]
    rfl
  intro hrun
  rw [fmtRow, show 2 + (k + 2) = (longFront n).length + (k + 2) from rfl,
    rowLoop_parts (g := 1) hi hwf (by simpa using hfront) le_rfl (by omega) (by omega)] at hrun
  revert hrun
  cases he : s.emit (((longFront n).flatMap Part.leaves).map
      (leafRecord scale tile (stylenum tile (longRow n).row.style))) with
  | error e => simp [bind, Except.bind]
  | ok s'' =>
    have hstep : rowStep scale tile (longRow n).row.mem (stylenum tile (longRow n).row.style)
        { s'' with geomPos := 1 + (22 + 16 * n : Nat) } =
          .ok { s'' with geomPos := -2 ^ 31 } := by
      have hw : Holds (longRow n).row.mem (1 + (22 + 16 * n : Nat)) (toLe 4 7) := by
        rw [hL] at hlast
        have h7 : ([.container 7 0] : List Part).flatMap Part.bytes ++ [0] =
            [1] ++ (toLe 4 7 ++ (toLe 4 0 ++ [0])) := rfl
        rw [h7, holds_append, holds_append] at hlast
        convert hlast.2.1 using 1
        simp only [List.length_singleton]
        push_cast
        ring
      have h31 : (1 : Int) + (22 + 16 * n : Nat) + 9 = 2 ^ 31 := by omega
      rw [rowStep_skip (u32_holds hw (by norm_num)) (by norm_num)]
      simp only [h31, i32_wrap]
    simp only [bind, Except.bind]
    have hlt : (1 : Int) + (22 + 16 * n : Nat) < (longRow n).row.reslen := by omega
    rw [hL, rowLoop, if_pos hlt, hstep]
    simp only [bind, Except.bind]
    rw [rowLoop, if_pos (show (-2 ^ 31 : Int) < (longRow n).row.reslen by rw [hres]; norm_num)]
    simp only [rowStep, u32_unmapped hout, bind, Except.bind]
    intro hrun
    cases hrun

/-- A row of 2^31 - 1 bytes does not come through. -/
theorem roundTrip_fails_at_intMax : Solid (longGeom 134217726) ∧
    totalLength [longRow 134217726] < 2 ^ 31 ∧
    ¬ RoundTrips (fun _ _ _ => 0) ⟨16, 0, 0⟩ [longRow 134217726] := by
  have hlen : totalLength [longRow 134217726] = 2 ^ 31 - 1 := by
    simp only [totalLength, List.map_cons, List.map_nil, List.sum_cons, List.sum_nil, longRow,
      longGeom_length]
    norm_num
  refine ⟨longGeom_solid (by norm_num), by omega, fun h => ?_⟩
  have hcnt := chunkCnt_eq (show totalLength [longRow 134217726] < 2 ^ 31 by omega)
  obtain ⟨m, hm⟩ := h (List.replicate (chunkCnt ([longRow 134217726].map TreeRow.row)).toNat 0)
    (by rw [List.length_replicate])
  obtain ⟨s, hs, -⟩ := hm (2 + (m + 2)) (by omega)
  rw [List.map_cons, fmtRows] at hs
  cases hf : fmtRow (fun _ _ _ => 0) ⟨16, 0, 0⟩ (2 + (m + 2)) (longRow 134217726).row
      ⟨0, 0, List.replicate (chunkCnt ([longRow 134217726].map TreeRow.row)).toNat 0⟩ with
  | error e =>
    rw [List.map_cons] at hf
    rw [hf] at hs
    cases hs
  | ok s' =>
    refine longRow_fails ⟨le_rfl, le_rfl, ?_, ?_⟩ (by norm_num) m hf
    · simp only [Stream.off, List.length_replicate]
      omega
    · simp only [List.length_replicate]
      omega

section
variable {scale : Scale} {tile : Tms} {rows : List TreeRow} {strm : List UInt8}

/-- **Which results fit.** On rows the cursor gets through, the writes stay
inside the buffer exactly if no slack is missing over all rows: three bytes for
a line and eight for a ring, against twelve a point, nine a polygon or
container and five a point leaf. -/
theorem inBounds_iff (hlen : totalLength rows < 2 ^ 31) (hw : ∀ t ∈ rows, t.Walkable) :
    InBounds scale tile rows ↔ 0 ≤ totalSlack rows := by
  have hfit := total_slack scale tile rows
  have hcnt := chunkCnt_eq hlen
  constructor
  · intro hin
    by_contra hneg
    obtain ⟨hbad, -⟩ := hin (List.replicate (chunkCnt (rows.map TreeRow.row)).toNat 0) (by simp)
      (totalLength rows)
    refine hbad ?_
    rw [fmtRows_emit hw (by simp; omega) le_rfl, Stream.emit, Stream.off, put_overflow]
    · rfl
    · simp only [List.length_replicate, hcnt, Int.toNat_natCast]
      omega
  · intro hpos strm hs fuel
    have hstrm : strm.length = totalLength rows := by rw [hs, hcnt, Int.toNat_natCast]
    obtain ⟨s, hs', hsize, -⟩ := @emit_fits scale tile rows strm (by omega)
      (by omega)
    have hrun := @fmtRows_emit scale tile rows strm (max fuel (totalLength rows)) hw (by omega)
      (le_max_right _ _)
    rw [hs'] at hrun
    -- a run that ends with less fuel ends the same way with enough
    refine ⟨fun hbad => ?_, fun s' hok => ?_⟩
    · rw [fmtRows_mono hbad (by simp) (le_max_left _ _)] at hrun
      cases hrun
    · rw [fmtRows_mono hok (by simp) (le_max_left _ _)] at hrun
      cases hrun
      omega

end

/-- The empty line an intersection of bounding boxes gives back. -/
def emptyLine : TreeRow := ⟨.lineString [], ascii "residential", fun _ => none⟩

/-- Its WKB has nine bytes, its record twelve. -/
theorem emptyLine_overflows : totalLength [emptyLine] = 9 ∧
    ¬ InBounds (fun _ _ _ => 0) ⟨16, 10485, 40209⟩ [emptyLine] := by
  refine ⟨rfl, fun h => ?_⟩
  exact (h (List.replicate 9 0) (by decide +kernel) 1).1 (by decide +kernel)

theorem inBounds_emptyLine :
    InBounds (fun _ _ _ => 0) ⟨16, 10485, 40209⟩ [emptyLine] ↔ 0 ≤ totalSlack [emptyLine] := by
  refine inBounds_iff (by decide) fun t ht => ?_
  rw [List.mem_singleton.mp ht]
  exact ⟨trivial, by decide⟩

end Canvasback
