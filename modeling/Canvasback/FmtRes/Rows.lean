import Canvasback.FmtRes.Aligned

/-!
# Whole results: the tile round trip and the buffer bound

For rows of WKB the run of the row loop is one write of the records of all
leaves (`fmtRows_eq`). So the tile reads back as those records when they fit
the buffer, and whether they fit is a matter of sizes alone: a line costs
three bytes more as a record than as WKB and a ring eight, what a point, a
polygon or a container saves has to make up for it.

A row of exactly 2^31 - 1 bytes is the one length below 2^31 the cursor cannot
step over: it comes to stand one byte behind the row's end.
-/

namespace Canvasback

open Memory Wkb

/-- A result row whose first column is a geometry. -/
structure TreeRow where
  geom : Geom
  style : List UInt8
  around : Mem

def TreeRow.row (t : TreeRow) : Row := ⟨t.geom.encode, t.around, t.style⟩

def TreeRow.records (scale : Scale) (tile : Tms) (t : TreeRow) : List Record :=
  t.geom.leaves.map (leafRecord scale tile (stylenum tile t.style))

/-- The records a result stands for: in row order, depth first in a row. -/
def records (scale : Scale) (tile : Tms) (rows : List TreeRow) : List Record :=
  rows.flatMap (TreeRow.records scale tile)

def totalLength (rows : List TreeRow) : Nat := (rows.map fun t => t.geom.encode.length).sum

-- ---------------------------------------------------------------------------
-- Rows the cursor gets through
-- ---------------------------------------------------------------------------

/-- The type word the loop reads after a point that ends its row: it steps 17
bytes where a point and the next flag take 21, so it meets the three high bytes
of `y` and the zero byte behind the row. -/
def misread (p : Point) : Nat := p.2.toNat / 2 ^ 40

/-- A point, if there is one, is the last part, and what is misread after it
is no drawable type. -/
def PointsLast : List Part → Prop
  | [] => True
  | .point p :: ps => ps = [] ∧ misread p ≠ 1 ∧ misread p ≠ 2 ∧ misread p ≠ 3
  | _ :: ps => PointsLast ps

/-- How far behind the row's end the cursor comes to stand. -/
def overrun : List Part → Nat
  | [] => 1
  | [.point _] => 6
  | _ :: ps => overrun ps

/-- The cursor keeps to the type words of the row, and fits an `int`. -/
structure TreeRow.Walkable (t : TreeRow) : Prop where
  pointsLast : PointsLast t.geom.parts
  fits : t.geom.encode.length + overrun t.geom.parts < 2 ^ 31

theorem pointsLast_cases (h : PointsLast ps) :
    ((∀ p ∈ ps, ∀ q, p ≠ .point q) ∧ overrun ps = 1) ∨
      ∃ front p, ps = front ++ [.point p] ∧ (∀ p ∈ front, ∀ q, p ≠ .point q) ∧
        (misread p ≠ 1 ∧ misread p ≠ 2 ∧ misread p ≠ 3) ∧ overrun ps = 6 := by
  induction ps with
  | nil => exact .inl ⟨by simp, rfl⟩
  | cons p ps ih =>
    cases p with
    | point p =>
      obtain ⟨rfl, hp⟩ := h
      exact .inr ⟨[], p, rfl, by simp, hp, rfl⟩
    | _ =>
      rcases ih h with ⟨hn, ho⟩ | ⟨front, p, rfl, hn, hp, ho⟩
      · refine .inl ⟨?_, ho⟩
        intro p hp
        rcases List.mem_cons.mp hp with rfl | hp
        · simp
        · exact hn p hp
      · refine .inr ⟨_ :: front, p, rfl, ?_, hp, ho⟩
        intro p hp
        rcases List.mem_cons.mp hp with rfl | hp
        · simp
        · exact hn p hp

theorem pointsLast_of_no_point (h : ∀ p ∈ ps, ∀ q, p ≠ .point q) :
    PointsLast ps ∧ overrun ps = 1 := by
  induction ps with
  | nil => exact ⟨trivial, rfl⟩
  | cons p ps ih =>
    have hps := ih fun p hp => h p (by simp [hp])
    cases p with
    | point q => exact absurd rfl (h (.point q) (by simp) q)
    | _ => exact hps

-- ---------------------------------------------------------------------------
-- Points
-- ---------------------------------------------------------------------------

section
variable {scale : Scale} {tile : Tms} {mem : Mem} {st : Nat}

/-- A point is streamed rightly, but the cursor is put four bytes short of the
next type word. -/
theorem rowStep_point {s : Stream} (hi : s.Inv) (hm : Holds mem (g - 1) (encodePoint p))
    (hg : 1 ≤ g) (hlen : g + 17 < 2 ^ 31) :
    rowStep scale tile mem st { s with geomPos := g } =
      (s.emit [leafRecord scale tile st ⟨1, [p]⟩] >>= fun s =>
        .ok { s with geomPos := g + 17 }) := by
  rw [encodePoint, holds_append, head_length] at hm
  obtain ⟨⟨-, ht⟩, hp⟩ := hm
  rw [sub_add_cancel] at ht
  push_cast at hp
  rw [show g - 1 + 5 = g + 4 by ring] at hp
  have hstep := shortStream_emit scale tile (g := g + 17) hi [p] 1 10 (by simpa using hp)
    (by simp) .ok
  simp only [List.length_singleton, Nat.cast_one, bind, Except.bind] at hstep
  simp only [rowStep, u32_holds ht (by norm_num), bind, Except.bind]
  rw [if_pos trivial, i32_eq (x := g + 4) (by omega) (by omega),
    i32_eq (x := g + 17) (by omega) (by omega), hstep]
  simp [leafRecord]

/-- What stands where the cursor is put after a point: three bytes of `y`, and
the byte behind the point as the high one. -/
theorem u32_after_point (hm : Holds mem (g - 1) (encodePoint p ++ [b])) :
    u32 mem (g + 17) = .ok (misread p + 2 ^ 24 * b.toNat) := by
  have hy : toLe 8 p.2.toNat = toLe 5 p.2.toNat ++ toLe 3 (p.2.toNat / 256 ^ 5) := toLe_add 5 3 _
  have hsplit : encodePoint p ++ [b] =
      (head 1 ++ toLe 8 p.1.toNat ++ toLe 5 p.2.toNat) ++ (toLe 3 (misread p) ++ [b]) := by
    rw [encodePoint, pointBytes, hy, misread]
    norm_num
  rw [hsplit, holds_append] at hm
  have hw := hm.2
  simp only [List.length_append, head_length, toLe_length] at hw
  push_cast at hw
  rw [show g - 1 + 18 = g + 17 by ring] at hw
  have hf := fetch_holds hw
  rw [List.length_append, toLe_length, List.length_singleton] at hf
  have hlt : misread p < 256 ^ 3 := by
    have := p.2.toNat_lt
    unfold misread
    omega
  simp only [u32, hf, bind, Except.bind, ofLe_append, ofLe_toLe_of_lt hlt, toLe_length, ofLe]
  norm_num

theorem rowStep_skip (hu : u32 mem w.geomPos = .ok n) (hn : n ≠ 1 ∧ n ≠ 2 ∧ n ≠ 3) :
    rowStep scale tile mem st w = .ok { w with geomPos := i32 (w.geomPos + 9) } := by
  simp only [rowStep, hu, bind, Except.bind]
  rw [if_neg hn.1, if_neg hn.2.1, if_neg hn.2.2]

end

-- ---------------------------------------------------------------------------
-- Rows
-- ---------------------------------------------------------------------------

section
variable {scale : Scale} {tile : Tms} {mem : Mem} {reslen : Int} {st : Nat}

theorem parts_length_le (ps : List Part) : 9 * ps.length ≤ (ps.flatMap Part.bytes).length := by
  induction ps with
  | nil => simp
  | cons p ps ih =>
    have := p.bytes_length_ge
    rw [List.flatMap_cons, List.length_append, List.length_cons]
    omega

/-- The loop over the parts of one row, which the cursor enters behind its
first flag. -/
theorem rowLoop_row {s : Stream} (hi : s.Inv) {ps : List Part} (hp : PointsLast ps)
    (hwf : ∀ p ∈ ps, p.Wf) (hm : Holds mem 0 (ps.flatMap Part.bytes ++ [0]))
    (hres : reslen = (ps.flatMap Part.bytes).length)
    (hlen : (ps.flatMap Part.bytes).length + overrun ps < 2 ^ 31) (hf : ps.length + 1 ≤ fuel) :
    (rowLoop scale tile mem reslen st fuel { s with geomPos := 1 } >>= fun w => .ok w.toStream) =
      s.emit ((ps.flatMap Part.leaves).map (leafRecord scale tile st)) := by
  have hm0 := (holds_append.mp hm).1
  rcases pointsLast_cases hp with ⟨hnp, ho⟩ | ⟨front, p, rfl, hnp, hmis, ho⟩
  · obtain ⟨k, rfl⟩ : ∃ k, fuel = ps.length + k := ⟨fuel - ps.length, by omega⟩
    rw [ho] at hlen
    rw [rowLoop_parts (g := 1) hi (fun p h => ⟨hnp p h, hwf p h⟩) (by simpa using hm0) le_rfl
      (by omega) (by omega)]
    cases s.emit ((ps.flatMap Part.leaves).map (leafRecord scale tile st)) with
    | error e => rfl
    | ok s' =>
      simp only [bind, Except.bind]
      rw [rowLoop_done (show reslen ≤ 1 + ((ps.flatMap Part.bytes).length : Int) by omega)]
  · -- the point is streamed, the cursor misreads one type word and runs off the row
    rw [List.length_append, List.length_singleton] at hf
    obtain ⟨k, rfl⟩ : ∃ k, fuel = front.length + (k + 2) := ⟨fuel - front.length - 2, by omega⟩
    have hbytes : (front ++ [Part.point p]).flatMap Part.bytes =
        front.flatMap Part.bytes ++ encodePoint p := by simp [Part.bytes]
    have hleaves : (front ++ [Part.point p]).flatMap Part.leaves =
        front.flatMap Part.leaves ++ [⟨1, [p]⟩] := by simp [Part.leaves]
    rw [hbytes, List.length_append, encodePoint_length] at hres hlen
    rw [hbytes, List.append_assoc, holds_append] at hm
    rw [ho] at hlen
    obtain ⟨hfront, hpoint⟩ := hm
    rw [rowLoop_parts (g := 1) hi (fun q h => ⟨hnp q h, hwf q (by simp [h])⟩)
      (by simpa using hfront) le_rfl (by omega) (by omega), hleaves, List.map_append, ← Stream.emit_emit]
    cases he : s.emit ((front.flatMap Part.leaves).map (leafRecord scale tile st)) with
    | error e => rfl
    | ok s' =>
      simp only [bind, Except.bind, List.map_cons, List.map_nil]
      generalize hL : (front.flatMap Part.bytes).length = L at *
      have hpoint' : Holds mem (1 + (L : Int) - 1) (encodePoint p ++ [0]) := by
        convert hpoint using 1
        ring
      rw [rowLoop, if_pos (show 1 + (L : Int) < reslen by omega),
        rowStep_point (hi.emit he).1 (holds_append.mp hpoint').1 (by omega) (by omega)]
      cases s'.emit [leafRecord scale tile st ⟨1, [p]⟩] with
      | error e => rfl
      | ok s'' =>
        simp only [bind, Except.bind]
        have hu := u32_after_point hpoint'
        simp only [UInt8.toNat_zero, mul_zero, add_zero] at hu
        rw [rowLoop, if_pos (show 1 + (L : Int) + 17 < reslen by omega), rowStep_skip hu hmis]
        simp only [bind, Except.bind]
        rw [i32_eq (by omega) (by omega),
          rowLoop_done (show reslen ≤ 1 + (L : Int) + 17 + 9 by omega)]

/-- A walkable row is one emit of its records. -/
theorem fmtRow_eq {s : Stream} (hi : s.Inv) {t : TreeRow} (hw : t.Walkable)
    (hf : t.geom.encode.length ≤ fuel) :
    fmtRow scale tile fuel t.row s = s.emit (t.records scale tile) := by
  have henc := t.geom.encode_parts
  have hlen := parts_length_le t.geom.parts
  have hpos := t.geom.encode_length_ge
  have hfits := hw.fits
  have hmem := t.row.holds_value
  have hval : t.row.value = t.geom.parts.flatMap Part.bytes := henc
  rw [hval] at hmem
  rw [henc] at hf hfits hpos
  unfold fmtRow TreeRow.records
  rw [t.geom.leaves_parts]
  refine rowLoop_row hi hw.pointsLast t.geom.parts_wf hmem ?_ hfits (by omega)
  rw [Row.reslen, hval]

theorem fmtRows_eq {s : Stream} (hi : s.Inv) {rows : List TreeRow} (hw : ∀ t ∈ rows, t.Walkable)
    (hf : ∀ t ∈ rows, t.geom.encode.length ≤ fuel) :
    fmtRows scale tile fuel (rows.map TreeRow.row) s = s.emit (records scale tile rows) := by
  induction rows generalizing s with
  | nil => simp [fmtRows, records, hi.emit_nil]
  | cons t rows ih =>
    rw [List.map_cons, fmtRows, fmtRow_eq hi (hw t (by simp)) (hf t (by simp)), records,
      List.flatMap_cons, ← Stream.emit_emit]
    cases he : s.emit (t.records scale tile) with
    | error e => rfl
    | ok s' =>
      exact ih (hi.emit he).1 (fun t h => hw t (by simp [h])) fun t h => hf t (by simp [h])

end

-- ---------------------------------------------------------------------------
-- Sizes
-- ---------------------------------------------------------------------------

/-- `chunk_cnt` adds the rows up in an `int`. -/
theorem chunkCnt_i32 (rows : List TreeRow) :
    chunkCnt (rows.map TreeRow.row) = i32 (totalLength rows) := by
  have hfold : ∀ n : Int,
      (rows.map TreeRow.row).foldl (fun n row => i32 (n + row.reslen)) (i32 n) =
        i32 (n + totalLength rows) := by
    induction rows with
    | nil => simp [totalLength]
    | cons t rows ih =>
      intro n
      have hr : t.row.reslen = t.geom.encode.length := rfl
      have hstep : i32 (i32 n + t.geom.encode.length) = i32 (n + t.geom.encode.length) := by
        have hn := i32_sub_mod n
        exact i32_congr (by omega)
      rw [List.map_cons, List.foldl_cons, hr, hstep, ih]
      simp only [totalLength, List.map_cons, List.sum_cons]
      push_cast
      rw [add_assoc]
  have hzero : i32 0 = 0 := i32_eq (by norm_num) (by norm_num)
  have hall := hfold 0
  rwa [hzero, zero_add] at hall

theorem chunkCnt_eq {rows : List TreeRow} (h : totalLength rows < 2 ^ 31) :
    chunkCnt (rows.map TreeRow.row) = totalLength rows := by
  rw [chunkCnt_i32, i32_eq (by omega) (by omega)]

/-- What a part's bytes leave over once its records are written. -/
def slack : Part → Int
  | .point _ => 5
  | .line ps => 12 * ps.length - 3
  | .polygon rings => 9 + (rings.map fun r => 12 * (r.length : Int) - 8).sum
  | .container .. => 9

def TreeRow.slack (t : TreeRow) : Int := (t.geom.parts.map Canvasback.slack).sum

def totalSlack (rows : List TreeRow) : Int := (rows.map TreeRow.slack).sum

def outBytes (ls : List Leaf) : Nat := (ls.map fun l => 12 + 4 * l.points.length).sum

@[simp] theorem outBytes_append (ls ls' : List Leaf) :
    outBytes (ls ++ ls') = outBytes ls + outBytes ls' := by
  simp [outBytes]

theorem leafRecords_size (scale : Scale) (tile : Tms) (st : Nat) (ls : List Leaf) :
    ((ls.map (leafRecord scale tile st)).flatMap Record.encode).length = outBytes ls := by
  induction ls with
  | nil => rfl
  | cons l ls ih =>
    rw [List.map_cons, List.flatMap_cons, List.length_append, ih, Record.encode_length]
    simp [outBytes, leafRecord]

theorem part_slack (p : Part) : (p.bytes.length : Int) - outBytes p.leaves = slack p := by
  cases p with
  | point p => simp [Part.bytes, Part.leaves, outBytes, slack]
  | line ps =>
    simp only [Part.bytes, encodeLine_length, Part.leaves, outBytes, List.map_cons, List.map_nil,
      List.sum_cons, List.sum_nil, slack]
    push_cast
    ring
  | polygon rings =>
    simp only [Part.bytes, encodePolygon_length, Part.leaves, slack]
    induction rings with
    | nil => simp [ringLeaves, outBytes]
    | cons r rings ih =>
      simp only [ringLeaves, outBytes, List.map_cons, List.sum_cons, List.flatMap_cons,
        List.length_append, lineBytes_length] at ih ⊢
      push_cast at ih ⊢
      linarith
  | container => simp [Part.bytes, Part.leaves, outBytes, slack]

theorem parts_slack (ps : List Part) :
    ((ps.flatMap Part.bytes).length : Int) - outBytes (ps.flatMap Part.leaves) =
      (ps.map slack).sum := by
  induction ps with
  | nil => simp [outBytes]
  | cons p ps ih =>
    have := part_slack p
    rw [List.flatMap_cons, List.length_append, List.flatMap_cons, outBytes_append, List.map_cons,
      List.sum_cons, ← ih]
    push_cast
    linarith

/-- The records of the rows, `totalLength - totalSlack` bytes, find room in the
buffer. It has as many bytes as the rows together, counted in an `int`; where
that is negative `malloc` fails, and there is room for nothing. -/
def Roomy (rows : List TreeRow) : Prop :=
  (totalLength rows : Int) - totalSlack rows ≤ ((i32 (totalLength rows)).toNat : Int)

instance (rows : List TreeRow) : Decidable (Roomy rows) := by
  unfold Roomy
  infer_instance

/-- Where the lengths do not wrap, what counts is that the slack is not used up. -/
theorem roomy_iff {rows : List TreeRow} (h : totalLength rows < 2 ^ 31) :
    Roomy rows ↔ 0 ≤ totalSlack rows := by
  rw [Roomy, i32_eq (by omega) (by omega), Int.toNat_natCast]
  omega

/-- The buffer has as many bytes to spare as the parts leave over. -/
theorem total_slack (scale : Scale) (tile : Tms) (rows : List TreeRow) :
    (totalLength rows : Int) - ((records scale tile rows).flatMap Record.encode).length =
      totalSlack rows := by
  induction rows with
  | nil => simp [totalLength, records, totalSlack]
  | cons t rows ih =>
    have ht : ((t.records scale tile).flatMap Record.encode).length = outBytes t.geom.leaves :=
      leafRecords_size ..
    have hs := parts_slack t.geom.parts
    rw [← t.geom.encode_parts, ← t.geom.leaves_parts] at hs
    simp only [records, List.flatMap_cons, List.flatMap_append, List.length_append, totalLength,
      List.map_cons, List.sum_cons, totalSlack, TreeRow.slack] at ih ht ⊢
    rw [ht, ← ih, ← hs]
    push_cast
    linarith

theorem roomy_records (scale : Scale) (tile : Tms) (rows : List TreeRow) :
    Roomy rows ↔ ((records scale tile rows).flatMap Record.encode).length ≤
      (chunkCnt (rows.map TreeRow.row)).toNat := by
  have hslack := total_slack scale tile rows
  rw [Roomy, chunkCnt_i32]
  omega

end Canvasback
