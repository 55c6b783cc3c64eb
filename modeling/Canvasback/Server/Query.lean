import Canvasback.Lib.Printf
import Canvasback.Server

/-!
# The queries

The texts `send_conn` chooses from, as the compiler has them after joining the
lines of a literal, the text it forms from one, and the columns a text selects.
-/

namespace Canvasback

open CString Memory Printf

-- ---------------------------------------------------------------------------
-- The templates
-- ---------------------------------------------------------------------------

/-- A string literal that goes on over several lines. -/
def literal (lines : List String) : List UInt8 := lines.flatMap ascii

def highz : List UInt8 := literal [
  "select ",
  "        st_asbinary(ST_Intersection(st_envelope( ",
  "          st_geomfromtext('linestring(%f %f,%f %f)', 900913)), way)), ",
  "        highway ",
  "        from planet_osm_line where way && ",
  "        st_envelope(st_geomfromtext('linestring(%f %f,%f %f)', 900913)) ",
  "        and highway is not null ",
  "        limit 30000;"]

def lowz : List UInt8 := literal [
  "select ",
  "        st_asbinary(ST_Intersection(st_envelope( ",
  "          st_geomfromtext('linestring(%f %f,%f %f)', 900913)), wkb_geometry)), ",
  "        1 ",
  "        from ne_10m_coastline where wkb_geometry && ",
  "        st_envelope(st_geomfromtext('linestring(%f %f,%f %f)', 900913)) ",
  "        limit 30000;"]

def midz : List UInt8 := literal [
  "select ",
  "        st_asbinary(way), ",
  "        /* ",
  "        ---  st_geomfromtext('linestring(%f %f,%f %f)', 900913)), way)), ",
  "        */ ",
  "        (10)::text ",
  "        from planet_osm_point where st_contains( ",
  "        st_envelope(st_geomfromtext('linestring(%f %f,%f %f)', 900913)) ",
  "        , way) ",
  "        limit 3000;"]

def simpmidz : List UInt8 := literal [
  "select ",
  "        st_asbinary(st_simplify( ",
  "          ST_Intersection(st_envelope( ",
  "            st_geomfromtext('linestring(%f %f,%f %f)', 900913)), way), .01)), ",
  "        highway ",
  "        from planet_osm_roads where way && ",
  "        st_envelope(st_geomfromtext('linestring(%f %f,%f %f)', 900913)) ",
  "        and highway is not null ",
  "        limit 3000;"]

def streetz : List UInt8 := literal [
  "select ",
  "        st_asbinary(st_makevalid(st_simplify( ",
  "                        mercgeom, .08))), ",
  "        /* ",
  "        --- ST_Intersection( ",
  "        ---   st_envelope( ",
  "        ---     st_geomfromtext('linestring(%f %f,%f %f)', 900913)), mercgeom)),.097)), ",
  "        */ ",
  "        round(height)::text ",
  "        from sfbldgs where st_within(ctr, ",
  "        st_envelope(st_geomfromtext('linestring(%f %f,%f %f)', 900913))) ",
  "        limit 3000;"]

def Template.text : Template → List UInt8
  | .lowz => Canvasback.lowz
  | .simpmidz => Canvasback.simpmidz
  | .midz => Canvasback.midz
  | .highz => Canvasback.highz
  | .streetz => Canvasback.streetz

/-- What `sprintf` forms in `bbox_query`. -/
def bboxQuery (t : Template) (bbox : Bbox) : List UInt8 :=
  sprintf t.text
    [bbox.x1, bbox.y1, bbox.x2, bbox.y2, bbox.x1, bbox.y1, bbox.x2, bbox.y2]

theorem text_length (t : Template) : t.text.length ≤ 339 ∨ t = .streetz ∧ t.text.length = 423 := by
  cases t <;> decide +kernel

-- ---------------------------------------------------------------------------
-- What a query selects
-- ---------------------------------------------------------------------------

/-- Without the `/* */` comments. -/
def uncomment : (inside : Bool) → List UInt8 → List UInt8
  | false, 47 :: 42 :: sql => uncomment true sql
  | true, 42 :: 47 :: sql => uncomment false sql
  | false, b :: sql => b :: uncomment false sql
  | true, _ :: sql => uncomment true sql
  | _, [] => []

def before (word : List UInt8) : List UInt8 → List UInt8
  | [] => []
  | b :: sql => if word.isPrefixOf (b :: sql) then [] else b :: before word sql

/-- Cut at the commas outside parentheses. -/
def columns : (depth : Nat) → List UInt8 → List (List UInt8)
  | _, [] => [[]]
  | depth, b :: sql =>
    if depth = 0 ∧ b = 44 then [] :: columns 0 sql
    else
      match columns (if b = 40 then depth + 1 else if b = 41 then depth - 1 else depth) sql with
      | [] => [[b]]
      | col :: cols => (b :: col) :: cols

/-- The columns between `select` and `from`, each as its words. -/
def selectList (sql : List UInt8) : List (List (List UInt8)) :=
  (columns 0 ((before (ascii " from ") (uncomment false sql)).drop 7)).map (words (· == 32))

/-- What a second column can hold that `fmt_res_bin` knows a decoder for. -/
inductive StyleColumn where
  | highway
  | height
  deriving DecidableEq, Repr

def styleColumn (t : Template) : Option StyleColumn :=
  match selectList t.text with
  | [_, [name]] =>
    if name = ascii "highway" then some .highway
    else if name = ascii "round(height)::text" then some .height
    else none
  | _ => none

/-- Streets and lines select the name, buildings the height. -/
theorem styleColumn_text (t : Template) : styleColumn t =
    match t with
    | .simpmidz | .highz => some .highway
    | .streetz => some .height
    | .lowz | .midz => none := by
  cases t <;> decide +kernel

theorem styleColumn_template (hz : 11 ≤ z) :
    styleColumn (template z) = some (if z < 18 then .highway else .height) := by
  have hlow : ¬ z < 11 := by omega
  have hpoints : ¬ z < -1 := by omega
  rw [styleColumn_text, template]
  simp only [hlow, hpoints, if_false]
  split_ifs with h13 h18 <;> first | rfl | omega

-- ---------------------------------------------------------------------------
-- Coordinates
-- ---------------------------------------------------------------------------

/-- An edge of the box of a tile that is `a` tiles from the origin, where there
are `M` tiles or more. -/
theorem edge_abs {a : Int} {M N e : Rat} (ha : |a| ≤ 2 ^ 31) (hM : 0 < M) (hN : M ≤ N)
    (he : |e| ≤ 1) :
    |a * 40075016.6856 / N - 20037508.34278 + e| ≤
      2 ^ 31 * 40075016.6856 / M + 20037509.34278 := by
  have haq : |(a : Rat)| ≤ 2 ^ 31 := by exact_mod_cast ha
  have hdiv : |(a : Rat) * 40075016.6856 / N| ≤ 2 ^ 31 * 40075016.6856 / M := by
    rw [abs_div, abs_mul, abs_of_pos (hM.trans_le hN),
      abs_of_pos (by norm_num : (0 : Rat) < 40075016.6856)]
    exact div_le_div₀ (by norm_num) (by linarith) hM hN
  rw [abs_le] at hdiv he ⊢
  constructor <;> linarith

/-- The coordinates of a box, whatever its indices. -/
theorem bbox_abs {M : Nat} (hz : 0 ≤ z ∧ z ≤ 30) (hx : -2 ^ 31 ≤ x ∧ x < 2 ^ 31 - 1)
    (hy : -2 ^ 31 < y ∧ y < 2 ^ 31) (hM : 0 < M) (hN : M ≤ 2 ^ z.toNat) :
    let b := tms2bbox ⟨z, x, y⟩
    ∀ c ∈ [b.x1, b.y1, b.x2, b.y2, b.x1, b.y1, b.x2, b.y2],
      |c| ≤ 2 ^ 31 * 40075016.6856 / M + 20037509.34278 := by
  have hsh : shl1 z = 2 ^ z.toNat := shl1_eq hz
  have hMq : (0 : Rat) < M := by exact_mod_cast hM
  have hNq : (M : Rat) ≤ 2 ^ z.toNat := by exact_mod_cast hN
  have he : |edgeErr z| ≤ 1 := by
    unfold edgeErr
    split <;> norm_num [abs_of_pos]
  have hx1 : i32 (x + 1) = x + 1 := i32_eq (by omega) (by omega)
  have hy1 : i32 (y - 1) = y - 1 := i32_eq (by omega) (by omega)
  have hedge : ∀ {a : Int} {e : Rat}, |a| ≤ 2 ^ 31 → |e| ≤ 1 → _ := fun ha he =>
    edge_abs ha hMq hNq he
  have hneg : |-edgeErr z| ≤ 1 := by rwa [abs_neg]
  have h1 := hedge (a := x) (abs_le.mpr ⟨by omega, by omega⟩) he
  have h2 := hedge (a := y - 1) (abs_le.mpr ⟨by omega, by omega⟩) he
  have h3 := hedge (a := x + 1) (abs_le.mpr ⟨by omega, by omega⟩) hneg
  have h4 := hedge (a := y) (abs_le.mpr ⟨by omega, by omega⟩) hneg
  simp only [tms2bbox, hx1, hy1, hsh, List.forall_mem_cons, List.not_mem_nil, false_implies,
    implies_true, and_true]
  push_cast at h1 h2 h3 h4 ⊢
  simp only [← sub_eq_add_neg] at h3 h4
  exact ⟨h1, h2, h3, h4, h1, h2, h3, h4⟩

theorem bboxQuery_length (t : Template) {b : Bbox} {k : Nat} (hk : 0 < k)
    (h : ∀ c ∈ [b.x1, b.y1, b.x2, b.y2, b.x1, b.y1, b.x2, b.y2], |c| ≤ 10 ^ k - 1) :
    (bboxQuery t b).length ≤ t.text.length + 8 * (k + 6) := by
  have := sprintf_length (w := k + 8) (by omega) t.text fun c hc => fixed_length hk (h c hc)
  simp only [List.length_cons, List.length_nil] at this
  rw [bboxQuery]
  omega

/-- **The query fits.** `bbox_query` has room for 599 characters and a zero.
Below zoom 18 the numbers are long and the template is not, from 18 on the
other way round. -/
theorem bboxQuery_fits (hz : 0 ≤ z ∧ z ≤ 30) (hx : -2 ^ 31 ≤ x ∧ x < 2 ^ 31 - 1)
    (hy : -2 ^ 31 < y ∧ y < 2 ^ 31) :
    (bboxQuery (template z) (tms2bbox ⟨z, x, y⟩)).length ≤ 599 := by
  have htext := text_length (template z)
  rcases lt_or_ge z 18 with hlow | hhigh
  · have hne : template z ≠ .streetz := by
      unfold template
      split_ifs <;> simp
    have hone : 1 ≤ 2 ^ z.toNat := Nat.one_le_two_pow
    have hlen := bboxQuery_length (template z) (k := 17) (by norm_num) fun c hc =>
      (bbox_abs hz hx hy Nat.one_pos hone c hc).trans (by norm_num)
    simp only [hne, false_and, or_false] at htext
    omega
  · have hmany : 2 ^ 18 ≤ 2 ^ z.toNat := Nat.pow_le_pow_right (by norm_num) (by omega)
    have hlen := bboxQuery_length (template z) (k := 12) (by norm_num) fun c hc =>
      (bbox_abs hz hx hy (by norm_num) hmany c hc).trans (by norm_num)
    omega

/-- The widest index of the longest template. -/
theorem bboxQuery_fits_streets :
    (bboxQuery (template 18) (tms2bbox ⟨18, -2 ^ 31, 2 ^ 31 - 1⟩)).length ≤ 599 :=
  bboxQuery_fits (by norm_num) (by norm_num) (by norm_num)

end Canvasback
