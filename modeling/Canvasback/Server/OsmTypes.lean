import Canvasback.FmtRes.Rows
import Canvasback.FmtRes.Turns
import Canvasback.Server.Query

/-!
# Styles as the query means them

`send_conn` chooses a query by zoom and `fmt_res_bin` a decoder for its second
column, each with thresholds of its own: names are decoded as names up to zoom
16 and selected up to zoom 17.
-/

namespace Canvasback

open CString Memory Runs

/-- What a second column says a row's records are to carry. -/
inductive Says : StyleColumn → List UInt8 → Int → Prop
  | highway (name : List UInt8) : Says .highway name (osmstylenum name)
  | height (h : Numeral text n) : Says .height text n

/-- A call of `short_stream` in the walk over a row. -/
def Streams (scale : Scale) (tile : Tms) (row : Row) (s : Stream) (c : Call) : Prop :=
  ∃ w w' calls,
    Reachable (rowWalk scale tile row.mem row.reslen (stylenum tile row.style))
      { s with geomPos := 1 } w ∧
    w.geomPos < row.reslen ∧ rowStep scale tile row.mem (stylenum tile row.style) w = .ok w' ∧
    Turn row.mem (stylenum tile row.style) w.geomPos calls w'.geomPos ∧ c ∈ calls

def InTable (name : List UInt8) : Prop := ∃ known ∈ osmstyles, cstr name = ascii known

/-- When the decoder for a zoom gets out of a text what the query's column
means by it. -/
def Decodes (z : Int) (text : List UInt8) (n : Int) : Prop :=
  z ≤ 16 ∨
  z = 17 ∧ (cstr text = ascii "residential" ∨ ¬ InTable text ∧ atoi text = 29) ∨
  18 ≤ z ∧ 0 ≤ n ∧ n < 2 ^ 32

-- ---------------------------------------------------------------------------
-- The table
-- ---------------------------------------------------------------------------

theorem osmstyles_cstr : ∀ known ∈ osmstyles, cstr (ascii known) = ascii known := by
  decide +kernel

theorem osmstyles_atoi : ∀ known ∈ osmstyles, atoi (ascii known) = 0 := by
  decide +kernel

theorem osmstylenum_ascii : ∀ i (hi : i < osmstyles.length),
    osmstylenum (ascii osmstyles[i]) = i := by
  decide +kernel

theorem atoi_cstr (s : List UInt8) : atoi (cstr s) = atoi s := by
  rw [atoi, strtol_cstr, atoi]

theorem osmstylenum_cstr (name : List UInt8) : osmstylenum (cstr name) = osmstylenum name := by
  have hcstr : cstr (cstr name) = cstr name := cstr_of_not_mem (zero_not_mem_cstr name)
  simp only [osmstylenum, strcmpEq, hcstr]

/-- The number of a name in the table is its place. -/
theorem InTable.place (h : InTable name) :
    ∃ i, ∃ hi : i < osmstyles.length, cstr name = ascii osmstyles[i] ∧ osmstylenum name = i := by
  obtain ⟨known, hk, hname⟩ := h
  obtain ⟨i, hi, rfl⟩ := List.getElem_of_mem hk
  refine ⟨i, hi, hname, ?_⟩
  rw [← osmstylenum_cstr, hname, osmstylenum_ascii i hi]

theorem osmstylenum_unknown (h : ¬ InTable name) : osmstylenum name = 29 := by
  have hnone : osmstyles.findIdx? (fun known => strcmpEq name (ascii known)) = none := by
    rw [List.findIdx?_eq_none_iff]
    intro known hk
    rw [strcmpEq, osmstyles_cstr known hk]
    exact beq_false_of_ne fun heq => h ⟨known, hk, heq⟩
  rw [osmstylenum, hnone]
  rfl

/-- No name in the table begins with a number. -/
theorem InTable.atoi (h : InTable name) : CString.atoi name = 0 := by
  obtain ⟨known, hk, hname⟩ := h
  rw [← atoi_cstr, hname, osmstyles_atoi known hk]

theorem atoi_range (s : List UInt8) : -2 ^ 31 ≤ atoi s ∧ atoi s < 2 ^ 31 := i32_range _

-- ---------------------------------------------------------------------------
-- One row
-- ---------------------------------------------------------------------------

/-- A name read as a number. -/
theorem atoi_name : (atoi name % 2 ^ 32).toNat = osmstylenum name ↔
    cstr name = ascii "residential" ∨ ¬ InTable name ∧ atoi name = 29 := by
  have hr := atoi_range name
  by_cases h : InTable name
  · obtain ⟨i, hi, hname, hnum⟩ := h.place
    rw [hnum, h.atoi]
    constructor
    · intro h0
      obtain rfl : i = 0 := h0.symm
      exact .inl hname
    · rintro (hres | ⟨hn, -⟩)
      · have h0 : osmstylenum name = 0 := by
          rw [← osmstylenum_cstr, hres]
          exact osmstylenum_ascii 0 (by decide)
        omega
      · exact absurd h hn
  · have hne : cstr name ≠ ascii "residential" := fun heq =>
      h ⟨"residential", by decide, heq⟩
    rw [osmstylenum_unknown h]
    simp only [hne, h, not_false_eq_true, true_and, false_or]
    omega

/-- A number read as a number. -/
theorem atoi_numeral (h : Numeral text n) :
    ((atoi text % 2 ^ 32).toNat : Int) = n ↔ 0 ≤ n ∧ n < 2 ^ 32 := by
  have hmod : atoi text % 2 ^ 32 = strtol text % 2 ^ 32 := Int.bmod_emod
  have hclamp : strtol text = max longMin (min longMax n) := by
    rw [strtol, h.decimal?]
  rw [hmod, hclamp]
  simp only [longMin, longMax]
  omega

theorem stylenum_says (hz : 11 ≤ tile.z) (hq : styleColumn (template tile.z) = some col)
    (hcol : Says col text n) : (stylenum tile text : Int) = n ↔ Decodes tile.z text n := by
  rw [styleColumn_template hz, Option.some.injEq] at hq
  unfold stylenum Decodes
  cases hcol with
  | highway =>
    have h18 : tile.z < 18 := by
      by_contra hge
      rw [if_neg hge] at hq
      cases hq
    split
    · rw [Int.natCast_inj, atoi_name]
      constructor
      · intro h
        exact .inr (.inl ⟨by omega, h⟩)
      · rintro (h16 | ⟨-, h⟩ | ⟨h18', -⟩)
        · omega
        · exact h
        · omega
    · simp only [true_iff]
      omega
  | height h =>
    have h18 : 18 ≤ tile.z := by
      by_contra hlt
      rw [if_pos (by omega)] at hq
      cases hq
    rw [if_pos (by omega), atoi_numeral h]
    omega

section
variable {scale : Scale} {tile : Tms} {row row' : Row} {s s' : Stream} {c c' : Call}

theorem ringTurn_osmtype {mem : Mem} {st n : Nat} {g g' : Int} {calls : List Call}
    (h : ringTurn mem st n g = .ok (calls, g')) : ∀ c ∈ calls, c.osmtype = st := by
  induction n generalizing g calls with
  | zero =>
    simp only [ringTurn, Except.ok.injEq, Prod.mk.injEq] at h
    simp [← h.1]
  | succ n ih =>
    obtain ⟨k, rest, -, hrest, rfl⟩ := ringTurn_succ.mp h
    intro c hc
    rcases List.mem_cons.mp hc with rfl | hc
    · rfl
    · exact ih hrest c hc

/-- Lines and rings are streamed with the row's style. -/
theorem Turn.osmtype {mem : Mem} {st : Nat} {g g' : Int} {calls : List Call}
    (h : Turn mem st g calls g') (hc : c ∈ calls) (ht : c.geomT ≠ 1) : c.osmtype = st := by
  cases h with
  | point =>
    obtain rfl := List.mem_singleton.mp hc
    exact absurd rfl ht
  | line =>
    obtain rfl := List.mem_singleton.mp hc
    rfl
  | polygon _ _ hrings => exact ringTurn_osmtype hrings c hc
  | other => simp at hc

theorem Streams.osmtype (h : Streams scale tile row s c) (ht : c.geomT ≠ 1) :
    c.osmtype = stylenum tile row.style := by
  obtain ⟨_, _, _, -, -, -, hturn, hc⟩ := h
  exact hturn.osmtype hc ht

end

-- ---------------------------------------------------------------------------
-- Query and decoder
-- ---------------------------------------------------------------------------

/-- How far query and decoder agree at a zoom. -/
structure StylesAgree (scale : Scale) (tile : Tms) : Prop where
  /-- A record for a line or ring carries what the row's column says exactly if
  the decoder gets it out of the text, on any bytes. -/
  calls : ∀ row s c col n, styleColumn (template tile.z) = some col → Says col row.style n →
    Streams scale tile row s c → c.geomT ≠ 1 →
    ((c.osmtype : Int) = n ↔ Decodes tile.z row.style n)
  /-- The same of the records a row of WKB stands for. -/
  records : ∀ (t : TreeRow) r col n, styleColumn (template tile.z) = some col →
    Says col t.style n → r ∈ t.records scale tile → r.geometryType ≠ 1 →
    ((r.osmType : Int) = n ↔ Decodes tile.z t.style n)
  /-- Two names of the table are told apart exactly up to zoom 16. -/
  apart : ∀ row row' s s' c c', styleColumn (template tile.z) = some .highway →
    InTable row.style → InTable row'.style → cstr row.style ≠ cstr row'.style →
    Streams scale tile row s c → Streams scale tile row' s' c' → c.geomT ≠ 1 → c'.geomT ≠ 1 →
    (c.osmtype ≠ c'.osmtype ↔ tile.z ≤ 16)

theorem stylesAgree {scale : Scale} {tile : Tms} (hz : 11 ≤ tile.z) :
    StylesAgree scale tile where
  calls row s c col n hq hcol hc ht := by
    rw [hc.osmtype ht]
    exact stylenum_says hz hq hcol
  records t r col n hq hcol hr ht := by
    obtain ⟨l, -, rfl⟩ := List.mem_map.mp hr
    have ht' : l.type ≠ 1 := ht
    rw [show (leafRecord scale tile (stylenum tile t.style) l).osmType = stylenum tile t.style from
      if_neg ht']
    exact stylenum_says hz hq hcol
  apart row row' s s' c c' hq hin hin' hne hc hc' ht ht' := by
    rw [hc.osmtype ht, hc'.osmtype ht', stylenum, stylenum]
    obtain ⟨i, hi, hname, hnum⟩ := hin.place
    obtain ⟨j, hj, hname', hnum'⟩ := hin'.place
    split
    · rw [hin.atoi, hin'.atoi]
      simp only [ne_eq, not_true_eq_false, false_iff]
      omega
    · have hij : i ≠ j := by
        rintro rfl
        exact hne (hname.trans hname'.symm)
      rw [hnum, hnum']
      simp only [ne_eq, hij, not_false_eq_true, true_iff]
      omega

theorem stylesAgree_zoom17 : StylesAgree (fun _ _ _ => 0) ⟨17, 0, 1⟩ :=
  stylesAgree (show (11 : Int) ≤ (⟨17, 0, 1⟩ : Tms).z by norm_num)

def pathRow (name : String) : TreeRow := ⟨.lineString [(0, 0)], ascii name, fun _ => none⟩

/-- At zoom 17 paths and motorways are selected by name and sent with the same
number, which is neither's. -/
theorem zoom17_loses_names :
    styleColumn (template 17) = some .highway ∧
    (∀ name ∈ ["path", "motorway"],
      ((fmtRow (fun _ _ _ => 0) ⟨17, 0, 1⟩ 25 (pathRow name).row ⟨0, 0, malloc (fun _ => 0) 25⟩).map
        fun s => readRecords (s.strm.take s.size.toNat)) = .ok (some [⟨2, 0, [(0, 0)]⟩])) ∧
    osmstylenum (ascii "path") = 10 ∧ osmstylenum (ascii "motorway") = 8 := by
  decide +kernel

end Canvasback
