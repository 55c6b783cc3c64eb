import Canvasback.FmtRes.RoundTrip
import Canvasback.FmtRes.Turns

/-!
# Points and the cursor

A part is left with the cursor on the next part's type word, a point with the
cursor four bytes short of it: type word, two coordinates and the next flag
are 21 bytes and the branch steps 17. So a row is walked part by part exactly
if it has no point.
-/

namespace Canvasback

open Memory Wkb Runs

/-- The cursor is on the type word of a part, or at or past the row's end. -/
def AtPart (g : Geom) (pos : Int) : Prop :=
  (∃ front p back, g.parts = front ++ p :: back ∧
    pos = 1 + ((front.flatMap Part.bytes).length : Int)) ∨ (g.encode.length : Int) ≤ pos

/-- The bytes of the row and nothing behind them, not even libpq's zero. -/
def Row.own (row : Row) : Mem := fun i =>
  if 0 ≤ i ∧ i < row.reslen then row.value[i.toNat]? else none

/-- The row loop stays with the parts of a row. -/
structure Aligned (scale : Scale) (tile : Tms) (t : TreeRow) (s : Stream) : Prop where
  /-- It emits the records of the leaves, one by one, and nothing else. -/
  records : ∃ n, ∀ fuel, n ≤ fuel → fmtRow scale tile fuel t.row s = s.emit (t.records scale tile)
  /-- After each turn the cursor is where the next part begins. -/
  cursor : ∀ w, Reachable
    (rowWalk scale tile t.row.mem t.row.reslen (stylenum tile t.style)) { s with geomPos := 1 } w →
    AtPart t.geom w.geomPos
  /-- It never has to read a byte that is not the row's. -/
  reads : ∀ fuel, rowLoop scale tile t.row.own t.row.reslen (stylenum tile t.style) fuel
    { s with geomPos := 1 } ≠ .error .badRead

/-- No empty line and no empty ring. -/
def Filled (g : Geom) : Prop := ∀ l ∈ g.leaves, l.points ≠ []

-- ---------------------------------------------------------------------------
-- Up to the first point
-- ---------------------------------------------------------------------------

theorem first_point {ps : List Part} (h : ∃ p ∈ ps, ∃ q, p = .point q) :
    ∃ front q back, ps = front ++ .point q :: back ∧ ∀ p ∈ front, ∀ q, p ≠ .point q := by
  induction ps with
  | nil => simp at h
  | cons p ps ih =>
    cases p with
    | point q => exact ⟨[], q, ps, rfl, by simp⟩
    | _ =>
      obtain ⟨p, hp, q, rfl⟩ := h
      obtain ⟨front, q', back, rfl, hnp⟩ := ih ⟨_, (List.mem_cons.mp hp).resolve_left (by simp), q, rfl⟩
      refine ⟨_ :: front, q', back, rfl, ?_⟩
      intro p hp
      rcases List.mem_cons.mp hp with rfl | hp
      · simp
      · exact hnp p hp

theorem point_leaf {g : Geom} (h : ∃ l ∈ g.leaves, l.type = 1) :
    ∃ p ∈ g.parts, ∃ q, p = .point q := by
  obtain ⟨l, hl, ht⟩ := h
  rw [g.leaves_parts] at hl
  obtain ⟨p, hp, hl⟩ := List.mem_flatMap.mp hl
  refine ⟨p, hp, ?_⟩
  cases p with
  | point q => exact ⟨q, rfl⟩
  | line ps =>
    obtain rfl := List.mem_singleton.mp hl
    simp at ht
  | polygon rings =>
    obtain ⟨r, -, rfl⟩ := List.mem_map.mp hl
    simp at ht
  | container => simp [Part.leaves] at hl

section
variable {scale : Scale} {tile : Tms} {mem : Mem} {reslen : Int} {st : Nat} {w₀ : Walk}

/-- The loop takes the parts of a front one turn each. -/
theorem reachable_parts {s : Stream} (hi : s.Inv) {ps : List Part}
    (hp : ∀ p ∈ ps, (∀ q, p ≠ .point q) ∧ p.Wf) (hm : Holds mem (g - 1) (ps.flatMap Part.bytes))
    (hg : 1 ≤ g) (hres : g - 1 + (ps.flatMap Part.bytes).length ≤ reslen)
    (hlen : g + (ps.flatMap Part.bytes).length < 2 ^ 31)
    (hw : Reachable (rowWalk scale tile mem reslen st) w₀ { s with geomPos := g })
    (he : s.emit ((ps.flatMap Part.leaves).map (leafRecord scale tile st)) = .ok s') :
    Reachable (rowWalk scale tile mem reslen st) w₀
      { s' with geomPos := g + (ps.flatMap Part.bytes).length } := by
  induction ps generalizing s g with
  | nil =>
    simp only [List.flatMap_nil, List.map_nil, hi.emit_nil, Except.ok.injEq] at he
    simpa [he] using hw
  | cons p ps ih =>
    rw [List.flatMap_cons, holds_append] at hm
    simp only [List.flatMap_cons, List.length_append] at hres hlen ⊢
    push_cast at hres hlen ⊢
    have hge := p.bytes_length_ge
    rw [List.flatMap_cons, List.map_append, ← Stream.emit_emit] at he
    obtain ⟨s₁, he₁, he⟩ := bind_eq_ok.mp he
    have hstep : rowStep scale tile mem st { s with geomPos := g } =
        .ok { s₁ with geomPos := g + p.bytes.length } := by
      rw [rowStep_eq hi (hp p (by simp)).1 (hp p (by simp)).2 hm.1 hg (by omega), he₁]
      rfl
    have hm' : Holds mem (g + p.bytes.length - 1) (ps.flatMap Part.bytes) := by
      convert hm.2 using 1
      ring
    have hw' : Reachable (rowWalk scale tile mem reslen st) w₀
        { s₁ with geomPos := g + p.bytes.length } :=
      hw.step (e := ()) (show g < reslen by omega) hstep
    rw [← add_assoc]
    exact ih (hi.emit he₁).1 (fun q hq => hp q (by simp [hq])) hm' (by omega) (by omega) (by omega)
      hw' he

end

theorem parts_room (scale : Scale) (tile : Tms) (st : Nat) {ps : List Part}
    (h : ∀ p ∈ ps, ∀ l ∈ p.leaves, l.points ≠ []) :
    (((ps.flatMap Part.leaves).map (leafRecord scale tile st)).flatMap Record.encode).length ≤
      (ps.flatMap Part.bytes).length := by
  have hsum : 0 ≤ (ps.map slack).sum := by
    refine List.sum_nonneg fun x hx => ?_
    obtain ⟨p, hp, rfl⟩ := List.mem_map.mp hx
    exact slack_nonneg (h p hp)
  have hs := parts_slack ps
  rw [leafRecords_size]
  omega

section
variable {scale : Scale} {tile : Tms} {t : TreeRow} {s : Stream}

variable (scale tile) in
/-- **Behind its first point the loop is off the parts.** -/
theorem cursor_after_point (hfill : Filled t.geom) (hlen : t.geom.encode.length < 2 ^ 31)
    (hi : s.Inv) (hroom : s.off + t.geom.encode.length ≤ s.strm.length)
    (hparts : t.geom.parts = front ++ .point q :: back) (hnp : ∀ p ∈ front, ∀ q, p ≠ .point q) :
    ∃ w, Reachable (rowWalk scale tile t.row.mem t.row.reslen (stylenum tile t.style))
        { s with geomPos := 1 } w ∧
      w.geomPos = 1 + ((front.flatMap Part.bytes).length : Int) + 17 := by
  have henc := t.geom.encode_parts
  rw [hparts, List.flatMap_append, List.flatMap_cons] at henc
  have hl := congrArg List.length henc
  simp only [List.length_append, Part.bytes, encodePoint_length] at hl
  have hmem := t.row.holds_value
  have hval : t.row.value = front.flatMap Part.bytes ++
      (encodePoint q ++ back.flatMap Part.bytes) := henc
  rw [hval, List.append_assoc, holds_append, List.append_assoc, holds_append] at hmem
  obtain ⟨hfront, hpoint, -⟩ := hmem
  have hreslen : t.row.reslen = t.geom.encode.length := rfl
  have hwf : ∀ p ∈ front, (∀ q, p ≠ .point q) ∧ p.Wf := fun p hp =>
    ⟨hnp p hp, t.geom.parts_wf p (by simp [hparts, hp])⟩
  have hleaves : ∀ p ∈ front ++ [Part.point q], ∀ l ∈ p.leaves, l.points ≠ [] := by
    intro p hp l hl
    refine hfill l ?_
    rw [t.geom.leaves_parts, hparts]
    refine List.mem_flatMap.mpr ⟨p, ?_, hl⟩
    simp only [List.mem_append, List.mem_cons] at hp ⊢
    tauto
  have hfits := parts_room scale tile (stylenum tile t.style) hleaves
  simp only [List.flatMap_append, List.map_append, List.flatMap_cons, List.flatMap_nil,
    List.append_nil, List.length_append, Part.bytes, encodePoint_length] at hfits
  obtain ⟨s₁, he₁⟩ := hi.emit_of_room ((front.flatMap Part.leaves).map
    (leafRecord scale tile (stylenum tile t.style))) (by omega)
  have hreach : Reachable (rowWalk scale tile t.row.mem t.row.reslen (stylenum tile t.style))
      { s with geomPos := 1 } _ :=
    reachable_parts hi hwf (by simpa using hfront) le_rfl (by omega) (by omega) .refl he₁
  have hi₁ := (hi.emit he₁).1
  have hoff := Stream.off_emit he₁
  have hbuf := (hi.emit he₁).2
  obtain ⟨s₂, he₂⟩ := hi₁.emit_of_room [leafRecord scale tile (stylenum tile t.style) ⟨1, [q]⟩]
    (by simp only [Part.leaves, List.map_singleton] at hfits; omega)
  refine ⟨{ s₂ with geomPos := 1 + ((front.flatMap Part.bytes).length : Int) + 17 }, ?_, rfl⟩
  refine hreach.step (e := ()) (show 1 + ((front.flatMap Part.bytes).length : Int) < _ by omega) ?_
  have hpoint' : Holds t.row.mem (1 + ((front.flatMap Part.bytes).length : Int) - 1)
      (encodePoint q) := by
    convert hpoint using 1
    ring
  show rowStep scale tile t.row.mem _ _ = _
  rw [rowStep_point hi₁ hpoint' (by omega) (by omega), he₂]
  rfl

/-- No part begins 18 bytes into a point. -/
theorem not_atPart_in_point {g : Geom} (hparts : g.parts = front ++ .point q :: back) :
    ¬ AtPart g (1 + ((front.flatMap Part.bytes).length : Int) + 17) := by
  have hlen := congrArg List.length g.encode_parts
  rw [hparts, List.flatMap_append, List.flatMap_cons] at hlen
  simp only [List.length_append, Part.bytes, encodePoint_length] at hlen
  rintro (⟨front', p, back', hsplit, hpos⟩ | hend)
  · rw [hparts] at hsplit
    rcases List.append_eq_append_iff.mp hsplit with ⟨mid, rfl, hmid⟩ | ⟨mid, rfl, -⟩
    · -- the part lies behind the point or is the point
      cases mid with
      | nil => simp at hpos
      | cons m mid =>
        obtain ⟨rfl, -⟩ := List.cons_eq_cons.mp hmid
        simp only [List.flatMap_append, List.flatMap_cons, List.length_append, Part.bytes,
          encodePoint_length] at hpos
        omega
    · -- the part lies in front of it
      simp only [List.flatMap_append, List.length_append] at hpos
      omega
  · omega

/-- **A point takes the walk off its parts**, in any row. -/
theorem aligned_never (hfill : Filled t.geom) (hpoint : ∃ l ∈ t.geom.leaves, l.type = 1)
    (hlen : t.geom.encode.length < 2 ^ 31) (hi : s.Inv)
    (hroom : s.off + t.geom.encode.length ≤ s.strm.length) : ¬ Aligned scale tile t s := by
  intro h
  obtain ⟨front, q, back, hparts, hnp⟩ := first_point (point_leaf hpoint)
  obtain ⟨w, hreach, hpos⟩ := cursor_after_point scale tile hfill hlen hi hroom hparts hnp
  have hat := h.cursor w hreach
  rw [hpos] at hat
  exact not_atPart_in_point hparts hat

end

def pointRow (ps : List Point) : TreeRow := ⟨.multiPoint ps, [], fun _ => none⟩

theorem aligned_never_twoPoints : (∃ l ∈ (pointRow [(0, 0), (0, 0)]).geom.leaves, l.type = 1) ∧
    ¬ Aligned (fun _ _ _ => 0) ⟨18, 0, 0⟩ (pointRow [(0, 0), (0, 0)])
      ⟨0, 0, malloc (fun _ => 0) 51⟩ := by
  have hpoint : ∃ l ∈ (pointRow [(0, 0), (0, 0)]).geom.leaves, l.type = 1 := by
    simp [pointRow, Geom.leaves]
  refine ⟨hpoint, aligned_never ?_ hpoint (by decide) ⟨by simp, by simp, ?_, ?_⟩ ?_⟩
  · simp [Filled, pointRow, Geom.leaves]
  · simp [Stream.off]
  · simp
  · decide +kernel

/-- Of two points at the origin the second is never streamed. -/
theorem twoPoints_lose_one :
    (fmtRow (fun _ _ _ => 0) ⟨18, 0, 0⟩ 51 (pointRow [(0, 0), (0, 0)]).row
      ⟨0, 0, malloc (fun _ => 0) 51⟩).map Stream.ngeoms = .ok 1 ∧
    ((pointRow [(0, 0), (0, 0)]).records (fun _ _ _ => 0) ⟨18, 0, 0⟩).length = 2 ∧
    ¬ Aligned (fun _ _ _ => 0) ⟨18, 0, 0⟩ (pointRow [(0, 0), (0, 0)])
      ⟨0, 0, malloc (fun _ => 0) 51⟩ := by
  have hrun : (fmtRow (fun _ _ _ => 0) ⟨18, 0, 0⟩ 51 (pointRow [(0, 0), (0, 0)]).row
      ⟨0, 0, malloc (fun _ => 0) 51⟩).map Stream.ngeoms = .ok 1 := by decide +kernel
  refine ⟨hrun, by decide, fun h => ?_⟩
  obtain ⟨n, hn⟩ := h.records
  cases hs : fmtRow (fun _ _ _ => 0) ⟨18, 0, 0⟩ 51 (pointRow [(0, 0), (0, 0)]).row
      ⟨0, 0, malloc (fun _ => 0) 51⟩ with
  | error e => simp [hs, Except.map] at hrun
  | ok s =>
    have hlong := (hn (n + 51) (by omega)).symm.trans (fmtRow_mono hs (by simp) (by omega))
    have htwo := (Stream.emit_ok hlong).2.2
    simp only [hs, Except.map, Except.ok.injEq] at hrun
    rw [hrun] at htwo
    exact absurd htwo (by decide)

-- ---------------------------------------------------------------------------
-- Rows without points
-- ---------------------------------------------------------------------------

theorem Row.holds_own (row : Row) : Holds row.own 0 row.value := by
  refine holds_of_getElem fun i hi => ?_
  have hc : (0 : Int) ≤ 0 + i ∧ (0 : Int) + i < row.reslen := by
    simp only [Row.reslen]
    omega
  simp [Row.own, Row.reslen, hi]

section
variable {scale : Scale} {tile : Tms} {t : TreeRow} {s : Stream}

/-- The states of a walk over parts: so many are taken, and their records are
streamed. -/
def Between (scale : Scale) (tile : Tms) (t : TreeRow) (s : Stream) (w : Walk) : Prop :=
  ∃ front back, t.geom.parts = front ++ back ∧
    s.emit ((front.flatMap Part.leaves).map (leafRecord scale tile (stylenum tile t.style))) =
      .ok w.toStream ∧ w.geomPos = 1 + ((front.flatMap Part.bytes).length : Int)

theorem Between.atPart {w : Walk} (h : Between scale tile t s w) : AtPart t.geom w.geomPos := by
  obtain ⟨front, back, hparts, -, hpos⟩ := h
  cases back with
  | nil =>
    refine .inr ?_
    rw [t.geom.encode_parts, hparts, List.append_nil, hpos]
    omega
  | cons p back => exact .inl ⟨front, p, back, hparts, hpos⟩

theorem Between.step {w w' : Walk} (hnp : ∀ p ∈ t.geom.parts, ∀ q, p ≠ .point q)
    (hlen : t.geom.encode.length < 2 ^ 31 - 1) (hi : s.Inv) (h : Between scale tile t s w)
    (hlt : w.geomPos < t.row.reslen)
    (hs : rowStep scale tile t.row.mem (stylenum tile t.style) w = .ok w') :
    Between scale tile t s w' := by
  obtain ⟨front, back, hparts, he, hpos⟩ := h
  have hmem := t.row.holds_value
  have hval : t.row.value = (front ++ back).flatMap Part.bytes := by
    rw [← hparts]
    exact t.geom.encode_parts
  have hreslen : t.row.reslen = ((front ++ back).flatMap Part.bytes).length := by
    rw [Row.reslen, hval]
  have henc : t.geom.encode.length = ((front ++ back).flatMap Part.bytes).length := by
    rw [t.geom.encode_parts, hparts]
  rw [hval] at hmem
  cases back with
  | nil =>
    rw [List.append_nil] at hreslen
    omega
  | cons p back =>
    simp only [List.flatMap_append, List.flatMap_cons, List.length_append] at hreslen henc
    rw [List.flatMap_append, List.flatMap_cons, List.append_assoc, List.append_assoc, holds_append,
      holds_append] at hmem
    have hp : Holds t.row.mem (w.geomPos - 1) p.bytes := by
      convert hmem.2.1 using 1
      omega
    have hmem : p ∈ t.geom.parts := by simp [hparts]
    have hw : w = { w.toStream with geomPos := w.geomPos } := rfl
    rw [hw, rowStep_eq (hi.emit he).1 (hnp p hmem) (t.geom.parts_wf p hmem) hp (by omega)
      (by omega)] at hs
    obtain ⟨s', he', hs⟩ := bind_eq_ok.mp hs
    obtain ⟨hs', hg⟩ := walk_eq.mp (Except.ok.inj hs)
    refine ⟨front ++ [p], back, by simp [hparts], ?_, ?_⟩
    · rw [← hs', List.flatMap_append, List.map_append, ← Stream.emit_emit, he]
      simpa [bind, Except.bind] using he'
    · rw [← hg, hpos, List.flatMap_append, List.flatMap_singleton, List.length_append]
      push_cast
      ring

/-- Without points a row is walked part by part. -/
theorem aligned_of_no_point (hnp : ∀ l ∈ t.geom.leaves, l.type ≠ 1)
    (hlen : t.geom.encode.length < 2 ^ 31 - 1) (hi : s.Inv) : Aligned scale tile t s := by
  have hparts := no_point_part hnp
  obtain ⟨hlast, hover⟩ := pointsLast_of_no_point hparts
  refine ⟨⟨t.geom.encode.length, fun fuel hf => fmtRow_eq hi ⟨hlast, by omega⟩ hf⟩, ?_, ?_⟩
  · intro w hw
    have hbetween : Between scale tile t s w :=
      hw.invariant ⟨[], t.geom.parts, rfl, hi.emit_nil, by simp⟩
        fun w _ w' h hlt hs => h.step hparts hlen hi hlt hs
    exact hbetween.atPart
  · intro fuel hbad
    have hown := t.row.holds_own
    have hval : t.row.value = t.geom.parts.flatMap Part.bytes := t.geom.encode_parts
    have henc : t.geom.encode.length = (t.geom.parts.flatMap Part.bytes).length :=
      congrArg List.length t.geom.encode_parts
    have hreslen : t.row.reslen = (t.geom.parts.flatMap Part.bytes).length := by
      rw [Row.reslen, hval]
    rw [hval] at hown
    have hlong := rowLoop_mono hbad (by simp) (Nat.le_add_left fuel t.geom.parts.length)
    rw [rowLoop_parts (g := 1) hi (fun p hp => ⟨hparts p hp, t.geom.parts_wf p hp⟩)
      (by simpa using hown) le_rfl (by omega) (by omega)] at hlong
    cases he : s.emit ((t.geom.parts.flatMap Part.leaves).map
        (leafRecord scale tile (stylenum tile t.style))) with
    | error e =>
      rw [he, Stream.emit_error he] at hlong
      simp [bind, Except.bind] at hlong
    | ok s' =>
      simp only [he, bind, Except.bind] at hlong
      rw [rowLoop_done (show t.row.reslen ≤ 1 + ((t.geom.parts.flatMap Part.bytes).length : Int) by
        omega)] at hlong
      simp at hlong

end

end Canvasback
