import Canvasback.FmtRes
import Canvasback.Lib.Wkb

/-!
# The row loop on well-formed geometries

On WKB without points the cursor meets every type word, and the whole run over
a row is one write of the records of its leaves at the current end of the
buffer (`fmtRow_eq`): it succeeds if they fit and fails if they do not. The
loop is followed part by part; what a part streams is stated as an `emit` and
emits compose.
-/

namespace Canvasback

open Memory Wkb

-- ---------------------------------------------------------------------------
-- Emitting records
-- ---------------------------------------------------------------------------

def npts (rs : List Record) : Nat := (rs.map fun r => r.points.length).sum

@[simp] theorem npts_nil : npts [] = 0 := rfl

@[simp] theorem npts_cons (r : Record) (rs : List Record) :
    npts (r :: rs) = r.points.length + npts rs := rfl

@[simp] theorem npts_append (rs rs' : List Record) : npts (rs ++ rs') = npts rs + npts rs' := by
  simp [npts]

theorem encode_size (rs : List Record) :
    (rs.flatMap Record.encode).length = 4 * npts rs + 12 * rs.length := by
  induction rs with
  | nil => rfl
  | cons r rs ih =>
    rw [List.flatMap_cons, List.length_append, ih, r.encode_length, npts_cons, List.length_cons]
    ring

/-- Where the next record goes. -/
def Stream.off (s : Stream) : Int := s.ptCount * 4 + 12 * s.ngeoms

/-- The counters agree with a front of the buffer, and the buffer is one an
`int` can index. -/
structure Stream.Inv (s : Stream) : Prop where
  ptCount : 0 ≤ s.ptCount
  ngeoms : 0 ≤ s.ngeoms
  inside : s.off ≤ s.strm.length
  small : s.strm.length < 2 ^ 31

/-- Records written at the current end, with the counters moved past them. -/
def Stream.emit (s : Stream) (rs : List Record) : Except Fault Stream := do
  let strm ← put s.strm s.off (rs.flatMap Record.encode)
  .ok { ptCount := s.ptCount + npts rs, ngeoms := s.ngeoms + rs.length, strm }

theorem Stream.emit_ok {s : Stream} (h : s.emit rs = .ok s') :
    put s.strm s.off (rs.flatMap Record.encode) = .ok s'.strm ∧
      s'.ptCount = s.ptCount + npts rs ∧ s'.ngeoms = s.ngeoms + rs.length := by
  unfold emit at h
  cases hp : put s.strm s.off (rs.flatMap Record.encode) with
  | error e => simp [hp, bind, Except.bind] at h
  | ok strm =>
    simp only [hp, bind, Except.bind, Except.ok.injEq] at h
    subst h
    exact ⟨rfl, rfl, rfl⟩

theorem Stream.off_emit {s : Stream} (h : s.emit rs = .ok s') :
    s'.off = s.off + (rs.flatMap Record.encode).length := by
  obtain ⟨-, hp, hn⟩ := emit_ok h
  rw [encode_size, off, off, hp, hn]
  push_cast
  ring

theorem Stream.Inv.emit {s : Stream} (hi : s.Inv) (h : s.emit rs = .ok s') :
    s'.Inv ∧ s'.strm.length = s.strm.length := by
  obtain ⟨hput, hp, hn⟩ := emit_ok h
  obtain ⟨-, hfit, hlen, -⟩ := put_ok hput
  have hoff := off_emit h
  have hsmall := hi.small
  refine ⟨⟨?_, ?_, by omega, by omega⟩, hlen⟩
  · have := hi.ptCount
    omega
  · have := hi.ngeoms
    omega

theorem Stream.Inv.off_nonneg {s : Stream} (hi : s.Inv) : 0 ≤ s.off := by
  have := hi.ptCount
  have := hi.ngeoms
  unfold off
  omega

theorem Stream.Inv.emit_nil {s : Stream} (hi : s.Inv) : s.emit [] = .ok s := by
  have h0 := hi.off_nonneg
  have h1 := hi.inside
  have hput : put s.strm s.off [] =
      .ok (s.strm.take s.off.toNat ++ [] ++ s.strm.drop s.off.toNat) :=
    put_fits h0 (by simpa using h1)
  simp [Stream.emit, hput, bind, Except.bind, npts]

/-- What is emitted fits if it is no longer than the rest of the buffer. -/
theorem Stream.Inv.emit_of_room {s : Stream} (hi : s.Inv) (rs : List Record)
    (hroom : s.off + (rs.flatMap Record.encode).length ≤ s.strm.length) :
    ∃ s', s.emit rs = .ok s' := by
  rw [Stream.emit, put_fits hi.off_nonneg hroom]
  exact ⟨_, rfl⟩

theorem Stream.emit_error {s : Stream} (h : s.emit rs = .error e) : e = .badWrite := by
  unfold emit put at h
  split at h
  · simp [bind, Except.bind] at h
  · simpa [bind, Except.bind] using h.symm

theorem Stream.emit_emit (s : Stream) (rs rs' : List Record) :
    (s.emit rs >>= fun s => s.emit rs') = s.emit (rs ++ rs') := by
  simp only [emit, List.flatMap_append, ← put_put]
  cases hp : put s.strm s.off (rs.flatMap Record.encode) with
  | error e => rfl
  | ok strm =>
    have hoff : (s.ptCount + npts rs) * 4 + 12 * (s.ngeoms + rs.length) =
        s.off + (rs.flatMap Record.encode).length := by
      rw [encode_size, off]
      push_cast
      ring
    simp only [bind, Except.bind]
    rw [off, hoff]
    simp only [npts_append, List.length_append, Nat.cast_add, add_assoc]

/-- A write followed by something that amounts to a write right behind it. -/
theorem put_bind {f : List UInt8 → Except Fault (List UInt8)}
    (h : ∀ b, put buf off xs = .ok b → f b = put b (off + xs.length) ys) :
    (put buf off xs >>= f) = put buf off (xs ++ ys) := by
  rw [← put_put]
  cases hp : put buf off xs with
  | error e => rfl
  | ok b => exact h b hp

-- ---------------------------------------------------------------------------
-- One record
-- ---------------------------------------------------------------------------

section
variable (scale : Scale) (tile : Tms)

def offsets (p : Point) : Int16 × Int16 := (scale p.1 tile.z tile.x, scale p.2 tile.z tile.y)

/-- The record of a leaf. Points are sent with style 10 whatever the row. -/
def leafRecord (st : Nat) (l : Leaf) : Record where
  geometryType := l.type
  osmType := if l.type = 1 then 10 else st
  points := l.points.map (offsets scale tile)

end

section
variable {scale : Scale} {tile : Tms} {mem : Mem} {st : Nat}

theorem points_eq {idx ngeoms : Int} {ps : List Point} {strm : List UInt8}
    (hm : Holds mem (coordbuf + 8 * i) (ps.flatMap pointBytes))
    (h0 : 0 ≤ i * 2 + idx * 4 + 12 + 12 * ngeoms)
    (h1 : i * 2 + idx * 4 + 12 + 12 * ngeoms ≤ strm.length) (hs : strm.length < 2 ^ 31) :
    shortStream.points scale tile mem coordbuf idx ngeoms ps.length i strm =
      put strm (i * 2 + idx * 4 + 12 + 12 * ngeoms)
        ((ps.map (offsets scale tile)).flatMap offsetBytes) := by
  induction ps generalizing i strm with
  | nil =>
    rw [put_fits h0 (by simpa using h1)]
    simp [shortStream.points]
  | cons p ps ih =>
    rw [List.flatMap_cons, pointBytes, List.append_assoc, holds_append, holds_append] at hm
    obtain ⟨hx, hy, hrest⟩ := hm
    rw [toLe_length] at hy hrest
    have hy' : Holds mem (coordbuf + 8 * (i + 1)) (toLe 8 p.2.toNat) := by
      convert hy using 1
      push_cast
      ring
    have hrest' : Holds mem (coordbuf + 8 * (i + 2)) (ps.flatMap pointBytes) := by
      convert hrest using 1
      push_cast [toLe_length]
      ring
    simp only [List.length_cons, shortStream.points, f64_holds hx, f64_holds hy', bind,
      Except.bind, List.map_cons, List.flatMap_cons, offsetBytes, List.append_assoc]
    rw [i32_eq (by omega) (by omega)]
    refine put_bind fun b hb => ?_
    obtain ⟨-, hfit, hlen, -⟩ := put_ok hb
    rw [le16_length] at hfit
    have hoff : i32 (i * 2 + idx * 4 + 14 + 12 * ngeoms) =
        i * 2 + idx * 4 + 12 + 12 * ngeoms + (le16 (offsets scale tile p).1).length := by
      rw [i32_eq (by omega) (by omega), le16_length]
      push_cast
      ring
    simp only [offsets] at hoff ⊢
    rw [hoff]
    refine put_bind fun b' hb' => ?_
    obtain ⟨-, hfit', hlen', -⟩ := put_ok hb'
    rw [le16_length, le16_length] at hfit'
    rw [ih hrest' (by omega) (by push_cast at hfit'; omega) (by omega), le16_length, le16_length]
    congr 1
    push_cast
    ring

theorem shortStream_eq {s : Stream} (hi : s.Inv) {ps : List Point}
    (hm : Holds mem coordbuf (ps.flatMap pointBytes)) (hn : ps.length < 2 ^ 30) :
    shortStream scale tile mem coordbuf s.strm ps.length s.ptCount s.ngeoms t ot =
      put s.strm s.off (Record.encode ⟨t, ot, ps.map (offsets scale tile)⟩) := by
  have h0 := hi.off_nonneg
  have h1 := hi.inside
  have h2 := hi.small
  unfold Stream.off at h0 h1 ⊢
  have hleft : (i32 (2 * (ps.length : Int))).toNat / 2 = ps.length := by
    rw [i32_eq (by omega) (by omega)]
    omega
  have hcount : ((ps.length : Int) % 2 ^ 32).toNat = ps.length := by omega
  unfold shortStream
  rw [hleft, hcount]
  simp only [Record.encode, List.append_assoc, List.length_map]
  rw [i32_eq (x := s.ptCount * 4 + 12 * s.ngeoms) (by omega) (by omega)]
  refine put_bind fun b hb => ?_
  obtain ⟨-, hfit, hlen, -⟩ := put_ok hb
  rw [toLe_length] at hfit ⊢
  rw [i32_eq (by omega) (by omega)]
  refine put_bind fun b' hb' => ?_
  obtain ⟨-, hfit', hlen', -⟩ := put_ok hb'
  rw [toLe_length] at hfit' ⊢
  have h8 : i32 (s.ptCount * 4 + 12 * s.ngeoms + 8) =
      s.ptCount * 4 + 12 * s.ngeoms + (4 : Nat) + (4 : Nat) := by
    rw [i32_eq (by omega) (by omega)]
    omega
  rw [h8]
  refine put_bind fun b'' hb'' => ?_
  obtain ⟨-, hfit'', hlen'', -⟩ := put_ok hb''
  rw [toLe_length] at hfit'' ⊢
  rw [points_eq (by simpa using hm) (by omega) (by omega) (by omega)]
  congr 1
  push_cast
  ring

variable (scale tile) in
/-- Streaming a record and moving the counters is an `emit`, whatever follows. -/
theorem shortStream_emit {s : Stream} (hi : s.Inv) (ps : List Point) (t o : Nat)
    (hm : Holds mem coordbuf (ps.flatMap pointBytes)) (hn : ps.length < 2 ^ 30)
    (f : Walk → Except Fault β) :
    (shortStream scale tile mem coordbuf s.strm ps.length s.ptCount s.ngeoms t o >>= fun strm =>
      f { ptCount := i32 (s.ptCount + ps.length), ngeoms := i32 (s.ngeoms + 1), strm
          geomPos := g }) =
      (s.emit [⟨t, o, ps.map (offsets scale tile)⟩] >>= fun s => f { s with geomPos := g }) := by
  rw [shortStream_eq hi hm hn]
  cases he : s.emit [⟨t, o, ps.map (offsets scale tile)⟩] with
  | error e =>
    simp only [Stream.emit, List.flatMap_cons, List.flatMap_nil, List.append_nil] at he
    cases hp : put s.strm s.off (Record.encode ⟨t, o, ps.map (offsets scale tile)⟩) with
    | error e' =>
      simp only [hp, bind, Except.bind, Except.error.injEq] at he
      subst he
      rfl
    | ok b => simp [hp, bind, Except.bind] at he
  | ok s' =>
    obtain ⟨hput, hpt, hng⟩ := Stream.emit_ok he
    obtain ⟨hinv, -⟩ := hi.emit he
    simp only [List.flatMap_cons, List.flatMap_nil, List.append_nil] at hput
    have h1 := hinv.inside
    have h2 := hinv.small
    have h3 := hinv.ptCount
    have h4 := hinv.ngeoms
    unfold Stream.off at h1
    simp only [npts_cons, npts_nil, List.length_map, List.length_cons, List.length_nil] at hpt hng
    push_cast at hpt hng
    simp only [hput, bind, Except.bind]
    rw [i32_eq (by omega) (by omega), i32_eq (by omega) (by omega)]
    congr 1
    cases s'
    simp_all

-- ---------------------------------------------------------------------------
-- One part
-- ---------------------------------------------------------------------------

theorem ringLoop_eq {s : Stream} (hi : s.Inv) {rings : List (List Point)}
    (hm : Holds mem g (rings.flatMap lineBytes)) (hg : 0 ≤ g)
    (hlen : g + (rings.flatMap lineBytes).length < 2 ^ 31) :
    ringLoop scale tile mem st rings.length { s with geomPos := g } =
      (s.emit ((ringLeaves rings).map (leafRecord scale tile st)) >>= fun s =>
        .ok { s with geomPos := g + (rings.flatMap lineBytes).length }) := by
  induction rings generalizing s g with
  | nil => simp [ringLoop, ringLeaves, hi.emit_nil, bind, Except.bind]
  | cons ring rings ih =>
    rw [List.flatMap_cons, holds_append] at hm
    rw [List.flatMap_cons, List.length_append, lineBytes_length] at hlen ⊢
    obtain ⟨hring, hrest⟩ := hm
    rw [lineBytes, holds_append, toLe_length] at hring
    obtain ⟨hcount, hpts⟩ := hring
    rw [lineBytes_length] at hrest
    push_cast at hlen hrest hpts
    rw [List.length_cons, ringLoop]
    simp only [u32_holds hcount (by omega), bind, Except.bind]
    rw [i32_eq (x := (ring.length : Int)) (by omega) (by omega),
      i32_eq (x := g + 4) (by omega) (by omega),
      i32_eq (x := g + (ring.length * 16 + 4)) (by omega) (by omega)]
    have hstep := shortStream_emit scale tile (g := g + ((ring.length : Int) * 16 + 4)) hi ring 3 st
      hpts (by omega)
      (ringLoop scale tile mem st rings.length)
    simp only [bind, Except.bind] at hstep
    rw [hstep]
    have hrec : (ringLeaves (ring :: rings)).map (leafRecord scale tile st) =
        [⟨3, st, ring.map (offsets scale tile)⟩] ++
          (ringLeaves rings).map (leafRecord scale tile st) := by
      simp [ringLeaves, leafRecord]
    rw [hrec, ← Stream.emit_emit]
    cases he : s.emit [⟨3, st, ring.map (offsets scale tile)⟩] with
    | error e => rfl
    | ok s' =>
      simp only [bind, Except.bind]
      have hg' : g + ((ring.length : Int) * 16 + 4) = g + (4 + 16 * ring.length) := by ring
      rw [hg', ih (hi.emit he).1 hrest (by omega) (by omega)]
      congr 1
      funext s''
      congr 2
      push_cast
      ring

/-- A part whose type word the cursor stands on, one behind its byte-order
flag, is streamed and the cursor put behind the next flag. -/
theorem rowStep_eq {s : Stream} (hi : s.Inv) {p : Part} (hp : ∀ q, p ≠ .point q) (hwf : p.Wf)
    (hm : Holds mem (g - 1) p.bytes) (hg : 1 ≤ g) (hlen : g + p.bytes.length < 2 ^ 31) :
    rowStep scale tile mem st { s with geomPos := g } =
      (s.emit (p.leaves.map (leafRecord scale tile st)) >>= fun s =>
        .ok { s with geomPos := g + p.bytes.length }) := by
  have hhead {type : Nat} {rest : List UInt8} (h : Holds mem (g - 1) (head type ++ rest)) :
      Holds mem g (toLe 4 type) ∧ Holds mem (g + 4) rest := by
    rw [holds_append] at h
    obtain ⟨⟨-, ht⟩, hr⟩ := h
    rw [head_length] at hr
    exact ⟨by simpa using ht, by convert hr using 1; push_cast; ring⟩
  cases p with
  | point q => exact absurd rfl (hp q)
  | line ps =>
    obtain ⟨ht, hr⟩ := hhead hm
    rw [lineBytes, holds_append, toLe_length] at hr
    obtain ⟨hcount, hpts⟩ := hr
    simp only [Part.bytes, encodeLine_length] at hlen ⊢
    push_cast at hlen hpts ⊢
    rw [show g + 4 + 4 = g + 8 by ring] at hpts
    simp only [rowStep, u32_holds ht (by norm_num), bind, Except.bind]
    rw [if_neg (by norm_num), if_pos trivial, i32_eq (x := g + 4) (by omega) (by omega),
      u32_holds hcount (by omega)]
    simp only
    rw [i32_eq (x := (ps.length : Int)) (by omega) (by omega),
      i32_eq (x := g + 8) (by omega) (by omega),
      i32_eq (x := g + (ps.length * 16 + 9)) (by omega) (by omega)]
    have hstep := shortStream_emit scale tile (g := g + ((ps.length : Int) * 16 + 9)) hi ps 2 st
      hpts (by omega) .ok
    simp only [bind, Except.bind] at hstep
    rw [hstep]
    have hg' : g + ((ps.length : Int) * 16 + 9) = g + (9 + 16 * ps.length) := by ring
    simp [Part.leaves, leafRecord, hg']
  | polygon rings =>
    have hbytes : Part.bytes (.polygon rings) =
        head 3 ++ (toLe 4 rings.length ++ rings.flatMap lineBytes) := by
      simp [Part.bytes, encodePolygon]
    rw [hbytes] at hm
    obtain ⟨ht, hr⟩ := hhead hm
    rw [holds_append, toLe_length] at hr
    obtain ⟨hcount, hrings⟩ := hr
    have hle := rings_length_le rings
    simp only [Part.bytes, encodePolygon_length] at hlen ⊢
    push_cast at hlen hrings ⊢
    simp only [rowStep, u32_holds ht (by norm_num), bind, Except.bind]
    rw [if_neg (by norm_num), if_neg (by norm_num), if_pos trivial,
      i32_eq (x := g + 4) (by omega) (by omega), u32_holds hcount (by omega),
      i32_eq (x := g + 8) (by omega) (by omega)]
    simp only
    have hrings' : Holds mem (g + 8) (rings.flatMap lineBytes) := by
      convert hrings using 1
      ring
    rw [ringLoop_eq hi hrings' (by omega) (by omega)]
    simp only [Part.leaves, bind, Except.bind]
    cases s.emit ((ringLeaves rings).map (leafRecord scale tile st)) with
    | error e => rfl
    | ok s' =>
      simp only
      rw [i32_eq (by omega) (by omega)]
      congr 2
      ring
  | container type members =>
    obtain ⟨ht, -⟩ := hhead hm
    have hw : 4 ≤ type ∧ type ≤ 7 := hwf
    simp only [Part.bytes, List.length_append, head_length, toLe_length] at hlen ⊢
    push_cast at hlen
    simp only [rowStep, u32_holds ht (by omega), bind, Except.bind, Part.leaves, List.map_nil,
      hi.emit_nil]
    rw [if_neg (by omega), if_neg (by omega), if_neg (by omega), i32_eq (by omega) (by omega)]
    rfl

-- ---------------------------------------------------------------------------
-- A row
-- ---------------------------------------------------------------------------

theorem rowLoop_done (h : reslen ≤ w.geomPos) :
    rowLoop scale tile mem reslen st fuel w = .ok w := by
  cases fuel <;> simp [rowLoop, not_lt.mpr h]

/-- The loop over parts in front of anything: one emit, and on from there. -/
theorem rowLoop_parts {s : Stream} (hi : s.Inv) {ps : List Part}
    (hp : ∀ p ∈ ps, (∀ q, p ≠ .point q) ∧ p.Wf) (hm : Holds mem (g - 1) (ps.flatMap Part.bytes))
    (hg : 1 ≤ g) (hres : g - 1 + (ps.flatMap Part.bytes).length ≤ reslen)
    (hlen : g + (ps.flatMap Part.bytes).length < 2 ^ 31) :
    rowLoop scale tile mem reslen st (ps.length + fuel) { s with geomPos := g } =
      (s.emit ((ps.flatMap Part.leaves).map (leafRecord scale tile st)) >>= fun s =>
        rowLoop scale tile mem reslen st fuel
          { s with geomPos := g + (ps.flatMap Part.bytes).length }) := by
  induction ps generalizing s g with
  | nil => simp [hi.emit_nil, bind, Except.bind]
  | cons p ps ih =>
    rw [List.flatMap_cons, holds_append] at hm
    simp only [List.flatMap_cons, List.length_append] at hres hlen ⊢
    push_cast at hres hlen ⊢
    have hge := p.bytes_length_ge
    have hfuel : (p :: ps).length + fuel = ps.length + fuel + 1 := by simp; omega
    rw [hfuel, rowLoop, if_pos (show g < reslen by omega),
      rowStep_eq hi (hp p (by simp)).1 (hp p (by simp)).2 hm.1 hg (by omega),
      List.map_append, ← Stream.emit_emit]
    cases he : s.emit (p.leaves.map (leafRecord scale tile st)) with
    | error e => rfl
    | ok s' =>
      simp only [bind, Except.bind]
      have hm' : Holds mem (g + p.bytes.length - 1) (ps.flatMap Part.bytes) := by
        convert hm.2 using 1
        ring
      rw [ih (hi.emit he).1 (fun q hq => hp q (by simp [hq])) hm' (by omega) (by omega) (by omega)]
      simp only [bind, Except.bind, add_assoc]

end

theorem Row.holds_value (row : Row) : Holds row.mem 0 (row.value ++ [0]) := by
  refine holds_of_getElem fun i hi => ?_
  rw [List.length_append, List.length_singleton] at hi
  by_cases h : i < row.value.length
  · have hc : (0 : Int) ≤ 0 + i ∧ (0 : Int) + i < row.reslen := by
      simp only [Row.reslen]
      omega
    rw [List.getElem_append_left h]
    simp [Row.mem, Row.reslen, h]
  · have : i = row.value.length := by omega
    subst this
    simp [Row.mem, Row.reslen]

end Canvasback
