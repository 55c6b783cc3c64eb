import Canvasback.Lib.Memory

/-!
# Well-known binary

Little-endian, two-dimensional WKB: geometry trees, their encoding, and the
encoding read as a flat run of parts. A part is one head with what belongs to
it directly: a point, a line, a polygon with its rings, or the bare head of a
container. In depth-first order the parts of a tree are its bytes
(`Geom.encode_parts`) and its drawable pieces (`Geom.leaves_parts`), so an
argument over the bytes is an induction over a list and nesting is gone.
-/

namespace Canvasback.Wkb

open Memory

/-- A coordinate pair, each the bit pattern of a double. -/
abbrev Point := UInt64 × UInt64

inductive Geom where
  | point (p : Point)
  | lineString (ps : List Point)
  | polygon (rings : List (List Point))
  | multiPoint (ps : List Point)
  | multiLineString (lines : List (List Point))
  | multiPolygon (polygons : List (List (List Point)))
  | collection (gs : List Geom)

-- ---------------------------------------------------------------------------
-- The encoding
-- ---------------------------------------------------------------------------

def pointBytes (p : Point) : List UInt8 := toLe 8 p.1.toNat ++ toLe 8 p.2.toNat

/-- A point count and the points, as a line or a ring has them. -/
def lineBytes (ps : List Point) : List UInt8 := toLe 4 ps.length ++ ps.flatMap pointBytes

/-- The byte-order flag (1, little-endian) and the geometry type. -/
def head (type : Nat) : List UInt8 := 1 :: toLe 4 type

def encodePoint (p : Point) : List UInt8 := head 1 ++ pointBytes p
def encodeLine (ps : List Point) : List UInt8 := head 2 ++ lineBytes ps
def encodePolygon (rings : List (List Point)) : List UInt8 :=
  head 3 ++ toLe 4 rings.length ++ rings.flatMap lineBytes

mutual
def Geom.encode : Geom → List UInt8
  | .point p => encodePoint p
  | .lineString ps => encodeLine ps
  | .polygon rings => encodePolygon rings
  | .multiPoint ps => head 4 ++ toLe 4 ps.length ++ ps.flatMap encodePoint
  | .multiLineString lines => head 5 ++ toLe 4 lines.length ++ lines.flatMap encodeLine
  | .multiPolygon polygons => head 6 ++ toLe 4 polygons.length ++ polygons.flatMap encodePolygon
  | .collection gs => head 7 ++ toLe 4 gs.length ++ encodeAll gs
def encodeAll : List Geom → List UInt8
  | [] => []
  | g :: gs => g.encode ++ encodeAll gs
end

-- ---------------------------------------------------------------------------
-- Leaves
-- ---------------------------------------------------------------------------

/-- A drawable piece: a point (type 1), a line (type 2) or a polygon ring
(type 3). -/
structure Leaf where
  type : Nat
  points : List Point
  deriving DecidableEq, Repr

def ringLeaves (rings : List (List Point)) : List Leaf := rings.map (⟨3, ·⟩)

mutual
/-- The drawable pieces of a tree, depth first. -/
def Geom.leaves : Geom → List Leaf
  | .point p => [⟨1, [p]⟩]
  | .lineString ps => [⟨2, ps⟩]
  | .polygon rings => ringLeaves rings
  | .multiPoint ps => ps.map (⟨1, [·]⟩)
  | .multiLineString lines => lines.map (⟨2, ·⟩)
  | .multiPolygon polygons => polygons.flatMap ringLeaves
  | .collection gs => leavesAll gs
def leavesAll : List Geom → List Leaf
  | [] => []
  | g :: gs => g.leaves ++ leavesAll gs
end

-- ---------------------------------------------------------------------------
-- Parts
-- ---------------------------------------------------------------------------

inductive Part where
  | point (p : Point)
  | line (ps : List Point)
  | polygon (rings : List (List Point))
  /-- The head of a multi-geometry or collection; its members follow as parts
  of their own. -/
  | container (type members : Nat)
  deriving DecidableEq, Repr

def Part.bytes : Part → List UInt8
  | .point p => encodePoint p
  | .line ps => encodeLine ps
  | .polygon rings => encodePolygon rings
  | .container type members => head type ++ toLe 4 members

def Part.leaves : Part → List Leaf
  | .point p => [⟨1, [p]⟩]
  | .line ps => [⟨2, ps⟩]
  | .polygon rings => ringLeaves rings
  | .container .. => []

/-- A container's type is none of the drawable ones and fits its word. -/
def Part.Wf : Part → Prop
  | .container type _ => 4 ≤ type ∧ type ≤ 7
  | _ => True

mutual
def Geom.parts : Geom → List Part
  | .point p => [.point p]
  | .lineString ps => [.line ps]
  | .polygon rings => [.polygon rings]
  | .multiPoint ps => .container 4 ps.length :: ps.map .point
  | .multiLineString lines => .container 5 lines.length :: lines.map .line
  | .multiPolygon polygons => .container 6 polygons.length :: polygons.map .polygon
  | .collection gs => .container 7 gs.length :: partsAll gs
def partsAll : List Geom → List Part
  | [] => []
  | g :: gs => g.parts ++ partsAll gs
end

mutual
theorem Geom.encode_parts : (g : Geom) → g.encode = g.parts.flatMap Part.bytes
  | .point _ | .lineString _ | .polygon _ => by simp [Geom.encode, Geom.parts, Part.bytes]
  | .multiPoint _ | .multiLineString _ | .multiPolygon _ => by
    simp [Geom.encode, Geom.parts, Part.bytes, List.flatMap_map]
  | .collection gs => by simp [Geom.encode, Geom.parts, Part.bytes, encodeAll_parts gs]
theorem encodeAll_parts : (gs : List Geom) → encodeAll gs = (partsAll gs).flatMap Part.bytes
  | [] => rfl
  | g :: gs => by simp [encodeAll, partsAll, g.encode_parts, encodeAll_parts gs]
end

mutual
theorem Geom.leaves_parts : (g : Geom) → g.leaves = g.parts.flatMap Part.leaves
  | .point _ | .lineString _ | .polygon _ => by simp [Geom.leaves, Geom.parts, Part.leaves]
  | .multiPoint _ | .multiLineString _ => by
    simp only [Geom.leaves, Geom.parts, List.flatMap_cons, List.flatMap_map]
    exact List.map_eq_flatMap
  | .multiPolygon _ => by simp [Geom.leaves, Geom.parts, Part.leaves, List.flatMap_map]
  | .collection gs => by simp [Geom.leaves, Geom.parts, Part.leaves, leavesAll_parts gs]
theorem leavesAll_parts : (gs : List Geom) → leavesAll gs = (partsAll gs).flatMap Part.leaves
  | [] => rfl
  | g :: gs => by simp [leavesAll, partsAll, g.leaves_parts, leavesAll_parts gs]
end

mutual
theorem Geom.parts_wf : (g : Geom) → ∀ p ∈ g.parts, p.Wf
  | .point _ | .lineString _ | .polygon _ => by simp [Geom.parts, Part.Wf]
  | .multiPoint _ | .multiLineString _ | .multiPolygon _ => by
    intro p hp
    simp only [Geom.parts, List.mem_cons, List.mem_map] at hp
    obtain rfl | ⟨_, _, rfl⟩ := hp <;> simp [Part.Wf]
  | .collection gs => by
    intro p hp
    rcases List.mem_cons.mp hp with rfl | hp
    · simp [Part.Wf]
    · exact partsAll_wf gs p hp
theorem partsAll_wf : (gs : List Geom) → ∀ p ∈ partsAll gs, p.Wf
  | [] => by simp [partsAll]
  | g :: gs => by
    intro p hp
    rcases List.mem_append.mp hp with hp | hp
    · exact g.parts_wf p hp
    · exact partsAll_wf gs p hp
end

theorem Geom.parts_ne_nil (g : Geom) : g.parts ≠ [] := by
  cases g <;> simp [Geom.parts]

-- ---------------------------------------------------------------------------
-- Sizes
-- ---------------------------------------------------------------------------

@[simp] theorem pointBytes_length (p : Point) : (pointBytes p).length = 16 := by
  simp [pointBytes]

@[simp] theorem points_length (ps : List Point) :
    (ps.flatMap pointBytes).length = 16 * ps.length := by
  induction ps with
  | nil => rfl
  | cons p ps ih =>
    rw [List.flatMap_cons, List.length_append, ih, pointBytes_length, List.length_cons]
    ring

@[simp] theorem lineBytes_length (ps : List Point) :
    (lineBytes ps).length = 4 + 16 * ps.length := by
  simp only [lineBytes, List.length_append, toLe_length, points_length]

@[simp] theorem head_length (type : Nat) : (head type).length = 5 := by
  simp [head]

@[simp] theorem encodePoint_length (p : Point) : (encodePoint p).length = 21 := by
  simp [encodePoint]

@[simp] theorem encodeLine_length (ps : List Point) :
    (encodeLine ps).length = 9 + 16 * ps.length := by
  simp [encodeLine]; ring

@[simp] theorem encodePolygon_length (rings : List (List Point)) :
    (encodePolygon rings).length = 9 + (rings.flatMap lineBytes).length := by
  simp only [encodePolygon, List.length_append, head_length, toLe_length]

/-- Each ring spends at least its count word. -/
theorem rings_length_le (rings : List (List Point)) :
    4 * rings.length ≤ (rings.flatMap lineBytes).length := by
  induction rings with
  | nil => simp
  | cons r rings ih => simp only [List.flatMap_cons, List.length_append, List.length_cons,
      lineBytes_length]; omega

theorem Part.bytes_length_ge (p : Part) : 9 ≤ p.bytes.length := by
  cases p <;> simp only [Part.bytes, encodePoint_length, encodeLine_length,
    encodePolygon_length, List.length_append, head_length, toLe_length] <;> omega

theorem Geom.encode_length_ge (g : Geom) : 9 ≤ g.encode.length := by
  rw [g.encode_parts]
  cases hp : g.parts with
  | nil => exact absurd hp g.parts_ne_nil
  | cons p ps =>
    have := p.bytes_length_ge
    simp only [List.flatMap_cons, List.length_append]
    omega

end Canvasback.Wkb
