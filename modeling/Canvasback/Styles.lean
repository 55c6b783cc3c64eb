import Canvasback.Lib.CString

/-!
# OSM types

`osmstyles.h`: the number a highway name is sent as.
-/

namespace Canvasback

open CString

/-- The names `osmstylenum` compares with, in its order: alphabetical, but for
`abandoned` and `residential`, which are swapped. -/
def osmstyles : List String := [
  "residential", "bridleway", "construction", "crossing", "cycleway", "footway",
  "footway_unconstructed", "living_street", "motorway", "motorway_link", "path", "pedestrian",
  "platform", "primary", "primary_link", "proposed", "raceway", "abandoned", "road", "secondary",
  "secondary_link", "service", "service; residential", "steps", "tertiary", "tertiary_link",
  "track", "trunk", "trunk_link", "unclassified"]

/-- The place of the first name that compares equal. A name that is not in the
table gets the last one's number: `rv` is not raised after it. -/
def osmstylenum (dbrv : List UInt8) : Nat :=
  (osmstyles.findIdx? fun name => strcmpEq dbrv (ascii name)).getD (osmstyles.length - 1)

theorem osmstylenum_lt (dbrv : List UInt8) : osmstylenum dbrv < osmstyles.length := by
  unfold osmstylenum
  cases h : osmstyles.findIdx? fun name => strcmpEq dbrv (ascii name) with
  | none => simp [osmstyles]
  | some i => exact (List.findIdx?_eq_some_iff_findIdx_eq.mp h).1

end Canvasback
