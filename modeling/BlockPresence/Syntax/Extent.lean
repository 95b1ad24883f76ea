/-!
# Extents

The stretch of source text that a node covers. Offsets count characters.
-/

namespace BlockPresence

/-- The half-open stretch `[start, stop)` of a source text, with the line and the column where it starts. Lines count
from 1 and columns from 0. -/
structure Extent where
  start : Nat
  stop : Nat
  line : Int := 1
  column : Int := 0
  start_le_stop : start ≤ stop := by omega
deriving DecidableEq, Repr

namespace Extent

/-- Two bounds that enclose no stretch of text. -/
structure InvalidBounds where
  start : Int
  stop : Int
deriving DecidableEq, Repr

def InvalidBounds.message (b : InvalidBounds) : String :=
  s!"Invalid source range: {b.start}..{b.stop}"

/-- The extent between two bounds, which must not be negative nor reversed. -/
def ofBounds (start stop line column : Int) : Except InvalidBounds Extent :=
  if h : 0 ≤ start ∧ start ≤ stop then
    .ok { start := start.toNat, stop := stop.toNat, line, column, start_le_stop := by omega }
  else .error ⟨start, stop⟩

/-- The number of characters covered. -/
def length (e : Extent) : Nat := e.stop - e.start

/-- The empty extent at the start of a text. -/
def origin : Extent := { start := 0, stop := 0 }

end Extent

end BlockPresence
