import BlockPresence.Syntax.Node

/-!
# Corrections

A correction replaces the text of one node. It is a description of an edit; `Correction.apply` carries it out on a
source text. Bounds beyond the end of the text count as its end.
-/

namespace BlockPresence

/-- The replacement of a stretch of source text. -/
structure Correction where
  extent : Extent
  replacement : String
deriving DecidableEq, Repr

namespace Correction

/-- Replaces the text of a node. -/
def ofNode (n : Node) (replacement : String) : Correction := ⟨n.extent, replacement⟩

/-- The source with the replacement in place. -/
def apply (c : Correction) (source : String) : String :=
  let cs := source.toList
  String.ofList (cs.take c.extent.start ++ c.replacement.toList ++ cs.drop c.extent.stop)

end Correction

end BlockPresence
