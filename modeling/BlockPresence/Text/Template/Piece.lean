import BlockPresence.Text.Template.Hole

/-!
# Reading and filling templates

A template is read into pieces from left to right (`pieces`), whatever the value is. A doubled brace stands for the
brace itself. Reading ends at the first place where the template cannot be read, and the fault found there is the last
piece.

Filling a template (`fill`) fills its pieces in turn, so that of two faults the first counts. The value is never read as
template text, except that a layout may be made from it.
-/

namespace BlockPresence.Template

/-- What a template is made of. -/
inductive Piece where
  | literal (c : Char)
  | hole (h : Hole)
  /-- From here on the template cannot be read. -/
  | fault (f : Fault)
deriving DecidableEq, Repr

/-- The pieces of a template. -/
def pieces : List Char → List Piece
  | [] => []
  | [c] =>
    if c = openBrace then [.fault .loneOpen] else if c = closeBrace then [.fault .loneClose] else [.literal c]
  | c :: d :: rest =>
    if c = openBrace then
      if d = openBrace then .literal c :: pieces rest
      else
        match h : readHole (d :: rest) with
        | .error f => [.fault f]
        | .ok (hole, after) =>
          have := length_lt_of_readHole h
          .hole hole :: pieces after
    else if c = closeBrace then
      if d = closeBrace then .literal c :: pieces rest else [.fault .loneClose]
    else .literal c :: pieces (d :: rest)
termination_by cs => cs.length
decreasing_by all_goals simp_all <;> omega

/-- What stands for a piece when the value is filled in. -/
def Piece.fill (value : List Char) (expand : List Char → Except Fault (List Char)) :
    Piece → Except Fault (List Char)
  | .literal c => .ok [c]
  | .hole h => h.fill value expand
  | .fault f => .error f

/-- A text with the value filled into its holes, into those of their layouts, and so on, down to `depth` levels. -/
def fillText (value : List Char) : Nat → List Char → Except Fault (List Char)
  | 0, _ => .error .tooDeep
  | depth + 1, cs => ((pieces cs).mapM (Piece.fill value (fillText value depth))).map List.flatten

/-- How many levels of holes there may be: those of the template and those of their layouts. -/
def maxDepth : Nat := 2

/-- The template with the value filled in. -/
def fill (t : Template) (value : String) : Except Fault String :=
  (fillText value.toList maxDepth t.text.toList).map String.ofList

end BlockPresence.Template
