import BlockPresence.Text.Layout

/-!
# Message templates and their faults

A template is text with holes for one value, `name`. The faults are named here by their causes; some of them are faults
of the template alone, others come up with some values only.
-/

namespace BlockPresence

/-- A message template. -/
structure Template where
  text : String
deriving DecidableEq, Repr

namespace Template

/-- Why a template cannot be filled. -/
inductive Fault where
  /-- A closing brace stands alone. -/
  | loneClose
  /-- The template ends with an opening brace. -/
  | loneOpen
  /-- A hole is not closed. -/
  | unclosed
  /-- An opening brace stands in the field of a hole. -/
  | nestedOpen
  /-- The template ends where a conversion is due. -/
  | noConversion
  /-- A conversion is followed by something else than a layout. -/
  | afterConversion
  /-- The layout of a hole is not closed. -/
  | unclosedLayout
  /-- A hole asks for a value by its position. -/
  | positional (index : Nat)
  /-- A position has too many digits. -/
  | tooManyDigits
  /-- A hole asks for a value that there is not. -/
  | unknownField (field : String)
  /-- A member or a position is asked for without saying which. -/
  | emptyPart
  /-- A position in brackets is followed by something else than another part. -/
  | afterBracket
  /-- What a field leads to has no such member. -/
  | noMember (member : String)
  /-- What a field leads to has no positions, or what stands in brackets is none. -/
  | noItem
  /-- What a field leads to ends before a position. -/
  | pastEnd (whole : String)
  /-- There is no such conversion. -/
  | unknownConversion (c : Char)
  /-- Layouts have holes whose layouts have holes in turn. -/
  | tooDeep
  /-- What is no text cannot be laid out. -/
  | noLayout
  /-- A text cannot be laid out as it is asked for. -/
  | layout (f : Layout.Fault)
deriving DecidableEq, Repr

end Template

end BlockPresence
