import BlockPresence.Text.DecimalDigit

/-!
# Layouts

How a text stands in a column: how wide the column is, on which side of it the text stands, what fills the rest, and how
much of the text is kept.

Layouts are written in a language that is made for numbers as well. In this order, each part may be left out: fill and
alignment, sign, `z`, `#`, width, grouping of digits, precision, kind. `Layout.Written` holds the parts as they are
read, and `Layout.ofWritten` refuses those that only a number can have.
-/

namespace BlockPresence

/-- Where a text stands in its column. -/
inductive Alignment where
  | left
  | right
  | centre
deriving DecidableEq, Repr

/-- How a text is laid out: cut to `precision`, then filled up to `width`. -/
structure Layout where
  fill : Char := ' '
  alignment : Alignment := .left
  width : Nat := 0
  precision : Option Nat := none
deriving DecidableEq, Repr

namespace Layout

/-- What stands between groups of digits. -/
inductive Grouping where
  | comma
  | underscore
deriving DecidableEq, Repr

/-- What stands in front of a number that is not negative. -/
inductive Sign where
  | plus
  | minus
  | space
deriving DecidableEq, Repr

/-- Where the fill goes. -/
inductive Placement where
  | around (a : Alignment)
  /-- Between the sign of a number and its digits. -/
  | afterSign
deriving DecidableEq, Repr

/-- Why a text cannot be laid out as it is written. -/
inductive Fault where
  /-- The width or the precision has too many digits. -/
  | tooManyDigits
  /-- A comma and an underscore stand together. -/
  | twoGroupings
  /-- A point is followed by no number. -/
  | noPrecision
  /-- After all the parts there is more than a kind. -/
  | malformed (layout : String)
  /-- The digits of this kind cannot be grouped this way. -/
  | grouped (g : Grouping) (kind : Char)
  /-- Texts have no such kind. -/
  | unknownKind (kind : Char)
  /-- A text has no sign. -/
  | signed (s : Sign)
  /-- A text has no negative zero. -/
  | zeroCoercion
  /-- A text has no alternate form. -/
  | alternate
  /-- A text has no sign that fill could follow. -/
  | filledAfterSign
  /-- The column is too wide to be filled. -/
  | tooWide
deriving DecidableEq, Repr

/-- A layout as it is written. -/
structure Written where
  fill : Option Char := none
  placement : Option Placement := none
  sign : Option Sign := none
  coercesZero : Bool := false
  isAlternate : Bool := false
  /-- Whether the width starts with a zero, which asks for zeros as fill. -/
  isZeroFilled : Bool := false
  width : Option Nat := none
  grouping : Option Grouping := none
  precision : Option Nat := none
  kind : Char := 's'
deriving DecidableEq, Repr

/-! ## Reading -/

def placementOf? : Char → Option Placement
  | '<' => some (.around .left)
  | '>' => some (.around .right)
  | '^' => some (.around .centre)
  | '=' => some .afterSign
  | _ => none

def signOf? : Char → Option Sign
  | '+' => some .plus
  | '-' => some .minus
  | ' ' => some .space
  | _ => none

/-- Takes the mark at the start of a text if `known` knows it. -/
def takeMark {α : Type} (known : Char → Option α) : List Char → Option α × List Char
  | [] => (none, [])
  | c :: rest =>
    match known c with
    | some mark => (some mark, rest)
    | none => (none, c :: rest)

/-- Takes `mark` from the start of a text if it is there. -/
def takeFlag (mark : Char) : List Char → Bool × List Char
  | [] => (false, [])
  | c :: rest => if c = mark then (true, rest) else (false, c :: rest)

/-- Takes the fill and where it goes from the start of a text. What stands before an alignment is the fill, even if it
is an alignment itself. -/
def takePlacement : List Char → Option Char × Option Placement × List Char
  | fill :: c :: rest =>
    match placementOf? c with
    | some placement => (some fill, some placement, rest)
    | none => (none, takeMark placementOf? (fill :: c :: rest))
  | cs => (none, takeMark placementOf? cs)

/-- Reads a number that is not too large. -/
def readNumber (cs : List Char) : Except Fault (Option Nat × List Char) :=
  let (n, rest) := Text.readNumber cs
  if n.any fun n => Text.maxNumber < n then .error .tooManyDigits else .ok (n, rest)

def readGrouping : List Char → Except Fault (Option Grouping × List Char)
  | ',' :: '_' :: _ => .error .twoGroupings
  | '_' :: ',' :: _ => .error .twoGroupings
  | ',' :: rest => .ok (some .comma, rest)
  | '_' :: rest => .ok (some .underscore, rest)
  | rest => .ok (none, rest)

/-- Reads a point and the precision after it. -/
def readPrecision : List Char → Except Fault (Option Nat × List Char)
  | '.' :: rest => do
    let (n, rest) ← readNumber rest
    if n.isNone then throw .noPrecision
    return (n, rest)
  | rest => .ok (none, rest)

/-- Reads the kind, with which the layout has to end. -/
def readKind (layout : List Char) : List Char → Except Fault Char
  | [] => .ok 's'
  | [c] => .ok c
  | _ => .error (.malformed (String.ofList layout))

/-- Reads all parts of a layout. A zero in front of the width is a digit of it where a fill is given. -/
def Written.read (cs : List Char) : Except Fault Written := do
  let (fill, placement, rest) := takePlacement cs
  let (sign, rest) := takeMark signOf? rest
  let (coercesZero, rest) := takeFlag 'z' rest
  let (isAlternate, rest) := takeFlag '#' rest
  let (isZeroFilled, rest) := if fill.isNone then takeFlag '0' rest else (false, rest)
  let (width, rest) ← readNumber rest
  let (grouping, rest) ← readGrouping rest
  let (precision, rest) ← readPrecision rest
  let kind ← readKind cs rest
  return { fill, placement, sign, coercesZero, isAlternate, isZeroFilled, width, grouping, precision, kind }

/-! ## Layouts of texts -/

/-- Whether the digits of a number of some kind can be grouped: those of decimal numbers in both ways, those of binary,
octal and hexadecimal ones by underscores alone. -/
def Grouping.suits (g : Grouping) (kind : Char) : Bool :=
  kind ∈ ['d', 'e', 'f', 'g', 'E', 'G', '%', 'F', '\x00'] || g = .underscore && kind ∈ ['b', 'o', 'x', 'X']

/-- The widest column there is. -/
def maxWidth : Nat := 4294967296

/-- The first thing in a layout that no text can have. -/
def Written.fault? (w : Written) : Option Fault :=
  if let some g := w.grouping.filter fun g => !g.suits w.kind then some (.grouped g w.kind)
  else if w.kind ≠ 's' then some (.unknownKind w.kind)
  else if let some s := w.sign then some (.signed s)
  else if w.coercesZero then some .zeroCoercion
  else if w.isAlternate then some .alternate
  else if w.placement = some .afterSign then some .filledAfterSign
  else if w.width.any fun n => maxWidth < n then some .tooWide
  else none

/-- The layout of a text that is asked for. -/
def ofWritten (w : Written) : Except Fault Layout :=
  match w.fault? with
  | some f => .error f
  | none =>
    .ok { fill := w.fill.getD (if w.isZeroFilled then '0' else ' ')
          alignment := match w.placement with
            | some (.around a) => a
            | _ => .left
          width := w.width.getD 0
          precision := w.precision }

/-- Reads the layout of a text. -/
def read (cs : List Char) : Except Fault Layout := Written.read cs >>= ofWritten

example : read [] = .ok {} := rfl

example : read ['*', '^', '7'] = .ok { fill := '*', alignment := .centre, width := 7 } := rfl

/-- Where an alignment but no fill is given, a zero before the width still asks for zeros. -/
example : read ['>', '0', '5', '.', '2'] =
    .ok { fill := '0', alignment := .right, width := 5, precision := some 2 } := rfl

/-! ## Laying out -/

/-- Fills a text up to `width` characters. A centred text gets the odd one on its right. -/
def pad (l : Layout) (cs : List Char) : List Char :=
  let missing := l.width - cs.length
  match l.alignment with
  | .left => cs ++ List.replicate missing l.fill
  | .right => List.replicate missing l.fill ++ cs
  | .centre => List.replicate (missing / 2) l.fill ++ cs ++ List.replicate (missing - missing / 2) l.fill

/-- A text, laid out. -/
def apply (l : Layout) (cs : List Char) : List Char :=
  l.pad (match l.precision with | some n => cs.take n | none => cs)

end Layout

end BlockPresence
