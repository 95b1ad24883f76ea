import BlockPresence.Decimal.Notation
import BlockPresence.Text.Quoted
import BlockPresence.Value.Basic

/-!
# The text of a value

`Value.display` writes a value so that its kind shows: texts are quoted. `Value.toText` leaves a text as it is and
displays everything else.
-/

namespace BlockPresence.Value

mutual

/-- The written form of a value. -/
def display : Value → String
  | null => "None"
  | bool true => "True"
  | bool false => "False"
  | int n => toString n
  | real x => Decimal.floatText x
  | str s => Text.quoted s
  | list items => "[" ++ ", ".intercalate (displayItems items) ++ "]"
  | map fields => "\x7b" ++ ", ".intercalate (displayFields fields) ++ "\x7d"

/-- The written forms of the elements of a list. -/
def displayItems : List Value → List String
  | [] => []
  | item :: rest => item.display :: displayItems rest

/-- The written forms of the fields of a mapping, each as key and value. -/
def displayFields : List (String × Value) → List String
  | [] => []
  | (key, value) :: rest => (Text.quoted key ++ ": " ++ value.display) :: displayFields rest

end

/-- The text of a value: a text is itself, everything else is displayed. -/
def toText : Value → String
  | str s => s
  | v => v.display

end BlockPresence.Value
