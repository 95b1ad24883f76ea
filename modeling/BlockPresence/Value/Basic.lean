/-!
# Dynamic values

The values a configuration section and a rule registry hold. Mappings keep the order of their keys.
-/

namespace BlockPresence

/-- A value of a configuration or registry file. -/
inductive Value where
  | null
  | bool (b : Bool)
  | int (n : Int)
  | real (x : Float)
  | str (s : String)
  | list (items : List Value)
  | map (fields : List (String × Value))

/-- The keys of a mapping with their values, in order. -/
abbrev Fields := List (String × Value)

namespace Value

/-- Whether a value counts as given: null, false, zero and everything empty do not. -/
def isTruthy : Value → Bool
  | null => false
  | bool b => b
  | int n => n != 0
  | real x => x != 0.0
  | str s => !s.isEmpty
  | list items => !items.isEmpty
  | map fields => !fields.isEmpty

/-- Whether a value is the text `s`. -/
def isText (s : String) : Value → Bool
  | str t => t == s
  | _ => false

/-- The value of a key, of a mapping that has it. -/
def field? (key : String) : Value → Option Value
  | map fields => fields.lookup key
  | _ => none

/-- What a value lists: the elements of a list, the characters of a text, the keys of a mapping. -/
def items? : Value → Option (List Value)
  | str s => some (s.toList.map fun c => str (String.singleton c))
  | list items => some items
  | map fields => some (fields.map fun f => str f.1)
  | _ => none

/-- Whether a value can be a member of a set: lists and mappings cannot. -/
def isAtom : Value → Bool
  | list _ => false
  | map _ => false
  | _ => true

end Value

end BlockPresence
