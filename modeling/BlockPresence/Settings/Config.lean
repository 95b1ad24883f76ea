import BlockPresence.Report.Traced

/-!
# Configuration

The section that a host keeps for the rule. It is read once, before any node is looked at. Keys that mean nothing are
warned of, in the order of their code points, before any value is checked.
-/

namespace BlockPresence

/-- The keys that a section may have. -/
def Config.knownKeys : List String :=
  ["AutoCorrect", "Description", "Enabled", "EnforcedStyle", "Safe", "SafeAutoCorrect", "SupportedStyles",
   "VersionAdded", "VersionChanged"]

/-- The settings of the rule. -/
structure Config where
  /-- The section as it was given. -/
  fields : Fields
  enabled : Bool
  /-- Whether a violation comes with a correction. -/
  autocorrect : Bool
  style : Style

/-- The style that a value names. -/
def Style.ofValue (v : Value) : Except Fault Style :=
  match v with
  | .str s => (ofName? s).elim (.error (.unknownStyle v)) .ok
  | _ => .error (.unknownStyle v)

/-- Checks that a value is a list of all known styles and nothing else, in any order and number. -/
def Style.checkDeclared (declared : Value) : Except Fault Unit :=
  match declared with
  | .list items =>
    if !items.all Value.isAtom then .error (.compoundStyle declared)
    else
      let noneBeside := items.all fun v => all.any fun s => v.isText s.name
      let noneMissing := all.all fun s => items.any (Value.isText s.name)
      if noneBeside && noneMissing then .ok () else .error (.otherStyles declared)
  | _ => .error (.otherStyles declared)

namespace Config

/-- The keys of a section that mean nothing, in order. -/
def unknownKeys (fields : Fields) : List String :=
  ((fields.map Prod.fst).filter fun key => key ∉ knownKeys).mergeSort fun a b => a ≤ b

/-- The value of a key that is on unless it is switched off. -/
def readSwitch (fields : Fields) (key : String) : Except Fault Bool :=
  match fields.lookup key with
  | none => .ok true
  | some (.bool b) => .ok b
  | some v => .error (.notBoolean key v)

/-- Reads a section. A section without a style has the one that `fallback` names. -/
def load (fields : Fields) (fallback : Value) : Traced Config := do
  Traced.recordAll ((unknownKeys fields).map .unknownKey)
  let enabled ← Traced.ofExcept (readSwitch fields "Enabled")
  let autocorrect ← Traced.ofExcept (readSwitch fields "AutoCorrect")
  let style ← Traced.ofExcept (Style.ofValue ((fields.lookup "EnforcedStyle").getD fallback))
  return { fields, enabled, autocorrect, style }

end Config

end BlockPresence
