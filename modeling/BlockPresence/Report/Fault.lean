import BlockPresence.Idiom.Basic
import BlockPresence.Syntax.Extent
import BlockPresence.Text.Quoted
import BlockPresence.Text.Template.Fault
import BlockPresence.Value.Display

/-!
# Faults

Everything that can go wrong, by its cause, and the message for each.
-/

namespace BlockPresence

/-- Why an operation has no answer. -/
inductive Fault where
  /-- An extent has no valid bounds. -/
  | bounds (b : Extent.InvalidBounds)
  /-- Truthiness is preferred where no block parameter is named. -/
  | namelessParam
  /-- A message template cannot be filled. -/
  | template (f : Template.Fault)
  /-- There is no message template for a switch. -/
  | noTemplate (s : Switch)
  /-- No style has this name. -/
  | unknownStyle (value : Value)
  /-- The declared styles are not the known ones. -/
  | otherStyles (declared : Value)
  /-- The declared styles contain something that is no member of a set. -/
  | compoundStyle (declared : Value)
  /-- The declared styles are no list. -/
  | unlistedStyles (declared : Value)
  /-- A switch of the configuration is neither on nor off. -/
  | notBoolean (key : String) (value : Value)
  /-- The registry does not know the rule. -/
  | noEntry (code : String)
  /-- The registry has no message template for some switches. -/
  | noMessages (code : String) (missing : List Switch)
  /-- The defaults of the registry are no mapping. -/
  | unreadableDefaults (defaults : Value)
  /-- There is no such service. -/
  | unknownService (name : String)

/-- The nature of a fault, for hosts that treat them apart. -/
inductive Fault.Category where
  | settings
  | value
  | key
  | position
  | nature
  | member
  | memory
deriving DecidableEq, Repr

/-- A character as messages about templates show it: from the exclamation mark up to `last` as it is, others by their
code point. -/
def Template.charText (last c : Char) : String :=
  if ' ' < c ∧ c ≤ last then String.singleton c else String.ofList ('\x5c' :: 'x' :: Nat.toDigits 16 c.toNat)

namespace Layout

/-- The character that asks for a grouping. -/
def Grouping.mark : Grouping → Char
  | .comma => ','
  | .underscore => '_'

/-- The kind at the end of a layout as messages show it. -/
def kindText (kind : Char) : String := Template.charText '\x7f' kind

/-- The message of a fault. A column that is too wide is refused without one. -/
def Fault.message? : Fault → Option String
  | .tooManyDigits => "Too many decimal digits in format string"
  | .twoGroupings => "Cannot specify both ',' and '_'."
  | .noPrecision => "Format specifier missing precision"
  | .malformed layout => s!"Invalid format specifier '{layout}' for object of type 'str'"
  | .grouped g kind => s!"Cannot specify '{g.mark}' with '{kindText kind}'."
  | .unknownKind kind => s!"Unknown format code '{kindText kind}' for object of type 'str'"
  | .signed .space => "Space not allowed in string format specifier"
  | .signed _ => "Sign not allowed in string format specifier"
  | .zeroCoercion => "Negative zero coercion (z) not allowed in string format specifier"
  | .alternate => "Alternate form (#) not allowed in string format specifier"
  | .filledAfterSign => "'=' alignment not allowed in string format specifier"
  | .tooWide => none

end Layout

namespace Template.Fault

def category : Template.Fault → BlockPresence.Fault.Category
  | .positional _ | .pastEnd _ => .position
  | .unknownField _ => .key
  | .noItem | .noLayout => .nature
  | .noMember _ => .member
  | .layout .tooWide => .memory
  | _ => .value

/-- The letter of a conversion as messages show it. -/
def letterText (c : Char) : String := charText '\x7e' c

/-- The message of a fault, for those that come with one. -/
def message? : Template.Fault → Option String
  | .loneClose => "Single '\x7d' encountered in format string"
  | .loneOpen => "Single '\x7b' encountered in format string"
  | .unclosed => "expected '\x7d' before end of string"
  | .nestedOpen => "unexpected '\x7b' in field name"
  | .noConversion => "end of string while looking for conversion specifier"
  | .afterConversion => "expected ':' after conversion specifier"
  | .unclosedLayout => "unmatched '\x7b' in format spec"
  | .positional index => s!"Replacement index {index} out of range for positional args tuple"
  | .tooManyDigits => "Too many decimal digits in format string"
  | .unknownField field => field
  | .emptyPart => "Empty attribute in format string"
  | .afterBracket => "Only '.' or '[' may follow ']' in format field specifier"
  | .pastEnd whole => s!"{whole} index out of range"
  | .unknownConversion c => s!"Unknown conversion specifier {letterText c}"
  | .tooDeep => "Max string recursion exceeded"
  | .layout f => f.message?
  | .noMember _ | .noItem | .noLayout => none

end Template.Fault

namespace Fault

def category : Fault → Category
  | template f => f.category
  | noTemplate _ => .key
  | compoundStyle _ | unlistedStyles _ | unreadableDefaults _ => .nature
  | bounds _ | namelessParam | unknownService _ => .value
  | unknownStyle _ | otherStyles _ | notBoolean _ _ | noEntry _ | noMessages _ _ => .settings

/-- The message of a fault, for those that come with one. -/
def message? : Fault → Option String
  | bounds b => b.message
  | namelessParam => "Block truthiness needs a block parameter name."
  | template f => f.message?
  | unknownStyle value =>
    let names := ", ".intercalate (Style.all.map Style.name)
    s!"Unknown EnforcedStyle selected ({value.display})! Supported styles: {names}."
  | otherStyles declared =>
    let names := ", ".intercalate ((Style.all.map Style.name).mergeSort (fun a b => a ≤ b))
    s!"supported_styles {declared.display} does not match the rule's styles: {names}."
  | notBoolean key value => s!"{key} must be true or false, got {value.display}."
  | noEntry code => s!"Rule registry has no entry for {code}."
  | noMessages code missing =>
    let keys := ", ".intercalate (missing.map Switch.key)
    s!"Rule registry entry {code} lacks messages for: {keys}."
  | unknownService name => s!"Dependency '{name}' not registered."
  | noTemplate _ | compoundStyle _ | unlistedStyles _ | unreadableDefaults _ => none

end Fault

end BlockPresence
