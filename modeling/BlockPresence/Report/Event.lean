import BlockPresence.Idiom.Basic
import BlockPresence.Identity
import BlockPresence.Syntax.Node

/-!
# Events

What is worth a line in the log, by its cause, with the level and the text of the line.
-/

namespace BlockPresence

/-- How much an event matters. -/
inductive Level where
  | debug
  | info
  | warning
deriving DecidableEq, Repr

def Level.name : Level → String
  | debug => "DEBUG"
  | info => "INFO"
  | warning => "WARNING"

/-- Something that is written to the log. -/
inductive Event where
  /-- There is no registry file. -/
  | noRegistry (path : String)
  /-- The configuration has a key that means nothing. -/
  | unknownKey (key : String)
  /-- The configuration switches the rule off. -/
  | disabled
  /-- An idiom is met outside of every method. -/
  | noMethod (node : Node)
  /-- An idiom is met in a method whose block parameter cannot be used. -/
  | noUsableParam (method : String) (encountered : Idiom)
  /-- A block parameter would be suggested where a block hides it. -/
  | hiddenParam (param location : String)
  /-- A violation is reported. -/
  | reported (code location message : String)

namespace Event

def level : Event → Level
  | noRegistry _ | unknownKey _ => .warning
  | disabled => .info
  | _ => .debug

def message : Event → String
  | noRegistry path => s!"Rule registry not found at {path}; using an empty registry."
  | unknownKey key => s!"Configuration Warning: unknown key {Text.quoted key} for {ruleName} is ignored."
  | disabled => s!"{ruleName} is disabled; checker not registered."
  | noMethod node => s!"No enclosing method for {node.display}; not actionable."
  | noUsableParam method encountered =>
    s!"Method {Text.quoted method} has no usable block parameter; skipping {encountered.name}."
  | hiddenParam param location => s!"{Text.quoted param} is shadowed at {location}; not suggesting it."
  | reported code location message => s!"{code} {location}: {message}"

end Event

end BlockPresence
