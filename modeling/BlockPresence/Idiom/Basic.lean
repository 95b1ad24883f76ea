/-!
# Idioms and styles

A Ruby method can ask in three ways whether its caller passed a block. A style prefers one of them, and a switch leads
from one to another.
-/

namespace BlockPresence

/-- The three ways to ask whether a block was passed. -/
inductive Idiom where
  /-- A call of `block_given?`. -/
  | call
  /-- The query `defined?(yield)`. -/
  | probe
  /-- The block parameter as a condition. -/
  | truthiness
deriving DecidableEq, Repr

namespace Idiom

def all : List Idiom := [call, probe, truthiness]

def name : Idiom → String
  | call => "block_given_call"
  | probe => "defined_yield_probe"
  | truthiness => "block_truthy_ref"

/-- The idiom of a name. -/
def ofName? (s : String) : Option Idiom := all.find? fun i => i.name == s

/-- The source text of an idiom in a method whose block parameter is `param?`. Truthiness has none without the name of
a block parameter. -/
def sourceText? (param? : Option String) : Idiom → Option String
  | call => some "block_given?"
  | probe => some "defined?(yield)"
  | truthiness => param?.filter fun param => !param.isEmpty

end Idiom

/-- An enforced style, given by the idiom it prefers. -/
structure Style where
  preferred : Idiom
deriving DecidableEq, Repr

namespace Style

def all : List Style := Idiom.all.map Style.mk

def name (s : Style) : String :=
  match s.preferred with
  | .call => "check_if_block_given"
  | .probe => "check_if_defined_yield"
  | .truthiness => "check_if_block_truthy"

/-- The style of a name. -/
def ofName? (s : String) : Option Style := all.find? fun style => style.name == s

/-- The style of a section that names none, when the registry names none either. -/
def fallback : Style := ⟨.truthiness⟩

end Style

/-- A change from the idiom that was met to the one that is preferred. -/
structure Switch where
  encountered : Idiom
  preferred : Idiom
deriving DecidableEq, Repr

namespace Switch

/-- Every switch between two different idioms. -/
def all : List Switch :=
  Idiom.all.flatMap fun encountered =>
    (Idiom.all.filter fun preferred => preferred ≠ encountered).map fun preferred => ⟨encountered, preferred⟩

/-- The key of a switch in the registry. -/
def key (s : Switch) : String := s.encountered.name ++ "->" ++ s.preferred.name

end Switch

end BlockPresence
