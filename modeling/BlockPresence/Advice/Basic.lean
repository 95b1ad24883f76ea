import BlockPresence.Idiom.Occurrence
import BlockPresence.Report.Traced

/-!
# Advice

What a style has to say about an occurrence of an idiom: which idiom to use in its place, and in what words. Truthiness
is neither doubted nor advised where the method has no block parameter that can be used; such cases leave an event.
-/

namespace BlockPresence

/-- An advice to use another idiom. -/
structure Advice where
  switch : Switch
  /-- The source text of the preferred idiom. -/
  replacement : String
  /-- The block parameter of the method, if it can be used. -/
  param : Option String
deriving DecidableEq, Repr

/-- The advice for an occurrence in a method whose usable block parameter is `param`. -/
def Style.advise (s : Style) (o : Occurrence) (method : Option Method) (param : Option String) :
    Traced (Option Advice) :=
  match method with
  | none => ⟨[.noMethod o.node], .ok none⟩
  | some method =>
    if o.idiom = s.preferred then pure none
    else if (o.idiom = .truthiness ∨ s.preferred = .truthiness) ∧ param = none then
      ⟨[.noUsableParam method.name o.idiom], .ok none⟩
    else
      match s.preferred.sourceText? param with
      | none => .fail .namelessParam
      | some replacement => pure (some ⟨⟨o.idiom, s.preferred⟩, replacement, param⟩)

end BlockPresence
