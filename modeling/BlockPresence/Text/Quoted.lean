import BlockPresence.Text.Printable

/-!
# Quoted text

The written form of a text value: enclosed in quotes, with the quote, the backslash and everything that would not show
as itself escaped. A text that holds a single quote and no double one is enclosed in double quotes, every other text in
single ones.
-/

namespace BlockPresence.Text

def singleQuote : Char := '\x27'

def doubleQuote : Char := '\x22'

def backslash : Char := '\x5c'

/-- The quote that encloses a text. -/
def enclosingQuote (cs : List Char) : Char :=
  if singleQuote ∈ cs ∧ doubleQuote ∉ cs then doubleQuote else singleQuote

/-- The lower-case hexadecimal digits of `n`, filled up with zeros to `width`. -/
def hexDigits (width n : Nat) : List Char :=
  let digits := Nat.toDigits 16 n
  List.replicate (width - digits.length) '0' ++ digits

/-- A character by its code point, in the shortest of the three widths that holds it. -/
def codePointEscape (c : Char) : List Char :=
  if c.toNat < 0x100 then backslash :: 'x' :: hexDigits 2 c.toNat
  else if c.toNat < 0x10000 then backslash :: 'u' :: hexDigits 4 c.toNat
  else backslash :: 'U' :: hexDigits 8 c.toNat

/-- What stands for `c` between two `quote`s, where `plain` says which characters may show as themselves. -/
def escapeChar (plain : Char → Bool) (quote c : Char) : List Char :=
  if c = quote ∨ c = backslash then [backslash, c]
  else if c = '\n' then [backslash, 'n']
  else if c = '\r' then [backslash, 'r']
  else if c = '\t' then [backslash, 't']
  else if plain c then [c]
  else codePointEscape c

/-- The written form of a text, where `plain` says which characters may show as themselves. -/
def quotedWith (plain : Char → Bool) (s : String) : String :=
  let quote := enclosingQuote s.toList
  String.ofList (quote :: s.toList.flatMap (escapeChar plain quote) ++ [quote])

/-- The written form of a text. -/
def quoted (s : String) : String := quotedWith isPrintable s

/-- The written form of a text in ASCII alone. -/
def quotedAscii (s : String) : String := quotedWith (fun c => c.toNat < 0x80 && isPrintable c) s

example : quoted "it's" = "\"it's\"" := by decide

example : quoted (String.ofList [backslash, '\n', Char.ofNat 0x7f]) = "'\\\\\\n\\x7f'" := by decide

end BlockPresence.Text
