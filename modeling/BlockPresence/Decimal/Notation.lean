import BlockPresence.Decimal.Shortest

/-!
# Decimal notation

How floating-point numbers are written: with the fewest digits that identify them. Numbers whose leading digit has an
exponent from -4 to 15 are written positionally and always with a point; all others with one digit before the point and
a signed exponent of at least two digits.
-/

namespace BlockPresence.Decimal

/-- The least exponent of the leading digit at which a number is written positionally. -/
def positionalFrom : Int := -4

/-- The exponent of the leading digit from which on a number is no longer written positionally. -/
def positionalBelow : Int := 16

/-- The written form of an exponent: a sign and at least two digits. -/
def exponentText (e : Int) : List Char :=
  let digits := Nat.toDigits 10 e.natAbs
  (if e < 0 then '-' else '+') :: (List.replicate (2 - digits.length) '0' ++ digits)

/-- The written form of a positive decimal without trailing zeros. -/
def layout (d : Decimal) : List Char :=
  let digits := Nat.toDigits 10 d.digits
  let leading := d.exponent + digits.length - 1
  if positionalFrom ≤ leading ∧ leading < positionalBelow then
    if 0 ≤ d.exponent then digits ++ List.replicate d.exponent.toNat '0' ++ ['.', '0']
    else if 0 ≤ leading then digits.take (leading.toNat + 1) ++ '.' :: digits.drop (leading.toNat + 1)
    else '0' :: '.' :: (List.replicate (-leading - 1).toNat '0' ++ digits)
  else
    let point := if digits.length ≤ 1 then [] else '.' :: digits.drop 1
    digits.take 1 ++ point ++ 'e' :: exponentText leading

/-- The written form of a floating-point number. -/
def floatText (x : Float) : String :=
  let bits := x.toBits.toNat
  let magnitude := bits % twoTo 63
  let sign := if bits = magnitude then [] else ['-']
  let unsigned :=
    if magnitude = 0 then ['0', '.', '0']
    else if magnitude / twoTo 52 = 2047 then ['i', 'n', 'f']
    else (RoundingInterval.ofBits magnitude).shortest.layout
  if x.isNaN then "nan" else String.ofList (sign ++ unsigned)

end BlockPresence.Decimal
