/-!
# Shortest decimals

Every positive binary floating-point number stands for an interval of reals: those that round to it.
`RoundingInterval.shortest` picks the decimal with the fewest digits in that interval, of two such the one nearer to the
number, and of two equally near the one with an even last digit. All comparisons are exact, on naturals.
-/

namespace BlockPresence

/-- Two to the power of `n`. -/
def twoTo (n : Nat) : Nat := Nat.pow 2 n

/-- Ten to the power of `n`. -/
def tenTo (n : Nat) : Nat := Nat.pow 10 n

/-- The number `digits · 10 ^ exponent`. -/
structure Decimal where
  digits : Nat
  exponent : Int
deriving DecidableEq, Repr

/-- The reals that round to a positive number: from `low` to `high` in units of `2 ^ exponent`, with the number itself
at `centre`. The ends belong to the interval when it is `closed`. -/
structure RoundingInterval where
  low : Nat
  centre : Nat
  high : Nat
  exponent : Int
  closed : Bool
deriving DecidableEq, Repr

namespace RoundingInterval

/-- The interval of a finite positive number, from its 63 magnitude bits. It reaches halfway to both neighbours; above a
power of two the lower neighbour is only half as far away as the upper one. Halfway points round to even. -/
def ofBits (bits : Nat) : RoundingInterval :=
  let biased := bits / twoTo 52
  let fraction := bits % twoTo 52
  let mantissa := if biased = 0 then fraction else twoTo 52 + fraction
  let narrow := fraction = 0 ∧ 1 < biased
  { low := 4 * mantissa - (if narrow then 1 else 2)
    centre := 4 * mantissa
    high := 4 * mantissa + 2
    exponent := (max 1 biased : Nat) - 1077
    closed := mantissa % 2 = 0 }

/-- Compares `d · 10 ^ e` with `n · 2 ^ q`. -/
def compareScaled (d : Nat) (e : Int) (n : Nat) (q : Int) : Ordering :=
  compare (d * tenTo e.toNat * twoTo (-q).toNat) (n * twoTo q.toNat * tenTo (-e).toNat)

/-- Whether a decimal lies in the interval. -/
def contains (i : RoundingInterval) (d : Decimal) : Bool :=
  let toLow := compareScaled d.digits d.exponent i.low i.exponent
  let toHigh := compareScaled d.digits d.exponent i.high i.exponent
  (toLow = .gt || i.closed && toLow = .eq) && (toHigh = .lt || i.closed && toHigh = .eq)

/-- The centre as a fraction, numerator first. -/
def fraction (i : RoundingInterval) : Nat × Nat :=
  (i.centre * twoTo i.exponent.toNat, twoTo (-i.exponent).toNat)

/-- The number of decimal digits of a positive natural. -/
def digitCount (n : Nat) : Nat := (Nat.toDigits 10 n).length

/-- The least `k` with the centre below `10 ^ k`. -/
def magnitude (i : RoundingInterval) : Int :=
  let (num, den) := i.fraction
  if den ≤ num then digitCount (num / den) else 1 - digitCount ((den - 1) / num)

/-- The multiple of `10 ^ e` in the interval that is nearest to the centre, if there is one. It is one of the two
multiples next to the centre. -/
def nearest? (i : RoundingInterval) (e : Int) : Option Decimal :=
  let num := i.fraction.1 * tenTo (-e).toNat
  let den := i.fraction.2 * tenTo e.toNat
  let floor := num / den
  let lower : Decimal := ⟨floor, e⟩
  let upper : Decimal := ⟨floor + 1, e⟩
  match i.contains lower, i.contains upper with
  | false, false => none
  | true, false => some lower
  | false, true => some upper
  | true, true =>
    match compare (2 * num) ((2 * floor + 1) * den) with
    | .lt => some lower
    | .gt => some upper
    | .eq => some (if floor % 2 = 0 then lower else upper)

/-- The centre, exactly. -/
def exact (i : RoundingInterval) : Decimal :=
  if 0 ≤ i.exponent then ⟨i.centre * twoTo i.exponent.toNat, 0⟩
  else ⟨i.centre * Nat.pow 5 (-i.exponent).toNat, i.exponent⟩

end RoundingInterval

/-- The same number without trailing zeros in the digits. -/
def Decimal.trimmed (d : Decimal) : Decimal :=
  if d.digits ≠ 0 ∧ d.digits % 10 = 0 then Decimal.trimmed ⟨d.digits / 10, d.exponent + 1⟩ else d
termination_by d.digits

/-- The decimal with the fewest digits in the interval, nearest to the centre. Seventeen digits always reach one. -/
def RoundingInterval.shortest (i : RoundingInterval) : Decimal :=
  let found := (List.range 17).findSome? fun n => i.nearest? (i.magnitude - (n + 1 : Nat))
  (found.getD i.exact).trimmed

end BlockPresence
