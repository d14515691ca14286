/-!
The shortest decimal that reads back as a given binary fraction. All arithmetic is exact: a value is
`num / den`, and the values nearer to it than to its neighbours are those from `low / den` to
`high / den`.
-/

namespace FixedPool.Decimal

/-- A positive value with the interval of reals that round to it; its ends belong to the interval if
`closed`. -/
structure Rounding where
  num : Nat
  low : Nat
  high : Nat
  den : Nat
  closed : Bool

/-- The rounding interval of the positive double `m * 2 ^ q`. The neighbour below is only half as
far if `m` is the least significand of its binade. -/
def Rounding.of (m : Nat) (q : Int) (narrow : Bool) : Rounding :=
  let up := 1 <<< (q - 2).toNat
  ⟨4 * m * up, (4 * m - if narrow then 1 else 2) * up, (4 * m + 2) * up, 1 <<< (2 - q).toNat,
    m % 2 == 0⟩

/-- The decimal `digits * 10 ^ exponent`. -/
structure Digits where
  digits : Nat
  exponent : Int

/-- The same decimal without zeros at the end of its digits. -/
def Digits.trim (digits : Nat) (exponent : Int) : Digits :=
  if 0 < digits ∧ digits % 10 = 0 then trim (digits / 10) (exponent + 1) else ⟨digits, exponent⟩
termination_by digits

namespace Rounding

/-- `digits * 10 ^ exponent`, as a numerator over `10 ^ k * den` and the factor `10 ^ k`. -/
def scale (r : Rounding) (d : Digits) : Nat × Nat :=
  (d.digits * Nat.pow 10 d.exponent.toNat * r.den, Nat.pow 10 (-d.exponent).toNat)

/-- Whether a decimal lies in the interval. -/
def contains (r : Rounding) (d : Digits) : Bool :=
  let (value, unit) := r.scale d
  if r.closed then r.low * unit ≤ value && value ≤ r.high * unit
  else r.low * unit < value && value < r.high * unit

/-- The digits of the value before the point of the grid of multiples of `10 ^ exponent`. -/
def floor (r : Rounding) (exponent : Int) : Nat :=
  r.num * Nat.pow 10 (-exponent).toNat / (r.den * Nat.pow 10 exponent.toNat)

/-- The decimal of a grid that reads back as the value, the nearer one of its two neighbours and the
greater one of a tie. -/
def onGrid (r : Rounding) (exponent : Int) : Option Digits :=
  let below : Digits := ⟨r.floor exponent, exponent⟩
  let above : Digits := ⟨r.floor exponent + 1, exponent⟩
  let (lower, unit) := r.scale below
  let (upper, _) := r.scale above
  let nearerBelow := r.num * unit - lower < upper - r.num * unit
  match r.contains below, r.contains above with
  | true, true => some (if nearerBelow then below else above)
  | true, false => some below
  | false, true => some above
  | false, false => none

/-- The exponent of the first digit of the value, found from `10 ^ 309` downwards. -/
def magnitude (r : Rounding) : Int :=
  (((List.range 640).map fun (k : Nat) => (309 : Int) - k).find? fun e => 1 ≤ r.floor e).getD 0

/-- The decimal with the fewest digits that reads back as the value. A double needs at most 17. The
neighbour above may be the next power of ten, which is one digit and no ten. -/
def shortest (r : Rounding) : Digits :=
  match (List.range 17).findSome? fun (k : Nat) => r.onGrid (r.magnitude - k) with
  | some d => Digits.trim d.digits d.exponent
  | none => ⟨r.num, 0⟩

end Rounding

/-- The positional text of a decimal, with a point and at least one digit on each side of it. -/
def Digits.text (d : Digits) : String :=
  let digits := Nat.toDigits 10 d.digits
  let places := (-d.exponent).toNat
  if places = 0 then
    .ofList (digits ++ List.replicate d.exponent.toNat '0') ++ ".0"
  else
    let padded := List.replicate (places + 1 - digits.length) '0' ++ digits
    .ofList (padded.take (padded.length - places)) ++ "."
      ++ .ofList (padded.drop (padded.length - places))

/-- The text of a double: the fewest digits that read back, positional at every size. -/
def text (x : Float) : String :=
  let bits := x.toBits.toNat
  let sign := if bits >>> 63 = 1 then "-" else ""
  let exponent : Nat := (bits >>> 52) % 2048
  let fraction : Nat := bits % (1 <<< 52)
  if exponent = 2047 then
    if fraction = 0 then sign ++ "inf" else "NaN"
  else if exponent = 0 ∧ fraction = 0 then
    sign ++ "0.0"
  else if exponent = 0 then
    sign ++ (Rounding.of fraction (-1074) false).shortest.text
  else
    let narrow := fraction == 0 && 1 < exponent
    sign ++ (Rounding.of ((1 <<< 52) + fraction) (exponent - 1075) narrow).shortest.text

end FixedPool.Decimal
