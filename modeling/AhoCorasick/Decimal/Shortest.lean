/-!
# The shortest decimal of a float

A float stands for all reals that round to it. `Decimal.shortest` finds, in exact arithmetic, the
decimal with the fewest digits among them; of several it takes the nearest to the float, and of two
that are equally near the even one. `Decimal.text` lays the digits out.
-/

namespace AhoCorasick

/-- The number `significand * 10 ^ exponent`. -/
structure Decimal where
  significand : Nat
  exponent : Int
deriving DecidableEq

namespace Decimal

/-- The reals that round to a float: those from `low` to `high`, all three over `denominator`, with
the float itself at `value`. The ends belong to it if the float's significand is even. -/
structure Interval where
  low : Nat
  value : Nat
  high : Nat
  denominator : Nat
  closed : Bool

/-- The interval of the float `m * 2 ^ q`. Below a power of two the floats are twice as dense, so
there the lower end is only half as far away. -/
def Interval.ofFloat (m : Nat) (q : Int) : Interval :=
  let scale := Nat.pow 2 (q - 2).toNat
  let below := if m = Nat.pow 2 52 ∧ -1074 < q then 1 else 2
  { low := (4 * m - below) * scale
    value := 4 * m * scale
    high := (4 * m + 2) * scale
    denominator := Nat.pow 2 (2 - q).toNat
    closed := m % 2 == 0 }

def Interval.contains (i : Interval) (d : Decimal) : Bool :=
  let shift := Nat.pow 10 (-d.exponent).toNat
  let x := d.significand * Nat.pow 10 d.exponent.toNat * i.denominator
  let low := i.low * shift
  let high := i.high * shift
  if i.closed then low ≤ x && x ≤ high else low < x && x < high

/-- The position of the point before or behind the first digit: the least `k` with
`value < 10 ^ k`. -/
def Interval.point (i : Interval) : Int :=
  if i.denominator ≤ i.value then (Nat.toDigits 10 (i.value / i.denominator)).length
  else
    let zeros := (List.range 400).find? fun j => i.denominator ≤ i.value * Nat.pow 10 (j + 1)
    Int.negOfNat (zeros.getD 0)

/-- The nearest of the multiples of `10 ^ exponent` next to the value that lie in the interval. -/
def Interval.onGrid (i : Interval) (exponent : Int) : Option Decimal :=
  let x := i.value * Nat.pow 10 (-exponent).toNat
  let unit := i.denominator * Nat.pow 10 exponent.toNat
  let below : Decimal := ⟨x / unit, exponent⟩
  let above : Decimal := ⟨x / unit + 1, exponent⟩
  let rest := x % unit
  let aboveFirst := unit < 2 * rest || (2 * rest == unit && below.significand % 2 == 1)
  let candidates := if aboveFirst then [above, below] else [below, above]
  candidates.find? i.contains

/-- A decimal without zeros at its end, of at most `fuel` digits. -/
def stripZeros : (fuel : Nat) → Decimal → Decimal
  | 0, d => d
  | fuel + 1, d =>
    if d.significand % 10 = 0 ∧ d.significand ≠ 0
    then stripZeros fuel ⟨d.significand / 10, d.exponent + 1⟩
    else d

/-- The shortest decimal that rounds to the float `m * 2 ^ q`. Seventeen digits always suffice. -/
def shortest (m : Nat) (q : Int) : Decimal :=
  if m = 0 then ⟨0, 0⟩
  else
    let i := Interval.ofFloat m q
    let found := (List.range 17).findSome? fun n => i.onGrid (i.point - (n + 1 : Nat))
    stripZeros 20 (found.getD ⟨0, 0⟩)

/-! ## Layout -/

/-- The digits with a point, if the point stands at most sixteen places behind or four places
before the first digit, and otherwise one digit before the point and an exponent with its sign.
There is always a point or an exponent. -/
def text (d : Decimal) : List Char :=
  let digits := Nat.toDigits 10 d.significand
  let point : Int := digits.length + d.exponent
  if d.significand = 0 then ['0', '.', '0']
  else if 0 ≤ d.exponent ∧ point ≤ 16 then
    digits ++ List.replicate d.exponent.toNat '0' ++ ['.', '0']
  else if 0 < point ∧ point ≤ 16 then
    digits.take point.toNat ++ '.' :: digits.drop point.toNat
  else if -5 < point ∧ point ≤ 0 then
    '0' :: '.' :: List.replicate (-point).toNat '0' ++ digits
  else
    let fraction := if digits.length ≤ 1 then [] else '.' :: digits.drop 1
    let sign := if point < 1 then '-' else '+'
    digits.take 1 ++ fraction ++ 'e' :: sign :: Nat.toDigits 10 (point - 1).natAbs

def textOfFloat (x : Float) : List Char :=
  let bits := x.toBits.toNat
  let fraction := bits % Nat.pow 2 52
  let biased := bits / Nat.pow 2 52 % Nat.pow 2 11
  let magnitude :=
    if biased = 0 then shortest fraction (-1074)
    else shortest (Nat.pow 2 52 + fraction) (Int.subNatNat biased 1075)
  (if bits / Nat.pow 2 63 = 1 then ['-'] else []) ++ magnitude.text

end Decimal

end AhoCorasick
