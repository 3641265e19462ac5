/-!
# Shortest decimals

A positive double is `m * 2 ^ q` for naturals `m` below `2 ^ 53`.  The reals
that round to it form an interval around it, whose ends belong to it exactly
if `m` is even.  The *shortest decimal* of the double is the decimal with the
fewest digits inside that interval, and among those the one nearest to the
double.

Everything here is exact arithmetic on naturals.  For each number of digits
the double has two neighbours on the grid of decimals with that many digits;
the first grid with a neighbour inside the interval gives the answer.
-/

namespace SignalNet.Decimal

/-- The positive real `mantissa * 2 ^ exponent`, in the form in which double
precision stores it. -/
structure Dyadic where
  mantissa : Nat
  exponent : Int
  /-- The next smaller double is only half as far away as the next larger. -/
  closeBelow : Bool

/-- The decimal `coefficient * 10 ^ exponent`. -/
structure Digits where
  coefficient : Nat
  exponent : Int
  deriving DecidableEq, Repr

/-- Which neighbour is taken when both are equally near. -/
inductive Tie
  | up
  | even
  deriving DecidableEq, Repr

/-- The stored form of a finite, nonzero double without its sign. -/
def Dyadic.ofBits (bits : UInt64) : Dyadic :=
  let fraction := (bits &&& 0xfffffffffffff).toNat
  let biased := ((bits >>> 52) &&& 0x7ff).toNat
  if biased = 0 then ⟨fraction, -1074, false⟩
  else ⟨fraction + 0x10000000000000, (biased : Int) - 1075, fraction == 0 && 1 < biased⟩

/-- `b ^ e` split into a numerator and a denominator. -/
def power (b : Nat) (e : Int) : Nat × Nat :=
  if 0 ≤ e then (b.pow e.toNat, 1) else (1, b.pow (-e).toNat)

/-- The exponent `e` with `10 ^ e ≤ num / den < 10 ^ (e + 1)`.  The binary
logarithms determine it up to two, and the five candidates are tried from
above. -/
def leadingExponent (num den : Nat) : Int :=
  let estimate := ((num.log2 : Int) - den.log2) * 1233 / 4096
  let reached (e : Int) : Bool :=
    let (up, down) := power 10 e
    up * den ≤ num * down
  ([estimate + 2, estimate + 1, estimate, estimate - 1].find? reached).getD (estimate - 2)

/-- Drop trailing zeros, at most `fuel` of them. -/
def trim : (fuel : Nat) → Digits → Digits
  | 0, d => d
  | fuel + 1, d =>
    if d.coefficient ≠ 0 ∧ d.coefficient % 10 = 0 then
      trim fuel ⟨d.coefficient / 10, d.exponent + 1⟩
    else d

/-- The neighbour of `x` on the grid of multiples of `10 ^ p` that rounds back
to `x`, and the nearer one if both do. -/
def Dyadic.neighbour? (x : Dyadic) (tie : Tie) (p : Int) : Option Nat :=
  let (twoUp, twoDown) := power 2 (x.exponent - 2)
  let (tenUp, tenDown) := power 10 p
  -- In quarters of the last binary place, one unit is `a / b` grid steps.
  let a := twoUp * tenDown
  let b := twoDown * tenUp
  let value := 4 * x.mantissa * a
  let least := (4 * x.mantissa - if x.closeBelow then 1 else 2) * a
  let greatest := (4 * x.mantissa + 2) * a
  let inside (c : Nat) : Bool :=
    if x.mantissa % 2 = 0 then least ≤ c * b && c * b ≤ greatest
    else least < c * b && c * b < greatest
  let below := value / b
  let above := below + 1
  match inside below, inside above with
  | false, false => none
  | true, false => some below
  | false, true => some above
  | true, true =>
    let twice := 2 * value
    let middle := (below + above) * b
    if twice < middle then some below
    else if middle < twice then some above
    else match tie with
      | .up => some above
      | .even => some (if below % 2 = 0 then below else above)

/-- Look for a decimal with `count`, `count + 1`, … digits.  Seventeen digits
always suffice. -/
def Dyadic.search (x : Dyadic) (tie : Tie) (lead : Int) : (fuel count : Nat) → Digits
  | 0, _ => ⟨x.mantissa, 0⟩
  | fuel + 1, count =>
    let p := lead + 1 - count
    match x.neighbour? tie p with
    | some c => trim 18 ⟨c, p⟩
    | none => x.search tie lead fuel (count + 1)

/-- The shortest decimal of a stored double. -/
def Dyadic.shortest (x : Dyadic) (tie : Tie) : Digits :=
  let (up, down) := power 2 x.exponent
  x.search tie (leadingExponent (x.mantissa * up) down) 17 1

/-- The shortest decimal of the magnitude of a finite, nonzero double. -/
def shortest (tie : Tie) (x : Float) : Digits :=
  (Dyadic.ofBits x.toBits).shortest tie

end SignalNet.Decimal
