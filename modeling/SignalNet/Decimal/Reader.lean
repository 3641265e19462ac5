/-!
# Reading decimals

A decimal is an optional sign, digits with at most one point among them, and
an optional exponent.  At least one digit must stand before the exponent, and
the exponent needs at least one digit of its own.  Reading rounds correctly.
-/

namespace SignalNet.Decimal

/-- An exact decimal `± coefficient * 10 ^ exponent`. -/
structure Exact where
  negative : Bool
  coefficient : Nat
  exponent : Int
  deriving DecidableEq, Repr

/-- The value of a word of digits. -/
def valueOf (digits : List Char) : Nat :=
  digits.foldl (fun n c => 10 * n + (c.toNat - '0'.toNat)) 0

/-- An optional sign; `true` for minus. -/
def splitSign : List Char → Bool × List Char
  | '-' :: rest => (true, rest)
  | '+' :: rest => (false, rest)
  | rest => (false, rest)

/-- The exponent behind the digits, zero if there is none. -/
def readExponent? : List Char → Option Int
  | [] => some 0
  | c :: rest =>
    if c = 'e' ∨ c = 'E' then
      let (negative, digits) := splitSign rest
      if digits.isEmpty || !digits.all Char.isDigit then none
      else some (if negative then -(valueOf digits : Int) else valueOf digits)
    else none

/-- Read a decimal exactly. -/
def Exact.read? (text : String) : Option Exact :=
  let (negative, body) := splitSign text.toList
  let whole := body.takeWhile Char.isDigit
  let afterWhole := body.dropWhile Char.isDigit
  let (fraction, rest) := match afterWhole with
    | '.' :: tail => (tail.takeWhile Char.isDigit, tail.dropWhile Char.isDigit)
    | _ => ([], afterWhole)
  if whole.isEmpty && fraction.isEmpty then none
  else (readExponent? rest).map fun e =>
    ⟨negative, valueOf (whole ++ fraction), e - fraction.length⟩

/-- The nearest double.  Exponents far outside the range of doubles are cut
off before the power of ten is formed. -/
def Exact.toFloat (d : Exact) : Float :=
  let size : Int := (Nat.toDigits 10 d.coefficient).length
  let magnitude :=
    if d.coefficient = 0 ∨ d.exponent + size < -330 then 0.0
    else if 310 < d.exponent + size then 1.0 / 0.0
    else if d.exponent < 0 then Float.ofScientific d.coefficient true (-d.exponent).toNat
    else Float.ofScientific d.coefficient false d.exponent.toNat
  if d.negative then -magnitude else magnitude

end SignalNet.Decimal
