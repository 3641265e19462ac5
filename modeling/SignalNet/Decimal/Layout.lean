import SignalNet.Decimal.Shortest

/-!
# Layouts of decimals

The library writes doubles in four places, and each has its own layout: the
sentences of messages, the argument lists of simulation messages, exported
networks, and settings.  All of them write the shortest decimal.
-/

namespace SignalNet.Decimal

/-- How a double is written. -/
structure Layout where
  /-- Values below `10 ^ least` are written with an exponent. -/
  least : Option Int
  /-- Values from `10 ^ (greatest + 1)` on are written with an exponent. -/
  greatest : Option Int
  /-- A whole number keeps the digit zero behind the point. -/
  point : Bool
  /-- A positive exponent has a plus sign. -/
  plus : Bool
  tie : Tie
  nan : String
  infinity : String

/-- In sentences a number has no exponent and no superfluous point. -/
def Layout.sentence : Layout :=
  { least := none, greatest := none, point := false, plus := false, tie := .up,
    nan := "NaN", infinity := "inf" }

/-- In argument lists a double is told from an integer by its point, and very
large and very small ones have an exponent. -/
def Layout.argument : Layout :=
  { least := some (-4), greatest := some 15, point := true, plus := false, tie := .up,
    nan := "NaN", infinity := "inf" }

/-- Settings follow the argument lists but keep one more small decade
positional and spell the words for infinities and NaNs with a point. -/
def Layout.settings : Layout :=
  { least := some (-5), greatest := some 15, point := true, plus := false, tie := .even,
    nan := ".nan", infinity := ".inf" }

/-- Exported networks are written as settings are, with both signs of the
exponent spelled out.  They have no word for infinities and NaNs. -/
def Layout.exported : Layout :=
  { Layout.settings with plus := true, nan := "null", infinity := "null" }

/-- The decimal digits of a natural number. -/
def digitsOf (n : Nat) : List Char :=
  Nat.toDigits 10 n

/-- Digits with a point behind the leading `1 + lead` of them. -/
def positional (point : Bool) (digits : List Char) (lead : Int) : List Char :=
  if lead < 0 then
    '0' :: '.' :: (List.replicate (-lead - 1).toNat '0' ++ digits)
  else
    let whole := lead.toNat + 1
    if digits.length ≤ whole then
      digits ++ List.replicate (whole - digits.length) '0' ++ (if point then ['.', '0'] else [])
    else digits.take whole ++ '.' :: digits.drop whole

/-- One digit before the point, and the exponent behind an `e`. -/
def scientific (plus : Bool) (digits : List Char) (lead : Int) : List Char :=
  let fraction := match digits.drop 1 with
    | [] => []
    | rest => '.' :: rest
  let sign := if plus && 0 ≤ lead then ['+'] else []
  digits.take 1 ++ fraction ++ 'e' :: (sign ++ (toString lead).toList)

/-- The text of a finite, nonzero magnitude. -/
def Layout.magnitude (layout : Layout) (d : Digits) : List Char :=
  let digits := digitsOf d.coefficient
  let lead := d.exponent + digits.length - 1
  if layout.least.any (lead < ·) || layout.greatest.any (· < lead) then
    scientific layout.plus digits lead
  else positional layout.point digits lead

/-- The text of a double. -/
def Layout.write (layout : Layout) (x : Float) : String :=
  if x.isNaN then layout.nan
  else
    let sign := if x.toBits >>> 63 = 1 then "-" else ""
    if x.isInf then sign ++ layout.infinity
    else if x == 0.0 then sign ++ (if layout.point then "0.0" else "0")
    else sign ++ String.ofList (layout.magnitude (shortest layout.tie x))

end SignalNet.Decimal
