import SignalNet.Yaml.Plain

/-!
# Quoted scalars

In single quotes only the quote itself is special: it is written twice.  In
double quotes a backslash starts an escape.  Line ends are folded as in plain
scalars, and an escaped line end is dropped.
-/

namespace SignalNet.Yaml.Quoted

/-- The value of a hexadecimal digit. -/
def hexValue? (x : Char) : Option Nat :=
  if '0' ≤ x ∧ x ≤ '9' then some (x.toNat - '0'.toNat)
  else if 'a' ≤ x ∧ x ≤ 'f' then some (x.toNat - 'a'.toNat + 10)
  else if 'A' ≤ x ∧ x ≤ 'F' then some (x.toNat - 'A'.toNat + 10)
  else none

/-- The number that the first `count` hexadecimal digits denote. -/
def hex? (count : Nat) (cs : List Char) : Option Nat :=
  if cs.length < count then none
  else ((cs.take count).mapM hexValue?).map (·.foldl (fun n d => 16 * n + d) 0)

/-- The character with a number, unless it is a surrogate or too large. -/
def charOf? (n : Nat) : Option Char :=
  if n.isValidChar then some (Char.ofNat n) else none

/-- The escapes of one character. -/
def shortEscapes : List (Char × Nat) :=
  [('0', 0), ('a', 7), ('b', 8), ('t', 9), ('\t', 9), ('n', 10), ('v', 11), ('f', 12), ('r', 13),
   ('e', 27), (' ', 32), ('"', 34), ('/', 47), ('\\', 92), ('N', 0x85), ('_', 0xa0),
   ('L', 0x2028), ('P', 0x2029)]

/-- The escapes by number, and how many digits each has. -/
def longEscapes : List (Char × Nat) :=
  [('x', 2), ('u', 4), ('U', 8)]

/-- The character behind a backslash, and the length of its escape. -/
def escape? : List Char → Option (Char × Nat)
  | [] => none
  | x :: rest =>
    match shortEscapes.lookup x, longEscapes.lookup x with
    | some n, _ => (charOf? n).map (·, 1)
    | none, some digits => ((hex? digits rest).bind charOf?).map (·, digits + 1)
    | none, none => none

/-- The longest word from here on.  Returns also whether it ends with an
escaped line end. -/
def word? (quote : Char) : (fuel : Nat) → (before : List Char) → Cursor →
    Option (List Char × Bool × Cursor)
  | 0, before, c => some (before.reverse, false, c)
  | fuel + 1, before, c =>
    match c.rest with
    | [] => some (before.reverse, false, c)
    | x :: rest =>
      if isSpace x then some (before.reverse, false, c)
      else if x = quote then
        if quote = '\'' ∧ c.ahead 1 (· == quote) then word? quote fuel (x :: before) (c.advance 2)
        else some (before.reverse, false, c)
      else if quote = '"' ∧ x = '\\' then
        if c.ahead 1 isBreak then some (before.reverse, true, (c.advance 1).nextLine)
        else match escape? rest with
          | some (y, width) => word? quote fuel (y :: before) (c.advance (width + 1))
          | none => none
      else word? quote fuel (x :: before) (c.advance 1)

/-- The words up to the closing quote.  The document must not end before
it. -/
def words? (quote : Char) : (fuel : Nat) → (before : List Char) → Cursor →
    Option (List Char × Cursor)
  | 0, _, _ => none
  | fuel + 1, before, c =>
    if c.atDocumentEdge || c.atEnd then none
    else do
      let (word, joined, c) ← word? quote c.steps [] c
      if c.nextIs quote then return (before ++ word, c.advance 1)
      let (gap, c) ← Gap.read? 0 c.steps { broken := joined } c
      words? quote fuel (before ++ word ++ gap.text) c

/-- Read a scalar in quotes; its opening quote stands here. -/
def read? (quote : Char) (c : Cursor) : Option (String × Cursor) :=
  (words? quote c.steps [] (c.advance 1)).map fun (text, c) => (String.ofList text, c)

end SignalNet.Yaml.Quoted
