import SignalNet.Yaml.Cursor

/-!
# Block scalars

A block scalar is a block of indented lines below a bar or an angle bracket.
Below a bar the lines are kept as they are; below an angle bracket two lines
that start with a word are joined by a space.  Behind the mark may stand how
far the lines are indented, and what becomes of the line ends behind the last
line.
-/

namespace SignalNet.Yaml.Block

/-- What becomes of the line ends behind the last line. -/
inductive Ending
  /-- All are dropped. -/
  | strip
  /-- One is kept. -/
  | clip
  /-- All are kept. -/
  | keep
  deriving DecidableEq, Repr

/-- What stands behind the mark of a block scalar. -/
structure Header where
  ending : Ending := .clip
  /-- How much deeper than the line around it the scalar is indented. -/
  indent : Option Nat := none

/-- An optional plus or minus sign. -/
def ending (c : Cursor) : Ending × Cursor :=
  if c.nextIs '+' then (.keep, c.advance 1)
  else if c.nextIs '-' then (.strip, c.advance 1)
  else (.clip, c)

/-- An optional digit, which must not be zero. -/
def depth? (c : Cursor) : Option (Option Nat × Cursor) :=
  match c.rest with
  | [] => some (none, c)
  | x :: _ =>
    if x = '0' then none
    else if x.isDigit then some (some (x.toNat - '0'.toNat), c.advance 1)
    else some (none, c)

/-- The sign and the digit of the header, in either order, and the rest of the
line, which may hold a comment only. -/
def header? (c : Cursor) : Option (Header × Cursor) := do
  let (before, c) := ending c
  let (indent, c) ← depth? c
  let (after, c) := if before = .clip then ending c else (before, c)
  let c := (c.skipWhile isBlank).skipComment
  if c.lineEnds then return (⟨after, indent⟩, c.nextLine) else none

/-- Pass over indentation and empty lines.  `indent` is the indentation of the
scalar if it is known; no tabulator may be part of it.  Returns the ends of
the empty lines and the deepest indentation met. -/
def emptyLines? (indent : Option Nat) : (fuel : Nat) → (breaks : List Char) → (deepest : Nat) →
    Cursor → Option (List Char × Nat × Cursor)
  | 0, breaks, deepest, c => some (breaks, deepest, c)
  | fuel + 1, breaks, deepest, c =>
    let spaces := (c.rest.takeWhile (· == ' ')).length
    let c := c.advance (match indent with
      | none => spaces
      | some i => min spaces (i - c.column))
    let deepest := max deepest c.column
    if indent.all (c.column < ·) && c.nextIs '\t' then none
    else if c.ahead 0 isBreak then
      emptyLines? indent fuel (breaks ++ c.breakText) deepest c.nextLine
    else some (breaks, deepest, c)

/-- What has been read of a block scalar: its text, the end of its last line,
the ends of the empty lines below, and whether the last line starts with a
blank. -/
structure Lines where
  text : List Char := []
  lastBreak : List Char := []
  emptyBreaks : List Char := []
  blankStart : Bool := false

/-- What joins the lines read so far with a line that starts with a blank or
not. -/
def Lines.joint (lines : Lines) (folded blankStart : Bool) : List Char :=
  let joined := folded && lines.lastBreak.head? == some '\n' && !lines.blankStart && !blankStart
  (if !joined then lines.lastBreak
   else if lines.emptyBreaks.isEmpty then [' ']
   else []) ++ lines.emptyBreaks

/-- Read lines as long as they are indented to the column `indent`. -/
def lines? (folded : Bool) (indent : Nat) : (fuel : Nat) → Lines → Cursor → Option (Lines × Cursor)
  | 0, lines, c => some (lines, c)
  | fuel + 1, lines, c =>
    if c.column ≠ indent ∨ c.atEnd then some (lines, c)
    else
      let blankStart := c.ahead 0 isBlank
      let (line, c) := c.span (!isBreak ·)
      let text := lines.text ++ lines.joint folded blankStart ++ line
      let next := c.nextLine
      match emptyLines? (some indent) next.steps [] 0 next with
      | none => none
      | some (breaks, _, after) =>
        lines? folded indent fuel ⟨text, c.breakText, breaks, blankStart⟩ after

/-- The text of the lines with what is kept of the line ends behind them. -/
def Lines.finish (lines : Lines) : Ending → List Char
  | .strip => lines.text
  | .clip => lines.text ++ lines.lastBreak
  | .keep => lines.text ++ lines.lastBreak ++ lines.emptyBreaks

/-- Read a block scalar; its mark stands here.  `outer` is the indentation of
the block around it, `-1` outside of all blocks.  An indentation that is not
given is that of the deepest of the lines up to the first that is not empty. -/
def read? (folded : Bool) (outer : Int) (c : Cursor) : Option (String × Cursor) := do
  let (header, c) ← header? (c.advance 1)
  let given := header.indent.map fun n => (max outer 0).toNat + n
  let (breaks, deepest, c) ← emptyLines? given c.steps [] 0 c
  let indent := given.getD (max deepest (max (outer + 1) 1).toNat)
  let (lines, c) ← lines? folded indent c.steps { emptyBreaks := breaks } c
  return (String.ofList (lines.finish header.ending), c)

end SignalNet.Yaml.Block
