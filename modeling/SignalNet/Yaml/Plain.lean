import SignalNet.Yaml.Cursor

/-!
# Plain scalars

A plain scalar has no quotes.  It ends before a colon that ends a word, before
a comment, before a line that is not indented deeply enough, and inside
brackets also before a comma or a bracket.  Blanks between two words on one
line are kept; a line end between two words is folded.
-/

namespace SignalNet.Yaml

/-- What stands between two words of a scalar. -/
structure Gap where
  /-- Blanks before the first line end. -/
  blanks : List Char := []
  /-- A line has ended. -/
  broken : Bool := false
  firstBreak : List Char := []
  laterBreaks : List Char := []

/-- The text of a gap.  One line feed is folded into a space, and of several
the first is dropped. -/
def Gap.text (gap : Gap) : List Char :=
  if !gap.broken then gap.blanks
  else if gap.firstBreak.head? ≠ some '\n' then gap.firstBreak ++ gap.laterBreaks
  else if gap.laterBreaks.isEmpty then [' ']
  else gap.laterBreaks

/-- Read a gap to its end.  On a new line no tabulator may stand left of the
column `indent`. -/
def Gap.read? (indent : Nat) : (fuel : Nat) → Gap → Cursor → Option (Gap × Cursor)
  | 0, gap, c => some (gap, c)
  | fuel + 1, gap, c =>
    match c.rest with
    | [] => some (gap, c)
    | x :: _ =>
      if isBreak x then
        let gap := if gap.broken then { gap with laterBreaks := gap.laterBreaks ++ c.breakText }
          else { broken := true, firstBreak := c.breakText }
        Gap.read? indent fuel gap c.nextLine
      else if !isBlank x then some (gap, c)
      else if !gap.broken then
        Gap.read? indent fuel { gap with blanks := gap.blanks ++ [x] } (c.advance 1)
      else if x = '\t' ∧ c.column < indent then none
      else Gap.read? indent fuel gap (c.advance 1)

namespace Plain

/-- The brackets and the comma of collections in brackets. -/
def isFlowMark (x : Char) : Bool :=
  [',', '[', ']', '\x7b', '\x7d'].contains x

/-- Whether a plain scalar may start here. -/
def starts (flow : Bool) (c : Cursor) : Bool :=
  let marks := ['-', '?', ':', '#', '&', '*', '!', '|', '>', '\'', '"', '%', '@', '\x60']
  c.ahead 0 (fun x => !(isSpace x || isFlowMark x || marks.contains x)) ||
    (c.nextIs '-' && !c.ahead 1 isBlank) ||
    (!flow && (c.nextIs '?' || c.nextIs ':') && !c.wordEnds 1)

/-- The longest word from here on.  Inside brackets a colon must not stand
before a bracket, a comma or a question mark. -/
def word? (flow : Bool) : (fuel : Nat) → (before : List Char) → Cursor →
    Option (List Char × Cursor)
  | 0, before, c => some (before.reverse, c)
  | fuel + 1, before, c =>
    match c.rest with
    | [] => some (before.reverse, c)
    | x :: _ =>
      if isSpace x then some (before.reverse, c)
      else if flow ∧ x = ':' ∧ c.ahead 1 (fun y => y == '?' || isFlowMark y) then none
      else if (x = ':' ∧ c.wordEnds 1) ∨ (flow ∧ isFlowMark x) then some (before.reverse, c)
      else word? flow fuel (x :: before) (c.advance 1)

/-- The words from here on, behind the text `before` and the gap `gap`.
Returns also whether a line has ended behind the last word. -/
def words? (flow : Bool) (indent : Nat) : (fuel : Nat) → (before : List Char) → Gap → Cursor →
    Option (List Char × Bool × Cursor)
  | 0, before, gap, c => some (before, gap.broken, c)
  | fuel + 1, before, gap, c =>
    if c.atDocumentEdge || c.nextIs '#' then some (before, gap.broken, c)
    else do
      let (word, c) ← word? flow c.steps [] c
      let (before, gap) := if word.isEmpty then (before, gap) else (before ++ gap.text ++ word, {})
      if !c.ahead 0 isSpace then return (before, gap.broken, c)
      let (gap, c) ← Gap.read? indent c.steps gap c
      if !flow && c.column < indent then return (before, gap.broken, c)
      words? flow indent fuel before gap c

/-- Read a plain scalar whose further lines are indented to `indent` at
least.  Returns also whether a line has ended behind it. -/
def read? (flow : Bool) (indent : Nat) (c : Cursor) : Option (String × Bool × Cursor) :=
  (words? flow indent c.steps [] {} c).map fun (text, broken, c) => (String.ofList text, broken, c)

end Plain

end SignalNet.Yaml
