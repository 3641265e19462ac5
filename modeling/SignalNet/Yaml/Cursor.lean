/-!
# Places in a text

YAML gives meaning to the place of a character: how far a line is indented,
and whether two characters stand on one line.  A `Cursor` is a text still to
be read together with the place of its first character.

Lines end with a carriage return, a line feed, both in this order, or one of
the Unicode characters for a next line, a line separator or a paragraph
separator.  Inside a text all of them but the two separators become a line
feed.
-/

namespace SignalNet.Yaml

/-- A character that ends a line. -/
def isBreak (c : Char) : Bool :=
  c == '\r' || c == '\n' || [0x85, 0x2028, 0x2029].contains c.toNat

/-- A space or a tabulator. -/
def isBlank (c : Char) : Bool :=
  c == ' ' || c == '\t'

/-- A blank or the end of a line. -/
def isSpace (c : Char) : Bool :=
  isBlank c || isBreak c

/-- A character of names: of anchors, of tag handles and of directives. -/
def isNameChar (c : Char) : Bool :=
  c.isAlphanum || c == '_' || c == '-'

/-- The characters a text may hold: no control characters but tabulators and
ends of lines, and no code points set aside as non-characters. -/
def isAllowed (c : Char) : Bool :=
  let n := c.toNat
  c == '\t' || c == '\n' || c == '\r' || n == 0x85 ||
    (0x20 ≤ n && n ≤ 0x7e) || (0xa0 ≤ n && n ≤ 0xfffd) || 0x10000 ≤ n

/-- A text still to be read, and the place where it starts. -/
structure Cursor where
  rest : List Char
  /-- The number of bytes before this place, in UTF-8. -/
  index : Nat := 0
  /-- The number of lines before this place. -/
  line : Nat := 0
  /-- The number of characters before this place on its line. -/
  column : Nat := 0
  /-- As many steps as a loop may take that reads a character with each. -/
  steps : Nat := rest.length + 1

namespace Cursor

def atEnd (c : Cursor) : Bool :=
  c.rest.isEmpty

/-- The character `k` places ahead satisfies `p`. -/
def ahead (c : Cursor) (k : Nat) (p : Char → Bool) : Bool :=
  (c.rest[k]?).any p

/-- The next character is `x`. -/
def nextIs (c : Cursor) (x : Char) : Bool :=
  c.ahead 0 (· == x)

/-- Behind the next `k` characters a word ends: a blank, the end of the line
or the end of the text follows. -/
def wordEnds (c : Cursor) (k : Nat) : Bool :=
  (c.rest[k]?).all isSpace

/-- The line ends here. -/
def lineEnds (c : Cursor) : Bool :=
  (c.rest[0]?).all isBreak

/-- Go on by `n` characters of the line. -/
def advance (c : Cursor) (n : Nat) : Cursor :=
  { c with
    rest := c.rest.drop n
    index := (c.rest.take n).foldl (fun index ch => index + ch.utf8Size) c.index
    column := c.column + n }

/-- The longest run of characters of the line that satisfy `p`. -/
def span (c : Cursor) (p : Char → Bool) : List Char × Cursor :=
  let run := c.rest.takeWhile p
  (run, c.advance run.length)

/-- Pass over the characters of the line that satisfy `p`. -/
def skipWhile (c : Cursor) (p : Char → Bool) : Cursor :=
  (c.span p).2

/-- Pass over a comment, which reaches to the end of the line. -/
def skipComment (c : Cursor) : Cursor :=
  if c.nextIs '#' then c.skipWhile (!isBreak ·) else c

/-- What the end of the line contributes to a text; nothing if the line does
not end here. -/
def breakText (c : Cursor) : List Char :=
  match c.rest with
  | [] => []
  | x :: _ =>
    if !isBreak x then []
    else if x.toNat < 0x2028 then ['\n']
    else [x]

/-- Go on to the next line, if the line ends here. -/
def nextLine (c : Cursor) : Cursor :=
  match c.rest with
  | [] => c
  | '\r' :: '\n' :: rest =>
    { c with rest, index := c.index + 2, line := c.line + 1, column := 0 }
  | x :: rest =>
    if isBreak x then
      { c with rest, index := c.index + x.utf8Size, line := c.line + 1, column := 0 }
    else c

/-- One of the marks that separate documents stands here: three hyphens or
three points, alone at the start of a line. -/
def atMarker (c : Cursor) (x : Char) : Bool :=
  c.column == 0 && c.rest.take 3 == [x, x, x] && c.wordEnds 3

/-- A document starts or ends here. -/
def atDocumentEdge (c : Cursor) : Bool :=
  c.atMarker '-' || c.atMarker '.'

end Cursor

end SignalNet.Yaml
