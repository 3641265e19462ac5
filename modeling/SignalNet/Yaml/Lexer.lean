import SignalNet.Yaml.Block
import SignalNet.Yaml.Tag

/-!
# From text to tokens

Two things make the tokens of a text depend on more than the next characters.

* **Indentation.**  Outside brackets a deeper column opens a block, and a
  column further left closes all deeper blocks.
* **Keys.**  A scalar, a tag or an opening bracket may be the start of a key,
  and whether it is turns out only at the colon behind it.  The place of the
  last such *candidate* is remembered for each level of brackets, and the
  tokens `key` and `blockMap` are inserted before it when the colon comes.  A
  candidate lapses at the end of its line and after 1024 bytes.
-/

namespace SignalNet.Yaml

/-- A place where a key may have started. -/
structure Candidate where
  /-- Nothing but a key can stand there, because its block is a mapping. -/
  required : Bool
  /-- The number of tokens before it. -/
  place : Nat
  index : Nat
  line : Nat
  column : Nat

/-- The state of reading tokens. -/
structure Lexer where
  cursor : Cursor
  /-- The tokens read, the last one first. -/
  tokens : List Token := []
  /-- The number of tokens read. -/
  count : Nat := 0
  /-- The column of the innermost block, `-1` outside of all blocks. -/
  indent : Int := -1
  /-- The columns of the blocks around it, innermost first. -/
  outerIndents : List Int := []
  /-- A key may start here. -/
  keyAllowed : Bool := true
  candidate : Option Candidate := none
  /-- The candidates outside of each pair of brackets, innermost first. -/
  outerCandidates : List (Option Candidate) := []

namespace Lexer

/-- The place lies between brackets. -/
def inFlow (l : Lexer) : Bool :=
  !l.outerCandidates.isEmpty

/-- Add a token behind the first `place` tokens. -/
def insert (l : Lexer) (place : Nat) (t : Token) : Lexer :=
  let later := l.count - place
  { l with tokens := l.tokens.take later ++ t :: l.tokens.drop later, count := l.count + 1 }

/-- Add a token at the end. -/
def emit (l : Lexer) (t : Token) : Lexer :=
  l.insert l.count t

/-- Go on by `n` characters, which are the token `t`. -/
def emitNext (l : Lexer) (n : Nat) (t : Token) : Lexer :=
  { l with cursor := l.cursor.advance n }.emit t

/-- Close the blocks that are deeper than a column.  Returns how many they
are, and the columns of the remaining ones. -/
def closing (column : Int) : (indent : Int) → (outer : List Int) → Nat × Int × List Int
  | indent, [] => (0, indent, [])
  | indent, next :: outer =>
    if column < indent then
      let (count, indent, outer) := closing column next outer
      (count + 1, indent, outer)
    else (0, indent, next :: outer)

/-- Close the blocks that are deeper than a column.  Brackets keep their
blocks open. -/
def unindent (l : Lexer) (column : Int) : Lexer :=
  if l.inFlow then l
  else
    let (count, indent, outer) := closing column l.indent l.outerIndents
    { l with
      tokens := List.replicate count .blockEnd ++ l.tokens
      count := l.count + count
      indent := indent
      outerIndents := outer }

/-- Open a block at a column, if it is deeper than the innermost one.  The
block starts behind the first `place` tokens. -/
def openBlock (l : Lexer) (column place : Nat) (t : Token) : Lexer :=
  if l.inFlow || (column : Int) ≤ l.indent then l
  else { l.insert place t with indent := column, outerIndents := l.indent :: l.outerIndents }

/-- Give up the candidate. -/
def dropCandidate? (l : Lexer) : Option Lexer :=
  if l.candidate.any (·.required) then none else some { l with candidate := none }

/-- Remember the place as a candidate, if a key may start here. -/
def saveCandidate? (l : Lexer) : Option Lexer :=
  if !l.keyAllowed then some l
  else do
    let l ← l.dropCandidate?
    let c := l.cursor
    let required := !l.inFlow && l.indent == c.column
    return { l with candidate := some ⟨required, l.count, c.index, c.line, c.column⟩ }

/-- A candidate on an earlier line, or too far back. -/
def lapsed (l : Lexer) (k : Candidate) : Bool :=
  k.line < l.cursor.line || k.index + 1024 < l.cursor.index

/-- Forget the candidates that have lapsed, none of which may be required. -/
def lapse? (l : Lexer) : Option Lexer :=
  let refused := (l.candidate :: l.outerCandidates).any (·.any fun k => k.required && l.lapsed k)
  let current := Option.filter (fun k => !l.lapsed k)
  if refused then none
  else some { l with
    candidate := current l.candidate
    outerCandidates := l.outerCandidates.map current }

/-- Pass over blanks, comments and line ends.  A tabulator counts as a blank
only where no key may start, and a byte order mark may stand at the start of
each line.  Outside brackets a key may start on a new line. -/
def skipSpace : (fuel : Nat) → Lexer → Lexer
  | 0, l => l
  | fuel + 1, l =>
    let marked := l.cursor.column == 0 && l.cursor.ahead 0 (·.toNat == 0xfeff)
    let c := if marked then l.cursor.advance 1 else l.cursor
    let tabs := l.inFlow || !l.keyAllowed
    let c := (c.skipWhile fun x => x == ' ' || (tabs && x == '\t')).skipComment
    if c.ahead 0 isBreak then
      skipSpace fuel { l with cursor := c.nextLine, keyAllowed := !l.inFlow || l.keyAllowed }
    else { l with cursor := c }

/-- A token before which all blocks are closed. -/
def atMargin? (l : Lexer) : Option Lexer := do
  let l ← (l.unindent (-1)).dropCandidate?
  return { l with keyAllowed := false }

/-- The end of the text. -/
def textEnd? (l : Lexer) : Option Lexer := do
  let l ← l.atMargin?
  return l.emit .textEnd

/-- A line before the document. -/
def directive? (l : Lexer) : Option Lexer := do
  let l ← l.atMargin?
  let (token, c) ← Tag.directive? l.cursor
  return { l with cursor := c }.emit token

/-- A mark between documents. -/
def marker? (l : Lexer) (t : Token) : Option Lexer := do
  let l ← l.atMargin?
  return l.emitNext 3 t

/-- An opening bracket. -/
def opening? (l : Lexer) (t : Token) : Option Lexer := do
  let l ← l.saveCandidate?
  return { l with
    candidate := none
    outerCandidates := l.candidate :: l.outerCandidates
    keyAllowed := true }.emitNext 1 t

/-- A closing bracket. -/
def closing? (l : Lexer) (t : Token) : Option Lexer := do
  let l ← l.dropCandidate?
  let l := match l.outerCandidates with
    | [] => l
    | candidate :: outer => { l with candidate := candidate, outerCandidates := outer }
  return { l with keyAllowed := false }.emitNext 1 t

/-- A comma inside brackets. -/
def comma? (l : Lexer) : Option Lexer := do
  let l ← l.dropCandidate?
  return { l with keyAllowed := true }.emitNext 1 .comma

/-- Open a block for a mark that stands here.  Outside brackets the mark may
stand only where a key may. -/
def openHere? (l : Lexer) (t : Token) : Option Lexer :=
  if l.inFlow then some l
  else if l.keyAllowed then some (l.openBlock l.cursor.column l.count t)
  else none

/-- The hyphen before an item. -/
def item? (l : Lexer) : Option Lexer := do
  let l ← (← l.openHere? .blockList).dropCandidate?
  return { l with keyAllowed := true }.emitNext 1 .item

/-- The question mark before a key. -/
def key? (l : Lexer) : Option Lexer := do
  let l ← (← l.openHere? .blockMap).dropCandidate?
  return { l with keyAllowed := !l.inFlow }.emitNext 1 .key

/-- The colon before a value.  The candidate becomes a key. -/
def value? (l : Lexer) : Option Lexer :=
  match l.candidate with
  | some k =>
    let l := (l.insert k.place .key).openBlock k.column k.place .blockMap
    some ({ l with candidate := none, keyAllowed := false }.emitNext 1 .value)
  | none => do
    let l ← l.openHere? .blockMap
    return { l with keyAllowed := !l.inFlow }.emitNext 1 .value

/-- A part of a node on one line: it may start a key, and no key may start
directly behind it. -/
def inline? (l : Lexer) (read? : Cursor → Option (Token × Cursor)) : Option Lexer := do
  let l ← l.saveCandidate?
  let (token, c) ← read? l.cursor
  return { l with cursor := c, keyAllowed := false }.emit token

/-- A scalar in quotes. -/
def quoted? (l : Lexer) (style : Style) (quote : Char) : Option Lexer :=
  l.inline? fun c => (Quoted.read? quote c).map fun (text, c) => (.scalar style text, c)

/-- A scalar of indented lines. -/
def block? (l : Lexer) (style : Style) : Option Lexer := do
  let l ← l.dropCandidate?
  let (text, c) ← Block.read? (style == .folded) l.indent l.cursor
  return { l with cursor := c, keyAllowed := true }.emit (.scalar style text)

/-- A scalar without quotes. -/
def plain? (l : Lexer) : Option Lexer := do
  let l ← l.saveCandidate?
  let (text, broken, c) ← Plain.read? l.inFlow (l.indent + 1).toNat l.cursor
  return { l with cursor := c, keyAllowed := broken }.emit (.scalar .plain text)

/-- The token at the cursor. -/
def token? (l : Lexer) : Option Lexer :=
  let c := l.cursor
  let word (x : Char) : Bool := c.nextIs x && (l.inFlow || c.wordEnds 1)
  if c.atEnd then l.textEnd?
  else if c.column == 0 && c.nextIs '%' then l.directive?
  else if c.atMarker '-' then l.marker? .documentStart
  else if c.atMarker '.' then l.marker? .documentEnd
  else if c.nextIs '[' then l.opening? .flowListStart
  else if c.nextIs '\x7b' then l.opening? .flowMapStart
  else if c.nextIs ']' then l.closing? .flowListEnd
  else if c.nextIs '\x7d' then l.closing? .flowMapEnd
  else if c.nextIs ',' then l.comma?
  else if c.nextIs '-' && c.wordEnds 1 then l.item?
  else if word '?' then l.key?
  else if word ':' then l.value?
  else if c.nextIs '*' then l.inline? fun c => (Tag.name? c).map fun (n, c) => (.reference n, c)
  else if c.nextIs '&' then l.inline? fun c => (Tag.name? c).map fun (n, c) => (.anchor n, c)
  else if c.nextIs '!' then l.inline? (Tag.read? l.inFlow)
  else if c.nextIs '|' && !l.inFlow then l.block? .literal
  else if c.nextIs '>' && !l.inFlow then l.block? .folded
  else if c.nextIs '\'' then l.quoted? .singleQuoted '\''
  else if c.nextIs '"' then l.quoted? .doubleQuoted '"'
  else if Plain.starts l.inFlow c then l.plain?
  else none

/-- Read tokens to the end of the text. -/
def run? : (fuel : Nat) → Lexer → Option (List Token)
  | 0, _ => none
  | fuel + 1, l => do
    let l ← (l.skipSpace l.cursor.steps).lapse?
    let l := l.unindent l.cursor.column
    let atEnd := l.cursor.atEnd
    let l ← l.token?
    if atEnd then return l.tokens.reverse else run? fuel l

end Lexer

/-- The tokens of a text, if it has any meaning. -/
def tokens? (text : String) : Option (List Token) :=
  let c : Cursor := { rest := text.toList }
  if c.rest.all isAllowed then Lexer.run? c.steps { cursor := c } else none

end SignalNet.Yaml
