/-!
# Tokens

A text is first cut into tokens.  Indentation is expressed by tokens of its
own: a block of lines starts with `blockList` or `blockMap` and ends with
`blockEnd`, as a bracketed list starts and ends with its brackets.
-/

namespace SignalNet.Yaml

/-- How a scalar is written. -/
inductive Style
  | plain
  | singleQuoted
  | doubleQuoted
  /-- Lines below a bar, kept as they are. -/
  | literal
  /-- Lines below an angle bracket, joined by spaces. -/
  | folded
  deriving DecidableEq, Repr

/-- A unit of a text. -/
inductive Token
  | textEnd
  | version (major minor : Nat)
  /-- A handle stands for the first part of tags. -/
  | tagHandle (handle beginning : String)
  | documentStart
  | documentEnd
  | blockList
  | blockMap
  | blockEnd
  | flowListStart
  | flowListEnd
  | flowMapStart
  | flowMapEnd
  /-- A hyphen before an item. -/
  | item
  /-- A comma. -/
  | comma
  | key
  | value
  /-- A place where an anchored node is meant. -/
  | reference (name : String)
  | anchor (name : String)
  | tag (handle suffix : String)
  | scalar (style : Style) (text : String)
  deriving DecidableEq, Repr

end SignalNet.Yaml
