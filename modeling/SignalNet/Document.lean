import SignalNet.Decimal.Layout

/-!
# JSON documents

Networks are exported as JSON.  A document is a tree whose objects keep the
order of their fields.
-/

namespace SignalNet

/-- A JSON document. -/
inductive Document
  | null
  | boolean (b : Bool)
  | integer (n : Int)
  | real (x : Float)
  | text (s : String)
  | list (items : List Document)
  | object (fields : List (String × Document))

namespace Document

/-- One hexadecimal digit. -/
def hexDigit (n : Nat) : Char :=
  ((Nat.toDigits 16 (n % 16))[0]?).getD '0'

/-- A character inside a quoted text: quotes, backslashes and control
characters are escaped. -/
def escape (c : Char) : List Char :=
  if c = '"' then ['\\', '"']
  else if c = '\\' then ['\\', '\\']
  else if c = '\n' then ['\\', 'n']
  else if c = '\r' then ['\\', 'r']
  else if c = '\t' then ['\\', 't']
  else if c.toNat = 8 then ['\\', 'b']
  else if c.toNat = 12 then ['\\', 'f']
  else if c.toNat < 32 then
    ['\\', 'u', '0', '0', hexDigit (c.toNat / 16), hexDigit c.toNat]
  else [c]

/-- A quoted text. -/
def quote (s : String) : String :=
  "\"" ++ String.ofList (s.toList.flatMap escape) ++ "\""

/-- A number; JSON has no word for infinities and NaNs. -/
def realText (x : Float) : String :=
  if x.isFinite then Decimal.Layout.exported.write x else "null"

mutual

/-- The document on one line, without blanks. -/
def compact : Document → String
  | null => "null"
  | boolean b => toString b
  | integer n => toString n
  | real x => realText x
  | text s => quote s
  | list items => "[" ++ ",".intercalate (compactItems items) ++ "]"
  | object fields => "\x7b" ++ ",".intercalate (compactFields fields) ++ "\x7d"

/-- The items of a list on one line. -/
def compactItems : List Document → List String
  | [] => []
  | d :: rest => d.compact :: compactItems rest

/-- The fields of an object on one line. -/
def compactFields : List (String × Document) → List String
  | [] => []
  | (k, d) :: rest => (quote k ++ ":" ++ d.compact) :: compactFields rest

end

/-- Items between brackets, one to a line, indented below `margin`. -/
def bracketed (margin opening closing : String) : List String → String
  | [] => opening ++ closing
  | items =>
    opening ++ "\n" ++ ",\n".intercalate (items.map fun i => margin ++ "  " ++ i) ++ "\n" ++
      margin ++ closing

mutual

/-- The document with one item to a line, indented by two blanks a level. -/
def pretty (margin : String) : Document → String
  | null => "null"
  | boolean b => toString b
  | integer n => toString n
  | real x => realText x
  | text s => quote s
  | list items => bracketed margin "[" "]" (prettyItems (margin ++ "  ") items)
  | object fields => bracketed margin "\x7b" "\x7d" (prettyFields (margin ++ "  ") fields)

/-- The items of a list. -/
def prettyItems (margin : String) : List Document → List String
  | [] => []
  | d :: rest => d.pretty margin :: prettyItems margin rest

/-- The fields of an object. -/
def prettyFields (margin : String) : List (String × Document) → List String
  | [] => []
  | (k, d) :: rest => (quote k ++ ": " ++ d.pretty margin) :: prettyFields margin rest

end

end Document

end SignalNet
