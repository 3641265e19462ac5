import SignalNet.Yaml.Quoted
import SignalNet.Yaml.Token

/-!
# Anchors, tags and directives

An anchor names a node, and a reference means the node so named.  A tag gives
the type of a node: `!<…>` in full, `!handle!suffix` by a handle that stands
for its beginning, or `!suffix` by the handle `!`.  Directives stand before a
document and give the version of the format and the meaning of handles.

Any byte of a tag may be written as a percent sign and two hexadecimal digits.
A zero byte ends the text of a tag, and what stands behind it is passed over.
-/

namespace SignalNet.Yaml.Tag

/-- The name behind the mark of an anchor or a reference. -/
def name? (c : Cursor) : Option (String × Cursor) :=
  let (name, c) := (c.advance 1).span isNameChar
  let ends := c.wordEnds 0 || c.ahead 0 (['?', ':', ',', ']', '\x7d', '%', '@', '\x60'].contains ·)
  if name.isEmpty || !ends then none else some (String.ofList name, c)

/-- The characters of tags besides those of names. -/
def isTagMark (x : Char) : Bool :=
  [';', '/', '?', ':', '@', '&', '=', '+', '$', '.', '%', '!', '~', '*', '\'', '(', ')'].contains x

/-- The characters of tags.  A tag in full may also hold commas and
brackets. -/
def isTagChar (full : Bool) (x : Char) : Bool :=
  isNameChar x || isTagMark x || (full && [',', '[', ']'].contains x)

/-- How many bytes follow a first byte in UTF-8, and the bits that this byte
contributes. -/
def leadByte? (b : Nat) : Option (Nat × Nat) :=
  if b < 0x80 then some (0, b)
  else if b / 32 = 6 then some (1, b % 32)
  else if b / 16 = 14 then some (2, b % 16)
  else if b / 8 = 30 then some (3, b % 8)
  else none

/-- The byte behind a percent sign. -/
def byte? : List Char → Option Nat
  | '%' :: rest => Quoted.hex? 2 rest
  | _ => none

/-- The bits of `count` bytes that follow a first byte. -/
def tailBits? : (count : Nat) → (bits : Nat) → List Char → Option Nat
  | 0, bits, _ => some bits
  | count + 1, bits, cs =>
    match byte? cs with
    | some b => if b / 64 = 2 then tailBits? count (64 * bits + b % 64) (cs.drop 3) else none
    | none => none

/-- The character with the bits of `count + 1` bytes.  If there is none, or
if fewer bytes would do, the replacement character takes its place. -/
def charOfBits (count bits : Nat) : Char :=
  match Quoted.charOf? bits with
  | some x => if x.utf8Size = count + 1 then x else '\ufffd'
  | none => '\ufffd'

/-- The character whose UTF-8 bytes are written behind percent signs, and the
length of its escape. -/
def escape? (cs : List Char) : Option (Char × Nat) := do
  let (count, bits) ← (byte? cs).bind leadByte?
  let bits ← tailBits? count bits (cs.drop 3)
  return (charOfBits count bits, 3 * (count + 1))

/-- The longest run of characters of tags, with its escapes resolved. -/
def run? (full : Bool) : (fuel : Nat) → (before : List Char) → Cursor → Option (List Char × Cursor)
  | 0, before, c => some (before.reverse, c)
  | fuel + 1, before, c =>
    match c.rest with
    | [] => some (before.reverse, c)
    | x :: _ =>
      if !isTagChar full x then some (before.reverse, c)
      else if x = '%' then
        match escape? c.rest with
        | some (y, width) => run? full fuel (y :: before) (c.advance width)
        | none => none
      else run? full fuel (x :: before) (c.advance 1)

/-- The text of a run of characters of tags. -/
def textOf (run : List Char) : String :=
  String.ofList (run.takeWhile (·.toNat != 0))

/-- A run of characters of tags that is not empty. -/
def someRun? (full : Bool) (c : Cursor) : Option (String × Cursor) := do
  let (run, c) ← run? full c.steps [] c
  if run.isEmpty then none else return (textOf run, c)

/-- An exclamation mark, a name behind it, and one more exclamation mark if it
is there.  Returns also whether it is. -/
def handle? (c : Cursor) : Option (List Char × Bool × Cursor) :=
  if !c.nextIs '!' then none
  else
    let (name, c) := (c.advance 1).span isNameChar
    if c.nextIs '!' then some ('!' :: name ++ ['!'], true, c.advance 1)
    else some ('!' :: name, false, c)

/-- The handle and the suffix of a tag, which stands here.  A tag in full has
no handle, and neither has the exclamation mark alone. -/
def parts? (c : Cursor) : Option ((String × String) × Cursor) :=
  if c.ahead 1 (· == '<') then do
    let (tag, c) ← someRun? true (c.advance 2)
    if c.nextIs '>' then return (("", tag), c.advance 1) else none
  else do
    let (handle, closed, after) ← handle? c
    if closed then
      let (suffix, after) ← someRun? false after
      return ((String.ofList handle, suffix), after)
    else
      let (run, after) ← run? false after.steps [] after
      let suffix := textOf (handle.drop 1 ++ run)
      return (if suffix.isEmpty then ("", "!") else ("!", suffix), after)

/-- Read a tag.  A blank, the end of the line or, inside brackets, a comma
must follow. -/
def read? (flow : Bool) (c : Cursor) : Option (Token × Cursor) := do
  let ((handle, suffix), c) ← parts? c
  if (flow && c.nextIs ',') || c.wordEnds 0 then return (.tag handle suffix, c) else none

/-- A number of at most nine digits. -/
def number? (c : Cursor) : Option (Nat × Cursor) :=
  let (digits, c) := c.span Char.isDigit
  if digits.isEmpty || 9 < digits.length then none
  else some (digits.foldl (fun n x => 10 * n + (x.toNat - '0'.toNat)) 0, c)

/-- The two numbers of a version, with a point between them. -/
def version? (c : Cursor) : Option (Token × Cursor) := do
  let (major, c) ← number? (c.skipWhile isBlank)
  if !c.nextIs '.' then none
  let (minor, c) ← number? (c.advance 1)
  return (.version major minor, c)

/-- A handle, and the beginning of tags for which it stands. -/
def meaning? (c : Cursor) : Option (Token × Cursor) := do
  let (handle, closed, c) ← handle? (c.skipWhile isBlank)
  if (!closed && handle != ['!']) || !c.ahead 0 isBlank then none
  let (beginning, c) ← someRun? true (c.skipWhile isBlank)
  if c.wordEnds 0 then return (.tagHandle (String.ofList handle) beginning, c) else none

/-- Read a directive, which fills a line of its own. -/
def directive? (c : Cursor) : Option (Token × Cursor) := do
  let (name, c) := (c.advance 1).span isNameChar
  if !c.wordEnds 0 then none
  let (token, c) ←
    if name = ['Y', 'A', 'M', 'L'] then version? c
    else if name = ['T', 'A', 'G'] then meaning? c
    else none
  let c := (c.skipWhile isBlank).skipComment
  if c.lineEnds then return (token, c.nextLine) else none

end SignalNet.Yaml.Tag
