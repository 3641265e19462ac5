import SignalNet.Yaml.Lexer

/-!
# Trees

A text holds one document, and a document is a tree of scalars, lists and
mappings.  A node may be named by an anchor, and a reference means the node
that is named so.

Names are numbered in the order in which they come up, and a reference holds
a number.  If a name is given again, it gets a new number, which counts the
names known by then; two names may so come to share a number, and it means the
node that was anchored last.
-/

namespace SignalNet.Yaml

/-- A scalar of a document. -/
structure Scalar where
  style : Style
  tag : Option String
  text : String
  deriving DecidableEq, Repr

/-- A node of a document. -/
inductive Node
  | scalar (s : Scalar)
  | list (items : List Node)
  | map (entries : List (Node × Node))
  | reference (number : Nat)

/-- A node that is left out counts as an empty plain scalar. -/
def Node.missing : Node :=
  .scalar ⟨.plain, none, ""⟩

/-- The names of nodes. -/
structure Anchors where
  /-- The number of each name. -/
  numbers : List (String × Nat) := []
  /-- The nodes with a number, the last first; `none` for collections. -/
  targets : List (Nat × Option Scalar) := []

namespace Anchors

/-- Give a name to a node. -/
def insert (a : Anchors) (name : String) (target : Option Scalar) : Anchors :=
  let number := a.numbers.length
  { numbers := (name, number) :: a.numbers.filter (·.1 != name)
    targets := (number, target) :: a.targets }

/-- The scalar that a node is or means. -/
def scalar? (a : Anchors) : Node → Option Scalar
  | .scalar s => some s
  | .reference number => (a.targets.lookup number).join
  | .list _ | .map _ => none

end Anchors

/-- The state of reading a tree. -/
structure Growth where
  tokens : List Token
  /-- The beginning of tags for which each handle stands. -/
  handles : List (String × String)
  anchors : Anchors := {}

/-- A step of reading a tree. -/
abbrev Growing := StateT Growth Option

namespace Growing

/-- The next token. -/
def peek : Growing Token := do
  return ((← get).tokens.head?).getD .textEnd

/-- Pass over the next token. -/
def skip : Growing Unit :=
  modify fun g => { g with tokens := g.tokens.drop 1 }

/-- Pass over the next token if it is `t`, and tell whether it was. -/
def accept (t : Token) : Growing Bool := do
  let found := (← peek) == t
  if found then skip
  return found

/-- The next token must be `t`. -/
def expect (t : Token) : Growing Unit := do
  if !(← accept t) then failure

/-- An anchor, if one stands here. -/
def anchor? : Growing (Option String) := do
  match ← peek with
  | .anchor name => skip; return some name
  | _ => return none

/-- A tag, if one stands here.  Its handle must be known. -/
def tag? : Growing (Option String) := do
  match ← peek with
  | .tag handle suffix =>
    skip
    if handle.isEmpty then return some suffix
    match (← get).handles.lookup handle with
    | some beginning => return some (beginning ++ suffix)
    | none => failure
  | _ => return none

/-- Name a node, if it has an anchor. -/
def name (anchor : Option String) (target : Option Scalar) : Growing Unit := do
  if let some name := anchor then
    modify fun g => { g with anchors := g.anchors.insert name target }

/-- A scalar with its anchor. -/
def leaf (anchor : Option String) (s : Scalar) : Growing Node := do
  name anchor (some s)
  return .scalar s

mutual

/-- A node.  `block` allows blocks of lines, and `flat` allows a list whose
items are not indented. -/
def node : (fuel : Nat) → (block flat : Bool) → Growing Node
  | 0, _, _ => failure
  | fuel + 1, block, flat => do
    if let .reference name ← peek then
      skip
      match (← get).anchors.numbers.lookup name with
      | some number => return .reference number
      | none => failure
    else
      let before ← anchor?
      let tag ← tag?
      let anchor ← if before.isSome then pure before else anchor?
      match ← peek with
      | .scalar style text =>
        skip
        leaf anchor ⟨style, tag, text⟩
      | .flowListStart =>
        skip
        name anchor none
        return .list (← flowItems fuel true)
      | .flowMapStart =>
        skip
        name anchor none
        return .map (← flowEntries fuel true)
      | other =>
        if flat && other == .item then
          name anchor none
          return .list (← flatItems fuel)
        else if block && other == .blockList then
          skip
          name anchor none
          return .list (← blockItems fuel)
        else if block && other == .blockMap then
          skip
          name anchor none
          return .map (← blockEntries fuel)
        else if anchor.isSome || tag.isSome then leaf anchor ⟨.plain, tag, ""⟩
        else failure

/-- A node, left out if one of the tokens `ends` follows. -/
def nodeBefore : (fuel : Nat) → (block flat : Bool) → (ends : List Token) → Growing Node
  | 0, _, _, _ => failure
  | fuel + 1, block, flat, ends => do
    if ends.contains (← peek) then return .missing
    else node fuel block flat

/-- The items of an indented list. -/
def blockItems : (fuel : Nat) → Growing (List Node)
  | 0 => failure
  | fuel + 1 => do
    if ← accept .blockEnd then return []
    expect .item
    let first ← nodeBefore fuel true false [.item, .blockEnd]
    return first :: (← blockItems fuel)

/-- The items of a list that is not indented, up to the first other token. -/
def flatItems : (fuel : Nat) → Growing (List Node)
  | 0 => failure
  | fuel + 1 => do
    if ← accept .item then
      let first ← nodeBefore fuel true false [.item, .key, .value, .blockEnd]
      return first :: (← flatItems fuel)
    else return []

/-- The entries of an indented mapping. -/
def blockEntries : (fuel : Nat) → Growing (List (Node × Node))
  | 0 => failure
  | fuel + 1 => do
    if ← accept .blockEnd then return []
    expect .key
    let key ← nodeBefore fuel true true [.key, .value, .blockEnd]
    let value ← if ← accept .value then nodeBefore fuel true true [.key, .value, .blockEnd]
      else pure .missing
    return (key, value) :: (← blockEntries fuel)

/-- The items of a list in brackets.  An item may be a single entry of a
mapping; if its key is left out, so is the token behind it. -/
def flowItems : (fuel : Nat) → (first : Bool) → Growing (List Node)
  | 0, _ => failure
  | fuel + 1, first => do
    if ← accept .flowListEnd then return []
    if !first then expect .comma
    if ← accept .key then
      let key ←
        if [Token.value, .comma, .flowListEnd].contains (← peek) then do skip; pure .missing
        else node fuel false false
      let value ← if ← accept .value then nodeBefore fuel false false [.comma, .flowListEnd]
        else pure .missing
      return .map [(key, value)] :: (← flowItems fuel false)
    else if ← accept .flowListEnd then return []
    else
      let item ← node fuel false false
      return item :: (← flowItems fuel false)

/-- The entries of a mapping in braces.  A key alone has no value. -/
def flowEntries : (fuel : Nat) → (first : Bool) → Growing (List (Node × Node))
  | 0, _ => failure
  | fuel + 1, first => do
    if ← accept .flowMapEnd then return []
    if !first then expect .comma
    if ← accept .key then
      let key ← nodeBefore fuel false false [.value, .comma, .flowMapEnd]
      let value ← if ← accept .value then nodeBefore fuel false false [.comma, .flowMapEnd]
        else pure .missing
      return (key, value) :: (← flowEntries fuel false)
    else if ← accept .flowMapEnd then return []
    else
      let key ← node fuel false false
      return (key, .missing) :: (← flowEntries fuel false)

end

/-- The directives before a document: at most one version, which must be 1.1
or 1.2, and each handle at most once. -/
def directives : (fuel : Nat) → (versioned : Bool) → (handles : List (String × String)) →
    Growing (List (String × String))
  | 0, _, _ => failure
  | fuel + 1, versioned, handles => do
    match ← peek with
    | .version major minor =>
      if versioned || major != 1 || !(minor == 1 || minor == 2) then failure
      skip
      directives fuel true handles
    | .tagHandle handle beginning =>
      if handles.any (·.1 == handle) then failure
      skip
      directives fuel versioned ((handle, beginning) :: handles)
    | _ => return handles

/-- Pass over marks that end a document. -/
def skipEnds : (fuel : Nat) → Growing Unit
  | 0 => return
  | fuel + 1 => do
    if ← accept .documentEnd then skipEnds fuel

end Growing

/-- A document: its root and the meaning of its references. -/
structure Tree where
  root : Node
  anchors : Anchors := {}

namespace Tree

/-- Whether a token can only stand before, between or behind documents. -/
def isOutside : Token → Bool
  | .textEnd | .version .. | .tagHandle .. | .documentStart | .documentEnd => true
  | _ => false

/-- The handles that are known without a directive. -/
def standardHandles : List (String × String) :=
  [("!", "!"), ("!!", "tag:yaml.org,2002:")]

open Growing in
/-- The root of the only document.  A document without a mark at its start has
no directives and cannot be empty, unless there is nothing in the text. -/
def grow (fuel : Nat) : Growing Node := do
  let first ← peek
  if first == .textEnd then return .missing
  let root ←
    if isOutside first && first != .documentEnd then
      let handles ← directives fuel false []
      expect .documentStart
      modify fun g => { g with handles := handles ++ g.handles }
      if isOutside (← peek) then pure .missing else node fuel true false
    else node fuel true false
  skipEnds fuel
  expect .textEnd
  return root

/-- Read a document. -/
def read? (text : String) : Option Tree := do
  let tokens ← tokens? text
  let (root, g) ← (grow (4 * tokens.length + 4)).run { tokens, handles := standardHandles }
  return ⟨root, g.anchors⟩

/-- The entries of a mapping, by the text of their keys, which must be
scalars.  A document that is empty has no entries. -/
def entries? (t : Tree) : Option (List (String × Node)) :=
  match t.root with
  | .map entries => entries.mapM fun (key, value) =>
    (t.anchors.scalar? key).map fun s => (s.text, value)
  | .scalar s => if s.style = .plain ∧ s.text = "" then some [] else none
  | .list _ | .reference _ => none

end Tree

end SignalNet.Yaml
