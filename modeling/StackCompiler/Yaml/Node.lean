import StackCompiler.Yaml.Token

/-!
# YAML documents

The tree of a document, read from its tokens. A text holds at most one document.

A node may be given a name, by which aliases behind it refer to it. Names are numbered: a node that
is given a name takes as its number how many different names were given before, and an alias refers
to the number that its name has at that place. If a name is given again two nodes may have one
number; then the last of them in the document is meant, also by aliases in front of it.

A node may also have a tag. The mark alone, as a tag of a scalar, says nothing and is dropped.
-/
namespace StackCompiler.Yaml

inductive Node where
  | scalar (tag : Option String) (style : Style) (text : String)
  | alias (number : Nat)
  | sequence (tag : Option String) (items : List Node)
  | mapping (tag : Option String) (entries : List (Node × Node))
  /-- A node that is given a name. -/
  | named (number : Nat) (node : Node)

/-- What is not written counts as an empty plain scalar. -/
def Node.empty (tag : Option String) : Node := .scalar tag .plain ""

/-- The tokens that are left, the names with their numbers, and what the handles of tags stand for.
-/
structure Reading where
  tokens : List Token
  names : List (String × Nat)
  handles : List (String × String)

abbrev Reader := StateT Reading Option

namespace Reader

def peek : Reader (Option Token) := do
  return (← get).tokens.head?

def skip : Reader Unit :=
  modify fun s => { s with tokens := s.tokens.tail }

def isNext (ts : List Token) : Reader Bool := do
  return (← peek).any ts.contains

def expect (t : Token) : Reader Unit := do
  if ← isNext [t] then skip else failure

def giveName (name : String) : Reader Nat :=
  modifyGet fun s =>
    let number := s.names.length
    (number, { s with names := (name, number) :: s.names.filter (·.1 != name) })

def findName (name : String) : Reader Nat := do
  match (← get).names.find? (·.1 == name) with
  | some (_, number) => return number
  | none => failure

def tagOf (name : TagName) : Reader String := do
  if name.handle.isEmpty then return name.suffix
  else
    match (← get).handles.find? (·.1 == name.handle) with
    | some (_, meaning) => return meaning ++ name.suffix
    | none => failure

def anchor? : Reader (Option Nat) := do
  match ← peek with
  | some (.anchor name) =>
    skip
    return some (← giveName name)
  | _ => return none

def tag? : Reader (Option String) := do
  match ← peek with
  | some (.tag name) =>
    skip
    return some (← tagOf name)
  | _ => return none

/-- The name and the tag in front of a node, in either order. -/
def properties : Reader (Option Nat × Option String) := do
  match ← anchor? with
  | some number => return (some number, ← tag?)
  | none =>
    match ← tag? with
    | some tag => return (← anchor?, some tag)
    | none => return (none, none)

mutual

/-- A node. Outside of blocks no block starts, and only the value of a key in a block may be a
sequence that is not indented. -/
def node : Nat → Bool → Bool → Reader Node
  | 0, _, _ => failure
  | fuel + 1, block, indentless => do
    match ← peek with
    | some (.alias name) =>
      skip
      return .alias (← findName name)
    | _ =>
      let (number, tag) ← properties
      let node ← content fuel block indentless tag (number.isSome || tag.isSome)
      match number with
      | some number => return .named number node
      | none => return node

/-- A node behind its properties. It may be empty if it has some. -/
def content : Nat → Bool → Bool → Option String → Bool → Reader Node
  | 0, _, _, _, _ => failure
  | fuel + 1, block, indentless, tag, mayBeEmpty => do
    let empty : Reader Node := if mayBeEmpty then pure (.empty tag) else failure
    match ← peek with
    | some (.scalar style text) =>
      skip
      return .scalar (tag.filter (· != "!")) style text
    | some .flowSequenceStart =>
      skip
      return .sequence tag (← flowItems fuel true)
    | some .flowMappingStart =>
      skip
      return .mapping tag (← flowEntries fuel true)
    | some .blockEntry =>
      if indentless then return .sequence tag (← indentlessItems fuel) else empty
    | some .blockSequenceStart =>
      if block then
        skip
        return .sequence tag (← blockItems fuel)
      else empty
    | some .blockMappingStart =>
      if block then
        skip
        return .mapping tag (← blockEntries fuel)
      else empty
    | _ => empty

/-- A node, or an empty one before any of the tokens `stops`. -/
def nodeBefore : Nat → List Token → Bool → Bool → Reader Node
  | 0, _, _, _ => failure
  | fuel + 1, stops, block, indentless => do
    if ← isNext stops then return .empty none else node fuel block indentless

def blockItems : Nat → Reader (List Node)
  | 0 => failure
  | fuel + 1 => do
    if ← isNext [.blockEnd] then
      skip
      return []
    else
      expect .blockEntry
      let item ← nodeBefore fuel [.blockEntry, .blockEnd] true false
      return item :: (← blockItems fuel)

/-- The items of a sequence that is not indented. It ends where no further item comes. -/
def indentlessItems : Nat → Reader (List Node)
  | 0 => failure
  | fuel + 1 => do
    if ← isNext [.blockEntry] then
      skip
      let item ← nodeBefore fuel [.blockEntry, .key, .value, .blockEnd] true false
      return item :: (← indentlessItems fuel)
    else return []

def blockEntries : Nat → Reader (List (Node × Node))
  | 0 => failure
  | fuel + 1 => do
    if ← isNext [.blockEnd] then
      skip
      return []
    else
      expect .key
      let key ← nodeBefore fuel [.key, .value, .blockEnd] true true
      let value ←
        if ← isNext [.value] then
          skip
          nodeBefore fuel [.key, .value, .blockEnd] true true
        else pure (.empty none)
      return (key, value) :: (← blockEntries fuel)

/-- The items of a flow sequence and its end. An item with a colon is a mapping of one entry. -/
def flowItems : Nat → Bool → Reader (List Node)
  | 0, _ => failure
  | fuel + 1, first => do
    if ← isNext [.flowSequenceEnd] then
      skip
      return []
    else
      if !first then expect .flowEntry
      if ← isNext [.flowSequenceEnd] then
        skip
        return []
      else if ← isNext [.key] then
        skip
        let key ←
          if ← isNext [.value, .flowEntry, .flowSequenceEnd] then
            skip
            pure (.empty none)
          else node fuel false false
        let value ← flowValue fuel .flowSequenceEnd
        return .mapping none [(key, value)] :: (← flowItems fuel false)
      else
        let item ← node fuel false false
        return item :: (← flowItems fuel false)

/-- The entries of a flow mapping and its end. A key may stand without a value. -/
def flowEntries : Nat → Bool → Reader (List (Node × Node))
  | 0, _ => failure
  | fuel + 1, first => do
    if ← isNext [.flowMappingEnd] then
      skip
      return []
    else
      if !first then expect .flowEntry
      if ← isNext [.flowMappingEnd] then
        skip
        return []
      else if ← isNext [.key] then
        skip
        let key ← nodeBefore fuel [.value, .flowEntry, .flowMappingEnd] false false
        let value ← flowValue fuel .flowMappingEnd
        return (key, value) :: (← flowEntries fuel false)
      else
        let key ← node fuel false false
        return (key, .empty none) :: (← flowEntries fuel false)

/-- The value behind a key in a flow collection that ends with `close`, if there is one. -/
def flowValue : Nat → Token → Reader Node
  | 0, _ => failure
  | fuel + 1, close => do
    if ← isNext [.value] then
      skip
      nodeBefore fuel [.flowEntry, close] false false
    else return .empty none

end

/-- Passes over the markers that end a document; nothing may follow. -/
def finish : Reader Unit := do
  modify fun s => { s with tokens := s.tokens.dropWhile (· == .documentEnd) }
  if (← peek).isSome then failure

def standardHandles : List (String × String) :=
  [("!", "!"), ("!!", "tag:yaml.org,2002:")]

/-- Whether there is at most one version among some directives, and one that can be read. -/
def versionsFit (ds : List Directive) : Bool :=
  match ds.filterMap (fun d => match d with
    | .version major minor => some (major, minor)
    | .tag _ _ => none) with
  | [] => true
  | [version] => version == (1, 1) || version == (1, 2)
  | _ => false

def handlesOf (ds : List Directive) : List (String × String) :=
  ds.filterMap fun d => match d with
    | .tag handle meaning => some (handle, meaning)
    | .version _ _ => none

/-- The directives at the start of some tokens, and the tokens behind them. -/
def splitDirectives : List Token → List Directive × List Token
  | .directive d :: rest =>
    let (ds, rest) := splitDirectives rest
    (d :: ds, rest)
  | rest => ([], rest)

/-- Reads the directives in front of a document. No handle may be given twice. -/
def directives : Reader Unit := do
  let s ← get
  let (ds, tokens) := splitDirectives s.tokens
  let given := handlesOf ds
  if versionsFit ds && (given.map Prod.fst).eraseDups.length = given.length then
    set { s with tokens, handles := given ++ standardHandles }
  else failure

/-- The document of a text, if there is one. It starts with a marker if directives stand in front.
-/
def document : Reader (Option Node) := do
  let fuel := 3 * (← get).tokens.length + 3
  match ← peek with
  | none => return none
  | some (.directive _) | some .documentStart =>
    directives
    expect .documentStart
    let stops := match ← peek with
      | none | some (.directive _) | some .documentStart | some .documentEnd => true
      | _ => false
    let root ← if stops then pure (.empty none) else node fuel true false
    finish
    return some root
  | some _ =>
    let root ← node fuel true false
    finish
    return some root

end Reader

/-- Reads a text of at most one document. -/
def parse? (cs : List Char) : Option (Option Node) := do
  let (root, _) ← Reader.document.run ⟨← tokens? cs, [], Reader.standardHandles⟩
  return root

end StackCompiler.Yaml
