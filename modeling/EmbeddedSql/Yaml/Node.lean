import EmbeddedSql.Yaml.Tokens

/-!
# Documents

The tokens of a text form documents, and a document is a tree of *nodes*:
scalars, sequences, mappings, and references to nodes that carry an anchor. A
reference keeps the number of its anchor and not the node, since an anchored
collection may refer to itself.

Anchors are numbered by how many names have been in use before. A name that is
used again takes a new number, which a later name may share with it; whoever
comes last then owns the number.
-/

namespace EmbeddedSql

namespace Yaml

/-- A node of a document. -/
inductive Node where
  /-- A reference to the anchor of a number. -/
  | alias (anchor : Nat)
  /-- A scalar. -/
  | scalar (tag : Option Tag) (style : ScalarStyle) (text : List Char)
  /-- A sequence. -/
  | sequence (tag : Option Tag) (items : List Node)
  /-- A mapping, in the order in which it is written. -/
  | mapping (tag : Option Tag) (entries : List (Node × Node))

/-- A document. -/
structure Document where
  /-- Its outermost node. -/
  root : Node
  /-- The anchored nodes, by the number of the anchor. -/
  anchored : List (Nat × Node)
  /-- How many marks it takes to write the document down: one for a scalar or
  a reference, two for a collection. -/
  marks : Nat

/-- The node that the references to an anchor stand for. -/
def Document.target? (d : Document) (anchor : Nat) : Option Node := d.anchored.lookup anchor

/-! ## Reading nodes off tokens -/

/-- What is left of the tokens, and what has been said about anchors. -/
structure NodeReader where
  /-- The tokens still to be read. -/
  tokens : List Token
  /-- What the handles of tags stand for. -/
  handles : List (List Char × Tag)
  /-- The number of each anchor's name. -/
  names : List (List Char × Nat) := []
  /-- How many anchored nodes have begun. -/
  begun : Nat := 0
  /-- The anchored nodes: when they began, their number, the node. -/
  anchored : List (Nat × Nat × Node) := []
  /-- How many marks have been read. -/
  marks : Nat := 0

/-- Reads tokens, and fails where they form no document. -/
abbrev Reads := StateT NodeReader Option

namespace Reads

/-- The next token. -/
def peek : Reads Token := do
  match (← get).tokens with
  | t :: _ => return t
  | [] => failure

/-- Leaves the next token behind. -/
def advance : Reads Unit := modify fun r => { r with tokens := r.tokens.tail }

/-- Counts marks. -/
def count (n : Nat) : Reads Unit := modify fun r => { r with marks := r.marks + n }

/-- A node that is not written. -/
def absent : Reads Node := do
  count 1
  return .scalar none .plain []

/-- Gives a name a number. -/
def number (name : List Char) : Reads (Nat × Nat) := do
  let r ← get
  let n := r.names.length
  let known := r.names.any (·.1 == name)
  let names := if known then r.names.map fun e => if e.1 == name then (name, n) else e
    else r.names ++ [(name, n)]
  set { r with names := names, begun := r.begun + 1 }
  return (r.begun, n)

/-- Remembers an anchored node. -/
def remember (place : Option (Nat × Nat)) (node : Node) : Reads Unit :=
  match place with
  | none => pure ()
  | some (began, n) => modify fun r => { r with anchored := (began, n, node) :: r.anchored }

/-- What a tag says in full. -/
def fullTag (handle : List Char) (suffix : Tag) : Reads Tag := do
  if handle.isEmpty then return suffix
  match (← get).handles.lookup handle with
  | some uri => return uri ++ suffix
  | none => failure

/-- The anchor and the tag before a node, in either order. -/
def properties : Reads (Option (List Char) × Option Tag) := do
  match ← peek with
  | .anchor name =>
    advance
    match ← peek with
    | .tag handle suffix =>
      advance
      return (some name, some (← fullTag handle suffix))
    | _ => return (some name, none)
  | .tag handle suffix =>
    advance
    let tag ← fullTag handle suffix
    match ← peek with
    | .anchor name =>
      advance
      return (some name, some tag)
    | _ => return (none, some tag)
  | _ => return (none, none)

/-- Whether a token ends the value of a block mapping before it began. -/
def endsBlockValue : Token → Bool
  | .key | .value | .blockEnd => true
  | _ => false

/-- Whether a token ends the value of a flow collection before it began. -/
def endsFlowValue (close : Token) (t : Token) : Bool := t == .flowEntry || t == close

mutual

/-- Reads a node. Block collections are read only where `block` says so, and
entries without indentation of their own only where `indentless` does. The
first argument bounds the depth of calls. -/
def node : Nat → (block indentless : Bool) → Reads Node
  | 0, _, _ => failure
  | fuel + 1, block, indentless => do
    match ← peek with
    | .alias name =>
      advance
      count 1
      match (← get).names.lookup name with
      | some n => return .alias n
      | none => failure
    | _ =>
      let (name, tag) ← properties
      let place ← match name with
        | some name => some <$> number name
        | none => pure none
      let t ← peek
      let n ←
        if indentless && t == .blockEntry then do
          count 2
          .sequence tag <$> indentlessItems fuel
        else
          match t with
          | .scalar style text => do
            advance
            count 1
            pure (.scalar tag style text)
          | .flowSequenceStart => do
            advance
            count 2
            .sequence tag <$> flowItems fuel true
          | .flowMappingStart => do
            advance
            count 2
            .mapping tag <$> flowEntries fuel true
          | .blockSequenceStart => do
            if !block then failure
            advance
            count 2
            .sequence tag <$> blockItems fuel
          | .blockMappingStart => do
            if !block then failure
            advance
            count 2
            .mapping tag <$> blockEntries fuel
          | _ => do
            if name.isNone && tag.isNone then failure
            count 1
            pure (.scalar tag .plain [])
      remember place n
      return n

/-- Reads the entries of a block sequence. -/
def blockItems : Nat → Reads (List Node)
  | 0 => failure
  | fuel + 1 => do
    match ← peek with
    | .blockEntry =>
      advance
      let t ← peek
      let item ← if t == .blockEntry || t == .blockEnd then absent else node fuel true false
      return item :: (← blockItems fuel)
    | .blockEnd =>
      advance
      return []
    | _ => failure

/-- Reads entries that are not indented further than the key they belong
to. -/
def indentlessItems : Nat → Reads (List Node)
  | 0 => failure
  | fuel + 1 => do
    match ← peek with
    | .blockEntry =>
      advance
      let t ← peek
      let item ← if t == .blockEntry || endsBlockValue t then absent else node fuel true false
      return item :: (← indentlessItems fuel)
    | _ => return []

/-- Reads the entries of a block mapping. -/
def blockEntries : Nat → Reads (List (Node × Node))
  | 0 => failure
  | fuel + 1 => do
    match ← peek with
    | .key =>
      advance
      let key ← if endsBlockValue (← peek) then absent else node fuel true true
      let value ←
        if (← peek) == .value then do
          advance
          if endsBlockValue (← peek) then absent else node fuel true true
        else absent
      return (key, value) :: (← blockEntries fuel)
    | .blockEnd =>
      advance
      return []
    | _ => failure

/-- Reads the entries of a sequence in brackets. An entry may be a key with a
value, which is a mapping of its own. -/
def flowItems : Nat → (isFirst : Bool) → Reads (List Node)
  | 0, _ => failure
  | fuel + 1, isFirst => do
    if (← peek) == .flowSequenceEnd then
      advance
      return []
    if !isFirst then
      if (← peek) != .flowEntry then failure
      advance
    match ← peek with
    | .flowSequenceEnd =>
      advance
      return []
    | .key =>
      advance
      count 2
      let t ← peek
      let key ←
        if t == .value || endsFlowValue .flowSequenceEnd t then do
          advance
          absent
        else node fuel false false
      let value ←
        if (← peek) == .value then do
          advance
          if endsFlowValue .flowSequenceEnd (← peek) then absent else node fuel false false
        else absent
      return .mapping none [(key, value)] :: (← flowItems fuel false)
    | _ =>
      let item ← node fuel false false
      return item :: (← flowItems fuel false)

/-- Reads the entries of a mapping in braces. -/
def flowEntries : Nat → (isFirst : Bool) → Reads (List (Node × Node))
  | 0, _ => failure
  | fuel + 1, isFirst => do
    if (← peek) == .flowMappingEnd then
      advance
      return []
    if !isFirst then
      if (← peek) != .flowEntry then failure
      advance
    match ← peek with
    | .flowMappingEnd =>
      advance
      return []
    | .key =>
      advance
      let t ← peek
      let key ←
        if t == .value || endsFlowValue .flowMappingEnd t then absent else node fuel false false
      let value ←
        if (← peek) == .value then do
          advance
          if endsFlowValue .flowMappingEnd (← peek) then absent else node fuel false false
        else absent
      return (key, value) :: (← flowEntries fuel false)
    | _ =>
      let key ← node fuel false false
      let value ← absent
      return (key, value) :: (← flowEntries fuel false)

end

/-! ## Reading documents -/

/-- The handles that every document knows. -/
def defaultHandles : List (List Char × Tag) :=
  [(['!'], .ofText "!"), (['!', '!'], .ofText "tag:yaml.org,2002:")]

/-- Reads the directives before a document: one version at most, which must be
1.1 or 1.2, and handles, each defined once. -/
def directives : Nat → (versioned : Bool) → (defined : List (List Char × Tag)) → Reads Unit
  | 0, _, _ => failure
  | fuel + 1, versioned, defined => do
    match ← peek with
    | .version major minor =>
      if versioned || major != 1 || !(minor == 1 || minor == 2) then failure
      advance
      directives fuel true defined
    | .tagHandle handle uri =>
      if defined.any (·.1 == handle) then failure
      advance
      directives fuel versioned ((handle, uri) :: defined)
    | _ => modify fun r => { r with handles := defined ++ r.handles }

/-- Whether a token can follow a document that is empty. -/
def endsDocument : Token → Bool
  | .version .. | .tagHandle .. | .documentStart | .documentEnd | .streamEnd => true
  | _ => false

/-- Leaves marks behind that end a document already ended. -/
def skipDocumentEnds : Nat → Reads Unit
  | 0 => failure
  | fuel + 1 => do
    if (← peek) == .documentEnd then
      advance
      skipDocumentEnds fuel

/-- Reads a text of one document at most. -/
def stream (fuel : Nat) : Reads (Option Node) := do
  if (← peek) == .streamEnd then return none
  let t ← peek
  let root ←
    if endsDocument t && t != .documentEnd then do
      directives fuel false []
      if (← peek) != .documentStart then failure
      advance
      if endsDocument (← peek) then absent else node fuel true false
    else node fuel true false
  skipDocumentEnds fuel
  if (← peek) != .streamEnd then failure
  return some root

end Reads

/-- The document of tokens that form one document, nothing if they form none,
and failure if they are not well-formed or form several. -/
def Document.ofTokens? (tokens : List Token) : Option (Option Document) := do
  let fuel := 3 * tokens.length + 3
  let (root, r) ← (Reads.stream fuel).run { tokens := tokens, handles := Reads.defaultHandles }
  return root.map fun root =>
    { root := root
      anchored := (r.anchored.mergeSort fun a b => decide (b.1 ≤ a.1)).map Prod.snd
      marks := r.marks }

end Yaml

end EmbeddedSql
