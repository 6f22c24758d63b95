import ByteSchema.Yaml.Scalar
import ByteSchema.Yaml.Token

/-!
# ByteSchema.Yaml.Node

The nodes that the tokens of a YAML text describe. They form a graph: a node is known by its number
in a table, and an alias is one more mention of the number of the node that it names, which may be a
collection around it. A text holds at most one document.

Every function of the grammar is bounded by a depth that counts nested nodes and the items before
one in its collection; each costs a token, so the length of the text covers them.
-/

namespace ByteSchema.Yaml

/-- The number of a node. -/
abbrev NodeId := Nat

/-- What a node holds. -/
inductive Content where
  | scalar (text : String)
  | sequence (items : List NodeId)
  | mapping (entries : List (NodeId × NodeId))
  deriving Inhabited

/-- The kind of a content in problems. -/
def Content.kindName : Content → String
  | scalar _ => "scalar"
  | sequence _ => "sequence"
  | mapping _ => "mapping"

/-- A node of a document. -/
structure Node where
  tag : Tag
  content : Content
  mark : Mark
  deriving Inhabited

/-- The nodes of a document by their numbers. -/
abbrev Graph := Array Node

namespace Graph

/-- The node with a number. -/
def node (g : Graph) (id : NodeId) : Node := g.getD id default

/-- The entries of a mapping; other nodes have none. -/
def entries (g : Graph) (id : NodeId) : List (NodeId × NodeId) :=
  match (g.node id).content with
  | .mapping entries => entries
  | _ => []

/-- Give a node its content. -/
def setContent (g : Graph) (id : NodeId) (content : Content) : Graph :=
  g.modify id fun n => { n with content }

/-- Give a node another tag. -/
def setTag (g : Graph) (id : NodeId) (tag : Tag) : Graph := g.modify id fun n => { n with tag }

end Graph

/-- What the tags of a document can abbreviate, before any directive. -/
def defaultHandles : List (String × String) := [("!", "!"), ("!!", coreTagLead)]

/-- A reader of nodes in the middle of its tokens. -/
structure Composer where
  lexer : Lexer
  /-- Tag handles, and what they stand for. -/
  handles : List (String × String) := defaultHandles
  /-- The nodes of anchors, and where they were set. -/
  anchors : List (String × NodeId × Mark) := []
  graph : Graph := #[]

/-- Reading in the state of a composer. -/
abbrev Compose := StateT Composer (Except Rejection)

namespace Compose

/-- Read tokens. -/
def tokens {α : Type} (read : Lex α) : Compose α := do
  let s ← get
  let (a, lexer) ← read.run s.lexer
  set { s with lexer }
  return a

/-- The next token, left in place. -/
def peek : Compose Token := tokens Lex.peekToken

/-- The next token. -/
def next : Compose Token := tokens Lex.nextToken

/-- Is the next token one of these? -/
def at? (kinds : List TokenKind) : Compose Bool := return kinds.contains (← peek).kind

/-- Fail with a problem. -/
def fail {α : Type} (context : Option (String × Option Mark)) (found : String) (mark : Mark) :
    Compose α :=
  throw (.problem { context, found, mark := some mark })

/-- Fail because of the next token. -/
def failAtToken {α : Type} (context : Option (String × Option Mark)) (expected : String) :
    Compose α := do
  let t ← peek
  fail context (expected ++ Text.quote t.kind.name) t.start

/-- Add a node. -/
def add (tag : Tag) (content : Content) (mark : Mark) : Compose NodeId := do
  let s ← get
  set { s with graph := s.graph.push { tag, content, mark } }
  return s.graph.size

/-- Give a node its content. -/
def fill (id : NodeId) (content : Content) : Compose Unit :=
  modify fun s => { s with graph := s.graph.setContent id content }

/-- The empty node at a position: null. -/
def emptyNode (mark : Mark) : Compose NodeId := add .null (.scalar "") mark

/-- An anchor and a tag in front of a node, and where they start. -/
structure Properties where
  anchor : Option String := none
  /-- Handle and suffix of a tag. -/
  tag : Option (Option String × String) := none
  start : Option Mark := none
  tagMark : Mark := {}

/-- The properties in front of a node: an anchor and a tag in either order. -/
def properties : Compose Properties := do
  let t ← peek
  match t.kind with
  | .anchor name =>
    let _ ← next
    let p : Properties := { anchor := some name, start := some t.start }
    let u ← peek
    match u.kind with
    | .tag handle suffix =>
      let _ ← next
      return { p with tag := some (handle, suffix), tagMark := u.start }
    | _ => return p
  | .tag handle suffix =>
    let _ ← next
    let p : Properties :=
      { tag := some (handle, suffix), start := some t.start, tagMark := t.start }
    let u ← peek
    match u.kind with
    | .anchor name =>
      let _ ← next
      return { p with anchor := some name }
    | _ => return p
  | _ => return {}

/-- The full text of a tag, if the node has one. -/
def fullTag (p : Properties) (start : Mark) : Compose (Option String) := do
  match p.tag with
  | none => return none
  | some (none, suffix) => return some suffix
  | some (some handle, suffix) =>
    match (← get).handles.lookup handle with
    | some lead => return some (lead ++ suffix)
    | none =>
      fail (some ("while parsing a node", some start))
        ("found undefined tag handle " ++ Text.quote handle) p.tagMark

/-- See that an anchor is new. -/
def checkAnchor (anchor : Option String) (start : Mark) : Compose Unit := do
  match anchor with
  | none => return
  | some name =>
    match (← get).anchors.lookup name with
    | some (_, first) =>
      fail (some ("found duplicate anchor " ++ Text.quote name ++ "; first occurrence", some first))
        "second occurrence" start
    | none => return

/-- Add the node of an anchor, which must be new. The node of a collection is known by its anchor
before its items are read. -/
def addAnchored (anchor : Option String) (tag : Tag) (content : Content) (start : Mark) :
    Compose NodeId := do
  checkAnchor anchor start
  let id ← add tag content start
  match anchor with
  | none => return id
  | some name =>
    modify fun s => { s with anchors := (name, id, start) :: s.anchors }
    return id

/-- The tag of a scalar. One without tag, or with the tag `!`, gets it from its form, unless it is
quoted and has no tag at all. -/
def scalarTag (tag : Option String) (text : String) (plain : Bool) : Tag :=
  match tag with
  | none => if plain then tagOfForm text else .str
  | some "!" => tagOfForm text
  | some full => Tag.ofText full

/-- The tag of a collection. -/
def collectionTag (tag : Option String) (default : Tag) : Tag :=
  match tag with
  | none => default
  | some "!" => default
  | some full => Tag.ofText full

mutual

/-- A node. Block collections count only where `block` holds, and a sequence without indentation
only where `indentless` holds. -/
def node (block indentless : Bool) : Nat → Compose NodeId
  | 0 => fail none "the document is nested too deeply" {}
  | depth + 1 => do
    let t ← peek
    match t.kind with
    | .reference name =>
      let _ ← next
      match (← get).anchors.lookup name with
      | some (id, _) => return id
      | none => fail none ("found undefined alias " ++ Text.quote name) t.start
    | _ =>
      let p ← properties
      let t ← peek
      let start := p.start.getD t.start
      let tag ← fullTag p start
      let sequence (read : Compose (List NodeId)) : Compose NodeId := do
        let id ← addAnchored p.anchor (collectionTag tag .seq) (.sequence []) start
        fill id (.sequence (← read))
        return id
      let mapping (read : Compose (List (NodeId × NodeId))) : Compose NodeId := do
        let id ← addAnchored p.anchor (collectionTag tag .map) (.mapping []) start
        fill id (.mapping (← read))
        return id
      match t.kind with
      | .scalar text plain =>
        let _ ← next
        addAnchored p.anchor (scalarTag tag text plain) (.scalar text) start
      | .flowSequenceStart =>
        let _ ← next
        sequence (flowSequence t.start true depth)
      | .flowMappingStart =>
        let _ ← next
        mapping (flowMapping t.start true depth)
      | kind =>
        if indentless && kind == .blockEntry then sequence (indentlessSequence depth)
        else if block && kind == .blockSequenceStart then
          let _ ← next
          sequence (blockSequence t.start depth)
        else if block && kind == .blockMappingStart then
          let _ ← next
          mapping (blockMapping t.start depth)
        else if p.start.isSome then
          addAnchored p.anchor (scalarTag tag "" true) (.scalar "") start
        else
          failAtToken
            (some ("while parsing a " ++ (if block then "block" else "flow") ++ " node",
              some start))
            "expected the node content, but found "

/-- A node, or the empty node when one of `ends` comes next. `mark` is where that would stand. -/
def nodeUnless (ends : List TokenKind) (mark : Mark) (block indentless : Bool) :
    Nat → Compose NodeId
  | 0 => fail none "the document is nested too deeply" {}
  | depth + 1 => do
    if ← at? ends then emptyNode mark else node block indentless depth

/-- The entries of a block sequence. -/
def blockSequence (start : Mark) : Nat → Compose (List NodeId)
  | 0 => fail none "the document is nested too deeply" {}
  | depth + 1 => do
    let t ← peek
    match t.kind with
    | .blockEntry =>
      let _ ← next
      let item ← nodeUnless [.blockEntry, .blockEnd] t.stop true false depth
      return item :: (← blockSequence start depth)
    | .blockEnd =>
      let _ ← next
      return []
    | _ =>
      failAtToken (some ("while parsing a block collection", some start))
        "expected <block end>, but found "

/-- The entries of a sequence at the indentation of the mapping around it. -/
def indentlessSequence : Nat → Compose (List NodeId)
  | 0 => fail none "the document is nested too deeply" {}
  | depth + 1 => do
    let t ← peek
    match t.kind with
    | .blockEntry =>
      let _ ← next
      let item ← nodeUnless [.blockEntry, .key, .value, .blockEnd] t.stop true false depth
      return item :: (← indentlessSequence depth)
    | _ => return []

/-- The entries of a block mapping. -/
def blockMapping (start : Mark) : Nat → Compose (List (NodeId × NodeId))
  | 0 => fail none "the document is nested too deeply" {}
  | depth + 1 => do
    let t ← peek
    match t.kind with
    | .key =>
      let _ ← next
      let key ← nodeUnless [.key, .value, .blockEnd] t.stop true true depth
      let u ← peek
      let value ←
        if u.kind == .value then do
          let _ ← next
          nodeUnless [.key, .value, .blockEnd] u.stop true true depth
        else emptyNode u.start
      return (key, value) :: (← blockMapping start depth)
    | .blockEnd =>
      let _ ← next
      return []
    | _ =>
      failAtToken (some ("while parsing a block mapping", some start))
        "expected <block end>, but found "

/-- The entries of a flow sequence. A key makes a mapping of one entry. -/
def flowSequence (start : Mark) (first : Bool) : Nat → Compose (List NodeId)
  | 0 => fail none "the document is nested too deeply" {}
  | depth + 1 => do
    let close : Compose (List NodeId) := do
      let _ ← next
      return []
    if ← at? [.flowSequenceEnd] then close
    else
      if !first then
        if ← at? [.flowEntry] then
          let _ ← next
        else
          failAtToken (some ("while parsing a flow sequence", some start))
            "expected ',' or ']', but got "
      let t ← peek
      match t.kind with
      | .flowSequenceEnd => close
      | .key =>
        let _ ← next
        let key ← nodeUnless [.value, .flowEntry, .flowSequenceEnd] t.stop false false depth
        let u ← peek
        let value ←
          if u.kind == .value then do
            let _ ← next
            nodeUnless [.flowEntry, .flowSequenceEnd] u.stop false false depth
          else emptyNode u.start
        let pair ← add .map (.mapping [(key, value)]) t.start
        return pair :: (← flowSequence start false depth)
      | _ =>
        let item ← node false false depth
        return item :: (← flowSequence start false depth)

/-- The entries of a flow mapping. -/
def flowMapping (start : Mark) (first : Bool) : Nat → Compose (List (NodeId × NodeId))
  | 0 => fail none "the document is nested too deeply" {}
  | depth + 1 => do
    let close : Compose (List (NodeId × NodeId)) := do
      let _ ← next
      return []
    if ← at? [.flowMappingEnd] then close
    else
      if !first then
        if ← at? [.flowEntry] then
          let _ ← next
        else
          failAtToken (some ("while parsing a flow mapping", some start))
            "expected ',' or '\x7d', but got "
      let t ← peek
      match t.kind with
      | .flowMappingEnd => close
      | .key =>
        let _ ← next
        let key ← nodeUnless [.value, .flowEntry, .flowMappingEnd] t.stop false false depth
        let u ← peek
        let value ←
          if u.kind == .value then do
            let _ ← next
            nodeUnless [.flowEntry, .flowMappingEnd] u.stop false false depth
          else emptyNode u.start
        return (key, value) :: (← flowMapping start false depth)
      | _ =>
        let key ← node false false depth
        let value ← emptyNode (← peek).start
        return (key, value) :: (← flowMapping start false depth)

end

/-- Read the directives in front of a document. -/
def directives (seenVersion : Bool) (handles : List (String × String)) :
    Nat → Compose (List (String × String))
  | 0 => return handles
  | rounds + 1 => do
    let t ← peek
    match t.kind with
    | .yamlDirective major _ =>
      let _ ← next
      if seenVersion then fail none "found duplicate YAML directive" t.start
      if major != 1 then
        fail none "found incompatible YAML document (version 1.* is required)" t.start
      directives true handles rounds
    | .tagDirective handle lead =>
      let _ ← next
      if (handles.lookup handle).isSome then
        fail none ("duplicate tag handle " ++ Text.quote handle) t.start
      directives seenVersion (handles ++ [(handle, lead)]) rounds
    | .otherDirective =>
      let _ ← next
      directives seenVersion handles rounds
    | _ => return handles

/-- Skip markers of document ends. -/
def skipDocumentEnds : Nat → Compose Unit
  | 0 => return
  | rounds + 1 => do
    if ← at? [.documentEnd] then
      let _ ← next
      skipDocumentEnds rounds

/-- The start of a document with its marker, if there is one more document; where it starts. -/
def explicitStart (rounds : Nat) : Compose (Option Mark) := do
  skipDocumentEnds rounds
  let t ← peek
  if t.kind == .streamEnd then return none
  let handles ← directives false [] rounds
  modify fun s =>
    { s with handles := handles ++ defaultHandles.filter fun d => (handles.lookup d.1).isNone }
  if !(← at? [.documentStart]) then failAtToken none "expected '<document start>', but found "
  let _ ← next
  return some t.start

/-- Is the next token a directive? -/
def atDirective : Compose Bool := do
  match (← peek).kind with
  | .yamlDirective .. | .tagDirective .. | .otherDirective => return true
  | _ => return false

/-- The root node of the only document, if there is a document. -/
def document (rounds : Nat) : Compose (Option NodeId) := do
  let _ ← next
  let root : Option NodeId ←
    if (← atDirective) || (← at? [.documentStart, .streamEnd]) then do
      match ← explicitStart rounds with
      | none => pure none
      | some _ =>
        if (← atDirective) || (← at? [.documentStart, .documentEnd, .streamEnd]) then
          pure (some (← emptyNode (← peek).start))
        else
          pure (some (← node true false rounds))
    else pure (some (← node true false rounds))
  match root with
  | none => return none
  | some root =>
    if ← at? [.documentEnd] then
      let _ ← next
    match ← explicitStart rounds with
    | none => return some root
    | some mark =>
      let first := ((← get).graph.node root).mark
      fail (some ("expected a single document in the stream", some first))
        "but found another document" mark

end Compose

/-- May the sign occur in a YAML text? Of the characters most may, of the surrogates none. -/
def isPermitted (s : Text.Sign) : Bool :=
  match s with
  | .surrogate _ => false
  | .char c =>
      let n := c.toNat
      c == '\t' || c == '\n' || c == '\r' || c == '\x85' || (0x20 ≤ n && n ≤ 0x7E) ||
        (0xA0 ≤ n && n ≤ 0xFFFD) || 0x10000 ≤ n

/-- The nodes of the document in a text, and its root if it holds one. -/
def Graph.ofText (text : List Text.Sign) : Except Rejection (Option NodeId × Graph) :=
  match text.findIdx? fun s => !isPermitted s with
  | some i =>
    let code := (text.getD i (.char '\x00')).code
    .error (.problem
      { found := "unacceptable character #x" ++
          String.ofList (Text.padDigits 4 (Text.hexDigits code)) ++
          ": special characters are not allowed\n  in \"<unicode string>\", position " ++ toString i
        mark := none })
  | none => do
    let lexer := Lexer.ofText (text.filterMap Text.Sign.char?)
    let (root, s) ← (Compose.document (8 * text.length + 64)).run { lexer }
    return (root, s.graph)

end ByteSchema.Yaml
