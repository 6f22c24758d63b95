import ByteSchema.Value.Cycle
import ByteSchema.Value.Equal
import ByteSchema.Yaml.Merge

/-!
# ByteSchema.Yaml.Document

The value of a YAML document. A repeated key keeps its first place and its last value; collections
cannot be keys. The keys of a mapping can make a set, and mappings of one entry each a list of pairs.

* Values are made level by level: the items of a collection are looked at when all collections of
  the levels above have theirs. Of several faults in a document the one met first in this order
  counts.
* A collection is made once, however often it is mentioned. While values are made each mention is a
  `back` to it, and the contents are kept in a store. At the end the mentions are filled in from the
  root on, apart from those within the collection itself.
-/

namespace ByteSchema.Yaml

/-- A failure to read a scalar. -/
def orEscape {α : Type} : Except Escape α → Except Rejection α
  | .ok a => .ok a
  | .error e => .error (.escape e)

/-- The problem of a node that is not of the kind that its tag asks for. -/
def expectedKind (kind : String) (n : Node) : Rejection :=
  .problem
    { found := "expected a " ++ kind ++ " node, but found " ++ n.content.kindName
      mark := some n.mark }

/-- The problem of a tag that gives no value. -/
def undetermined (n : Node) : Rejection :=
  .problem
    { found := "could not determine a constructor for the tag " ++ Text.quote n.tag.text
      mark := some n.mark }

/-- The text of a node that its tag says to be a scalar. A mapping has the text of what stands under
its key `=`. `depth` bounds how many mappings are gone through. -/
def Graph.scalarText (g : Graph) : Nat → NodeId → Except Rejection String
  | 0, _ => .error (.escape .endless)
  | depth + 1, id =>
    let n := g.node id
    match n.content with
    | .scalar text => .ok text
    | .sequence _ => .error (expectedKind "scalar" n)
    | .mapping entries =>
      match entries.find? fun entry => (g.node entry.1).tag = .value with
      | some (_, value) => g.scalarText depth value
      | none => .error (expectedKind "scalar" n)

/-- The value of a scalar node with a given text; none for a tag that gives no scalar. -/
def scalarValue? (n : Node) (text : String) : Option (Except Rejection Value) :=
  match n.tag with
  | .null => some (.ok .null)
  | .bool => some (orEscape (boolValue text))
  | .int => some (orEscape (intValue text))
  | .float => some (orEscape (floatValue text))
  | .str => some (.ok (.str text))
  | .binary =>
      some ((binaryValue text).mapError fun words =>
        .problem { found := words, mark := some n.mark })
  | .timestamp => some (orEscape (timestampValue text))
  | _ => none

/-- Put an entry into a mapping: in place of the value of the same key, or at the end. Keys are the
same when they come from one node or are equal. -/
def putEntry (source : NodeId) (key value : Value) :
    List (NodeId × Value × Value) → List (NodeId × Value × Value)
  | [] => [(source, key, value)]
  | (n, k, v) :: rest =>
      if n = source || k.equal key then (n, k, value) :: rest
      else (n, k, v) :: putEntry source key value rest

/-- The entries of a mapping, each key once. -/
def entriesOf (entries : List (NodeId × Value × Value)) : List (Value × Value) :=
  let kept := entries.foldl (fun done (source, key, value) => putEntry source key value done) []
  kept.map (·.2)

/-- Can a value be a key? -/
def isKey : Value → Bool
  | .list _ => false
  | .set _ => false
  | .map _ => false
  | .back _ _ => false
  | _ => true

/-! ## Making values -/

/-- The values of a document in the making. -/
structure Store where
  graph : Graph
  /-- How many merges there are in the document. -/
  merges : Nat
  /-- The values of the nodes met so far; that of a collection is a mention of it. -/
  made : List (NodeId × Value) := []
  /-- The collections met on the current level, the latest first. -/
  waiting : List NodeId := []
  /-- What the finished collections hold. -/
  contents : List (NodeId × Value) := []

/-- Making the values of a document. -/
abbrev Making := StateT Store (Except Rejection)

namespace Making

/-- Note the value of a node. -/
def note (id : NodeId) (v : Value) : Making Value := do
  modify fun s => { s with made := (id, v) :: s.made }
  return v

/-- Mention a collection for the first time. -/
def mention (id : NodeId) (isMap : Bool) : Making Value := do
  modify fun s => { s with waiting := id :: s.waiting }
  note id (.back id isMap)

/-- The value of a node. -/
def valueOf (id : NodeId) : Making Value := do
  let s ← get
  match s.made.lookup id with
  | some v => return v
  | none =>
    let n := s.graph.node id
    match n.tag with
    | .seq | .omap | .pairs | .set => mention id false
    | .map => mention id true
    | .merge | .value | .other _ => throw (undetermined n)
    | tag =>
      let text ← s.graph.scalarText (s.graph.size + 1) id
      match tag, n.content with
      | .timestamp, .mapping _ => throw (.escape .mismatch)
      | _, _ =>
        match scalarValue? n text with
        | some r => note id (← r)
        | none => throw (undetermined n)

/-- The key and the value of an entry of the mapping at `start`, behind the node of the key. -/
def entryOf (start : Mark) (key value : NodeId) : Making (NodeId × Value × Value) := do
  let k ← valueOf key
  if !isKey k then
    throw (.problem
      { context := some ("while constructing a mapping", some start)
        found := "found unhashable key"
        mark := some ((← get).graph.node key).mark })
  return (key, k, ← valueOf value)

/-- The entries of a mapping, behind the merges in it. -/
def mappingOf (id : NodeId) : Making (List (Value × Value)) := do
  let s ← get
  let n := s.graph.node id
  match n.content with
  | .mapping _ =>
    let (_, graph) ← (mergeInto id [] (s.merges + 1)).run s.graph
    set { s with graph }
    return entriesOf (← (graph.entries id).mapM fun (key, value) => entryOf n.mark key value)
  | _ => throw (expectedKind "mapping" n)

/-- The problem with `n` in the sequence of pairs at `start`. `what` was being read. -/
def notPair (what : String) (start : Mark) (expected found : String) (n : Node) : Rejection :=
  .problem
    { context := some ("while constructing " ++ what, some start)
      found := "expected a " ++ expected ++ ", but found " ++ found
      mark := some n.mark }

/-- The pair that a mapping of one entry makes, in the sequence of pairs at `start`. -/
def pairOf (what : String) (start : Mark) (id : NodeId) : Making Value := do
  let n := (← get).graph.node id
  match n.content with
  | .mapping [(key, value)] => return .tuple [← valueOf key, ← valueOf value]
  | .mapping entries =>
    throw (notPair what start "single mapping item" (toString entries.length ++ " items") n)
  | content => throw (notPair what start "mapping of length 1" content.kindName n)

/-- The pairs of a sequence. -/
def pairsOf (what : String) (id : NodeId) : Making Value := do
  let n := (← get).graph.node id
  match n.content with
  | .sequence items => return .list (← items.mapM (pairOf what n.mark))
  | content => throw (notPair what n.mark "sequence" content.kindName n)

/-- What a collection holds, by the tag of its node. -/
def contentOf (id : NodeId) : Making Value := do
  let n := (← get).graph.node id
  match n.tag, n.content with
  | .seq, .sequence items => return .list (← items.mapM valueOf)
  | .seq, _ => throw (expectedKind "sequence" n)
  | .omap, _ => pairsOf "an ordered map" id
  | .pairs, _ => pairsOf "pairs" id
  | .set, _ => return .set ((← mappingOf id).map (·.1))
  | _, _ => return .map (← mappingOf id)

/-- Finish a collection. -/
def finish (id : NodeId) : Making Unit := do
  let v ← contentOf id
  modify fun s => { s with contents := (id, v) :: s.contents }

/-- Finish the collections that wait, and those that they mention, level by level. -/
def finishAll : Nat → Making Unit
  | 0 => return
  | levels + 1 => do
    let level := (← get).waiting.reverse
    if level.isEmpty then return
    modify fun s => { s with waiting := [] }
    level.forM finish
    finishAll levels

end Making

/-- Close a collection: label it if it is mentioned within itself or within one that mentions it. -/
def closed (id : NodeId) (v : Value) : Value := if v.openLabels.isEmpty then v else .cycle id v

/-- Change the items of a pair, or a value that is none. -/
def throughPair (f : Value → Value) : Value → Value
  | .tuple items => .tuple (items.map f)
  | v => f v

/-- Fill in the mentions of collections within those of the path. No collection is twice on a path,
so their number bounds the depth. -/
def fillMentions (contents : List (NodeId × Value)) : Nat → List NodeId → Value → Value
  | depth + 1, path, .back id isMap =>
    if path.contains id then .back id isMap
    else
      let inner := fillMentions contents depth (id :: path)
      match contents.lookup id with
      | some (.list items) => closed id (.list (items.map (throughPair inner)))
      | some (.map entries) => closed id (.map (entries.map fun (k, v) => (k, inner v)))
      | some v => v
      | none => .null
  | _, _, v => v

/-- The value of a document with a given root. -/
def Graph.value (g : Graph) (root : NodeId) : Except Rejection Value := do
  let make : Making Value := do
    let v ← Making.valueOf root
    Making.finishAll (g.size + 1)
    return v
  let (v, s) ← make.run { graph := g, merges := g.mergeCount }
  return fillMentions s.contents (g.size + 1) [] v

/-- The value of the document in a text; null when there is no document. -/
def documentValue (text : List Text.Sign) : Except Rejection Value := do
  match ← Graph.ofText text with
  | (none, _) => return .null
  | (some root, g) => g.value root

/-- The value of the document in a text, with the problem in words. -/
def read (text : String) : Except Failure Value :=
  let signs := Text.signs text.toList
  match documentValue signs with
  | .ok v => .ok v
  | .error (.escape e) => .error (.escape e)
  | .error (.problem p) =>
      .error (.ofCause (.invalidYaml (p.message (signs.filterMap Text.Sign.char?))))

end ByteSchema.Yaml
