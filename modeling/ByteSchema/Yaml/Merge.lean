import ByteSchema.Yaml.Node

/-!
# ByteSchema.Yaml.Merge

Merges of mappings. An entry with the key `<<` is replaced by the entries of the mappings that it
names, which come before the mapping's own entries, so that the latter win. The mappings merged in
have their merges carried out first; one that merges itself in, directly or not, gives the entries
that it has by then.
-/

namespace ByteSchema.Yaml

/-- Changing the nodes of a document. -/
abbrev Merging := StateT Graph (Except Rejection)

/-- The first entry that merges: the entries before it, what it names, and the entries behind it. -/
def Graph.splitMerge? (g : Graph) :
    List (NodeId × NodeId) → Option (List (NodeId × NodeId) × NodeId × List (NodeId × NodeId))
  | [] => none
  | (key, value) :: rest =>
      if (g.node key).tag = .merge then some ([], value, rest)
      else (g.splitMerge? rest).map fun (before, source, behind) =>
        ((key, value) :: before, source, behind)

/-- How many entries of a document's mappings merge. -/
def Graph.mergeCount (g : Graph) : Nat :=
  g.foldl (fun total n =>
    match n.content with
    | .mapping entries => total + entries.countP fun entry => (g.node entry.1).tag = .merge
    | _ => total) 0

/-- The problem of a node that cannot be merged into the mapping at `start`. -/
def notMergeable (start : Mark) (expected : String) (n : Node) : Rejection :=
  .problem
    { context := some ("while constructing a mapping", some start)
      found := expected ++ n.content.kindName
      mark := some n.mark }

/-- Carry out the merges of a mapping. `front` holds the entries merged in so far. The key `=`
stands for itself from then on. Every round takes one merging entry away, so their number bounds the
rounds. -/
def mergeInto (id : NodeId) (front : List (NodeId × NodeId)) : Nat → Merging Unit
  | 0 => return
  | rounds + 1 => do
    let g ← get
    match g.splitMerge? (g.entries id) with
    | none =>
      let plain := (g.entries id).foldl (fun g entry =>
        if (g.node entry.1).tag = .value then g.setTag entry.1 .str else g) g
      set (plain.setContent id (.mapping (front ++ g.entries id)))
    | some (before, source, behind) =>
      set (g.setContent id (.mapping (before ++ behind)))
      let start := (g.node id).mark
      let named := g.node source
      match named.content with
      | .mapping _ =>
        mergeInto source [] rounds
        mergeInto id (front ++ (← get).entries source) rounds
      | .sequence items =>
        let parts ← items.mapM fun item => do
          match ((← get).node item).content with
          | .mapping _ =>
            mergeInto item [] rounds
            return (← get).entries item
          | _ =>
            throw (notMergeable start "expected a mapping for merging, but found "
              ((← get).node item))
        mergeInto id (front ++ parts.reverse.flatten) rounds
      | .scalar _ =>
        throw (notMergeable start
          "expected a mapping or list of mappings for merging, but found " named)

end ByteSchema.Yaml
