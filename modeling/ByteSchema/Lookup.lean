import ByteSchema.Node

/-!
# ByteSchema.Lookup

Which nodes cover a byte, and which overlap a range of bytes.
-/

namespace ByteSchema

/-- Does `n` come before `best` as the node of a byte? The shorter range wins, then the one that
starts first, and of equal ranges the node listed later. -/
def isTighter (n best : Node) : Bool :=
  n.range.length < best.range.length ||
    (n.range.length == best.range.length && n.range.start ≤ best.range.start)

/-- The tightest node that holds the byte at `offset`, given the best of the nodes before. -/
def tightest (offset : Int) : Option Node → List Node → Option Node
  | best, [] => best
  | best, n :: rest =>
      if n.range.contains offset then
        match best with
        | none => tightest offset (some n) rest
        | some b => tightest offset (some (if isTighter n b then n else b)) rest
      else tightest offset best rest

/-- The smallest of some nodes that holds the byte at `offset`. -/
def nodeAt (nodes : List Node) (offset : Int) : Option Node := tightest offset none nodes

/-- The nodes that overlap the `length` bytes from `start` on. -/
def nodesInRange (nodes : List Node) (start length : Int) : List Node :=
  nodes.filter fun n =>
    0 < n.range.length && n.range.start < start + length && start < n.range.stop

@[simp] theorem nodeAt_nil (offset : Int) : nodeAt [] offset = none := rfl

@[simp] theorem nodesInRange_nil (start length : Int) : nodesInRange [] start length = [] := rfl

end ByteSchema
