import ByteSchema.Place
import ByteSchema.Text.Basic
import ByteSchema.ValueTable

/-!
# ByteSchema.Expression.Names

What identifiers of expressions stand for. Three names speak of the buffer: `_io.size`, `_io.pos`
and `_io.eof`. Any other name is looked for under a list of candidate paths, each first in the value
table and then in the fields of the current instance; the first number found counts.

* A plain name is looked for in the current instance, in the one around it, and as it stands.
* A name behind `$root.` or `_root.` is looked for in the root instance, and as it stands.
-/

namespace ByteSchema

/-- What an expression can see. -/
structure View where
  /-- Length of the buffer. -/
  size : Nat := 0
  /-- Id of the schema, which names the root before there is a path. -/
  rootId : String := "root"
  values : ValueTable := .empty
  place : Place := {}
  deriving Inhabited

/-- Follow names through nested mappings. -/
def Value.follow (v : Value) : List String → Option Value
  | [] => some v
  | name :: rest =>
      match v.get? name with
      | some w => w.follow rest
      | none => none

@[simp] theorem Value.follow_nil (v : Value) : v.follow [] = some v := rfl

theorem Value.follow_cons (v : Value) (name : String) (rest : List String) :
    v.follow (name :: rest) = (v.get? name).bind fun w => w.follow rest := by
  cases h : v.get? name <;> simp [Value.follow, h]

/-- The value at a dotted path within nested mappings; empty names in the path are left out. -/
def Value.atPath? (v : Value) (path : String) : Option Value :=
  v.follow ((Text.splitOn "." path).filter (· ≠ ""))

namespace View

/-- What marks a name as one of the root instance. -/
def rootMarks : List String := ["$root.", "_root."]

/-- The part of a name behind a root mark. -/
def behindRootMark? (name : String) : Option String :=
  rootMarks.findSome? fun mark => Text.dropLead? mark name

/-- The name of the root instance. -/
def rootName (view : View) : String :=
  match view.place.rootName? with
  | none => view.rootId
  | some name => if name = "" then view.rootId else name

/-- The paths under which a name is looked for, in order. -/
def candidates (view : View) (name : String) : List String :=
  match behindRootMark? name with
  | some rest => if rest = "" then [] else [view.rootName ++ "." ++ rest, rest]
  | none =>
    let path := view.place.path
    (if path.isEmpty then [] else [nodeIdOf (path ++ [name])]) ++
      (if path.length ≤ 1 then [] else [nodeIdOf (path.dropLast ++ [name])]) ++ [name]

/-- The number at one candidate path. -/
def numberAt? (view : View) (path : String) : Option Number :=
  ((view.values.get? path).bind Value.number?).or
    (((Value.record view.place.scope).atPath? path).bind Value.number?)

/-- The number that a name stands for. -/
def resolve (view : View) (name : String) : Option Number :=
  let name := Text.strip name
  if name = "" then none
  else if name = "_io.size" then some (.int view.size)
  else if name = "_io.pos" then some (.int view.place.offset)
  else if name = "_io.eof" then some (.int (if view.size ≤ view.place.offset then 1 else 0))
  else (view.candidates name).findSome? view.numberAt?

end View

end ByteSchema
