import ByteSchema.Value.Basic

/-!
# ByteSchema.Place

Where a step of decoding stands: the path of names from the root, the offset in the buffer, and the
fields that the current instance has so far.
-/

namespace ByteSchema

/-- The dotted text of a path. Empty names are left out, and an empty path reads `root`. -/
def nodeIdOf (path : List String) : String :=
  let joined := String.intercalate "." (path.filter (· ≠ ""))
  if joined = "" then "root" else joined

@[simp] theorem nodeIdOf_nil : nodeIdOf [] = "root" := by decide

/-- A position in the walk through a schema. -/
structure Place where
  /-- Names from the root down to the current instance. -/
  path : List String := []
  /-- Where the next field is read. -/
  offset : Int := 0
  /-- Fields of the current instance that are decoded already. -/
  scope : Fields := []
  deriving Inhabited

namespace Place

/-- The same place at another offset. -/
def moveTo (p : Place) (offset : Int) : Place := { p with offset }

/-- The id of the current instance. -/
def id (p : Place) : String := nodeIdOf p.path

/-- The id of the node `name` in the current instance. -/
def childId (p : Place) (name : String) : String := nodeIdOf (p.path ++ [name])

/-- The name of the root, if the path has one. -/
def rootName? (p : Place) : Option String := p.path.head?

@[simp] theorem offset_moveTo (p : Place) (o : Int) : (p.moveTo o).offset = o := rfl
@[simp] theorem path_moveTo (p : Place) (o : Int) : (p.moveTo o).path = p.path := rfl
@[simp] theorem scope_moveTo (p : Place) (o : Int) : (p.moveTo o).scope = p.scope := rfl
@[simp] theorem id_moveTo (p : Place) (o : Int) : (p.moveTo o).id = p.id := rfl

@[simp] theorem childId_moveTo (p : Place) (o : Int) (name : String) :
    (p.moveTo o).childId name = p.childId name := rfl

end Place

end ByteSchema
