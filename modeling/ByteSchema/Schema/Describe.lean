import ByteSchema.Schema.Basic

/-!
# ByteSchema.Schema.Describe

Summaries of schemas: the declared types by their qualified names, and a short description.
-/

namespace ByteSchema

mutual

/-- The qualified names of a type and of the types inside it. `lead` is the qualified name of the
type around it, followed by `::`, or empty. -/
def TypeDef.namesBelow (lead name : String) : TypeDef → List String
  | ⟨_, types, _⟩ =>
      (lead ++ name) ::
        namesIn (if lead ++ name = "" then "" else lead ++ name ++ "::") types

/-- The qualified names of some types and of the types inside them, each type before those inside
it. -/
def namesIn (lead : String) : List (String × TypeDef) → List String
  | [] => []
  | (name, d) :: rest => TypeDef.namesBelow lead name d ++ namesIn lead rest

end

/-- A short description of a schema. -/
structure Summary where
  id : String
  endian : Endian
  encoding : Option String
  /-- The ids of the root's fields. -/
  fields : List String
  /-- The qualified names of all types. -/
  types : List String
  deriving DecidableEq, Repr

namespace Schema

/-- The qualified names of all declared types. -/
def typeNames (s : Schema) : List String := namesIn "" s.types

/-- A short description of the schema. -/
def describe (s : Schema) : Summary where
  id := s.rootId
  endian := s.endian
  encoding := s.info.encoding
  fields := (s.rootSequence?.getD []).map Field.id
  types := s.typeNames

end Schema

end ByteSchema
