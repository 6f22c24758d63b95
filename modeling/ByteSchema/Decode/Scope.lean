import ByteSchema.Schema.Basic
import ByteSchema.Text.Basic

/-!
# ByteSchema.Decode.Scope

Where type names are looked for. A type knows its own types and those of the types that it is
declared in, up to the root; it does not know those of the types that merely use it. The types
around a place form a chain, the innermost first, in which each type is declared by the next.

A name `a::b` is that of the type `b` declared in the type `a`.
-/

namespace ByteSchema

/-- A type with the types that it is declared in, the innermost first. -/
abbrev TypeChain := List TypeDef

namespace TypeChain

/-- The parts of a qualified name. -/
def nameParts (name : String) : List String := Text.splitOn "::" name

/-- The type declared under `name` in the innermost type that declares it, with its own chain. -/
def findFirst? (name : String) : TypeChain → Option (TypeDef × TypeChain)
  | [] => none
  | d :: outer =>
      match d.types.lookup name with
      | some found => some (found, found :: d :: outer)
      | none => findFirst? name outer

/-- Go down to the types of the given names, each declared in the one before. -/
def descend? (found : TypeDef) (chain : TypeChain) : List String → Option (TypeDef × TypeChain)
  | [] => some (found, chain)
  | name :: rest =>
      match found.types.lookup name with
      | some inner => descend? inner (inner :: chain) rest
      | none => none

/-- The type of a qualified name, seen from a chain, with the chain of that type. -/
def lookup? (chain : TypeChain) (name : String) : Option (TypeDef × TypeChain) :=
  match nameParts name with
  | [] => none
  | first :: rest =>
      match findFirst? first chain with
      | some (found, around) => descend? found around rest
      | none => none

end TypeChain

end ByteSchema
