import ByteSchema.Text.Basic
import ByteSchema.Value.Basic

/-!
# ByteSchema.Decode.Primitive

The primitive types and their names: `u1 … u8` and `s1 … s8` for integers, `f4` and `f8` for
doubles, each with an optional byte order as suffix, `str` and `strz` for text, and `bytes`. Case
and surrounding blanks do not matter. Any other name is one of a type of the schema.
-/

namespace ByteSchema

/-- A type that the library decodes by itself. -/
inductive Primitive where
  | integer (width : Nat) (signed : Bool) (endian : Option Endian)
  | float (width : Nat) (endian : Option Endian)
  /-- Text; a terminated one ends at a zero byte. -/
  | text (terminated : Bool)
  | bytes
  deriving DecidableEq, Repr, Inhabited

namespace Primitive

/-- The byte order that a suffix stands for. -/
def suffix? : List Char → Option (Option Endian)
  | [] => some none
  | ['l', 'e'] => some (some .little)
  | ['b', 'e'] => some (some .big)
  | _ => none

/-- The width in bytes that a digit of an integer type stands for. -/
def integerWidth? : Char → Option Nat
  | '1' => some 1
  | '2' => some 2
  | '4' => some 4
  | '8' => some 8
  | _ => none

/-- The width in bytes that a digit of a floating-point type stands for. -/
def floatWidth? : Char → Option Nat
  | '4' => some 4
  | '8' => some 8
  | _ => none

/-- The numeric type of a bare lower-case name. -/
def numeric? : List Char → Option Primitive
  | 'u' :: w :: rest => do return integer (← integerWidth? w) false (← suffix? rest)
  | 's' :: w :: rest => do return integer (← integerWidth? w) true (← suffix? rest)
  | 'f' :: w :: rest => do return float (← floatWidth? w) (← suffix? rest)
  | _ => none

/-- The primitive type of a name. -/
def ofName? (name : String) : Option Primitive :=
  match Text.lower (Text.strip name) with
  | "str" => some (text false)
  | "strz" => some (text true)
  | "bytes" => some bytes
  | bare => numeric? bare.toList

end Primitive

end ByteSchema
