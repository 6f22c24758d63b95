import ByteSchema.Number.Basic

/-!
# ByteSchema.Expression.Arithmetic

What the expression language asks of its operands. A schema's expressions compute with `Number`; the
reader of expressions works for any other operands as well, such as the values that a host supplies.
-/

namespace ByteSchema.Expression

/-- Why reading an expression ends without a value. -/
inductive Stop where
  /-- The text is malformed, an identifier is unresolved, or the arithmetic has no result. -/
  | noValue
  /-- A decimal numeral has more digits than are read. -/
  | longNumeral (digits : Nat)
  /-- The operands are of kinds that the operator does not join. -/
  | mismatch
  deriving DecidableEq, Repr

/-- Operands of expressions. -/
class Arithmetic (α : Type) where
  /-- What a numeral stands for, and what a comparison is worth. -/
  ofInt : Int → α
  add : α → α → Except Stop α
  sub : α → α → Except Stop α
  mul : α → α → Except Stop α
  div : α → α → Except Stop α
  neg : α → Except Stop α
  /-- Does a comparison hold? -/
  holds : Comparison → α → α → Except Stop Bool
  /-- The form in which the value of a whole expression is given. -/
  normalize : α → α

/-- A result that the arithmetic may not have. -/
def orNoValue {α : Type} : Option α → Except Stop α
  | some a => .ok a
  | none => .error .noValue

instance : Arithmetic Number where
  ofInt := Number.int
  add a b := orNoValue (a.add b)
  sub a b := orNoValue (a.sub b)
  mul a b := orNoValue (a.mul b)
  div a b := orNoValue (a.div b)
  neg a := .ok a.neg
  holds op a b := .ok (op.holds a b)
  normalize := Number.normalize

end ByteSchema.Expression
