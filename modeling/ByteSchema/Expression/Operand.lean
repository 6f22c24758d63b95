import ByteSchema.Expression.Arithmetic
import ByteSchema.Text.Surrogate
import ByteSchema.Value.Equal

/-!
# ByteSchema.Expression.Operand

Arithmetic of all values. Numbers are joined as such, a truth value counting as 0 or 1. Texts, byte
strings, lists and tuples are put together by `+` and repeated by `*`, and are ordered like words in
a dictionary. Any two values can be compared for equality; what else is asked of a value that it
cannot do is a mismatch.
-/

namespace ByteSchema.Expression

open Value

/-! ## Comparisons -/

/-- The codes of the signs of a text. -/
def codes (s : String) : List Nat := (Text.signs s.toList).map Text.Sign.code

/-- Does a comparison hold of things that stand to each other in this order? -/
def admits (op : Comparison) : Ordering → Bool
  | .lt => op.holds (.int 0) (.int 1)
  | .eq => op.holds (.int 0) (.int 0)
  | .gt => op.holds (.int 1) (.int 0)

mutual

/-- Does a comparison hold of two values that have an order? -/
def ordered (op : Comparison) : Value → Value → Except Stop Bool
  | .str s, .str t => .ok (admits op (compare (codes s) (codes t)))
  | .bytes bs, .bytes cs => .ok (admits op (compare (bs.map UInt8.toNat) (cs.map UInt8.toNat)))
  | .list vs, .list ws => orderedItems op vs ws
  | .tuple vs, .tuple ws => orderedItems op vs ws
  | v, w =>
      match asNumber? v, asNumber? w with
      | some a, some b => .ok (op.holds a b)
      | _, _ => .error .mismatch

/-- Does a comparison hold of two lists? The first items that differ decide. -/
def orderedItems (op : Comparison) : List Value → List Value → Except Stop Bool
  | [], [] => .ok (admits op .eq)
  | [], _ :: _ => .ok (admits op .lt)
  | _ :: _, [] => .ok (admits op .gt)
  | v :: vs, w :: ws =>
      if isSame v w then orderedItems op vs ws else ordered op v w

end

/-- Does a comparison hold of two values? -/
def holds (op : Comparison) (v w : Value) : Except Stop Bool :=
  match op with
  | .eq => .ok (equal v w)
  | .ne => .ok (!equal v w)
  | _ => ordered op v w

/-! ## Operations -/

/-- Join two numbers. -/
def joinNumbers (join : Number → Number → Option Number) (v w : Value) : Except Stop Value :=
  match asNumber? v, asNumber? w with
  | some a, some b => orNoValue ((join a b).map Number.toValue)
  | _, _ => .error .mismatch

/-- Put two values together. -/
def add : Value → Value → Except Stop Value
  | .str s, .str t => .ok (.str (s ++ t))
  | .bytes bs, .bytes cs => .ok (.bytes (bs ++ cs))
  | .list vs, .list ws => .ok (.list (vs ++ ws))
  | .tuple vs, .tuple ws => .ok (.tuple (vs ++ ws))
  | v, w => joinNumbers Number.add v w

/-- Most items that a repetition may give. -/
def maxRepetition : Nat := Nat.pow 2 63 - 1

/-- Some items over and over; a count below zero gives none. -/
def repeatItems {α : Type} (items : List α) (count : Int) : Except Stop (List α) :=
  if maxRepetition < items.length * count.natAbs ∨ maxRepetition < count.natAbs then .error .noValue
  else .ok (List.replicate count.toNat items).flatten

/-- A value repeated, if it is one that can be. -/
def repeated? (v : Value) (count : Int) : Option (Except Stop Value) :=
  match v with
  | .str s => some ((repeatItems (Text.signs s.toList) count).map fun ss => .str (Text.ofSigns ss))
  | .bytes bs => some ((repeatItems bs count).map .bytes)
  | .list vs => some ((repeatItems vs count).map .list)
  | .tuple vs => some ((repeatItems vs count).map .tuple)
  | _ => none

/-- Multiply two numbers, or repeat one value as often as the other says. -/
def mul (v w : Value) : Except Stop Value :=
  let byCount (v w : Value) : Option (Except Stop Value) :=
    ((asNumber? w).bind Number.toInt?).bind (repeated? v)
  ((byCount v w).or (byCount w v)).getD (joinNumbers Number.mul v w)

/-- The opposite of a number. -/
def neg (v : Value) : Except Stop Value :=
  match asNumber? v with
  | some a => .ok a.neg.toValue
  | none => .error .mismatch

instance : Arithmetic Value where
  ofInt := Value.int
  add := add
  sub := joinNumbers Number.sub
  mul := mul
  div := joinNumbers Number.div
  neg := neg
  holds := holds
  normalize v := match v.number? with
    | some a => a.normalize.toValue
    | none => v

end ByteSchema.Expression
