import ByteSchema.Number.Dyadic

/-!
# ByteSchema.Number.Basic

The numbers of the expression language: integers without bound, doubles, and truth values that a
host supplies, which count as 0 or 1.

* Sums, differences and products of integers are exact; a quotient is always a double.
* When one operand is a double the other is rounded to one first.
* Comparisons are exact, also between an integer and a double.
-/

namespace ByteSchema

/-- A number of the expression language. -/
inductive Number where
  /-- An integer of any size. -/
  | int (n : Int)
  /-- A double, infinities and NaN included. -/
  | float (x : Float)
  /-- A truth value supplied by a host, worth 0 or 1. -/
  | flag (b : Bool)
  deriving Inhabited

namespace Number

/-- The integer that a truth value is worth. -/
def ofFlag (b : Bool) : Int := if b then 1 else 0

@[simp] theorem ofFlag_true : ofFlag true = 1 := rfl
@[simp] theorem ofFlag_false : ofFlag false = 0 := rfl

/-- The double nearest to an integer, if it is in range. -/
def floatOfInt? (n : Int) : Option Float := Dyadic.nearest? (n < 0) n.natAbs 1

/-- An operand as a double. -/
def toFloat? : Number → Option Float
  | int n => floatOfInt? n
  | float x => some x
  | flag b => floatOfInt? (ofFlag b)

/-- An operand as an integer; a double has none. -/
def toInt? : Number → Option Int
  | int n => some n
  | float _ => none
  | flag b => some (ofFlag b)

@[simp] theorem toInt?_int (n : Int) : toInt? (int n) = some n := rfl
@[simp] theorem toInt?_float (x : Float) : toInt? (float x) = none := rfl

/-- Apply an operation in `Int` when both operands are integers, in `Float` otherwise. Fails when
an integer operand is too large to become a double. -/
def arith (onInts : Int → Int → Int) (onFloats : Float → Float → Float) (a b : Number) :
    Option Number :=
  match a.toInt?, b.toInt? with
  | some m, some n => some (int (onInts m n))
  | _, _ => do return float (onFloats (← a.toFloat?) (← b.toFloat?))

/-- Sum of two numbers. -/
def add (a b : Number) : Option Number := arith (· + ·) (· + ·) a b

/-- Difference of two numbers. -/
def sub (a b : Number) : Option Number := arith (· - ·) (· - ·) a b

/-- Product of two numbers. -/
def mul (a b : Number) : Option Number := arith (· * ·) (· * ·) a b

@[simp] theorem add_int (m n : Int) : add (int m) (int n) = some (int (m + n)) := rfl
@[simp] theorem sub_int (m n : Int) : sub (int m) (int n) = some (int (m - n)) := rfl
@[simp] theorem mul_int (m n : Int) : mul (int m) (int n) = some (int (m * n)) := rfl

/-- Quotient of two numbers, a double. Two integers are divided exactly and the quotient is rounded
once. Fails on division by zero and when the quotient of two integers is out of range. -/
def div (a b : Number) : Option Number :=
  match a.toInt?, b.toInt? with
  | some m, some n =>
      if n = 0 then none
      else (Dyadic.nearest? (decide (m < 0) != decide (n < 0)) m.natAbs n.natAbs).map float
  | _, _ => do
      let x ← a.toFloat?
      let y ← b.toFloat?
      if y == 0 then none else some (float (x / y))

/-- The opposite of a number. -/
def neg : Number → Number
  | int n => int (-n)
  | float x => float (-x)
  | flag b => int (-ofFlag b)

@[simp] theorem neg_int (n : Int) : neg (int n) = int (-n) := rfl

/-- How an integer stands to a double; a NaN is not ordered. -/
def orderIntFloat (n : Int) (x : Float) : Option Ordering :=
  match Dyadic.ofFloat? x with
  | some d => some (d.compareInt n)
  | none => if x > 0 then some .lt else if x < 0 then some .gt else none

/-- How two numbers stand to each other; a NaN is not ordered. -/
def order (a b : Number) : Option Ordering :=
  match a, b with
  | float x, float y =>
      if x < y then some .lt else if y < x then some .gt else if x == y then some .eq else none
  | float x, int n => (orderIntFloat n x).map Ordering.swap
  | float x, flag b => (orderIntFloat (ofFlag b) x).map Ordering.swap
  | int n, float x => orderIntFloat n x
  | flag b, float x => orderIntFloat (ofFlag b) x
  | int m, int n => some (compare m n)
  | int m, flag b => some (compare m (ofFlag b))
  | flag b, int n => some (compare (ofFlag b) n)
  | flag b, flag c => some (compare (ofFlag b) (ofFlag c))

@[simp] theorem order_int (m n : Int) : order (int m) (int n) = some (compare m n) := rfl

/-- Are two numbers equal in value? -/
def equal (a b : Number) : Bool := order a b == some .eq

@[simp] theorem equal_int (m n : Int) : equal (int m) (int n) = (m == n) := by
  rw [Bool.eq_iff_iff]
  simp [equal]

/-- Is the number different from zero? A NaN is. -/
def isTrue : Number → Bool
  | int n => n != 0
  | float x => x != 0
  | flag b => b

@[simp] theorem isTrue_int (n : Int) : isTrue (int n) = (n != 0) := rfl

/-- A double without fractional part becomes the integer it equals; all else stays. -/
def normalize : Number → Number
  | float x =>
      match (Dyadic.ofFloat? x).bind Dyadic.toInt? with
      | some n => int n
      | none => float x
  | a => a

@[simp] theorem normalize_int (n : Int) : normalize (int n) = int n := rfl

end Number

/-- The comparison operators of the expression language. -/
inductive Comparison where
  | eq | ne | le | ge | lt | gt
  deriving DecidableEq, Repr

namespace Comparison

/-- Does the comparison hold? Of the six only `ne` holds of a NaN. -/
def holds (c : Comparison) (a b : Number) : Bool :=
  match c, Number.order a b with
  | .eq, o => o == some .eq
  | .ne, o => o != some .eq
  | .lt, o => o == some .lt
  | .le, o => o == some .lt || o == some .eq
  | .gt, o => o == some .gt
  | .ge, o => o == some .gt || o == some .eq

end Comparison

end ByteSchema
