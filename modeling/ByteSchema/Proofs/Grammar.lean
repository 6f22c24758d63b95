import ByteSchema.Proofs.Sign

/-!
# ByteSchema.Proofs.Grammar

The expression language as a grammar, apart from the reader that evaluates it.

    comparison := additive [('==' | '!=' | '<=' | '>=' | '<' | '>') additive]
    additive   := additive ('+' | '-') term | term
    term       := term ('*' | '/') unary | unary
    unary      := ('+' | '-') unary | primary
    primary    := '(' comparison ')' | numeral | identifier

`Derives level text t` says that `text` is a phrase of a level of the grammar with the tree `t`.
White space may stand before each token and leaves no trace in the tree; brackets and plus signs
leave none either. What a tree is worth where all names are integers is its `meaning`; what a reader
with any operands makes of it is `eval`.
-/

namespace ByteSchema.Expression

open ByteSchema.Text

/-! ## Numerals -/

/-- The digits of the bases up to sixteen, in order. -/
def lowerDigits : List Char :=
  ['0', '1', '2', '3', '4', '5', '6', '7', '8', '9', 'a', 'b', 'c', 'd', 'e', 'f']

/-- The same in capitals. -/
def upperDigits : List Char :=
  ['0', '1', '2', '3', '4', '5', '6', '7', '8', '9', 'A', 'B', 'C', 'D', 'E', 'F']

/-- The character is the digit for `d` in a base. -/
def IsDigit (base d : Nat) (c : Char) : Prop :=
  d < base ∧ (lowerDigits[d]? = some c ∨ upperDigits[d]? = some c)

/-- Digits in a base, the most significant one first, and the number that they write. -/
inductive Digits (base : Nat) : List Char → Nat → Prop
  | one {c : Char} {d : Nat} (digit : IsDigit base d c) : Digits base [c] d
  | more {ds : List Char} {n : Nat} {c : Char} {d : Nat} (front : Digits base ds n)
      (digit : IsDigit base d c) : Digits base (ds ++ [c]) (n * base + d)

/-- The marks behind a zero that tell the base of the digits to come. -/
def baseMarks : List (Char × Nat) :=
  [('x', 16), ('X', 16), ('b', 2), ('B', 2), ('o', 8), ('O', 8)]

/-- A numeral, and the number that it writes. -/
inductive Numeral : List Char → Nat → Prop
  | decimal {ds : List Char} {n : Nat} (digits : Digits 10 ds n) : Numeral ds n
  | based {mark : Char} {base : Nat} {ds : List Char} {n : Nat} (marked : (mark, base) ∈ baseMarks)
      (digits : Digits base ds n) : Numeral ('0' :: mark :: ds) n

/-! ## Trees -/

/-- The operations of the arithmetic. -/
inductive Operation where
  | add | sub | mul | div
  deriving DecidableEq, Repr

namespace Operation

/-- The sign of an operation. -/
def sign : Operation → Char
  | add => '+'
  | sub => '-'
  | mul => '*'
  | div => '/'

/-- The operation on any operands. -/
def apply {α : Type} [Arithmetic α] : Operation → α → α → Except Stop α
  | add => Arithmetic.add
  | sub => Arithmetic.sub
  | mul => Arithmetic.mul
  | div => Arithmetic.div

/-- The operation on integers; a quotient is left out, for it need not be one. -/
def onIntegers : Operation → Int → Int → Option Int
  | add, m, n => some (m + n)
  | sub, m, n => some (m - n)
  | mul, m, n => some (m * n)
  | div, _, _ => none

end Operation

/-- The spelling of a comparison. -/
def spelling : Comparison → List Char
  | .eq => ['=', '=']
  | .ne => ['!', '=']
  | .le => ['<', '=']
  | .ge => ['>', '=']
  | .lt => ['<']
  | .gt => ['>']

/-- Does a comparison hold of two integers? -/
def compares : Comparison → Int → Int → Bool
  | .eq, m, n => m = n
  | .ne, m, n => m ≠ n
  | .le, m, n => m ≤ n
  | .ge, m, n => m ≥ n
  | .lt, m, n => m < n
  | .gt, m, n => m > n

/-- What an expression is made of. -/
inductive Tree where
  | numeral (n : Nat)
  | name (x : String)
  | neg (operand : Tree)
  | binary (op : Operation) (left right : Tree)
  | compare (op : Comparison) (left right : Tree)
  deriving Repr

namespace Tree

/-- The names in a tree, each as often as it occurs, from left to right. -/
def names : Tree → List String
  | numeral _ => []
  | name x => [x]
  | neg t => t.names
  | binary _ l r => l.names ++ r.names
  | compare _ l r => l.names ++ r.names

/-- The integer that a tree stands for, where names stand for integers. A comparison is worth 1 or
0. There is none if a name stands for nothing, and none for a quotient. -/
def meaning (resolve : String → Option Int) : Tree → Option Int
  | numeral n => some n
  | name x => resolve x
  | neg t => return -(← t.meaning resolve)
  | binary op l r => do op.onIntegers (← l.meaning resolve) (← r.meaning resolve)
  | compare op l r =>
      return if compares op (← l.meaning resolve) (← r.meaning resolve) then 1 else 0

/-- What comes of a tree when it is evaluated from left to right. -/
def eval {α : Type} [Arithmetic α] (resolve : Resolver α) : Tree → Except Stop α
  | numeral n => .ok (Arithmetic.ofInt n)
  | name x => orNoValue (resolve x)
  | neg t => do Arithmetic.neg (← t.eval resolve)
  | binary op l r => do op.apply (← l.eval resolve) (← r.eval resolve)
  | compare op l r => do
      let a ← l.eval resolve
      let b ← r.eval resolve
      return Arithmetic.ofInt (if ← Arithmetic.holds op a b then 1 else 0)

end Tree

/-! ## Phrases -/

/-- All of the text is white space. -/
def Blank (text : List Char) : Prop := ∀ c ∈ text, isBlank c = true

/-- The levels of the grammar, from the tightest on. -/
inductive Level where
  | primary | unary | term | additive | comparison
  deriving DecidableEq, Repr

/-- The text is a phrase of a level of the grammar, with this tree. -/
inductive Derives : Level → List Char → Tree → Prop
  | numeral {ws ds : List Char} {n : Nat} (blank : Blank ws) (numeral : Numeral ds n) :
      Derives .primary (ws ++ ds) (.numeral n)
  | name {ws : List Char} {x : String} (blank : Blank ws) (identifier : IsIdentifier x) :
      Derives .primary (ws ++ x.toList) (.name x)
  | brackets {ws text ws' : List Char} {t : Tree} (before : Blank ws)
      (inner : Derives .comparison text t) (behind : Blank ws') :
      Derives .primary (ws ++ '(' :: (text ++ (ws' ++ [')']))) t
  | primary {text : List Char} {t : Tree} (phrase : Derives .primary text t) :
      Derives .unary text t
  | plus {ws text : List Char} {t : Tree} (blank : Blank ws) (operand : Derives .unary text t) :
      Derives .unary (ws ++ '+' :: text) t
  | minus {ws text : List Char} {t : Tree} (blank : Blank ws) (operand : Derives .unary text t) :
      Derives .unary (ws ++ '-' :: text) (.neg t)
  | unary {text : List Char} {t : Tree} (phrase : Derives .unary text t) : Derives .term text t
  | product {op : Operation} {a ws b : List Char} {l r : Tree} (isProduct : op = .mul ∨ op = .div)
      (left : Derives .term a l) (blank : Blank ws) (right : Derives .unary b r) :
      Derives .term (a ++ (ws ++ op.sign :: b)) (.binary op l r)
  | term {text : List Char} {t : Tree} (phrase : Derives .term text t) : Derives .additive text t
  | sum {op : Operation} {a ws b : List Char} {l r : Tree} (isSum : op = .add ∨ op = .sub)
      (left : Derives .additive a l) (blank : Blank ws) (right : Derives .term b r) :
      Derives .additive (a ++ (ws ++ op.sign :: b)) (.binary op l r)
  | additive {text : List Char} {t : Tree} (phrase : Derives .additive text t) :
      Derives .comparison text t
  | compare {op : Comparison} {a ws b : List Char} {l r : Tree} (left : Derives .additive a l)
      (blank : Blank ws) (right : Derives .additive b r) :
      Derives .comparison (a ++ (ws ++ (spelling op ++ b))) (.compare op l r)

/-- The text as a whole is an expression with this tree. -/
def IsSentence (s : String) (t : Tree) : Prop :=
  ∃ text ws, s.toList = text ++ ws ∧ Blank ws ∧ Derives .comparison text t

/-- A numeral or a name that stands before the text does not go on in it. -/
def TokenEnd (text : List Char) : Prop := ∀ c ∈ text.head?, continuesIdentifier c = false

/-- No more decimal digits stand in a row than are read. -/
def NoLongRun (text : List Char) : Prop :=
  ∀ run, run <:+: text → (∀ c ∈ run, c.isDigit = true) → run.length ≤ maxNumeralDigits

/-- How reading the text may end without a value: there is none, or a numeral is too long. -/
inductive Stops (text : List Char) : Stop → Prop
  | noValue : Stops text .noValue
  | longNumeral {digits : Nat} (long : ¬ NoLongRun text) : Stops text (.longNumeral digits)

/-- A part of a text has no longer runs of digits than the text. -/
theorem NoLongRun.of_infix {text part : List Char} (h : NoLongRun text) (hpart : part <:+: text) :
    NoLongRun part :=
  fun run hrun hdigits => h run (hrun.trans hpart) hdigits

theorem Stops.of_infix {text part : List Char} {stop : Stop} (h : Stops part stop)
    (hpart : part <:+: text) : Stops text stop := by
  cases h with
  | noValue => exact .noValue
  | longNumeral long => exact .longNumeral fun hshort => long (hshort.of_infix hpart)

/-- Without long runs of digits, reading stops only where there is no value. -/
theorem Stops.eq_noValue {text : List Char} {stop : Stop} (h : Stops text stop)
    (hshort : NoLongRun text) : stop = .noValue := by
  cases h with
  | noValue => rfl
  | longNumeral long => exact absurd hshort long

end ByteSchema.Expression
