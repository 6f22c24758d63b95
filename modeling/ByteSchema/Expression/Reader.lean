import ByteSchema.Expression.Arithmetic
import ByteSchema.Text.Numeral
import ByteSchema.Text.Blank

/-!
# ByteSchema.Expression.Reader

The expression language of sizes, positions and conditions, evaluated while it is read:

    comparison := additive [('==' | '!=' | '<=' | '>=' | '<' | '>') additive]
    additive   := term (('+' | '-') term)*
    term       := unary (('*' | '/') unary)*
    unary      := ('+' | '-') unary | primary
    primary    := '(' comparison ')' | numeral | identifier

White space may stand before every token. A comparison is worth 1 or 0, and a quotient without
fractional part becomes an integer at the end.

* `Reader` keeps its input when it fails, so the identifiers that were asked for up to the failure
  stay visible.
* Nested brackets are bounded by a depth that the length of the text always covers; the loops for
  signs, products and sums are bounded by the length of the rest, of which each round takes a
  character.
-/

namespace ByteSchema.Expression

open ByteSchema.Text

/-- The text still to be read, and the identifiers asked for so far, the latest first. -/
structure Input where
  rest : List Char
  asked : List String := []

/-- A reader of expressions. -/
abbrev Reader := ExceptT Stop (StateM Input)

/-- What gives identifiers their values. -/
abbrev Resolver (α : Type) := String → Option α

/-- What comes of one reader after another. -/
theorem run_bind {β γ : Type} (m : Reader β) (k : β → Reader γ) (i : Input) :
    (m >>= k).run.run i =
      match m.run.run i with
      | (.ok b, i') => (k b).run.run i'
      | (.error stop, i') => (.error stop, i') := by
  simp only [ExceptT.run_bind, StateT.run_bind]
  rcases m.run.run i with ⟨_ | _, _⟩ <;> rfl

variable {α : Type} [Arithmetic α]

/-- Give up: the expression has no value. -/
def noValue {β : Type} : Reader β := throw .noValue

/-- Stop where an operation stops. -/
def orStop {β : Type} : Except Stop β → Reader β
  | .ok b => return b
  | .error stop => throw stop

/-- The next character. -/
def peek : Reader (Option Char) := return (← get).rest.head?

/-- Go on behind the next `n` characters. -/
def skip (n : Nat) : Reader Unit := modify fun s => { s with rest := s.rest.drop n }

/-- Go on behind white space. -/
def skipBlanks : Reader Unit := modify fun s => { s with rest := s.rest.dropWhile isBlank }

/-! ## Numerals -/

/-- Is `c` an ASCII decimal digit? -/
def isDecimal (c : Char) : Bool := '0' ≤ c && c ≤ '9'

/-- Is `c` a hexadecimal digit? -/
def isHexadecimal (c : Char) : Bool :=
  isDecimal c || ('a' ≤ c && c ≤ 'f') || ('A' ≤ c && c ≤ 'F')

/-- Is `c` a binary digit? -/
def isBinary (c : Char) : Bool := c == '0' || c == '1'

/-- Is `c` an octal digit? -/
def isOctal (c : Char) : Bool := '0' ≤ c && c ≤ '7'

/-- The value of a hexadecimal digit. -/
def digitValue (c : Char) : Nat :=
  if isDecimal c then c.toNat - '0'.toNat
  else if 'a' ≤ c && c ≤ 'f' then c.toNat - 'a'.toNat + 10
  else c.toNat - 'A'.toNat + 10

/-- The number that digits write in a base. -/
def digitsValue (base : Nat) (ds : List Char) : Nat :=
  ds.foldl (fun n c => n * base + digitValue c) 0

/-- Most digits of a decimal numeral. -/
def maxNumeralDigits : Nat := 4300

/-- The digits of a numeral after a base mark such as `0x`, if there are any. -/
def basedDigits? (lower upper : Char) (isDigit : Char → Bool) : List Char → Option (List Char)
  | '0' :: mark :: rest =>
      let ds := rest.takeWhile isDigit
      if (mark == lower || mark == upper) && !ds.isEmpty then some ds else none
  | _ => none

/-- The numeral at the start of a text: its value or the reason against it, and its length. -/
def numeralAt (text : List Char) : Except Stop (Nat × Nat) :=
  match basedDigits? 'x' 'X' isHexadecimal text with
  | some ds => return (digitsValue 16 ds, ds.length + 2)
  | none =>
    match basedDigits? 'b' 'B' isBinary text with
    | some ds => return (digitsValue 2 ds, ds.length + 2)
    | none =>
      match basedDigits? 'o' 'O' isOctal text with
      | some ds => return (digitsValue 8 ds, ds.length + 2)
      | none =>
        let ds := text.takeWhile isDecimal
        if ds.isEmpty then throw .noValue
        else if maxNumeralDigits < ds.length then throw (.longNumeral ds.length)
        else return (digitsValue 10 ds, ds.length)

/-- Read a numeral. -/
def numeral : Reader α := do
  let (n, length) ← orStop (numeralAt (← get).rest)
  skip length
  return Arithmetic.ofInt n

/-! ## Identifiers -/

/-- May `c` start an identifier? -/
def startsIdentifier (c : Char) : Bool := isLetter c || c == '_' || c == '$'

/-- May `c` stand in an identifier behind its start? -/
def continuesIdentifier (c : Char) : Bool := isWordSign c || c == '_' || c == '$' || c == '.'

/-- Read an identifier and resolve it. -/
def identifier (resolve : Resolver α) : Reader α := do
  let name := String.ofList ((← get).rest.takeWhile continuesIdentifier)
  modify fun s =>
    { rest := s.rest.dropWhile continuesIdentifier, asked := name :: s.asked }
  orStop (orNoValue (resolve name))

/-! ## The grammar -/

/-- A bracketed comparison, a numeral or an identifier. -/
def primary (resolve : Resolver α) (bracketed : Reader α) : Reader α := do
  skipBlanks
  match ← peek with
  | none => noValue
  | some c =>
    if c == '(' then
      skip 1
      let value ← bracketed
      skipBlanks
      if (← peek) == some ')' then
        skip 1
        return value
      else noValue
    else if isDigitSign c then numeral
    else if startsIdentifier c then identifier resolve
    else noValue

/-- Signs, then a primary. -/
def unary (primary : Reader α) : Nat → Reader α
  | 0 => noValue
  | rounds + 1 => do
    skipBlanks
    match ← peek with
    | some '+' =>
      skip 1
      unary primary rounds
    | some '-' =>
      skip 1
      orStop (Arithmetic.neg (← unary primary rounds))
    | _ => primary

/-- Operands joined by the operators in `operators`, from left to right, `value` being what stands
before. -/
def chain (operators : List (Char × (α → α → Except Stop α))) (operand : Reader α) (value : α) :
    Nat → Reader α
  | 0 => noValue
  | rounds + 1 => do
    skipBlanks
    match (← peek).bind fun c => List.lookup c operators with
    | some apply =>
      skip 1
      let value' ← orStop (apply value (← operand))
      chain operators operand value' rounds
    | none => return value

/-- The characters left, plus one: rounds enough for every loop. -/
def roundsLeft : Reader Nat := return (← get).rest.length + 1

/-- Products and quotients. -/
def term (operand : Reader α) : Reader α := do
  let rounds ← roundsLeft
  let value ← unary operand rounds
  chain [('*', Arithmetic.mul), ('/', Arithmetic.div)] (unary operand rounds) value rounds

/-- Sums and differences. -/
def additive (operand : Reader α) : Reader α := do
  let rounds ← roundsLeft
  let value ← term operand
  chain [('+', Arithmetic.add), ('-', Arithmetic.sub)] (term operand) value rounds

/-- The spellings of the comparison operators, the longer ones first. -/
def comparisonSpellings : List (List Char × Comparison) :=
  [(['=', '='], .eq), (['!', '='], .ne), (['<', '='], .le), (['>', '='], .ge), (['<'], .lt),
    (['>'], .gt)]

/-- The comparison operator at the start of a text, with its length. -/
def comparisonAt (text : List Char) : Option (Comparison × Nat) :=
  (comparisonSpellings.find? fun entry => entry.1.isPrefixOf text).map
    fun entry => (entry.2, entry.1.length)

/-- At most one comparison. `depth` bounds the nesting of brackets. -/
def comparison (resolve : Resolver α) : Nat → Reader α
  | 0 => noValue
  | depth + 1 => do
    let operand := additive (primary resolve (comparison resolve depth))
    let left ← operand
    skipBlanks
    match comparisonAt (← get).rest with
    | some (op, length) =>
      skip length
      let right ← operand
      return Arithmetic.ofInt (if ← orStop (Arithmetic.holds op left right) then 1 else 0)
    | none => return left

/-- A whole expression. -/
def whole (resolve : Resolver α) (depth : Nat) : Reader α := do
  let value ← comparison resolve depth
  skipBlanks
  if (← get).rest.isEmpty then return Arithmetic.normalize value else noValue

/-- What reading an expression gives. -/
structure Reading (α : Type) where
  /-- The value, or the reason why there is none. -/
  value : Except Stop α
  /-- The identifiers that were asked for, in order. -/
  asked : List String

/-- Read and evaluate an expression. -/
def read (text : String) (resolve : Resolver α) : Reading α :=
  let chars := text.toList
  let (value, input) := (whole resolve (chars.length + 1)).run.run { rest := chars }
  { value, asked := input.asked.reverse }

end ByteSchema.Expression
