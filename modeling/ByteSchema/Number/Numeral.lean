import ByteSchema.Number.Dyadic
import ByteSchema.Text.Blank
import ByteSchema.Text.Numeral

/-!
# ByteSchema.Number.Numeral

Reading numbers that stand alone in a text: integers in a base, and decimal fractions. White space
may surround them, decimal digits of any script count, and a low line may separate two digits.
-/

namespace ByteSchema.Numeral

open ByteSchema.Text

/-- Why a text is no integer. -/
inductive Fault where
  | malformed
  /-- A decimal integer with more digits than are read. -/
  | long (digits : Nat)
  deriving DecidableEq, Repr

/-- Most digits of a decimal integer. -/
def maxDigits : Nat := 4300

/-- A character as the numeral grammar sees it: decimal digits and blanks outside ASCII stand for
those inside. -/
def asAscii (c : Char) : Char :=
  if c.toNat < 127 then c
  else if isBlank c then ' '
  else match decimalValue? c with
    | some d => Char.ofNat ('0'.toNat + d)
    | none => '?'

/-- Is `c` a blank that may surround a numeral? -/
def isMargin (c : Char) : Bool :=
  c == ' ' || c == '\t' || c == '\n' || c == '\x0b' || c == '\x0c' || c == '\r'

/-- The text of a numeral in ASCII, without the blanks around it. -/
def bare (text : String) : List Char :=
  (((text.toList.map asAscii).dropWhile isMargin).reverse.dropWhile isMargin).reverse

/-- The sign in front of a numeral: is it a minus, and what stands behind it. -/
def splitSign : List Char → Bool × List Char
  | '-' :: rest => (true, rest)
  | '+' :: rest => (false, rest)
  | cs => (false, cs)

/-- The value of a digit in bases up to 36; 36 for any other character. -/
def digitValue (c : Char) : Nat :=
  if '0' ≤ c && c ≤ '9' then c.toNat - '0'.toNat
  else if 'a' ≤ c && c ≤ 'z' then c.toNat - 'a'.toNat + 10
  else if 'A' ≤ c && c ≤ 'Z' then c.toNat - 'A'.toNat + 10
  else 36

/-- Is `c` a digit of the base? -/
def isDigitOf (base : Nat) (c : Char) : Bool := digitValue c < base

/-- The digits of a text that holds nothing else but single low lines between them. -/
def groupedDigits (isDigit : Char → Bool) : List Char → Option (List Char)
  | [] => none
  | [c] => if isDigit c then some [c] else none
  | c :: '_' :: rest => if isDigit c then (groupedDigits isDigit rest).map (c :: ·) else none
  | c :: rest => if isDigit c then (groupedDigits isDigit rest).map (c :: ·) else none

/-- The number that digits write in a base. -/
def valueOf (base : Nat) (ds : List Char) : Nat := ds.foldl (fun n d => n * base + digitValue d) 0

/-- The base that a letter behind a leading zero stands for. -/
def markedBase? (c : Char) : Option Nat :=
  if c == 'x' || c == 'X' then some 16
  else if c == 'o' || c == 'O' then some 8
  else if c == 'b' || c == 'B' then some 2
  else none

/-- The base of an unsigned integer and its digits, the mark of the base removed. `base` 0 takes the
base from the mark, and is decimal without one. -/
def splitBase (base : Nat) : List Char → Nat × List Char
  | '0' :: c :: rest =>
      match markedBase? c with
      | some marked =>
          if base = 0 ∨ base = marked then
            (marked, match rest with | '_' :: more => more | _ => rest)
          else (base, '0' :: c :: rest)
      | none => (if base = 0 then 10 else base, '0' :: c :: rest)
  | cs => (if base = 0 then 10 else base, cs)

/-- Read an integer in a base; base 0 is taken from the numeral, and then a decimal numeral other
than zero does not start with a zero. -/
def readInteger (base : Nat) (text : String) : Except Fault Int :=
  let (negative, unsigned) := splitSign (bare text)
  let (actual, cs) := splitBase base unsigned
  let run := cs.takeWhile fun c => isDigitOf actual c || c == '_'
  match groupedDigits (isDigitOf actual) run with
  | none => throw .malformed
  | some ds =>
    if actual = 10 ∧ maxDigits < ds.length then throw (.long ds.length)
    else
      let n := valueOf actual ds
      if run.length < cs.length then throw .malformed
      else if base = 0 ∧ actual = 10 ∧ cs.head? = some '0' ∧ n ≠ 0 then throw .malformed
      else return if negative then -(n : Int) else n

/-- Does every low line of the text stand between two digits? -/
def linesBetweenDigits : Char → List Char → Bool
  | _, [] => true
  | previous, '_' :: rest =>
      isDigitOf 10 previous && (rest.head?.any (isDigitOf 10)) && linesBetweenDigits '_' rest
  | _, c :: rest => linesBetweenDigits c rest

/-- The double nearest to `± mantissa * 10 ^ exponent`, an infinity when it is out of range. -/
def scaled (negative : Bool) (mantissa : Nat) (digits : Nat) (exponent : Int) : Float :=
  let huge : Float := if negative then -(1.0 / 0.0) else 1.0 / 0.0
  if mantissa = 0 ∨ (digits : Int) + exponent < -400 then if negative then -0.0 else 0.0
  else if 400 < (digits : Int) + exponent then huge
  else if 0 ≤ exponent then
    (Dyadic.nearest? negative (mantissa * Nat.pow 10 exponent.toNat) 1).getD huge
  else (Dyadic.nearest? negative mantissa (Nat.pow 10 (-exponent).toNat)).getD huge

/-- The exponent behind `e`: optionally signed digits and nothing else. -/
def readExponent : List Char → Option Int
  | cs =>
    let (negative, ds) := splitSign cs
    if ds.isEmpty || !ds.all (isDigitOf 10) then none
    else
      let n : Int := valueOf 10 ds
      some (if negative then -n else n)

/-- Read an unsigned decimal fraction, with or without exponent. -/
def readUnsigned (negative : Bool) (cs : List Char) : Option Float := do
  let whole := cs.takeWhile (isDigitOf 10)
  let behind := cs.dropWhile (isDigitOf 10)
  let (fraction, behind) :=
    match behind with
    | '.' :: rest => (rest.takeWhile (isDigitOf 10), rest.dropWhile (isDigitOf 10))
    | _ => ([], behind)
  let ds := whole ++ fraction
  if ds.isEmpty then none
  let exponent ←
    match behind with
    | [] => some 0
    | c :: rest => if c == 'e' || c == 'E' then readExponent rest else none
  let significant := ds.dropWhile (· == '0')
  return scaled negative (valueOf 10 ds) significant.length (exponent - fraction.length)

/-- Read a decimal fraction, an infinity or a NaN. -/
def readFraction (text : String) : Option Float :=
  let cs := bare text
  if !linesBetweenDigits ' ' cs then none
  else
    let (negative, unsigned) := splitSign (cs.filter (· != '_'))
    let word := String.ofList (unsigned.map Char.toLower)
    if word = "inf" ∨ word = "infinity" then some (if negative then -(1.0 / 0.0) else 1.0 / 0.0)
    else if word = "nan" then some (0.0 / 0.0)
    else readUnsigned negative unsigned

end ByteSchema.Numeral
