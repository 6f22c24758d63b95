import ByteSchema.Text.Printable
import ByteSchema.Text.Surrogate

/-!
# ByteSchema.Text.Quoted

Quoted forms of text and of byte strings, as messages show them. A text stands between single
quotes, or between double quotes when it holds a single quote and no double one. The quote in use
and the backslash are escaped, tab, line feed and carriage return have short escapes, and every
sign that is not printable is written by its code in 2, 4 or 8 lower-case hexadecimal digits.
-/

namespace ByteSchema.Text

/-- The lower-case hexadecimal digit of a number below 16. -/
def hexDigit (n : Nat) : Char := (Nat.digitChar n)

/-- The lower-case hexadecimal digits of `n`, at least one. -/
def hexDigits (n : Nat) : List Char := Nat.toDigits 16 n

/-- `ds` filled up with zeros on the left to `width` digits. -/
def padDigits (width : Nat) (ds : List Char) : List Char :=
  List.replicate (width - ds.length) '0' ++ ds

/-- The two lower-case hexadecimal digits of a byte. -/
def byteHex (b : UInt8) : String := String.ofList (padDigits 2 (hexDigits b.toNat))

/-- The quote that goes around a text: single, unless the text has single quotes and no double
quote. -/
def quoteFor (cs : List Char) : Char :=
  if cs.contains '\'' && !cs.contains '"' then '"' else '\''

/-- A code as an escape. -/
def codeEscape (code : Nat) : List Char :=
  if code < 0x100 then '\\' :: 'x' :: padDigits 2 (hexDigits code)
  else if code < 0x10000 then '\\' :: 'u' :: padDigits 4 (hexDigits code)
  else '\\' :: 'U' :: padDigits 8 (hexDigits code)

/-- One character inside quotes. -/
def escapeChar (quote c : Char) : List Char :=
  if c == quote || c == '\\' then ['\\', c]
  else if c == '\t' then ['\\', 't']
  else if c == '\n' then ['\\', 'n']
  else if c == '\r' then ['\\', 'r']
  else if isPrintable c then [c]
  else codeEscape c.toNat

/-- One sign inside quotes; a surrogate is not printable. -/
def escapeSign (quote : Char) : Sign → List Char
  | .char c => escapeChar quote c
  | .surrogate low => codeEscape (Sign.surrogate low).code

/-- A text between quotes. -/
def quote (s : String) : String :=
  let q := quoteFor s.toList
  String.ofList (q :: (signs s.toList).flatMap (escapeSign q) ++ [q])

/-- One byte inside quotes: bytes outside ASCII are always escaped. -/
def escapeByte (q : Char) (b : UInt8) : List Char :=
  if b < 0x80 then escapeChar q (Char.ofNat b.toNat)
  else codeEscape b.toNat

/-- A byte string between quotes, after the letter `b`. -/
def quoteBytes (bs : List UInt8) : String :=
  let q := quoteFor (bs.map fun b => Char.ofNat b.toNat)
  String.ofList ('b' :: q :: bs.flatMap (escapeByte q) ++ [q])

/-- The text with its surrogates as escapes, in which all signs are characters. -/
def shown (s : String) : String :=
  String.ofList ((signs s.toList).flatMap fun
    | .char c => [c]
    | .surrogate low => codeEscape (Sign.surrogate low).code)

/-- The words for a part of a text, behind `position` signs, that an encoding cannot write. -/
def unwritten (encoding : String) (position : Nat) (part : List Sign) (reason : String) : String :=
  "'" ++ encoding ++ "' codec can't encode character" ++
    (match part with
      | [s] => " '" ++ String.ofList (codeEscape s.code) ++ "' in position " ++ toString position
      | _ =>
          "s in position " ++ toString position ++ "-" ++
            toString (position + part.length - 1)) ++
    ": " ++ reason

end ByteSchema.Text
