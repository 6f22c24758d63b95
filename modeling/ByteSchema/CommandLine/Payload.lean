import ByteSchema.Encoding.Basic
import ByteSchema.Number.Numeral

/-!
# ByteSchema.CommandLine.Payload

What a user types for a buffer and for an offset. A payload is pairs of hexadecimal digits; blanks,
commas and the mark `0x` may stand anywhere between its digits. An offset is an integer, in
hexadecimal, octal or binary with the marks `0x`, `0o` and `0b`.
-/

namespace ByteSchema

namespace Payload

/-- The text without the marks that do not count: all blanks, then every `0x`, then all commas. -/
def clean (text : String) : String :=
  Text.replaceAll "," "" (Text.replaceAll "0x" "" (Text.replaceAll " " "" text))

/-- Is `c` a blank that may stand between two bytes? -/
def isGap (c : Char) : Bool := Numeral.isMargin c

/-- The value of a hexadecimal digit, if it is one. -/
def digit? (c : Char) : Option Nat :=
  if c.toNat < 128 then Encoding.hexValue? (UInt8.ofNat c.toNat) else none

/-- The bytes that pairs of digits write, or the position of the first character that does not fit.
`high` is the digit that waits for its partner; a pair stands together, gaps stand between pairs. -/
def readPairs (position : Nat) (high : Option Nat) : List Char → Except Nat (List UInt8)
  | [] => if high.isNone then return [] else throw position
  | c :: rest =>
      match high with
      | none =>
          if isGap c then readPairs (position + 1) none rest
          else
            match digit? c with
            | some d => readPairs (position + 1) (some d) rest
            | none => throw position
      | some h =>
          match digit? c with
          | some d => return UInt8.ofNat (h * 16 + d) :: (← readPairs (position + 1) none rest)
          | none => throw position

/-- The bytes that digits write. A character outside ASCII is found before any other fault. -/
def readDigits (cs : List Char) : Except Nat (List UInt8) :=
  let plain := cs.takeWhile fun c => c.toNat < 128
  if plain.length < cs.length then throw plain.length else readPairs 0 none cs

/-- Read a payload. -/
def read (text : String) : Except Escape (List UInt8) :=
  match readDigits (clean text).toList with
  | .ok bytes => .ok bytes
  | .error position => .error (.payload position)

end Payload

/-- Read an offset. -/
def readOffset (text : String) : Except Escape Int :=
  match Numeral.readInteger 0 text with
  | .ok n => .ok n
  | .error .malformed => .error (.numeral 0 text)
  | .error (.long digits) => .error (.longNumeral digits)

end ByteSchema
