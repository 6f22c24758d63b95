import ByteSchema.Encoding.Piece
import ByteSchema.Value.Basic

/-!
# ByteSchema.Encoding.Unicode

The encodings UTF-8, UTF-16 and UTF-32. A fault takes up as many bytes as could still have begun a
character: in UTF-8 the lead byte with the continuation bytes that fit it, in UTF-16 one unit, at
the end of the text all bytes that remain.
-/

namespace ByteSchema.Encoding

/-- Is `b` a continuation byte of UTF-8? -/
def isContinuation (b : UInt8) : Bool := 0x80 ≤ b && b < 0xC0

/-- The six payload bits of a continuation byte. -/
def payloadBits (b : UInt8) : Nat := b.toNat % 64

/-- The range of the byte behind a lead byte of three or four bytes, which keeps out overlong forms,
surrogates and numbers past the last code point. -/
def secondRange (lead : UInt8) : UInt8 × UInt8 :=
  if lead == 0xE0 then (0xA0, 0xBF)
  else if lead == 0xED then (0x80, 0x9F)
  else if lead == 0xF0 then (0x90, 0xBF)
  else if lead == 0xF4 then (0x80, 0x8F)
  else (0x80, 0xBF)

/-- May `b` stand behind `lead`? -/
def fitsSecond (lead b : UInt8) : Bool :=
  (secondRange lead).1 ≤ b && b ≤ (secondRange lead).2

/-- Reason: a lead byte with no fitting byte behind it. -/
def badContinuation (width : Nat) : Piece := .bad "invalid continuation byte" width

/-- Reason: the text ends inside a character. -/
def endOfData (width : Nat) : Piece := .bad "unexpected end of data" width

/-- The front of a UTF-8 text. -/
def utf8Step : List UInt8 → Piece
  | [] => endOfData 1
  | a :: rest =>
    if a < 0x80 then .char (Char.ofNat a.toNat) 1
    else if a < 0xC2 || 0xF5 ≤ a then .bad "invalid start byte" 1
    else if a < 0xE0 then
      match rest with
      | [] => endOfData 1
      | b :: _ =>
        if isContinuation b then .char (Char.ofNat (a.toNat % 32 * 64 + payloadBits b)) 2
        else badContinuation 1
    else if a < 0xF0 then
      match rest with
      | [] => endOfData 1
      | [b] => if fitsSecond a b then endOfData 2 else badContinuation 1
      | b :: c :: _ =>
        if !fitsSecond a b then badContinuation 1
        else if !isContinuation c then badContinuation 2
        else .char (Char.ofNat ((a.toNat % 16 * 64 + payloadBits b) * 64 + payloadBits c)) 3
    else
      match rest with
      | [] => endOfData 1
      | [b] => if fitsSecond a b then endOfData 2 else badContinuation 1
      | [b, c] =>
        if !fitsSecond a b then badContinuation 1
        else if !isContinuation c then badContinuation 2
        else endOfData 3
      | b :: c :: d :: _ =>
        if !fitsSecond a b then badContinuation 1
        else if !isContinuation c then badContinuation 2
        else if !isContinuation d then badContinuation 3
        else .char (Char.ofNat (((a.toNat % 8 * 64 + payloadBits b) * 64 + payloadBits c) * 64 +
          payloadBits d)) 4

/-- The number in some bytes, read in a byte order. -/
def unitOf : Endian → List UInt8 → Nat
  | .big, bs => bs.foldl (fun n b => n * 256 + b.toNat) 0
  | .little, bs => bs.foldr (fun b n => n * 256 + b.toNat) 0

/-- The front of a UTF-16 text. -/
def utf16Step (order : Endian) (bytes : List UInt8) : Piece :=
  match bytes with
  | a :: b :: rest =>
    let unit := unitOf order [a, b]
    if unit < 0xD800 || 0xE000 ≤ unit then .char (Char.ofNat unit) 2
    else if 0xDC00 ≤ unit then .bad "illegal encoding" 2
    else
      match rest with
      | c :: d :: _ =>
        let low := unitOf order [c, d]
        if 0xDC00 ≤ low && low < 0xE000 then
          .char (Char.ofNat (0x10000 + (unit - 0xD800) * 0x400 + (low - 0xDC00))) 4
        else .bad "illegal UTF-16 surrogate" 2
      | _ => endOfData bytes.length
  | _ => .bad "truncated data" bytes.length

/-- The front of a UTF-32 text. -/
def utf32Step (order : Endian) (bytes : List UInt8) : Piece :=
  match bytes with
  | a :: b :: c :: d :: _ =>
    let unit := unitOf order [a, b, c, d]
    if 0x110000 ≤ unit then .bad "code point not in range(0x110000)" 4
    else if 0xD800 ≤ unit && unit < 0xE000 then
      .bad "code point in surrogate code point range(0xd800, 0xe000)" 4
    else .char (Char.ofNat unit) 4
  | _ => .bad "truncated data" bytes.length

end ByteSchema.Encoding
