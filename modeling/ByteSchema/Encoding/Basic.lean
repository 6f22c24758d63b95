import ByteSchema.Encoding.Repertoire
import ByteSchema.Encoding.SingleByte
import ByteSchema.Encoding.Unicode
import ByteSchema.Text.Basic

/-!
# ByteSchema.Encoding.Basic

The text encodings that fields can name. Names are compared without regard to case and punctuation,
and most encodings have several. Bytes that are not text in their encoding are a problem but not a
failure: they are decoded leniently, and an encoding that is not known is read as ISO 8859-1.

Under the encoding `hex` the bytes are hexadecimal digits and the text is the byte string that they
write; wrong digits there cannot be mended.

Of the encodings that are not told here the host has its own list (`HostEncodings`). Not all of them
write text, and their errors may be of any kind.
-/

namespace ByteSchema

/-- A text encoding. -/
inductive Encoding where
  | ascii
  | utf8
  /-- UTF-8 with an optional signature in front. -/
  | utf8Signed
  | latin1
  | latin9
  | codePage1252
  | codePage437
  /-- UTF-16 in a byte order, or in the one that a mark in front tells. -/
  | utf16 (order : Option Endian)
  /-- UTF-32 in a byte order, or in the one that a mark in front tells. -/
  | utf32 (order : Option Endian)
  /-- Pairs of hexadecimal digits. -/
  | hex
  deriving DecidableEq, Repr, Inhabited

namespace Encoding

/-- The name of an encoding in messages. -/
def name : Encoding → String
  | ascii => "ascii"
  | utf8 => "utf-8"
  | utf8Signed => "utf-8-sig"
  | latin1 => "iso8859-1"
  | latin9 => "iso8859-15"
  | codePage1252 => "cp1252"
  | codePage437 => "cp437"
  | utf16 none => "utf-16"
  | utf16 (some .little) => "utf-16-le"
  | utf16 (some .big) => "utf-16-be"
  | utf32 none => "utf-32"
  | utf32 (some .little) => "utf-32-le"
  | utf32 (some .big) => "utf-32-be"
  | hex => "hex"

/-! ## Names -/

/-- The encodings by their main names. -/
def mainNames : List (String × Encoding) :=
  [("ascii", ascii), ("utf_8", utf8), ("utf_8_sig", utf8Signed), ("latin_1", latin1),
    ("iso8859_1", latin1), ("iso8859_15", latin9), ("cp1252", codePage1252),
    ("cp437", codePage437), ("utf_16", utf16 none), ("utf_16_le", utf16 (some .little)),
    ("utf_16_be", utf16 (some .big)), ("utf_32", utf32 none),
    ("utf_32_le", utf32 (some .little)), ("utf_32_be", utf32 (some .big)), ("hex_codec", hex)]

/-- The encodings by their other names. In these a full stop may stand for a low line. -/
def otherNames : List (String × Encoding) :=
  [("646", ascii), ("ansi_x3.4_1968", ascii), ("ansi_x3.4_1986", ascii),
    ("ansi_x3_4_1968", ascii), ("cp367", ascii), ("csascii", ascii), ("ibm367", ascii),
    ("iso646_us", ascii), ("iso_646.irv_1991", ascii), ("iso_ir_6", ascii), ("us", ascii),
    ("us_ascii", ascii), ("cp65001", utf8), ("u8", utf8), ("utf", utf8), ("utf8", utf8),
    ("utf8_ucs2", utf8), ("utf8_ucs4", utf8), ("8859", latin1), ("cp819", latin1),
    ("csisolatin1", latin1), ("ibm819", latin1), ("iso8859", latin1), ("iso8859_1", latin1),
    ("iso_8859_1", latin1), ("iso_8859_1_1987", latin1), ("iso_ir_100", latin1),
    ("l1", latin1), ("latin", latin1), ("latin1", latin1), ("iso_8859_15", latin9),
    ("l9", latin9), ("latin9", latin9), ("1252", codePage1252),
    ("windows_1252", codePage1252), ("437", codePage437), ("cspc8codepage437", codePage437),
    ("ibm437", codePage437), ("u16", utf16 none), ("utf16", utf16 none),
    ("unicodelittleunmarked", utf16 (some .little)), ("utf_16le", utf16 (some .little)),
    ("unicodebigunmarked", utf16 (some .big)), ("utf_16be", utf16 (some .big)),
    ("u32", utf32 none), ("utf32", utf32 none), ("utf_32le", utf32 (some .little)),
    ("utf_32be", utf32 (some .big)), ("hex", hex)]

/-- Does `c` count in an encoding name? -/
def isNameSign (c : Char) : Bool := c.isAlphanum || c == '.'

/-- The name with each run of other characters written as one low line, and none at the ends. -/
def collapse : List Char → List Char
  | cs => go false [] cs
where
  /-- `gap` tells whether other characters came last; `done` holds the result backwards. -/
  go (gap : Bool) (done : List Char) : List Char → List Char
    | [] => done.reverse
    | c :: rest =>
        if isNameSign c then
          go false (c :: if gap && !done.isEmpty then '_' :: done else done) rest
        else go true done rest

/-- The form in which an encoding name is looked up. -/
def plainName (s : String) : String := Text.lower (Text.strip s)

/-- The form in which encoding names are compared. -/
def normalizedName (s : String) : String := String.ofList (collapse (plainName s).toList)

/-- The encoding of a name. -/
def ofName? (s : String) : Option Encoding :=
  let name := normalizedName s
  let dotless := Text.replaceAll "." "_" name
  (otherNames.lookup name).or <| (otherNames.lookup dotless).or (mainNames.lookup name)

/-! ## Decoding -/

/-- The bytes of a hexadecimal digit, if it is one. -/
def hexValue? (b : UInt8) : Option Nat :=
  if 0x30 ≤ b && b ≤ 0x39 then some (b.toNat - 0x30)
  else if 0x41 ≤ b && b ≤ 0x46 then some (b.toNat - 0x37)
  else if 0x61 ≤ b && b ≤ 0x66 then some (b.toNat - 0x57)
  else none

/-- The bytes that pairs of hexadecimal digits write; none when there is another character. -/
def unhexPairs? : List UInt8 → Option (List UInt8)
  | a :: b :: rest => do
      let high ← hexValue? a
      let low ← hexValue? b
      return UInt8.ofNat (high * 16 + low) :: (← unhexPairs? rest)
  | [] => some []
  | [_] => none

/-- The bytes that hexadecimal digits write. An odd number of bytes is found before wrong digits. -/
def unhex (bytes : List UInt8) : Except Escape (List UInt8) :=
  if bytes.length % 2 = 1 then .error .oddHexText
  else
    match unhexPairs? bytes with
    | some bs => .ok bs
    | none => .error .notHexText

/-- The bytes behind a mark in front, and the byte order the mark tells. Without a mark the order is
little endian. -/
def behindMark (little big bytes : List UInt8) : Endian × List UInt8 :=
  if little.isPrefixOf bytes then (.little, bytes.drop little.length)
  else if big.isPrefixOf bytes then (.big, bytes.drop big.length)
  else (.little, bytes)

/-- How an encoding reads given bytes: its step function, and the bytes that are left to read. For
hexadecimal digits, which write no text, there is none. -/
def reading? : Encoding → List UInt8 → Option ((List UInt8 → Piece) × List UInt8)
  | ascii, bytes => some (asciiStep, bytes)
  | utf8, bytes => some (utf8Step, bytes)
  | utf8Signed, bytes =>
      some (utf8Step, if [0xEF, 0xBB, 0xBF].isPrefixOf bytes then bytes.drop 3 else bytes)
  | latin1, bytes => some (latin1Step, bytes)
  | latin9, bytes => some (tableStep upperLatin9, bytes)
  | codePage1252, bytes => some (tableStep upper1252, bytes)
  | codePage437, bytes => some (tableStep upper437, bytes)
  | utf16 (some order), bytes => some (utf16Step order, bytes)
  | utf16 none, bytes =>
      let (order, rest) := behindMark [0xFF, 0xFE] [0xFE, 0xFF] bytes
      some (utf16Step order, rest)
  | utf32 (some order), bytes => some (utf32Step order, bytes)
  | utf32 none, bytes =>
      let (order, rest) := behindMark [0xFF, 0xFE, 0, 0] [0, 0, 0xFE, 0xFF] bytes
      some (utf32Step order, rest)
  | hex, _ => none

/-- The value of a text that is given by its characters. -/
def textValue (text : String) : Value := .str (Text.ofChars text.toList)

/-- Decode bytes: the value, and the problem if the bytes are not text in the encoding. -/
def decode (e : Encoding) (bytes : List UInt8) : Except Escape (Value × Option Cause) :=
  match e.reading? bytes with
  | none => (unhex bytes).map fun bs => (.bytes bs, none)
  | some (step, rest) =>
    match decodeStrict step rest with
    | .ok text => .ok (textValue text, none)
    | .error fault =>
        .ok (textValue (decodeLenient step rest), some (.malformedText e.name fault.reason))

end Encoding

/-! ## Encodings of the host -/

/-- What an encoding of the host reads: a text, or bytes once more. -/
inductive HostDatum where
  | text (s : String)
  | bytes (bs : List UInt8)
  deriving DecidableEq, Repr, Inhabited

/-- A datum as a value. -/
def HostDatum.toValue : HostDatum → Value
  | text s => .str s
  | bytes bs => .bytes bs

/-- Why an encoding of the host does not read bytes. -/
inductive HostFault where
  /-- They are no text in the encoding, and can be read leniently. -/
  | malformed (reason : String)
  | other (e : HostError)
  deriving DecidableEq, Repr, Inhabited

/-- An encoding of the host. -/
structure HostEncoding where
  /-- Its name in messages. -/
  name : String
  strict : List UInt8 → Except HostFault HostDatum
  /-- Reads bytes that are no text. -/
  lenient : List UInt8 → Except HostError HostDatum

/-- The encodings of the host by the form in which names are compared. -/
abbrev HostEncodings := String → Option HostEncoding

/-- Decode bytes: the value, and the problem if the bytes are not text in the encoding. -/
def HostEncoding.decode (h : HostEncoding) (bytes : List UInt8) :
    Except Escape (Value × Option Cause) :=
  match h.strict bytes with
  | .ok datum => .ok (datum.toValue, none)
  | .error (.other e) => .error (.host e)
  | .error (.malformed reason) =>
    match h.lenient bytes with
    | .ok datum => .ok (datum.toValue, some (.malformedText h.name reason))
    | .error e => .error (.host e)

namespace Encoding

/-- Decode bytes in the encoding that is found under a name: one of the library, or else of the host.
-/
def decodeFound (hosts : HostEncodings) (name : String) (bytes : List UInt8) :
    Except Escape (Value × Option Cause) :=
  match ofName? name with
  | some e => e.decode bytes
  | none =>
    match hosts (normalizedName name) with
    | some h => h.decode bytes
    | none => .ok (textValue (decodeLenient latin1Step bytes), some (.unknownEncoding name))

/-- Decode bytes in the encoding of a name. -/
def decodeNamed (hosts : HostEncodings) (name : Option String) (bytes : List UInt8) :
    Except Escape (Value × Option Cause) :=
  match name with
  | none => .error .noEncoding
  | some name =>
    match Repertoire.utf8.refusal? (plainName name) with
    | some e => .error e
    | none =>
      if (plainName name).toList.contains '\x00' then .error .nulInEncodingName
      else decodeFound hosts name bytes

/-! ## UTF-8 files -/

/-- The wording of a fault in a UTF-8 text. -/
def utf8FaultText (bytes : List UInt8) (fault : TextFault) : String :=
  if fault.length = 1 then
    "'utf-8' codec can't decode byte 0x" ++ Text.byteHex (bytes.getD fault.start 0) ++
      " in position " ++ toString fault.start ++ ": " ++ fault.reason
  else
    "'utf-8' codec can't decode bytes in position " ++ toString fault.start ++ "-" ++
      toString (fault.start + fault.length - 1) ++ ": " ++ fault.reason

/-- A UTF-8 text, or the wording of its first fault. -/
def utf8Text (bytes : List UInt8) : Except String String :=
  match decodeStrict utf8Step bytes with
  | .ok text => .ok text
  | .error fault => .error (utf8FaultText bytes fault)

end Encoding

end ByteSchema
