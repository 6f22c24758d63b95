import ByteSchema.Value.Text

/-!
# ByteSchema.Fault

What can go wrong, as causes, and the words for it.

* A `DecodeError` is a cause with the path of the field that was being decoded. Decoding a buffer
  ends with such an error as a *result*; only text problems (`ErrorKind.encoding`) are mended and
  go on.
* An `Escape` is a failure of another sort, which no result reports: it leaves the operation that
  was asked for.
* A `Diagnostic` is the report of an error to the caller.
-/

namespace ByteSchema

/-- The kinds of decode errors. -/
inductive ErrorKind where
  /-- An error of no particular kind. -/
  | decode
  /-- A schema that is malformed or cannot be loaded, or that has no root. -/
  | schema
  /-- An unknown type name, or a switch without a matching case. -/
  | typeResolution
  /-- An expression that does not give the integer it has to give. -/
  | expression
  /-- A read outside the buffer. -/
  | bounds
  /-- Bytes that are not text in the encoding they should be in. -/
  | encoding
  deriving DecidableEq, Repr, Inhabited

/-- The name of a kind of error in reports. -/
def ErrorKind.name : ErrorKind → String
  | decode => "DecodeError"
  | schema => "SchemaError"
  | typeResolution => "TypeResolutionError"
  | expression => "ExpressionError"
  | bounds => "BoundsError"
  | encoding => "EncodingError"

/-- Why an operation of the library fails. -/
inductive Cause where
  /-- The schema source is not a text, a byte string or a mapping. -/
  | sourceKind (kindName : String)
  /-- The schema source is not UTF-8. -/
  | sourceNotUtf8 (detail : String)
  /-- The schema source holds nothing but white space. -/
  | emptySource
  /-- The schema source is not a YAML document. -/
  | invalidYaml (detail : String)
  /-- The schema document is not a mapping. -/
  | documentNotMapping
  | metaNotMapping
  | seqNotList (owner : String)
  | typesNotMapping (owner : String)
  | typeNotMapping (name : String)
  | fieldNotMapping (kindName : String)
  | fieldWithoutId
  /-- The type of a field is neither a name nor a switch. -/
  | fieldType (id : String)
  | switchWithoutCases (id : String)
  /-- A case of a switch does not name a type. -/
  | caseNotName (key : Value) (id : String)
  | repeatWithoutCount (id : String)
  | repeatWithoutCondition (id : String)
  | unknownRepeat (kind : Value) (id : String)
  | terminatorNotByte (id : String)
  | unknownEndian (value : Value) (place : String)
  /-- There is neither a `seq` nor a type named like the schema. -/
  | noRoot
  | tooDeep (limit : Int) (typeName : String)
  | decodedTwice (path : String)
  | unknownType (name : String)
  /-- A switch has no default and its discriminant has no value. -/
  | switchUnresolved (id : String) (discriminant : Value)
  /-- A switch has no default and no case for the value of its discriminant. -/
  | switchWithoutCase (id : String) (discriminant : Number)
  /-- An expression has no value. -/
  | noValue (what : String) (expr : Value)
  | notFinite (what : String) (expr : Value) (x : Float)
  | notIntegral (what : String) (expr : Value) (x : Float)
  | negativeCount (count : Int)
  | countOverLimit (count limit : Int)
  /-- A field of raw bytes does not say where it ends. -/
  | sizeRequired (id : String) (what : String)
  | negativeOffset (offset : Int)
  | negativeSize (size offset : Int)
  | pastEnd (offset length available : Int)
  | terminatorMissing (terminator : UInt8) (offset : Int)
  | unknownEncoding (name : String)
  | malformedText (encoding reason : String)
  /-- An error that the host states in its own words. -/
  | stated (kind : ErrorKind) (message : String)
  deriving Inhabited

namespace Cause

/-- The kind of error that a cause makes. -/
def kind : Cause → ErrorKind
  | unknownType _ | switchUnresolved .. | switchWithoutCase .. => .typeResolution
  | noValue .. | notFinite .. | notIntegral .. | negativeCount _ | countOverLimit ..
  | sizeRequired .. => .expression
  | negativeOffset _ | negativeSize .. | pastEnd .. | terminatorMissing .. => .bounds
  | unknownEncoding _ | malformedText .. => .encoding
  | stated kind _ => kind
  | _ => .schema

/-- The wording of a cause. -/
def message : Cause → String
  | sourceKind kindName => "Cannot load schema from " ++ kindName
  | sourceNotUtf8 detail => "Schema source is not UTF-8: " ++ detail
  | emptySource => "Schema source is empty"
  | invalidYaml detail => "Invalid YAML: " ++ detail
  | documentNotMapping => "Invalid KSY content"
  | metaNotMapping => "meta must be a mapping"
  | seqNotList owner => "seq of " ++ owner ++ " must be a list"
  | typesNotMapping owner => "types of " ++ owner ++ " must be a mapping"
  | typeNotMapping name => "Type '" ++ name ++ "' must be a mapping"
  | fieldNotMapping kindName => "Field entry must be a mapping, got " ++ kindName
  | fieldWithoutId => "Field entry is missing 'id'"
  | fieldType id => "Unsupported type definition for field " ++ id
  | switchWithoutCases id => "Switch type of field '" ++ id ++ "' needs a cases mapping"
  | caseNotName key id =>
      "Switch case " ++ key.quoted ++ " of field '" ++ id ++ "' must name a type"
  | repeatWithoutCount id => "Field '" ++ id ++ "' uses repeat: expr without repeat-expr"
  | repeatWithoutCondition id => "Field '" ++ id ++ "' uses repeat: until without repeat-until"
  | unknownRepeat kind id => "Unsupported repeat '" ++ kind.text ++ "' on field '" ++ id ++ "'"
  | terminatorNotByte id => "Terminator of field '" ++ id ++ "' must be a byte value"
  | unknownEndian value place => "Unsupported endian '" ++ value.text ++ "' in " ++ place
  | noRoot => "Schema must define top-level seq or type"
  | tooDeep limit typeName =>
      "Maximum nesting depth " ++ toString limit ++ " exceeded in type '" ++ typeName ++ "'"
  | decodedTwice path => "Field '" ++ path ++ "' decoded twice"
  | unknownType name => "Unknown type: " ++ name
  | switchUnresolved id discriminant =>
      "Unable to resolve switch type for field " ++ id ++ ": discriminant " ++
        discriminant.quoted ++ " is unresolved"
  | switchWithoutCase id discriminant =>
      "Unable to resolve switch type for field " ++ id ++ ": no case for " ++
        discriminant.toValue.text
  | noValue what expr => "Cannot evaluate " ++ what ++ " expression " ++ expr.quoted
  | notFinite what expr x =>
      what ++ " expression " ++ expr.quoted ++ " is not finite (" ++ floatText x ++ ")"
  | notIntegral what expr x =>
      what ++ " expression " ++ expr.quoted ++ " is not an integer (" ++ floatText x ++ ")"
  | negativeCount count => "Negative repeat count " ++ toString count
  | countOverLimit count limit =>
      "Repeat count " ++ toString count ++ " exceeds limit " ++ toString limit
  | sizeRequired id what => "Field " ++ id ++ " requires size for " ++ what
  | negativeOffset offset => "Negative read offset " ++ toString offset
  | negativeSize size offset =>
      "Negative read size " ++ toString size ++ " at offset " ++ toString offset
  | pastEnd offset length available =>
      "Reading past end of buffer at offset " ++ toString offset ++ ": need " ++
        toString length ++ " bytes, " ++ toString available ++ " available"
  | terminatorMissing terminator offset =>
      "Terminator 0x" ++ Text.byteHex terminator ++ " not found after offset " ++ toString offset
  | unknownEncoding name => "Unknown encoding '" ++ name ++ "', decoded as latin-1"
  | malformedText encoding reason =>
      "Invalid " ++ encoding ++ " data (" ++ reason ++ "), replacement characters used"
  | stated _ message => message

/-- Does the wording need the digits of an overlong integer? -/
def hasOverlong : Cause → Bool
  | caseNotName key _ => key.hasOverlong
  | unknownRepeat kind _ => kind.hasOverlong
  | unknownEndian value _ => value.hasOverlong
  | switchUnresolved _ discriminant => discriminant.hasOverlong
  | switchWithoutCase _ discriminant => discriminant.toValue.hasOverlong
  | noValue _ expr | notFinite _ expr _ | notIntegral _ expr _ => expr.hasOverlong
  | negativeCount count => Value.isOverlong count
  | countOverLimit count limit => Value.isOverlong count || Value.isOverlong limit
  | negativeOffset offset => Value.isOverlong offset
  | negativeSize size offset => Value.isOverlong size || Value.isOverlong offset
  | pastEnd offset length available =>
      Value.isOverlong offset || Value.isOverlong length || Value.isOverlong available
  | terminatorMissing _ offset => Value.isOverlong offset
  | _ => false

end Cause

/-- An error in the words of the host. -/
structure HostError where
  kind : String
  message : String
  /-- Is it about a wrong value? -/
  isWrongValue : Bool
  deriving DecidableEq, Repr, Inhabited

/-- A failure that no result reports. -/
inductive Escape where
  /-- A decimal numeral has more digits than are read. -/
  | longNumeral (digits : Nat)
  /-- The operands of an expression are of kinds that the operator does not join, or a mapping
  stands for the text of a date. -/
  | mismatch
  /-- An integer has more digits than are written. -/
  | longInteger
  /-- An encoding name holds the character NUL. -/
  | nulInEncodingName
  /-- An encoding cannot write a part of a text, which stands behind `position` signs. -/
  | unwritten (encoding : String) (position : Nat) (part : List Text.Sign) (reason : String)
  /-- A text field has no encoding, and there is no default. -/
  | noEncoding
  /-- An encoding of the host does not read the bytes. -/
  | host (e : HostError)
  /-- Bytes that should be hexadecimal digits are odd in number. -/
  | oddHexText
  /-- Bytes that should be hexadecimal digits are not. -/
  | notHexText
  /-- Numbers in a document do not make a date. -/
  | calendar (fault : CalendarFault)
  /-- A document's integer has no digits in its base, or wrong ones. -/
  | numeral (base : Nat) (text : String)
  /-- A document's decimal fraction cannot be read. -/
  | fraction (text : String)
  /-- A document's scalar is tagged as a truth value and spells none. -/
  | truthWord
  /-- A document's scalar is tagged as a number and holds no more than a sign. -/
  | noDigits
  /-- A document's scalar is tagged as a date or moment and has the form of neither. -/
  | notMoment
  /-- A character escape of a document names no character. -/
  | characterCode (code : Nat)
  /-- A hexadecimal payload has a wrong character at this position. -/
  | payload (position : Nat)
  /-- A payload was asked for and none is there. -/
  | noPayload
  /-- An offset was asked for and none is there. -/
  | noOffset
  /-- A value has no form in a JSON report. -/
  | noJson (kindName : String)
  /-- A collection of a document holds itself where a finite one is needed. -/
  | endless
  /-- A repetition without end was given up. -/
  | unfinished
  deriving Inhabited

/-- How many characters of a wrong numeral's quoted form are shown. -/
def shownNumeral : Nat := 200

/-- The wording of a numeral that cannot be read in a base. -/
def numeralMessage (base : Nat) (text : String) : String :=
  "invalid literal for int() with base " ++ toString base ++ ": " ++
    String.ofList ((Text.quote text).toList.take shownNumeral)

/-- The wording of a failure that no result reports. -/
def Escape.message : Escape → String
  | longNumeral digits =>
      "Exceeds the limit (" ++ toString Value.maxDecimalDigits ++
        " digits) for integer string conversion: value has " ++ toString digits ++
        " digits; use sys.set_int_max_str_digits() to increase the limit"
  | longInteger =>
      "Exceeds the limit (" ++ toString Value.maxDecimalDigits ++
        " digits) for integer string conversion; use sys.set_int_max_str_digits() to " ++
        "increase the limit"
  | mismatch => "the value is of the wrong kind"
  | nulInEncodingName => "embedded null character"
  | unwritten encoding position part reason => Text.unwritten encoding position part reason
  | noEncoding => "the field has no encoding"
  | host e => e.message
  | oddHexText => "Odd-length string"
  | notHexText => "Non-hexadecimal digit found"
  | calendar fault => fault.message
  | numeral base text => numeralMessage base text
  | fraction text => "could not convert string to float: " ++ Text.quote text
  | truthWord => "the scalar is no truth value"
  | noDigits => "the scalar is no number"
  | notMoment => "the scalar is no date"
  | characterCode _ => "chr() arg not in range(0x110000)"
  | payload position =>
      "non-hexadecimal number found in fromhex() arg at position " ++ toString position
  | noPayload => "there is no payload"
  | noOffset => "there is no offset"
  | noJson kindName => "Object of type " ++ kindName ++ " is not JSON serializable"
  | endless => "the value holds itself"
  | unfinished => "a repetition does not end"

/-- Is the failure about a wrong value? These are told in words; the others only by their kind. -/
def Escape.isWrongValue : Escape → Bool
  | mismatch | noEncoding | truthWord | noDigits | notMoment => false
  | noPayload | noOffset | noJson _ | endless | unfinished => false
  | characterCode code => code < Nat.pow 2 31
  | host e => e.isWrongValue
  | _ => true

/-- A cause with the path of the field that was being decoded, once known. -/
structure DecodeError where
  cause : Cause
  path : Option String := none
  deriving Inhabited

namespace DecodeError

/-- The kind of the error. -/
def kind (e : DecodeError) : ErrorKind := e.cause.kind

/-- The wording of the error. -/
def message (e : DecodeError) : String := e.cause.message

/-- Attach a path, unless a deeper one is there already. -/
def withPath (path : String) (e : DecodeError) : DecodeError :=
  { e with path := some (e.path.getD path) }

@[simp] theorem withPath_none (c : Cause) (p : String) :
    withPath p ⟨c, none⟩ = ⟨c, some p⟩ := rfl

@[simp] theorem withPath_some (c : Cause) (p q : String) :
    withPath p ⟨c, some q⟩ = ⟨c, some q⟩ := rfl

@[simp] theorem cause_withPath (e : DecodeError) (p : String) :
    (e.withPath p).cause = e.cause := rfl

/-- Of two attached paths the first stays. -/
@[simp] theorem withPath_withPath (e : DecodeError) (p q : String) :
    (e.withPath p).withPath q = e.withPath p := rfl

end DecodeError

/-- How an operation fails: with an error that results report, or otherwise. -/
inductive Failure where
  | error (e : DecodeError)
  | escape (e : Escape)
  deriving Inhabited

namespace Failure

/-- The failure for a cause. A cause whose wording needs an overlong integer cannot be worded and
escapes instead. -/
def ofCause (cause : Cause) (path : Option String := none) : Failure :=
  if cause.hasOverlong then escape .longInteger else error ⟨cause, path⟩

/-- Attach a path to an error that has none. -/
def withPath (path : String) : Failure → Failure
  | error e => error (e.withPath path)
  | escape e => escape e

@[simp] theorem withPath_error (p : String) (e : DecodeError) :
    withPath p (error e) = error (e.withPath p) := rfl

@[simp] theorem withPath_escape (p : String) (e : Escape) :
    withPath p (escape e) = escape e := rfl

end Failure

/-- A problem as reported to the caller. -/
structure Diagnostic where
  message : String
  path : Option String := none
  kind : String := "DecodeError"
  deriving DecidableEq, Repr, Inhabited

/-- The report of a decode error. -/
def DecodeError.diagnostic (e : DecodeError) : Diagnostic :=
  ⟨e.message, e.path, e.kind.name⟩

/-- The warnings and errors collected so far. -/
structure Diagnostics where
  warnings : List String := []
  errors : List Diagnostic := []
  deriving DecidableEq, Repr, Inhabited

namespace Diagnostics

/-- Add a warning. -/
def warn (d : Diagnostics) (message : String) : Diagnostics :=
  { d with warnings := d.warnings ++ [message] }

/-- Add an error. -/
def report (d : Diagnostics) (entry : Diagnostic) : Diagnostics :=
  { d with errors := d.errors ++ [entry] }

@[simp] theorem errors_warn (d : Diagnostics) (m : String) : (d.warn m).errors = d.errors := rfl

@[simp] theorem warnings_report (d : Diagnostics) (e : Diagnostic) :
    (d.report e).warnings = d.warnings := rfl

end Diagnostics

end ByteSchema
