import ByteSchema.Encoding.Repertoire
import ByteSchema.Number.Numeral
import ByteSchema.Yaml.Problem

/-!
# ByteSchema.Yaml.Scalar

The types of YAML 1.1 scalars. A plain scalar without tag gets its type from its form, and each type
says which value a scalar's text stands for. A leading zero makes an integer octal, colons separate
sexagesimal digits, and a decimal fraction with an exponent needs a point and a sign.
-/

namespace ByteSchema.Yaml

/-- The tag of a node. -/
inductive Tag where
  | null
  | bool
  | int
  | float
  | str
  /-- Bytes in base 64. -/
  | binary
  | timestamp
  /-- The key `<<`, which merges other mappings in. -/
  | merge
  /-- The key `=`. -/
  | value
  | seq
  /-- A sequence of mappings of one entry each, which counts as a mapping with an order. -/
  | omap
  /-- A sequence of mappings of one entry each, in which keys may come again. -/
  | pairs
  | map
  /-- A mapping whose keys make a set. -/
  | set
  | other (text : String)
  deriving DecidableEq, Repr, Inhabited

/-- What the tags of YAML's own types begin with. -/
def coreTagLead : String := "tag:yaml.org,2002:"

/-- The full text of a tag. -/
def Tag.text : Tag → String
  | null => coreTagLead ++ "null"
  | bool => coreTagLead ++ "bool"
  | int => coreTagLead ++ "int"
  | float => coreTagLead ++ "float"
  | str => coreTagLead ++ "str"
  | binary => coreTagLead ++ "binary"
  | timestamp => coreTagLead ++ "timestamp"
  | merge => coreTagLead ++ "merge"
  | value => coreTagLead ++ "value"
  | seq => coreTagLead ++ "seq"
  | omap => coreTagLead ++ "omap"
  | pairs => coreTagLead ++ "pairs"
  | map => coreTagLead ++ "map"
  | set => coreTagLead ++ "set"
  | other text => text

/-- The tags of YAML's own types. -/
def coreTags : List Tag :=
  [.null, .bool, .int, .float, .str, .binary, .timestamp, .merge, .value, .seq, .omap, .pairs, .map,
    .set]

/-- The tag with a given full text. -/
def Tag.ofText (text : String) : Tag :=
  (coreTags.find? fun t => t.text = text).getD (.other text)

/-! ## Forms -/

/-- Is `c` a decimal digit? -/
def isDec (c : Char) : Bool := '0' ≤ c && c ≤ '9'

/-- Is `c` a decimal digit or a low line? -/
def isDecLine (c : Char) : Bool := isDec c || c == '_'

/-- The text behind an optional sign. -/
def behindSign : List Char → List Char
  | '+' :: rest => rest
  | '-' :: rest => rest
  | cs => cs

/-- A sexagesimal digit behind each colon, at least one; what stands behind them. -/
def behindSixties : List Char → Option (List Char)
  | ':' :: a :: b :: rest =>
      if '0' ≤ a && a ≤ '5' && isDec b then some ((behindSixties rest).getD rest)
      else if isDec a then some ((behindSixties (b :: rest)).getD (b :: rest))
      else none
  | [':', a] => if isDec a then some [] else none
  | _ => none

/-- Is the text an integer? -/
def isIntForm (text : List Char) : Bool :=
  let cs := behindSign text
  match cs with
  | '0' :: 'b' :: c :: rest => (c :: rest).all fun d => d == '0' || d == '1' || d == '_'
  | '0' :: 'x' :: c :: rest =>
      (c :: rest).all fun d =>
        isDecLine d || ('a' ≤ d && d ≤ 'f') || ('A' ≤ d && d ≤ 'F')
  | ['0'] => true
  | '0' :: rest => rest.all fun d => ('0' ≤ d && d ≤ '7') || d == '_'
  | c :: rest =>
      isDec c &&
        (rest.all isDecLine || behindSixties (rest.dropWhile isDecLine) == some [])
  | [] => false

/-- An exponent with its sign, or nothing. -/
def isExponentForm : List Char → Bool
  | [] => true
  | e :: sign :: ds =>
      (e == 'e' || e == 'E') && (sign == '+' || sign == '-') && !ds.isEmpty && ds.all isDec
  | _ => false

/-- Is the text a decimal fraction, an infinity or a NaN? -/
def isFloatForm (text : List Char) : Bool :=
  let word := String.ofList text
  let unsigned := behindSign text
  let decimal :=
    match unsigned with
    | c :: rest =>
        isDec c &&
          match rest.dropWhile isDecLine with
          | '.' :: more => isExponentForm (more.dropWhile isDecLine)
          | _ => false
    | [] => false
  let pointFirst :=
    match text with
    | '.' :: c :: rest => isDec c && isExponentForm (rest.dropWhile isDecLine)
    | _ => false
  let sixties :=
    match unsigned with
    | c :: rest =>
        isDec c &&
          match behindSixties (rest.dropWhile isDecLine) with
          | some ('.' :: more) => more.all isDecLine
          | _ => false
    | [] => false
  decimal || pointFirst || sixties ||
    [".inf", ".Inf", ".INF"].contains (String.ofList unsigned) ||
    [".nan", ".NaN", ".NAN"].contains word

/-- The parts of a date, and of the time and zone behind it. -/
structure Stamp where
  year : List Char
  month : List Char
  day : List Char
  /-- Hour, minute, second and the digits of the fraction. -/
  time : Option (List Char × List Char × List Char × List Char) := none
  /-- Nothing, universal time, or the sign, hours and minutes of an offset. -/
  zone : Option (Option (Bool × List Char × List Char)) := none

/-- One or two digits at the start, and the rest. -/
def shortNumber : List Char → Option (List Char × List Char)
  | a :: b :: rest =>
      if isDec a && isDec b then some ([a, b], rest)
      else if isDec a then some ([a], b :: rest)
      else none
  | [a] => if isDec a then some ([a], []) else none
  | [] => none

/-- Two digits at the start, and the rest. -/
def pairNumber : List Char → Option (List Char × List Char)
  | a :: b :: rest => if isDec a && isDec b then some ([a, b], rest) else none
  | _ => none

/-- The rest behind a given character. -/
def behind (c : Char) : List Char → Option (List Char)
  | d :: rest => if d == c then some rest else none
  | [] => none

/-- The zone at the end of a time. -/
def stampZone : List Char → Option (Option (Option (Bool × List Char × List Char)))
  | [] => some none
  | cs =>
    match cs.dropWhile fun c => c == ' ' || c == '\t' with
    | ['Z'] => some (some none)
    | sign :: rest => do
        if sign != '+' && sign != '-' then none
        let (hours, rest) ← shortNumber rest
        match rest with
        | [] => return some (some (sign == '-', hours, []))
        | ':' :: more => do
            let (minutes, rest) ← pairNumber more
            if rest.isEmpty then return some (some (sign == '-', hours, minutes)) else none
        | _ => none
    | [] => none

/-- The time of day behind a date, with its zone. -/
def stampTime (date : Stamp) (cs : List Char) : Option Stamp := do
  let rest ←
    match cs with
    | c :: rest =>
        if c == 'T' || c == 't' then some rest
        else if c == ' ' || c == '\t' then some (rest.dropWhile fun c => c == ' ' || c == '\t')
        else none
    | [] => none
  let (hour, rest) ← shortNumber rest
  let (minute, rest) ← pairNumber (← behind ':' rest)
  let (second, rest) ← pairNumber (← behind ':' rest)
  let (fraction, rest) :=
    match rest with
    | '.' :: more => (more.takeWhile isDec, more.dropWhile isDec)
    | _ => ([], rest)
  let zone ← stampZone rest
  return { date with time := some (hour, minute, second, fraction), zone }

/-- A date or a moment. Month and day may have one digit; a bare date is a plain scalar's form only
with two. -/
def readStamp? (cs : List Char) : Option Stamp := do
  let (y₁, rest) ← pairNumber cs
  let (y₂, rest) ← pairNumber rest
  let (month, rest) ← shortNumber (← behind '-' rest)
  let (day, rest) ← shortNumber (← behind '-' rest)
  let date : Stamp := { year := y₁ ++ y₂, month, day }
  if rest.isEmpty then return date else stampTime date rest

/-- Is the text a date or a moment by its form? -/
def isStampForm (text : List Char) : Bool :=
  match readStamp? text with
  | none => false
  | some s => s.time.isSome || (s.month.length == 2 && s.day.length == 2)

/-- The truth values by their spellings in lower case. -/
def boolWords : List (String × Bool) :=
  [("yes", true), ("no", false), ("true", true), ("false", false), ("on", true), ("off", false)]

/-- Is the text the spelling of a truth value: in lower case, with a capital, or in capitals? -/
def isBoolForm (text : List Char) : Bool :=
  boolWords.any fun (word, _) =>
    let cs := word.toList
    text == cs || text == cs.map Char.toUpper ||
      text == (cs.take 1).map Char.toUpper ++ cs.drop 1

/-- The tag that a plain scalar has by its form. -/
def tagOfForm (s : String) : Tag :=
  let text := s.toList
  if isBoolForm text then .bool
  else if isFloatForm text then .float
  else if isIntForm text then .int
  else if s = "<<" then .merge
  else if s = "" ∨ s = "~" ∨ s = "null" ∨ s = "Null" ∨ s = "NULL" then .null
  else if isStampForm text then .timestamp
  else if s = "=" then .value
  else .str

/-! ## Values -/

/-- An integer read in a base, as a document reads it. -/
def integerOf (base : Nat) (text : List Char) : Except Escape Int :=
  match Numeral.readInteger base (String.ofList text) with
  | .ok n => .ok n
  | .error (.long digits) => .error (.longNumeral digits)
  | .error .malformed => .error (.numeral base (String.ofList text))

/-- The parts of a text between colons. -/
def colonParts (cs : List Char) : List (List Char) := cs.splitOnP (· == ':')

/-- The value of an integer scalar. -/
def intValue (s : String) : Except Escape Value := do
  let cs := s.toList.filter (· != '_')
  let sign : Int := if cs.head? = some '-' then -1 else 1
  let unsigned ←
    match cs with
    | [] => .error .noDigits
    | _ => .ok (behindSign cs)
  match unsigned with
  | ['0'] => return .int 0
  | '0' :: 'b' :: ds => return .int (sign * (← integerOf 2 ds))
  | '0' :: 'x' :: ds => return .int (sign * (← integerOf 16 ds))
  | '0' :: _ => return .int (sign * (← integerOf 8 unsigned))
  | [] => .error .noDigits
  | _ =>
    if unsigned.contains ':' then
      let parts ← (colonParts unsigned).mapM (integerOf 10)
      return .int (sign * parts.foldl (fun n d => n * 60 + d) 0)
    else return .int (sign * (← integerOf 10 unsigned))

/-- A decimal fraction, as a document reads it. -/
def fractionOf (text : List Char) : Except Escape Float :=
  match Numeral.readFraction (String.ofList text) with
  | some x => .ok x
  | none => .error (.fraction (String.ofList text))

/-- The value of a decimal fraction or sexagesimal scalar. The digits of the latter are added up
from the last to the first. -/
def floatValue (s : String) : Except Escape Value := do
  let cs := (s.toList.filter (· != '_')).map Char.toLower
  let negative := cs.head? = some '-'
  let signed (x : Float) : Float := if negative then -x else x
  let unsigned ←
    match cs with
    | [] => .error .noDigits
    | _ => .ok (behindSign cs)
  if unsigned = ['.', 'i', 'n', 'f'] then return .float (signed (1.0 / 0.0))
  else if unsigned = ['.', 'n', 'a', 'n'] then return .float (0.0 / 0.0)
  else if unsigned.contains ':' then
    let parts ← (colonParts unsigned).mapM fractionOf
    let (total, _) :=
      parts.reverse.foldl (fun (sum, base) d => (sum + d * base, base * 60)) (0.0, 1.0)
    return .float (signed total)
  else return .float (signed (← fractionOf unsigned))

/-- A natural number in decimal digits. -/
def digitsNat (ds : List Char) : Nat := ds.foldl (fun n d => n * 10 + (d.toNat - '0'.toNat)) 0

/-- The value of a date or moment scalar. Of a fraction six digits count. -/
def timestampValue (s : String) : Except Escape Value :=
  let calendar {α : Type} (r : Except CalendarFault α) : Except Escape α :=
    match r with
    | .ok a => .ok a
    | .error f => .error (.calendar f)
  match readStamp? s.toList with
  | none => .error .notMoment
  | some stamp =>
    let year := digitsNat stamp.year
    let month := digitsNat stamp.month
    let day := digitsNat stamp.day
    match stamp.time with
    | none => (calendar (Date.ofNumbers year month day)).map .date
    | some (hour, minute, second, fraction) =>
      let micro := digitsNat ((fraction.take 6) ++ List.replicate (6 - fraction.length) '0')
      let offset : Option Int :=
        stamp.zone.map fun
          | none => 0
          | some (negative, hours, minutes) =>
              let seconds : Int := digitsNat hours * 3600 + digitsNat minutes * 60
              if negative then -seconds else seconds
      (calendar (Moment.ofNumbers year month day (digitsNat hour) (digitsNat minute)
        (digitsNat second) micro offset)).map .moment

/-- The six bits of a sign of base 64, if it is one. -/
def sextet? (c : Char) : Option Nat :=
  if 'A' ≤ c && c ≤ 'Z' then some (c.toNat - 'A'.toNat)
  else if 'a' ≤ c && c ≤ 'z' then some (c.toNat - 'a'.toNat + 26)
  else if '0' ≤ c && c ≤ '9' then some (c.toNat - '0'.toNat + 52)
  else if c == '+' then some 62
  else if c == '/' then some 63
  else none

/-- What is wrong with the last group of a text in base 64, which has `place` signs and comes behind
`count` bytes. -/
def unpadded (place count : Nat) : String :=
  if place = 1 then
    "Invalid base64-encoded string: number of data characters (" ++ toString (count / 3 * 4 + 1) ++
      ") cannot be 1 more than a multiple of 4"
  else "Incorrect padding"

/-- The bytes that a text in base 64 writes, or what is wrong with it. Four signs, of which the last
one or two may be padding, write up to three bytes; the group is read up to the sign `place` of it,
`held` holds its bits that make no byte yet, and `pads` tells how much padding came last. The text
ends with a padded group, and signs of other sorts do not count. -/
def readBase64 (place held pads : Nat) (done : List UInt8) : List Char → Except String (List UInt8)
  | [] => if place = 0 then .ok done.reverse else .error (unpadded place done.length)
  | c :: rest =>
      if c == '=' then
        if place < 2 then readBase64 place held pads done rest
        else if 4 ≤ place + pads + 1 then .ok done.reverse
        else readBase64 place held (pads + 1) done rest
      else
        match sextet? c with
        | none => readBase64 place held pads done rest
        | some bits =>
            let made (n : Nat) : List UInt8 := UInt8.ofNat n :: done
            match place with
            | 0 => readBase64 1 bits 0 done rest
            | 1 => readBase64 2 (bits % 16) 0 (made (held * 4 + bits / 16)) rest
            | 2 => readBase64 3 (bits % 4) 0 (made (held * 16 + bits / 4)) rest
            | _ => readBase64 0 0 0 (made (held * 64 + bits)) rest

/-- The value of a scalar in base 64, or what is wrong with it. -/
def binaryValue (s : String) : Except String Value :=
  match Repertoire.ascii.refusal? s with
  | some e => .error ("failed to convert base64 data into ascii: " ++ e.message)
  | none =>
    match readBase64 0 0 0 [] s.toList with
    | .ok bytes => .ok (.bytes bytes)
    | .error words => .error ("failed to decode base64 data: " ++ words)

/-- The value of a truth scalar. -/
def boolValue (s : String) : Except Escape Value :=
  match boolWords.lookup (String.ofList (s.toList.map Char.toLower)) with
  | some b => .ok (.bool b)
  | none => .error .truthWord

end ByteSchema.Yaml
