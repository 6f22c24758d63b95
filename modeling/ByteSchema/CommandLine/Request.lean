import ByteSchema.CommandLine.Flag
import ByteSchema.CommandLine.Payload

/-!
# ByteSchema.CommandLine.Request

What the arguments of the command line ask for.

* Each text becomes an `Argument`, by itself: a word, an option, or the mark `--`, behind which all
  texts are words. A long option may be abbreviated as long as no other starts the same way, and
  its operand may follow behind `=`. Short options may be joined in one text.
* The first word is the schema file. Only a word that follows it directly is the data file; any
  other word is too many.
-/

namespace ByteSchema

/-- An argument of the command line by itself. -/
inductive Argument where
  | word (text : String)
  /-- Only words follow. -/
  | mark
  /-- What looks like an option but is none. -/
  | stray (text : String)
  | option (f : Flag)
  /-- A long option with text behind `=`. -/
  | longWith (f : Flag) (text : String)
  /-- A short option with text behind it, or behind `=`. -/
  | shortWith (f : Flag) (text : String)
  deriving DecidableEq, Repr, Inhabited

namespace Argument

/-- Does the text look like a negative number: digits, or digits with one full stop inside or in
front? A line feed may follow. -/
def isNegativeNumber (cs : List Char) : Bool :=
  let isDigit (c : Char) : Bool := (Text.decimalValue? c).isSome
  match cs with
  | '-' :: rest =>
      let body := if rest.getLast? = some '\n' then rest.dropLast else rest
      let behind := body.dropWhile isDigit
      match behind with
      | [] => !body.isEmpty
      | '.' :: fraction => !fraction.isEmpty && fraction.all isDigit
      | _ => false
  | _ => false

/-- The text in front of the first `=`, and the text behind it if there is one. -/
def splitEquals (s : String) : String × Option String :=
  let head := s.toList.takeWhile (· != '=')
  (String.ofList head,
    match s.toList.drop head.length with
    | [] => none
    | _ :: rest => some (String.ofList rest))

/-- Is an option spelled with two hyphens? -/
def isLong (s : String) : Bool := (Text.dropLead? "--" s).isSome

/-- An option with or without text behind `=`. -/
def withText (spelling : String) (f : Flag) : Option String → Argument
  | none => option f
  | some text => if isLong spelling then longWith f text else shortWith f text

/-- What a text that is no spelling stands for, with the spellings it could be short for. -/
def candidates (s : String) : List (String × Argument) :=
  if isLong s then
    let (head, text) := splitEquals s
    (Flag.table.filter fun entry => (Text.dropLead? head entry.1).isSome).map
      fun entry => (entry.1, withText entry.1 entry.2 text)
  else
    let short := String.ofList (s.toList.take 2)
    (Flag.table.filter fun entry => entry.1 = short).map
      fun entry => (entry.1, shortWith entry.2 (String.ofList (s.toList.drop 2)))

/-- The argument in a text that stands in front of any `--`. -/
def ofText (s : String) : Except UsageError Argument :=
  if s.toList.head? ≠ some '-' ∨ s.length = 1 then return word s
  else
    match Flag.ofSpelling? s with
    | some f => return option f
    | none =>
      let (head, text) := splitEquals s
      match if text.isSome then Flag.ofSpelling? head else none with
      | some f => return withText head f text
      | none =>
        match candidates s with
        | [(_, found)] => return found
        | [] =>
            return if isNegativeNumber s.toList ∨ s.toList.contains ' ' then word s else stray s
        | several => throw (.ambiguous s (several.map (·.1)))

/-- The arguments in all texts of a command line. -/
def ofTexts : List String → Except UsageError (List Argument)
  | [] => return []
  | s :: rest =>
      if s = "--" then return mark :: rest.map word
      else return (← ofText s) :: (← ofTexts rest)

end Argument

/-- What was given to an option. -/
inductive Operand (α : Type) where
  | given (a : α)
  /-- The mark `--` behind `=`, which is dropped and leaves nothing. -/
  | dropped
  deriving DecidableEq, Repr, Inhabited

/-- What the command line asks for. -/
structure Request where
  /-- The schema file. -/
  schema : String
  /-- The data file. -/
  data : Option String := none
  /-- Hexadecimal digits instead of a data file. -/
  payload : Option (Operand String) := none
  offset : Option (Operand Int) := none
  json : Bool := false
  flat : Bool := false
  describe : Bool := false
  verbose : Bool := false
  deriving Repr, Inhabited

/-- Why there is no request. -/
inductive Stop where
  /-- The command line is to be explained. -/
  | help
  | misuse (e : UsageError)
  deriving DecidableEq, Repr, Inhabited

namespace Request

/-- Which file a word can name. -/
inductive Slot where
  | schema
  /-- The schema was named by the word before. -/
  | data
  /-- The data file was named by the word before. -/
  | behind
  | closed
  deriving DecidableEq, Repr, Inhabited

/-- A request that is being read. -/
structure Draft where
  request : Request := { schema := "" }
  slot : Slot := .schema
  /-- Arguments that have no use, in order. -/
  extras : List String := []
  deriving Inhabited

namespace Draft

/-- Take note of an argument that has no use. -/
def extra (d : Draft) (text : String) : Draft := { d with extras := d.extras ++ [text] }

/-- An option stands between words, so no data file can follow the schema any more. -/
def interrupt (d : Draft) : Draft :=
  { d with slot := match d.slot with | .schema => .schema | _ => .closed }

/-- Take a word. In the place of the data file, `--` stands for none. -/
def takeWord (d : Draft) (text : String) : Draft :=
  match d.slot with
  | .schema => { d with request := { d.request with schema := text }, slot := .data }
  | .data =>
      { d with
        request := { d.request with data := if text = "--" then none else some text }
        slot := .behind }
  | _ => { d.extra text with slot := .closed }

/-- Take the mark `--`, which `more` says whether a word follows. -/
def takeMark (d : Draft) (more : Bool) : Draft :=
  match d.slot with
  | .schema => if more then d else d.extra "--"
  | .data => d
  | .behind => { d with slot := .closed }
  | .closed => d.extra "--"

/-- Take an option without operand. -/
def takeFlag (d : Draft) : Flag → Except Stop Draft
  | .help => throw .help
  | .json => return { d with request := { d.request with json := true } }
  | .flat => return { d with request := { d.request with flat := true } }
  | .describe => return { d with request := { d.request with describe := true } }
  | .verbose => return { d with request := { d.request with verbose := true } }
  | f => throw (.misuse (.operandMissing f))

/-- Set the payload. -/
def setPayload (d : Draft) (operand : Operand String) : Draft :=
  { d with request := { d.request with payload := some operand } }

/-- Set the offset. -/
def setOffset (d : Draft) (operand : Operand Int) : Draft :=
  { d with request := { d.request with offset := some operand } }

/-- Take an option with its operand. -/
def takeOperand (d : Draft) (f : Flag) (text : String) : Except Stop Draft :=
  match f with
  | .payload => return d.setPayload (if text = "--" then .dropped else .given text)
  | .offset =>
      if text = "--" then return d.setOffset .dropped
      else
        match readOffset text with
        | .ok n => return d.setOffset (.given n)
        | .error _ => throw (.misuse (.notOffset text))
  | f => throw (.misuse (.operandIgnored f text))

end Draft

/-- The short options joined in one text: `f` and those in the text behind it. The option in front
of the first letter that is none is at fault. -/
def joinedFlags (f : Flag) : List Char → Except UsageError (List Flag)
  | [] => throw (.operandIgnored f "")
  | c :: rest =>
      match Flag.ofSpelling? (String.ofList ['-', c]) with
      | none => throw (.operandIgnored f (String.ofList (c :: rest)))
      | some g => if rest.isEmpty then return [f, g] else return f :: (← joinedFlags g rest)

/-- Take several options without operand. -/
def takeFlags (d : Draft) : List Flag → Except Stop Draft
  | [] => return d
  | f :: rest => do takeFlags (← d.takeFlag f) rest

/-- Take all arguments, in order. -/
def takeAll : List Argument → Draft → Except Stop Draft
  | [], d => return d
  | .word text :: rest, d => takeAll rest (d.takeWord text)
  | .mark :: rest, d => takeAll rest (d.takeMark !rest.isEmpty)
  | .stray text :: rest, d => takeAll rest (d.interrupt.extra text)
  | .longWith f text :: rest, d => do takeAll rest (← d.interrupt.takeOperand f text)
  | .shortWith f text :: rest, d =>
      match joinedFlags f text.toList with
      | .error e => throw (.misuse e)
      | .ok flags => do takeAll rest (← takeFlags d.interrupt flags)
  | .option f :: rest, d =>
      if f.takesOperand then
        match rest with
        | .word text :: rest => do takeAll rest (← d.interrupt.takeOperand f text)
        | _ => throw (.misuse (.operandMissing f))
      else do takeAll rest (← d.interrupt.takeFlag f)

/-- What the texts of a command line ask for. -/
def ofTexts (texts : List String) : Except Stop Request :=
  match Argument.ofTexts texts with
  | .error e => throw (.misuse e)
  | .ok arguments => do
      let d ← takeAll arguments {}
      if d.slot = .schema then throw (.misuse .schemaMissing)
      if !d.extras.isEmpty then throw (.misuse (.unrecognized d.extras))
      let r := d.request
      if !r.describe && r.data.isNone && r.payload.isNone then throw (.misuse .inputMissing)
      return r

end Request

end ByteSchema
