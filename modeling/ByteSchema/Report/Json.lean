import ByteSchema.Report.Portable

/-!
# ByteSchema.Report.Json

JSON text of portable values. Every item of an array and every member of an object stands on a line
of its own, two blanks further in than the one around it; empty collections stand on one line. The
text is ASCII: other signs are written by their UTF-16 units. Doubles are written by
`floatText`, but `NaN`, `Infinity` and `-Infinity` have names of their own.
-/

namespace ByteSchema.Json

open ByteSchema.Text

/-- A UTF-16 unit as an escape. -/
def unitEscape (n : Nat) : List Char := '\\' :: 'u' :: padDigits 4 (hexDigits n)

/-- One character inside quotes. -/
def escapeChar (c : Char) : List Char :=
  if c == '"' || c == '\\' then ['\\', c]
  else if c == '\n' then ['\\', 'n']
  else if c == '\r' then ['\\', 'r']
  else if c == '\t' then ['\\', 't']
  else if c == '\x0c' then ['\\', 'f']
  else if c == '\x08' then ['\\', 'b']
  else if ' ' ≤ c && c ≤ '~' then [c]
  else if c.toNat < 0x10000 then unitEscape c.toNat
  else
    let n := c.toNat - 0x10000
    unitEscape (0xD800 + n / 0x400) ++ unitEscape (0xDC00 + n % 0x400)

/-- One sign inside quotes. -/
def escapeSign : Sign → List Char
  | .char c => escapeChar c
  | .surrogate low => unitEscape (Sign.surrogate low).code

/-- A text between double quotes. -/
def quote (s : String) : String :=
  String.ofList ('"' :: (signs s.toList).flatMap escapeSign ++ ['"'])

/-- A double. -/
def number (x : Float) : String :=
  match Dyadic.ofFloat? x with
  | some _ => floatText x
  | none => if x > 0 then "Infinity" else if x < 0 then "-Infinity" else "NaN"

/-- The start of a line at a depth. -/
def newline (depth : Nat) : String := String.ofList ('\n' :: List.replicate (2 * depth) ' ')

/-- The parts of a collection, one in a line, between brackets. -/
def enclose (left right : String) (depth : Nat) (parts : List String) : String :=
  if parts.isEmpty then left ++ right
  else
    left ++ newline (depth + 1) ++ String.intercalate ("," ++ newline (depth + 1)) parts ++
      newline depth ++ right

mutual

/-- The text of a value that stands at a depth. -/
def render (depth : Nat) : Value → Except Escape String
  | .null => return "null"
  | .bool b => return if b then "true" else "false"
  | .int n => if Value.isOverlong n then .error .longInteger else return toString n
  | .float x => return number x
  | .str s => return quote s
  | .list vs => return enclose "[" "]" depth (← renderItems (depth + 1) vs)
  | .record fs => return enclose "\x7b" "\x7d" depth (← renderFields (depth + 1) fs)
  | v => .error (.noJson v.kindName)

/-- The texts of some items. -/
def renderItems (depth : Nat) : List Value → Except Escape (List String)
  | [] => return []
  | v :: rest => return (← render depth v) :: (← renderItems depth rest)

/-- The texts of some fields, each behind its name. -/
def renderFields (depth : Nat) : List (String × Value) → Except Escape (List String)
  | [] => return []
  | (k, v) :: rest => return (quote k ++ ": " ++ (← render depth v)) :: (← renderFields depth rest)

end

/-- The JSON text of a value, in portable form. -/
def ofValue (v : Value) : Except Escape String := do render 0 (← v.portable?)

end ByteSchema.Json
