import ByteSchema.Node

/-!
# ByteSchema.Report.Tree

Results as lines of text: a tree, indented by two blanks a level, or a flat list of ranges. A range
is told by its start in hexadecimal and its length in decimal, and so there is no line for a range
whose length is overlong.
-/

namespace ByteSchema

open ByteSchema.Text

/-- A number in hexadecimal, filled up with zeros to `width` characters in all. -/
def hexNumber (width : Nat) (n : Int) : String :=
  let sign := if n < 0 then "-0x" else "0x"
  sign ++ String.ofList (padDigits (width - sign.length) (hexDigits n.natAbs))

/-- A text filled up with blanks on the left to `width` characters. -/
def alignRight (width : Nat) (text : String) : String :=
  String.ofList (List.replicate (width - text.length) ' ') ++ text

/-- A byte as two upper-case hexadecimal digits. -/
def shownByte (b : UInt8) : String :=
  String.ofList ((padDigits 2 (hexDigits b.toNat)).map Char.toUpper)

/-- The first `limit` items of a list, or all but the last ones when `limit` is negative. -/
def firstItems {α : Type} (limit : Int) (items : List α) : List α :=
  items.take (if 0 ≤ limit then limit.toNat else items.length - limit.natAbs)

/-- The text of a value in a report. Of a byte string at most `limit` bytes are shown. -/
def Value.shown (v : Value) (limit : Int := 16) : String :=
  match v with
  | bytes bs =>
      "[" ++ String.intercalate " " ((firstItems limit bs).map shownByte) ++
        (if limit < bs.length then " ..." else "") ++ "]"
  | str s => quote s
  | v => v.text

/-- The text of a value in a report, unless it needs the digits of an overlong integer. -/
def Value.shown? (v : Value) (limit : Int := 16) : Except Escape String :=
  if v.hasOverlong then .error .longInteger else .ok (v.shown limit)

/-- A number in decimal, unless it is overlong. -/
def decimal? (n : Int) : Except Escape String :=
  if Value.isOverlong n then .error .longInteger else .ok (toString n)

/-- A range as where it starts and how long it is. -/
def Span.shown? (s : Span) : Except Escape String := do
  return "[" ++ hexNumber 6 s.start ++ " +" ++ (← decimal? s.length) ++ "]"

/-- What a line says of every node. -/
def Node.heading? (n : Node) : Except Escape String := do
  return n.name ++ ": " ++ n.label ++ " " ++ (← n.range.shown?)

/-- What a line says of a node without children: its value, and its first problem. -/
def Node.remark? (n : Node) : Except Escape String :=
  if n.children.isEmpty then do
    return " = " ++ (← n.value.shown?) ++
      (match n.problems with | [] => "" | p :: _ => "  ! " ++ p.message)
  else .ok ""

/-- The blanks in front of a line; none for a negative indent. -/
def indentation (indent : Int) : String := String.ofList (List.replicate (2 * indent.toNat) ' ')

/-- The line of a node in a tree. -/
def Node.treeLine? (indent : Int) (n : Node) : Except Escape String := do
  return indentation indent ++ (← n.heading?) ++ (← n.remark?)

mutual

/-- The lines of a node and the nodes below it. -/
def Node.lines? (indent : Int) : Node → Except Escape (List String)
  | ⟨id, name, label, range, endian, value, children, attributes, problems⟩ => do
      let n : Node := ⟨id, name, label, range, endian, value, children, attributes, problems⟩
      return (← n.treeLine? indent) :: (← linesOfAll? (indent + 1) children)

/-- The lines of several nodes and the nodes below them. -/
def linesOfAll? (indent : Int) : List Node → Except Escape (List String)
  | [] => return []
  | n :: rest => return (← n.lines? indent) ++ (← linesOfAll? indent rest)

end

theorem Node.lines?_eq (indent : Int) (n : Node) :
    n.lines? indent = do
      return (← n.treeLine? indent) :: (← linesOfAll? (indent + 1) n.children) := by
  obtain ⟨id, name, label, range, endian, value, children, attributes, problems⟩ := n
  rw [Node.lines?]

/-- The line of a node in a flat list. -/
def Node.flatLine? (n : Node) : Except Escape String := do
  return hexNumber 6 n.range.start ++ " " ++ alignRight 6 (← decimal? n.range.length) ++ "  " ++
    n.id ++ "  " ++ n.label

/-- A diagnostic as a line. -/
def Diagnostic.line (d : Diagnostic) : String :=
  d.kind ++ ": " ++ d.message ++
    (match d.path with
      | some path => if path = "" then "" else " (" ++ path ++ ")"
      | none => "")

end ByteSchema
