import ByteSchema.Fault

/-!
# ByteSchema.Yaml.Problem

Positions in a YAML text, and problems with it. A problem says what was found and where, and may add
what was being read and where that began. Its wording shows the line of the text with a caret below
the position.
-/

namespace ByteSchema.Yaml

/-- A position in a text: the number of characters, lines and columns before it. -/
structure Mark where
  index : Nat := 0
  line : Nat := 0
  column : Nat := 0
  deriving DecidableEq, Repr, Inhabited

/-- The characters that end a line. -/
def isBreak (c : Char) : Bool :=
  c == '\n' || c == '\r' || c == '\x85' || c == '\u2028' || c == '\u2029'

/-- Most characters that a problem shows on each side of its position. -/
def shownReach : Nat := 36

/-- Cut the characters on one side of a position at the end of the line. When there are more than
can be shown, five fewer are kept and the flag is set. -/
def clipSide (side : List Char) : List Char × Bool :=
  let line := side.takeWhile fun c => !isBreak c && c != '\x00'
  if shownReach < line.length then (line.take (shownReach + 1 - 5), true) else (line, false)

/-- The line around a position, with a caret below it. -/
def Mark.snippet (m : Mark) (text : List Char) : String :=
  let (before, cutBefore) := clipSide (text.take m.index).reverse
  let (behind, cutBehind) := clipSide (text.drop m.index)
  let head := if cutBefore then " ... " else ""
  let tail := if cutBehind then " ... " else ""
  let indent := String.ofList (List.replicate 4 ' ')
  indent ++ head ++ Text.ofChars before.reverse ++ Text.ofChars behind ++ tail ++ "\n" ++
    String.ofList (List.replicate (4 + before.length + head.length) ' ') ++ "^"

/-- A position in words. -/
def Mark.describe (m : Mark) (text : List Char) : String :=
  "  in \"<unicode string>\", line " ++ toString (m.line + 1) ++ ", column " ++
    toString (m.column + 1) ++ ":\n" ++ m.snippet text

/-- What is wrong with a text. -/
structure Problem where
  /-- What was being read, and where it began. -/
  context : Option (String × Option Mark) := none
  /-- What was found. -/
  found : String
  /-- Where it was found; nothing for a problem that words its own position. -/
  mark : Option Mark
  deriving Repr, Inhabited

/-- The wording of a problem with `text`. The beginning of what was being read is left out where it
is the position of the problem itself. -/
def Problem.message (p : Problem) (text : List Char) : String :=
  let context :=
    match p.context with
    | none => []
    | some (words, none) => [words]
    | some (words, some start) =>
        match p.mark with
        | none => [words, start.describe text]
        | some mark =>
            if start.line = mark.line ∧ start.column = mark.column then [words]
            else [words, start.describe text]
  let position := match p.mark with | none => [] | some mark => [mark.describe text]
  String.intercalate "\n" (context ++ [p.found] ++ position)

/-- Why a text is not read: it is not a YAML document, or reading it fails otherwise. -/
inductive Rejection where
  | problem (p : Problem)
  | escape (e : Escape)
  deriving Inhabited

/-- The quoted form of one character. -/
def quoteChar (c : Char) : String := Text.quote (Text.ofChars [c])

end ByteSchema.Yaml
