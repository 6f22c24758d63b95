import ByteSchema.Text.Blank

/-!
# ByteSchema.Text.Basic

Small operations on text that the other modules share.
-/

namespace ByteSchema.Text

/-- The lower case of a letter A to Z, and of the only two other letters whose lower case holds an
ASCII letter: the Kelvin sign and the capital I with a dot. All else stays. Names of types, byte
orders and encodings are ASCII, so no other letter can make two of them agree. -/
def lowerChar (c : Char) : List Char :=
  if c == '\u212A' then ['k']
  else if c == '\u0130' then ['i', '\u0307']
  else [c.toLower]

/-- The text with its letters in lower case, as far as names need it. -/
def lower (s : String) : String := String.ofList (s.toList.flatMap lowerChar)

/-- The text after `lead`, if it starts with it. -/
def dropLead? (lead s : String) : Option String :=
  if lead.toList.isPrefixOf s.toList then some (String.ofList (s.toList.drop lead.length)) else none

/-- Cut a list at each place where `mark` occurs, from left to right without overlap. The answer
is never empty. `fuel` bounds the number of steps; the length of the text is enough. -/
def splitListOn (mark : List Char) : Nat → List Char → List Char → List (List Char)
  | 0, piece, rest => [piece.reverse ++ rest]
  | _, piece, [] => [piece.reverse]
  | fuel + 1, piece, c :: rest =>
      if mark.isPrefixOf (c :: rest) then
        piece.reverse :: splitListOn mark fuel [] ((c :: rest).drop mark.length)
      else splitListOn mark fuel (c :: piece) rest

/-- The pieces of `s` between the occurrences of `mark`, which is not empty. -/
def splitOn (mark s : String) : List String :=
  (splitListOn mark.toList s.length [] s.toList).map String.ofList

/-- `s` with every occurrence of `mark` replaced. -/
def replaceAll (mark replacement s : String) : String :=
  String.intercalate replacement (splitOn mark s)

end ByteSchema.Text
