import ByteSchema.Encoding.Basic

/-!
# ByteSchema.CommandLine.File

Input files: how their paths are written in messages, why one cannot be read, and the text in one.
-/

namespace ByteSchema

/-- The plain form of a path: without empty parts and parts that mean the same directory. Two
slashes in front stay two; three or more count as one. -/
def plainPath (path : String) : String :=
  let parts := (Text.splitOn "/" path).filter fun p => p ≠ "" ∧ p ≠ "."
  let slashes := (path.toList.takeWhile (· == '/')).length
  let root := if slashes = 0 then "" else if slashes = 2 then "//" else "/"
  if root = "" ∧ parts.isEmpty then "." else root ++ String.intercalate "/" parts

/-- Why a file cannot be read. -/
inductive FileFault where
  | missing
  | denied
  | notDirectory
  | directory
  | nameTooLong
  /-- Any other reason, by the system's number and words for it. -/
  | other (code : Nat) (words : String)
  deriving DecidableEq, Repr, Inhabited

/-- The system's number and words for a reason. -/
def FileFault.words : FileFault → Nat × String
  | missing => (2, "No such file or directory")
  | denied => (13, "Permission denied")
  | notDirectory => (20, "Not a directory")
  | directory => (21, "Is a directory")
  | nameTooLong => (36, "File name too long")
  | other code words => (code, words)

/-- What is wrong with an input. -/
inductive InputFault where
  | file (path : String) (fault : FileFault)
  /-- A path cannot be written for the system. -/
  | unwrittenPath (e : Escape)
  /-- A path holds the character NUL. -/
  | nulInPath
  /-- A text is not UTF-8. -/
  | notUtf8 (detail : String)
  /-- A payload cannot be read. -/
  | payload (e : Escape)
  deriving Inhabited

/-- The wording of what is wrong with an input. -/
def InputFault.message : InputFault → String
  | file path fault =>
      "[Errno " ++ toString fault.words.1 ++ "] " ++ fault.words.2 ++ ": " ++ Text.quote path
  | unwrittenPath e => e.message
  | nulInPath => "embedded null byte"
  | notUtf8 detail => detail
  | payload e => e.message

/-- Is the file itself out of reach? -/
def InputFault.isOutOfReach : InputFault → Bool
  | file .. => true
  | _ => false

/-- Gives the bytes of files, by path. -/
abbrev FileReader := String → Except FileFault (List UInt8)

namespace FileReader

/-- The bytes of a file. -/
def bytes (reader : FileReader) (path : String) : Except InputFault (List UInt8) :=
  let path := plainPath path
  match Repertoire.path.refusal? path with
  | some e => .error (.unwrittenPath e)
  | none =>
    if path.toList.contains '\x00' then .error .nulInPath
    else (reader path).mapError (.file path)

end FileReader

/-- The text with every line end written as a line feed. -/
def unifyLineEnds : List Char → List Char
  | [] => []
  | '\r' :: '\n' :: rest => '\n' :: unifyLineEnds rest
  | c :: rest => (if c == '\r' then '\n' else c) :: unifyLineEnds rest

/-- The text of a file's bytes. -/
def fileText (bytes : List UInt8) : Except InputFault String :=
  match Encoding.utf8Text bytes with
  | .ok text => .ok (Text.ofChars (unifyLineEnds text.toList))
  | .error detail => .error (.notUtf8 detail)

/-- The text of a file. -/
def FileReader.text (reader : FileReader) (path : String) : Except InputFault String := do
  fileText (← reader.bytes path)

end ByteSchema
