import ByteSchema.CommandLine.Run

/-!
# ByteSchema.Main

The command line program. It reads the files that a request names, and writes the answer.
-/

namespace ByteSchema

/-- Why the system did not give a file. -/
def faultOf : IO.Error → FileFault
  | .noFileOrDirectory .. => .missing
  | .permissionDenied .. => .denied
  | .inappropriateType _ code _ => if code = 20 then .notDirectory else .directory
  | .invalidArgument _ code details =>
      if code = 36 then .nameTooLong else .other code.toNat details
  | e => .other 5 (toString e)

/-- The bytes of a file. -/
def readFile (path : String) : IO (Except FileFault (List UInt8)) := do
  try
    return .ok (← IO.FS.readBinFile path).toList
  catch e =>
    return .error (faultOf e)

/-- The files that a request may need, by their plain paths, as far as they can be read. -/
def readFiles (r : Request) : IO FileReader := do
  let mut files := []
  for path in r.schema :: r.data.toList do
    if !path.toList.contains '\x00' then
      files := (plainPath path, ← readFile (Text.shown (plainPath path))) :: files
  let found := files
  return fun path => (found.lookup path).getD (.error .missing)

/-- Write an answer. The result is the exit status. -/
def write (answer : Answer) : IO UInt32 := do
  IO.eprint (Text.shown (textOfLines answer.err))
  IO.print (Text.shown (textOfLines answer.out))
  return answer.status.toUInt32

/-- The name under which the program runs. -/
def programName : IO String := do
  return (← IO.appPath).fileName.getD "byteschema"

/-- Do what the texts of a command line ask for. The result is the exit status. -/
def runProgram (texts : List String) : IO UInt32 := do
  match Request.ofTexts (texts.map fun text => Text.ofChars text.toList) with
  | .error .help =>
      IO.print (usage (← programName))
      return 0
  | .error (.misuse e) =>
      IO.eprintln (Text.shown (e.line (← programName)))
      return 2
  | .ok request =>
      match request.run (.utf8 (← readFiles request)) with
      | .ok answer => write answer
      | .error e =>
          IO.eprintln (Text.shown e.message)
          return 1

end ByteSchema

/-- The program. -/
def main (texts : List String) : IO UInt32 := ByteSchema.runProgram texts
