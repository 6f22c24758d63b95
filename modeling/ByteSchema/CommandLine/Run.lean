import ByteSchema.CommandLine.File
import ByteSchema.CommandLine.Request
import ByteSchema.Report.Json
import ByteSchema.Report.Outline
import ByteSchema.Report.Tree
import ByteSchema.Session

/-!
# ByteSchema.CommandLine.Run

What the command line answers to a request. The status is 0 when all went well, 1 when the schema or
the buffer is at fault, or when no node holds the byte asked for, and 2 when an input cannot be
read.

The answer depends on the host: on its files, on how it reads documents, on the encodings that it
adds, and on what can be printed. A line that cannot be printed ends the request without a status.
-/

namespace ByteSchema

/-- What a request finds around it. -/
structure Host where
  files : FileReader
  /-- The document in a text. -/
  document : String → Loading Value := Yaml.read
  encodings : HostEncodings := fun _ => none
  /-- Why a line cannot be printed, if it cannot. -/
  refusal? : String → Option Escape
  /-- ASCII can be printed everywhere. -/
  prints_ascii : ∀ line, Text.IsAscii line → refusal? line = none

/-- A host whose output is UTF-8, without encodings of its own. -/
def Host.utf8 (files : FileReader) : Host where
  files
  refusal? := Repertoire.utf8.refusal?
  prints_ascii _ := Repertoire.utf8_refusal?_of_isAscii

namespace Host

/-- The schema of a text. -/
def load (host : Host) (text : String) : Loading Schema := Schema.ofTextBy host.document text

/-- The options of a decode. -/
def options (host : Host) : Options := { hosts := host.encodings }

/-- Print a line. -/
def print (host : Host) (line : String) : Except Escape String :=
  match host.refusal? line with
  | none => .ok line
  | some e => .error e

/-- Print a value in JSON. -/
def printJson (host : Host) (v : Value) : Except Escape String := do
  host.print (← Json.ofValue v)

end Host

/-- The answer to a request: an exit status, and lines for the two outputs. -/
structure Answer where
  status : Nat
  out : List String := []
  err : List String := []
  deriving Repr, Inhabited

/-- Lines as a text. -/
def textOfLines (lines : List String) : String := String.join (lines.map (· ++ "\n"))

/-- The answer when an input cannot be read. -/
def Answer.unreadable (fault : InputFault) : Answer where
  status := 2
  err := ["Error loading input: " ++ fault.message]

/-- The answer when a summary fails. -/
def Answer.failed (message : String) : Answer where
  status := 1
  err := ["ERROR: " ++ message]

/-- The lines of a summary. -/
def Summary.lines (s : Summary) : List String :=
  ["Schema: " ++ s.id ++ " (endian " ++ s.endian.name ++ ")"] ++
    (match s.encoding with
      | some e => if e = "" then [] else ["Encoding: " ++ e]
      | none => []) ++
    ["Fields: " ++
      (match String.intercalate ", " s.fields with | "" => "(none)" | names => names)] ++
    s.types.map ("  type " ++ ·)

/-- The lines of warnings. -/
def Result.warningLines (r : Result) : List String := r.warnings.map ("WARNING: " ++ ·)

/-- Print the lines that show a result: those of a list as they are made, those of a tree when all
are made. -/
def Result.print (r : Result) (host : Host) (root : Node) (flat : Bool) :
    Except Escape (List String) :=
  if flat then r.nodes.mapM fun n => n.flatLine? >>= host.print
  else do (← root.lines? 0).mapM host.print

/-- The answer that shows a result. -/
def Result.answer (r : Result) (host : Host) (flat : Bool) : Except Escape Answer :=
  match r.root, r.errors with
  | some root, [] => do
      let out ← r.print host root flat
      return { status := 0, out, err := r.warningLines }
  | _, errors =>
      return { status := 1, err := r.warningLines ++ errors.map fun e => "ERROR: " ++ e.line }

/-- The line that shows a single node. -/
def Node.line? (n : Node) : Except Escape String := do
  return n.id ++ ": " ++ n.label ++ " " ++ (← n.range.shown?) ++ " = " ++ (← n.value.shown?)

namespace Request

/-- Show the summary of a loaded schema, or what is wrong with it. -/
def showSummary (r : Request) (host : Host) : Loading Schema → Except Escape Answer
  | .ok schema => do
      let summary := schema.describe
      if r.json then return { status := 0, out := [← host.printJson summary.outline] }
      else return { status := 0, out := ← summary.lines.mapM host.print }
  | .error (.error e) => .ok (.failed e.message)
  | .error (.escape e) => if e.isWrongValue then .ok (.failed e.message) else .error e

/-- Summarise the schema. -/
def summarize (r : Request) (host : Host) : Except Escape Answer :=
  match host.files.text r.schema with
  | .error fault =>
      .ok (if fault.isOutOfReach then .unreadable fault else .failed fault.message)
  | .ok text => r.showSummary host (host.load text)

/-- The bytes to decode. -/
def buffer (r : Request) (reader : FileReader) : Except Escape (Except InputFault Buffer) :=
  match r.payload, r.data with
  | some (.given text), _ => .ok ((Payload.read text).mapError .payload)
  | some .dropped, _ => .error .noPayload
  | none, some path => .ok (reader.bytes path)
  | none, none => .ok (.ok [])

/-- Show the smallest node of a result that holds a byte. -/
def showAt (r : Request) (host : Host) (result : Result) (offset : Operand Int) :
    Except Escape Answer := do
  if !result.success then return ← result.answer host false
  match offset with
  | .dropped => throw .noOffset
  | .given offset =>
    match nodeAt result.nodes offset with
    | none => return { status := 1, err := ["No node covers offset " ++ hexNumber 0 offset] }
    | some n =>
        if r.json then return { status := 0, out := [← host.printJson n.outline] }
        else return { status := 0, out := [← n.line? >>= host.print] }

/-- Show a result. -/
def showResult (r : Request) (host : Host) (result : Result) : Except Escape Answer := do
  match r.offset with
  | some offset => r.showAt host result offset
  | none =>
      if r.json then
        return {
          status := if result.success then 0 else 1
          out := [← host.printJson result.outline] }
      else result.answer host r.flat

/-- Decode the buffer with the schema. -/
def decode (r : Request) (host : Host) : Except Escape Answer :=
  match host.files.text r.schema with
  | .error fault => .ok (.unreadable fault)
  | .ok text => do
    match ← r.buffer host.files with
    | .error fault => return .unreadable fault
    | .ok buffer =>
      let schema ← (host.load text).settle
      r.showResult host (← decodePrepared schema host.options buffer)

/-- The answer to a request. -/
def run (r : Request) (host : Host) : Except Escape Answer :=
  if r.describe then r.summarize host else r.decode host

end Request

end ByteSchema
