import ByteSchema.Text.Quoted

/-!
# ByteSchema.CommandLine.Flag

The options of the command line, and what can be wrong with its arguments.
-/

namespace ByteSchema

/-- The options. -/
inductive Flag where
  /-- Explain the command line. -/
  | help
  /-- Decode bytes given as hexadecimal digits, instead of a file. -/
  | payload
  /-- Report in JSON. -/
  | json
  /-- Report as a flat list of nodes, instead of a tree. -/
  | flat
  /-- Report only the smallest node that holds a byte. -/
  | offset
  /-- Summarise the schema, instead of decoding. -/
  | describe
  /-- Log what is done. -/
  | verbose
  deriving DecidableEq, Repr, Inhabited

namespace Flag

/-- All options, in the order in which reports name them. -/
def all : List Flag := [help, payload, json, flat, offset, describe, verbose]

/-- The ways to write an option. -/
def spellings : Flag → List String
  | help => ["-h", "--help"]
  | payload => ["--hex"]
  | json => ["--json"]
  | flat => ["--flat"]
  | offset => ["--offset"]
  | describe => ["--describe"]
  | verbose => ["-v", "--verbose"]

/-- Does the option take an operand? -/
def takesOperand : Flag → Bool
  | payload | offset => true
  | _ => false

/-- The option in messages. -/
def name (f : Flag) : String := String.intercalate "/" f.spellings

/-- All spellings with their options. -/
def table : List (String × Flag) := all.flatMap fun f => f.spellings.map fun s => (s, f)

/-- The option of a spelling. -/
def ofSpelling? (s : String) : Option Flag := table.lookup s

end Flag

/-- What is wrong with the arguments. -/
inductive UsageError where
  /-- An abbreviation fits several spellings. -/
  | ambiguous (argument : String) (spellings : List String)
  | operandMissing (f : Flag)
  /-- Text behind an option that takes no operand. -/
  | operandIgnored (f : Flag) (text : String)
  | notOffset (text : String)
  | schemaMissing
  | unrecognized (arguments : List String)
  | inputMissing
  deriving DecidableEq, Repr, Inhabited

/-- The wording of what is wrong with the arguments. -/
def UsageError.message : UsageError → String
  | ambiguous argument spellings =>
      "ambiguous option: " ++ argument ++ " could match " ++ String.intercalate ", " spellings
  | operandMissing f => "argument " ++ f.name ++ ": expected one argument"
  | operandIgnored f text =>
      "argument " ++ f.name ++ ": ignored explicit argument " ++ Text.quote text
  | notOffset text =>
      "argument " ++ Flag.offset.name ++ ": invalid parse_offset value: " ++ Text.quote text
  | schemaMissing => "the following arguments are required: schema"
  | unrecognized arguments => "unrecognized arguments: " ++ String.intercalate " " arguments
  | inputMissing => "either a data file or --hex is required"

/-- The line that reports a wrong use of a program. -/
def UsageError.line (e : UsageError) (program : String) : String :=
  program ++ ": error: " ++ e.message

/-- How to use a program. -/
def usage (program : String) : String :=
  "usage: " ++ program ++ " [-h] [--hex HEX_PAYLOAD] [--json] [--flat] [--offset OFFSET]\n" ++
    "    [--describe] [-v] schema [data]\n\n" ++
    "Decode binary data with a KSY structure description\n\n" ++
    "  schema         Path to schema (.ksy / YAML) file\n" ++
    "  data           Path to binary file\n" ++
    "  -h, --help     show this help message and exit\n" ++
    "  --hex          Decode a hex payload instead of a file\n" ++
    "  --json         Output result as JSON\n" ++
    "  --flat         List all nodes in pre-order instead of a tree\n" ++
    "  --offset       Show the innermost node covering this byte offset\n" ++
    "  --describe     Summarize the schema instead of decoding\n" ++
    "  -v, --verbose  Enable debug logging\n"

end ByteSchema
