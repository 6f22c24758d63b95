import ByteSchema.Node
import ByteSchema.Schema.Describe

/-!
# ByteSchema.Report.Outline

Results as values, which is the form in which they are written out: a record per node, diagnostic
and summary. What does not apply is left out.
-/

namespace ByteSchema

/-- A field that is there only when it has a value. -/
def optionalField (name : String) : Option String → Fields
  | none => []
  | some text => [(name, .str text)]

/-- A diagnostic as a value. -/
def Diagnostic.outline (d : Diagnostic) : Value :=
  .record ([("message", .str d.message), ("kind", .str d.kind)] ++ optionalField "node_path" d.path)

/-- A range as a value. -/
def Span.outline (s : Span) : Value := .record [("start", .int s.start), ("length", .int s.length)]

mutual

/-- A node as a value. A node with children shows these, one without shows its value. -/
def Node.outline : Node → Value
  | ⟨id, name, label, range, endian, value, children, attributes, problems⟩ =>
      .record <|
        [("id", .str id), ("name", .str name), ("type", .str label), ("range", range.outline)] ++
          optionalField "endian" (endian.map Endian.name) ++
          [if children.isEmpty then ("value", value)
            else ("children", .list (outlineAll children))] ++
          (if attributes.isEmpty then [] else [("attributes", .record attributes)]) ++
          (if problems.isEmpty then []
            else [("errors", .list (problems.map Diagnostic.outline))])

/-- Several nodes as values. -/
def outlineAll : List Node → List Value
  | [] => []
  | n :: rest => n.outline :: outlineAll rest

end

/-- A result as a value. -/
def Result.outline (r : Result) : Value :=
  .record
    [("root", match r.root with | some n => n.outline | none => .null),
      ("data", .record r.data),
      ("warnings", .list (r.warnings.map .str)),
      ("errors", .list (r.errors.map Diagnostic.outline))]

/-- A summary as a value. -/
def Summary.outline (s : Summary) : Value :=
  .record
    [("id", .str s.id),
      ("endian", .str s.endian.name),
      ("encoding", match s.encoding with | some e => .str e | none => .null),
      ("fields", .list (s.fields.map .str)),
      ("types", .list (s.types.map .str))]

end ByteSchema
