import ByteSchema.Decode.Instance
import ByteSchema.Schema.Load

/-!
# ByteSchema.Decode

Decoding of a buffer with a schema. A failure ends the decode: its result has no tree and exactly
one error. Failures of other sorts leave the decode as an `Escape`.
-/

namespace ByteSchema

namespace Schema

/-- The fixed part of decoding a buffer. -/
def setting (schema : Schema) (options : Options) (buffer : Buffer) : Setting where
  buffer := buffer
  rootId := schema.rootId
  encoding :=
    match schema.info.encoding with
    | some name => if name = "" then options.encoding else some name
    | none => options.encoding
  hosts := options.hosts
  options := options

/-- The root instance. -/
def rootInstance (schema : Schema) (definition : TypeDef) : Setting.Instance where
  name := schema.rootId
  typeName := rootTypeName
  definition := definition
  chain := [definition]
  attributes := []

/-- Decode the root, from the start of the buffer. -/
def decodeRoot (schema : Schema) (options : Options) (definition : TypeDef) (buffer : Buffer) :
    Decoder Outcome :=
  (schema.setting options buffer).decodeInstance options.maxDepth.toNat { endian := schema.endian }
    (schema.rootInstance definition)

/-- The result of a decode that ends with an error. -/
def failed (e : DecodeError) (warnings : List String := []) : Result :=
  { warnings, errors := [e.diagnostic] }

/-- Decode a buffer. -/
def decode (schema : Schema) (options : Options) (buffer : Buffer) : Except Escape Result :=
  match schema.rootType? with
  | none => .ok (failed ⟨.noRoot, none⟩)
  | some definition =>
    match (schema.decodeRoot options definition buffer).run.run {} with
    | (.ok outcome, progress) =>
        .ok {
          root := some outcome.node
          nodes := outcome.node.flatten
          warnings := progress.warnings }
    | (.error (.error e), progress) => .ok (failed e progress.warnings)
    | (.error (.escape e), _) => .error e

end Schema

/-- What was loaded, or the error against it; loading may also fail otherwise. -/
def Loading.settle : Loading Schema → Except Escape (Except DecodeError Schema)
  | .ok loaded => .ok (.ok loaded)
  | .error (.error e) => .ok (.error e)
  | .error (.escape e) => .error e

theorem Loading.settle_eq_ok {r : Loading Schema} {settled : Except DecodeError Schema}
    (h : r.settle = .ok settled) :
    (∃ loaded, r = .ok loaded ∧ settled = .ok loaded) ∨
      ∃ e, r = .error (.error e) ∧ settled = .error e := by
  rcases r with (e | e) | loaded
  · cases h; exact .inr ⟨e, rfl, rfl⟩
  · cases h
  · cases h; exact .inl ⟨loaded, rfl, rfl⟩

/-- Where a schema comes from. -/
inductive Source where
  /-- A document, or the text or bytes of one. -/
  | document (v : Value)
  /-- A schema that is loaded already. -/
  | schema (s : Schema)
  deriving Inhabited

namespace Source

/-- The schema of a source. -/
def load : Source → Except Failure Schema
  | .document v => Schema.load v
  | .schema s => .ok s

/-- The schema of a source or the error against it, for decoding any number of buffers. -/
def prepare (source : Source) : Except Escape (Except DecodeError Schema) :=
  Loading.settle source.load

end Source

/-- Decode a buffer with a prepared schema. Without a schema the result is the error against it. -/
def decodePrepared (schema : Except DecodeError Schema) (options : Options) (buffer : Buffer) :
    Except Escape Result :=
  match schema with
  | .ok schema => schema.decode options buffer
  | .error e => .ok (Schema.failed e)

/-- Decode a buffer with the schema of a source. -/
def decode (source : Source) (options : Options) (buffer : Buffer) : Except Escape Result := do
  decodePrepared (← source.prepare) options buffer

end ByteSchema
