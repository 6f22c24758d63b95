import ByteSchema.Decode.Primitive
import ByteSchema.Decode.Raw
import ByteSchema.Decode.Scope
import ByteSchema.Encoding.Basic
import ByteSchema.Expression.Evaluate
import ByteSchema.Node
import ByteSchema.Number.Numeral

/-!
# ByteSchema.Decode.Basic

Decoding of a single value: what stays fixed while a buffer is decoded, where a step of it stands,
and the reading of primitive values and raw bytes.

* `Decoder` keeps its `Progress` when it fails, so warnings given before a failure are not lost.
* An error gets the path of the innermost field around it, unless it already names one.
-/

namespace ByteSchema

/-- Bounds on decoding, the encoding of text that has none of its own, and the encodings of the host.
-/
structure Options where
  /-- Most instances that may be nested. -/
  maxDepth : Int := 64
  /-- Most elements of a counted repetition. -/
  maxCount : Int := 1000000
  /-- Encoding when neither the field nor the schema has one. -/
  encoding : Option String := some "utf-8"
  /-- The encodings that are not the library's own. -/
  hosts : HostEncodings := fun _ => none
  /-- Most elements of a repetition without count. It stands for "no bound": a repetition that does
  not end may go through any number of elements. -/
  maxRounds : Nat := Nat.pow 2 62
  deriving Inhabited

/-- What stays fixed while a buffer is decoded. -/
structure Setting where
  buffer : Buffer
  /-- Id of the root, and label of its type. -/
  rootId : String
  /-- Encoding of fields that have none. -/
  encoding : Option String
  hosts : HostEncodings := fun _ => none
  options : Options
  deriving Inhabited

/-- Where a step of decoding stands. -/
structure Context extends Place where
  /-- Byte order of the current instance. -/
  endian : Endian := .big
  /-- The type of the current instance and the types that it is declared in. -/
  chain : TypeChain := []
  deriving Inhabited

/-- The same context at another offset. -/
def Context.moveTo (ctx : Context) (offset : Int) : Context := { ctx with offset }

@[simp] theorem Context.offset_moveTo (ctx : Context) (o : Int) : (ctx.moveTo o).offset = o := rfl
@[simp] theorem Context.path_moveTo (ctx : Context) (o : Int) :
    (ctx.moveTo o).path = ctx.path := rfl
@[simp] theorem Context.chain_moveTo (ctx : Context) (o : Int) :
    (ctx.moveTo o).chain = ctx.chain := rfl
@[simp] theorem Context.endian_moveTo (ctx : Context) (o : Int) :
    (ctx.moveTo o).endian = ctx.endian := rfl

/-- What decoding has produced besides nodes. -/
structure Progress where
  values : ValueTable := .empty
  warnings : List String := []
  deriving Inhabited

/-- A step of decoding. -/
abbrev Decoder := ExceptT Failure (StateM Progress)

/-- A decoded node, and where the next field starts. -/
structure Outcome where
  node : Node
  next : Int
  deriving Inhabited

namespace Decoder

/-- Fail with a cause. -/
def fail {α : Type} (cause : Cause) (path : Option String := none) : Decoder α :=
  throw (.ofCause cause path)

/-- Fail where a check fails. -/
def check {α : Type} : Except Cause α → Decoder α
  | .ok a => return a
  | .error cause => fail cause

/-- Fail where an operation fails. -/
def lift {α : Type} : Except Failure α → Decoder α
  | .ok a => return a
  | .error failure => throw failure

/-- Let a failure escape. -/
def orEscape {α : Type} : Except Escape α → Decoder α
  | .ok a => return a
  | .error e => throw (.escape e)

/-- Give errors of a step the path `path`, unless they have one. -/
def located {α : Type} (path : String) (step : Decoder α) : Decoder α :=
  ExceptT.adapt (Failure.withPath path) step

/-- Add a warning. -/
def warn (message : String) : Decoder Unit :=
  modify fun p => { p with warnings := p.warnings ++ [message] }

/-- Write the value of a path. -/
def record (path : String) (value : Value) : Decoder Unit := do
  match (← get).values.record path value with
  | .ok values => modify fun p => { p with values }
  | .error e => throw (.error e)

end Decoder

namespace Setting

/-- What expressions can see at a place. -/
def view (s : Setting) (place : Place) (values : ValueTable) : View where
  size := s.buffer.length
  rootId := s.rootId
  values := values
  place := place

/-- The value of an expression, if it has one. -/
def evaluate (s : Setting) (place : Place) (expr : Value) : Decoder (Option Number) := do
  Decoder.orEscape ((s.view place (← get).values).evaluate expr)

/-- The integer that an expression must give. -/
def requireInt (s : Setting) (place : Place) (what : String) (expr : Value) (path : String) :
    Decoder Int := do
  Decoder.lift ((s.view place (← get).values).requireInt what expr (some path))

end Setting

/-- The attribute that every node of a field has: its remark, if there is one. -/
def Field.remarks (f : Field) : Fields := if f.doc.isTrue then [("doc", f.doc)] else []

namespace Setting

/-- Read the raw bytes of a field, with the number of bytes consumed. `what` names the kind of field
in messages, `implied` is the terminator of a field that has none of its own. -/
def readSpan (s : Setting) (ctx : Context) (f : Field) (what : String) (implied : Option UInt8) :
    Decoder (List UInt8 × Int) := do
  let terminator := (f.terminator.map Terminator.toByte).or implied
  if !f.size.isNull then
    let size ← s.requireInt ctx.toPlace "size" f.size (ctx.childId f.id)
    Decoder.check (s.buffer.readSized ctx.offset size terminator f.keepTerminator)
  else if f.sizeToEnd then Decoder.check (s.buffer.readRest ctx.offset)
  else
    match terminator with
    | some t =>
        Decoder.check
          (s.buffer.readTerminated ctx.offset t f.keepTerminator f.skipTerminator)
    | none => Decoder.fail (.sizeRequired f.id what)

/-- The node of a primitive value. -/
def leaf (ctx : Context) (name label : String) (length : Int) (endian : Option Endian)
    (value : Value) (attributes : Fields) (problems : List Diagnostic := []) : Outcome where
  node :=
    { id := ctx.childId name, name, label, range := ⟨ctx.offset, length⟩, endian, value,
      attributes, problems }
  next := ctx.offset + length

/-- Read an integer. -/
def readInteger (s : Setting) (ctx : Context) (f : Field) (name label : String) (width : Nat)
    (signed : Bool) (endian : Option Endian) : Decoder Outcome := do
  let bytes ← Decoder.check (s.buffer.read ctx.offset width)
  let endian := endian.getD ctx.endian
  let value := Value.int (integerOfBytes endian signed bytes)
  return leaf ctx name label width (some endian) value f.remarks

/-- Read a double. -/
def readFloat (s : Setting) (ctx : Context) (f : Field) (name label : String) (width : Nat)
    (endian : Option Endian) : Decoder Outcome := do
  let bytes ← Decoder.check (s.buffer.read ctx.offset width)
  let endian := endian.getD ctx.endian
  return leaf ctx name label width (some endian) (.float (floatOfBytes endian bytes)) f.remarks

/-- Read raw bytes. -/
def readBytes (s : Setting) (ctx : Context) (f : Field) (name : String) : Decoder Outcome := do
  let what :=
    match f.type with
    | .untyped => "untyped data"
    | _ => "bytes type"
  let (bytes, consumed) ← s.readSpan ctx f what none
  return leaf ctx name "bytes" consumed none (.bytes bytes) f.remarks

/-- The encoding of a field: its own, or else the one for fields that have none. -/
def encodingOf (s : Setting) (f : Field) : Option String :=
  match f.encoding with
  | some name => if name = "" then s.encoding else some name
  | none => s.encoding

/-- Read text. Problems with its encoding are mended, and warned of. -/
def readText (s : Setting) (ctx : Context) (f : Field) (name : String) (terminated : Bool) :
    Decoder Outcome := do
  let (bytes, consumed) ← s.readSpan ctx f "string type" (if terminated then some 0 else none)
  let encoding := s.encodingOf f
  let (value, problem) ← Decoder.orEscape (Encoding.decodeNamed s.hosts encoding bytes)
  let id := ctx.childId name
  let problems := problem.toList.map fun cause => (DecodeError.mk cause (some id)).diagnostic
  for p in problems do
    Decoder.warn (id ++ ": " ++ p.message)
  return leaf ctx name (if terminated then "strz" else "str") consumed none value
    (f.remarks ++ [("encoding", .str (encoding.getD ""))]) problems

/-! ## Switches -/

/-- The number that a case key stands for: a truth value 0 or 1, a number itself, a text the value
of the expression in it or else of the decimal fraction. Any other key is taken as its text. -/
def caseNumber (s : Setting) (place : Place) (key : Value) : Decoder (Option Number) :=
  match key with
  | .bool b => return some (.int (Number.ofFlag b))
  | .int n => return some (.int n)
  | .float x => return some (.float x)
  | key =>
    if key.hasOverlong then throw (.escape .longInteger)
    else do
      let text := Text.strip key.text
      if text = "" ∨ text = defaultKey then return none
      match ← s.evaluate place (.str text) with
      | some n => return some n
      | none => return (Numeral.readFraction text).map fun x => (Number.float x).normalize

/-- The type name of the first case, other than the default, whose key equals a number. -/
def selectCase (s : Setting) (place : Place) (discriminant : Number) :
    List (Value × String) → Decoder (Option String)
  | [] => return none
  | (key, name) :: rest => do
    if isDefaultKey key then selectCase s place discriminant rest
    else
      match ← s.caseNumber place key with
      | some n =>
          if Number.equal n discriminant then return some name
          else selectCase s place discriminant rest
      | none => selectCase s place discriminant rest

/-- The type name that a switch selects. -/
def selectType (s : Setting) (place : Place) (id : String) (sw : Switch) : Decoder String := do
  let discriminant ← s.evaluate place sw.discriminant
  let selected ←
    match discriminant with
    | some n => s.selectCase place n sw.cases
    | none => pure none
  match selected.or sw.default? with
  | some name => return name
  | none =>
    match discriminant with
    | none => Decoder.fail (.switchUnresolved id sw.discriminant)
    | some n => Decoder.fail (.switchWithoutCase id n)

end Setting

end ByteSchema
