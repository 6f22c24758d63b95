import ByteSchema.Decode.Basic

/-!
# ByteSchema.Decode.Instance

Decoding of fields, repetitions and instances of types.

Instances can nest without end, for a type may use itself. Each of the functions below therefore
takes the decoding of nested instances as a parameter, `custom`, and `decodeInstance` ties the knot:
it recurses on the number of instances that may still be nested.
-/

namespace ByteSchema

/-- Decodes a field whose type is one of the schema: the context, the field, the name of the type
and the name of the node. -/
abbrev CustomDecoder := Context → Field → String → String → Decoder Outcome

/-- Name of the root's type where one is asked for. -/
def rootTypeName : String := "__root__"

namespace Setting

/-- Decode a value of a known type. -/
def decodeNamed (s : Setting) (custom : CustomDecoder) (ctx : Context) (f : Field)
    (name typeName : String) : Decoder Outcome :=
  match Primitive.ofName? typeName with
  | some (.integer width signed endian) =>
      s.readInteger ctx f name (Text.lower typeName) width signed endian
  | some (.float width endian) => s.readFloat ctx f name (Text.lower typeName) width endian
  | some .bytes => s.readBytes ctx f name
  | some (.text terminated) => s.readText ctx f name terminated
  | none => custom ctx f typeName name

/-- Decode one value of a field. `name` is that of the field or of the element. -/
def decodeSingle (s : Setting) (custom : CustomDecoder) (ctx : Context) (f : Field)
    (name : String) : Decoder Outcome :=
  Decoder.located (ctx.childId name) <|
    match f.type with
    | .untyped => s.readBytes ctx f name
    | .named typeName => s.decodeNamed custom ctx f name typeName
    | .switched sw => do
        let typeName ← s.selectType ctx.toPlace f.id sw
        s.decodeNamed custom ctx f name typeName

/-! ## Repetitions -/

/-- The name of an element. -/
def elementName (id : String) (index : Nat) : String := id ++ "[" ++ toString index ++ "]"

/-- Is a repetition over before the element `index` at `cursor`? -/
def isComplete (s : Setting) (r : Repetition) (count : Option Int) (index : Nat) (cursor : Int) :
    Bool :=
  match count with
  | some n => n ≤ index
  | none =>
    match r with
    | .toEnd => (s.buffer.length : Int) ≤ cursor
    | _ => false

/-- Does the condition of a repetition hold after an element? The condition sees the element as `_`
and its index as `_index`. -/
def isSatisfied (s : Setting) (r : Repetition) (ctx : Context) (index : Nat) (value : Value)
    (cursor : Int) : Decoder Bool :=
  match r with
  | .untilTrue condition => do
      let scope := (Fields.put ctx.scope "_" value).put "_index" (.int index)
      let number ← s.evaluate { ctx.toPlace with offset := cursor, scope } condition
      return (number.map Number.isTrue).getD false
  | _ => return false

/-- Decode the elements of a repetition. `count` is how many there are, where that is known; `done`
holds those before `index`, the latest first. A repetition without count ends behind an element that
takes up no bytes. -/
def decodeElements (s : Setting) (custom : CustomDecoder) (ctx : Context) (f : Field)
    (r : Repetition) (count : Option Int) :
    Nat → Nat → List Node → Int → Decoder (List Node × Int)
  | 0, _, _, _ => throw (.escape .unfinished)
  | rounds + 1, index, done, cursor => do
    if s.isComplete r count index cursor then return (done.reverse, cursor)
    let outcome ← s.decodeSingle custom (ctx.moveTo cursor) f (elementName f.id index)
    if ← s.isSatisfied r ctx index outcome.node.value outcome.next then
      return ((outcome.node :: done).reverse, outcome.next)
    if count.isNone ∧ outcome.next ≤ cursor then
      Decoder.warn (ctx.childId f.id ++ ": element " ++ toString index ++
        " consumed no bytes, repetition stopped")
      return ((outcome.node :: done).reverse, outcome.next)
    decodeElements s custom ctx f r count rounds (index + 1) (outcome.node :: done) outcome.next

/-- The label of an element in an array without elements. -/
def elementLabel : FieldType → String
  | .untyped => "bytes"
  | .named name => name
  | .switched _ => "switch"

/-- The number of elements of a counted repetition. -/
def repeatCount (s : Setting) (ctx : Context) (f : Field) (r : Repetition) : Decoder (Option Int) :=
  match r with
  | .count expr => do
      let path := ctx.childId f.id
      let n ← s.requireInt ctx.toPlace "repeat-expr" expr path
      if n < 0 then Decoder.fail (.negativeCount n) (some path)
      else if s.options.maxCount < n then
        Decoder.fail (.countOverLimit n s.options.maxCount) (some path)
      else return some n
  | _ => return none

/-- The array node of some elements. -/
def arrayNode (ctx : Context) (f : Field) (r : Repetition) (items : List Node) (stop : Int) :
    Node where
  id := ctx.childId f.id
  name := f.id
  label := (match items with | n :: _ => n.label | [] => elementLabel f.type) ++ "[]"
  range := ⟨ctx.offset, max 0 (stop - ctx.offset)⟩
  value := .tuple (items.map Node.value)
  children := items
  attributes := f.remarks ++ [("repeat", .str r.name)]

/-- Decode a repeated field. -/
def decodeRepeated (s : Setting) (custom : CustomDecoder) (ctx : Context) (f : Field)
    (r : Repetition) : Decoder Outcome := do
  let count ← s.repeatCount ctx f r
  let rounds :=
    match count with
    | some n => n.toNat + 1
    | none => s.options.maxRounds
  let (items, stop) ← s.decodeElements custom ctx f r count rounds 0 [] ctx.offset
  return { node := arrayNode ctx f r items stop, next := stop }

/-! ## Fields and instances -/

/-- The context of a field that says where it is read. -/
def placed (s : Setting) (ctx : Context) (f : Field) : Decoder Context := do
  match ← s.evaluate ctx.toPlace f.position with
  | none => return ctx
  | some n =>
      let offset ← s.requireInt ctx.toPlace "pos" n.toValue (ctx.childId f.id)
      return ctx.moveTo offset

/-- Decode a field. -/
def decodeField (s : Setting) (custom : CustomDecoder) (ctx : Context) (f : Field) :
    Decoder Outcome := do
  let ctx ← s.placed ctx f
  match f.repetition with
  | some r => s.decodeRepeated custom ctx f r
  | none => s.decodeSingle custom ctx f f.id

/-- Is a field decoded at all? -/
def isPresent (s : Setting) (ctx : Context) (f : Field) : Decoder Bool :=
  if f.condition.isNull then return true
  else return ((← s.evaluate ctx.toPlace f.condition).map Number.isTrue).getD false

/-- Decode the fields of an instance from the offset and with the scope of `ctx`: the nodes, the
values by name, and where the last field ends. `done` holds the nodes before, the latest first. -/
def decodeFields (s : Setting) (custom : CustomDecoder) :
    List Field → Context → List Node → Decoder (List Node × Fields × Int)
  | [], ctx, done => return (done.reverse, ctx.scope, ctx.offset)
  | f :: rest, ctx, done => do
    if ← s.isPresent ctx f then
      let outcome ← s.decodeField custom ctx f
      Decoder.record outcome.node.id outcome.node.value
      let scope := Fields.put ctx.scope f.id outcome.node.value
      decodeFields s custom rest { ctx with offset := outcome.next, scope } (outcome.node :: done)
    else decodeFields s custom rest ctx done

/-- An instance to decode. -/
structure Instance where
  name : String
  typeName : String
  definition : TypeDef
  /-- The chain of the type, which starts with the type itself. -/
  chain : TypeChain
  attributes : Fields

/-- The label of a type. -/
def typeLabel (s : Setting) (typeName : String) : String :=
  if typeName = rootTypeName then s.rootId else typeName

/-- The node of an instance. -/
def instanceNode (s : Setting) (ctx : Context) (i : Instance) (children : List Node)
    (fields : Fields) (stop : Int) : Node where
  id := ctx.childId i.name
  name := i.name
  label := s.typeLabel i.typeName
  range := ⟨ctx.offset, max 0 (stop - ctx.offset)⟩
  endian := some (i.definition.endian.getD ctx.endian)
  value := .record fields
  children := children
  attributes := i.attributes

/-- The context of the first field of an instance. -/
def inside (ctx : Context) (i : Instance) : Context where
  path := ctx.path ++ [i.name]
  offset := ctx.offset
  scope := []
  endian := i.definition.endian.getD ctx.endian
  chain := i.chain

/-- Decode an instance, in which `depth - 1` more may be nested. -/
def decodeInstance (s : Setting) : Nat → Context → Instance → Decoder Outcome
  | 0, _, i => Decoder.fail (.tooDeep s.options.maxDepth i.typeName)
  | depth + 1, ctx, i => do
    let custom : CustomDecoder := fun ctx f typeName name =>
      match ctx.chain.lookup? typeName with
      | some (definition, chain) =>
          decodeInstance s depth ctx { name, typeName, definition, chain, attributes := f.remarks }
      | none => Decoder.fail (.unknownType typeName)
    let (children, fields, stop) ← s.decodeFields custom i.definition.seq (inside ctx i) []
    return { node := s.instanceNode ctx i children fields stop, next := stop }

end Setting

end ByteSchema
