import ByteSchema.Value.Basic

/-!
# ByteSchema.Schema.Basic

The model of a format description: a root sequence of fields and named types, which are sequences of
fields with types of their own inside. Sizes, positions, counts and conditions are kept as the
document gives them and evaluated when a buffer is decoded.
-/

namespace ByteSchema

/-- A type chosen while decoding, by the value of an expression. -/
structure Switch where
  /-- The expression that decides. -/
  discriminant : Value
  /-- The keys and the names of their types, in order. -/
  cases : List (Value × String)
  deriving Inhabited

/-- The key of the case that is taken when no other is. -/
def defaultKey : String := "_"

/-- Is the key that of the default case? -/
def isDefaultKey : Value → Bool
  | .str s => s == defaultKey
  | _ => false

/-- The type name of the default case, if there is one. -/
def Switch.default? (s : Switch) : Option String :=
  (s.cases.find? fun entry => isDefaultKey entry.1).map (·.2)

/-- The type of a field. -/
inductive FieldType where
  /-- No type: raw bytes. -/
  | untyped
  /-- A primitive or a type of the schema. -/
  | named (name : String)
  | switched (s : Switch)
  deriving Inhabited

/-- The ways to repeat a field. -/
inductive Repetition where
  /-- As many elements as an expression says. -/
  | count (expr : Value)
  /-- Elements up to the end of the buffer. -/
  | toEnd
  /-- Elements until a condition holds. -/
  | untilTrue (condition : Value)
  deriving Inhabited

/-- The name of a way to repeat. -/
def Repetition.name : Repetition → String
  | count _ => "expr"
  | toEnd => "eos"
  | untilTrue _ => "until"

/-- The expression of a repetition; null for one without. -/
def Repetition.expr : Repetition → Value
  | count e => e
  | toEnd => .null
  | untilTrue e => e

/-- The byte that ends a field. A schema can give it as a number or, for 0 and 1, as a truth value.
-/
inductive Terminator where
  | byte (b : UInt8)
  | flag (b : Bool)
  deriving DecidableEq, Repr, Inhabited

/-- The byte itself. -/
def Terminator.toByte : Terminator → UInt8
  | byte b => b
  | flag b => if b then 1 else 0

/-- A field of a sequence. Expressions that are absent are null. -/
structure Field where
  id : String
  type : FieldType := .untyped
  /-- Size in bytes. -/
  size : Value := .null
  /-- Does the field reach to the end of the buffer? -/
  sizeToEnd : Bool := false
  /-- Where the field is read, instead of behind the one before. -/
  position : Value := .null
  /-- The field is skipped unless this holds. -/
  condition : Value := .null
  encoding : Option String := none
  repetition : Option Repetition := none
  terminator : Option Terminator := none
  /-- Does the value include the terminator? -/
  keepTerminator : Bool := false
  /-- Does the next field start behind the terminator? -/
  skipTerminator : Bool := true
  /-- A remark on the field. -/
  doc : Value := .null
  deriving Inhabited

/-- A named type: a sequence of fields, with types of its own that are known inside it only. -/
structure TypeDef where
  seq : List Field := []
  types : List (String × TypeDef) := []
  /-- The byte order in the type, unless it is that of the place where it is used. -/
  endian : Option Endian := none
  deriving Inhabited

/-- Types by name, in order. -/
abbrev Types := List (String × TypeDef)

/-- Put a type under a name: in place of the one that is there, or at the end. -/
def Types.put (types : Types) (name : String) (d : TypeDef) : Types :=
  match types with
  | [] => [(name, d)]
  | (n, e) :: rest => if n = name then (n, d) :: rest else (n, e) :: Types.put rest name d

/-- Put several types, in order. -/
def Types.putAll (types : Types) (more : Types) : Types :=
  more.foldl (fun done entry => Types.put done entry.1 entry.2) types

theorem Types.lookup_put_self (types : Types) (name : String) (d : TypeDef) :
    (Types.put types name d).lookup name = some d := by
  induction types with
  | nil => simp [Types.put]
  | cons entry rest ih =>
    obtain ⟨n, e⟩ := entry
    by_cases h : n = name
    · simp [Types.put, h]
    · have hb : (name == n) = false := by simpa using fun h' => h h'.symm
      simp [Types.put, h, List.lookup_cons, hb, ih]

theorem Types.lookup_put_of_ne (types : Types) {name other : String} (d : TypeDef)
    (h : other ≠ name) : (Types.put types name d).lookup other = types.lookup other := by
  induction types with
  | nil =>
    have hb : (other == name) = false := by simpa using h
    simp [Types.put, List.lookup_cons, hb]
  | cons entry rest ih =>
    obtain ⟨n, e⟩ := entry
    by_cases hn : n = name
    · have hb : (other == n) = false := by simpa [hn] using h
      simp [Types.put, hn, List.lookup_cons, hn ▸ hb]
    · cases hb : other == n <;> simp [Types.put, hn, List.lookup_cons, hb, ih]

/-- What a schema says about the whole. -/
structure Meta where
  id : Option String := none
  endian : Option Endian := none
  encoding : Option String := none
  deriving Inhabited

/-- A format description. -/
structure Schema where
  info : Meta := {}
  /-- The root sequence, unless the root is one of the types. -/
  seq : Option (List Field) := none
  types : Types := []
  deriving Inhabited

namespace Schema

/-- The id of the root. -/
def rootId (s : Schema) : String :=
  match s.info.id with
  | some id => if id = "" then "root" else id
  | none => "root"

/-- The type that is named like the schema. -/
def namesake? (s : Schema) : Option TypeDef :=
  match s.info.id with
  | some id => if id = "" then none else s.types.lookup id
  | none => none

/-- The fields of the root: those of the schema, or else of the type that is named like it. -/
def rootSequence? (s : Schema) : Option (List Field) :=
  match s.seq with
  | some seq => some seq
  | none => s.namesake?.map TypeDef.seq

/-- The type of the root. One borrowed from the types brings its own types along, which hide those
of the schema, and its byte order comes first. -/
def rootType? (s : Schema) : Option TypeDef :=
  match s.seq with
  | some seq => some { seq, types := s.types, endian := s.info.endian }
  | none => s.namesake?.map fun d =>
      { seq := d.seq, types := s.types.putAll d.types, endian := d.endian.or s.info.endian }

/-- The byte order of the schema: big endian unless it says otherwise. -/
def endian (s : Schema) : Endian := s.info.endian.getD .big

end Schema

end ByteSchema
