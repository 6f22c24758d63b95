import ByteSchema.Encoding.Basic
import ByteSchema.Schema.Basic
import ByteSchema.Value.Cycle
import ByteSchema.Yaml.Document

/-!
# ByteSchema.Schema.Load

Schemas from documents. Only what decoding needs is checked; a key that is not listed here is
ignored wherever it stands.

    schema:  meta (id, endian, encoding), seq, types
    type:    seq, types, endian, meta (endian)
    field:   id, type, size, size-eos, pos, if, encoding, repeat, repeat-expr, repeat-until,
             terminator, include, consume, doc
    switch:  switch-on, cases

A collection of a document may hold itself. It is unfolded where its contents matter. Types that go
on without end in this way are found by their labels: each may be unfolded as often as it can be
met on the way down to a type that ends.
-/

namespace ByteSchema

/-- Reading a document. -/
abbrev Loading := Except Failure

namespace Loading

/-- Fail with a cause. -/
def fail {α : Type} (cause : Cause) : Loading α := .error (.ofCause cause)

/-- The plain text of a value, which must not need the digits of an overlong integer. -/
def textOf (v : Value) : Loading String :=
  match v with
  | .str s => return s
  | v => if v.hasOverlong then .error (.escape .longInteger) else return v.text

/-- The plain text of a value, unless it is null. -/
def optionalText : Value → Loading (Option String)
  | .null => return none
  | v => return some (← textOf v)

/-- The value under a key of a mapping; null when the key is absent. -/
def get (entries : List (Value × Value)) (key : String) : Value :=
  (lookupKey key entries).getD .null

/-- The value under the first of two keys that is present; null when both are absent. -/
def getEither (entries : List (Value × Value)) (key other : String) : Value :=
  ((lookupKey key entries).or (lookupKey other entries)).getD .null

/-- Is the value under a key true? `default` holds when the key is absent. -/
def flag (entries : List (Value × Value)) (key : String) (default : Bool) : Bool :=
  match lookupKey key entries with
  | some v => v.isTrue
  | none => default

end Loading

open Loading

/-- The byte orders by their names. -/
def endianNames : List (String × Endian) :=
  [("be", .big), ("big", .big), ("le", .little), ("little", .little)]

/-- A byte order declaration, none when it is absent. `place` names what it belongs to. -/
def Endian.ofValue (v : Value) (place : String) : Loading (Option Endian) :=
  match v with
  | .null => return none
  | .endian e => return some e
  | .str s =>
      match endianNames.lookup (Text.lower (Text.strip s)) with
      | some e => return some e
      | none => fail (.unknownEndian v place)
  | v => fail (.unknownEndian v place)

/-- The cases of a switch. -/
def switchCases (id : String) : List (Value × Value) → Loading (List (Value × String))
  | [] => return []
  | (key, .str name) :: rest => return (key, name) :: (← switchCases id rest)
  | (key, _) :: _ => fail (.caseNotName key id)

/-- The type of a field. -/
def FieldType.ofValue (id : String) (v : Value) : Loading FieldType :=
  match v.unfolded with
  | .null => return .untyped
  | .str name => return .named name
  | .map entries =>
      match lookupKey "switch-on" entries with
      | none => fail (.fieldType id)
      | some discriminant =>
          match (get entries "cases").unfolded with
          | .map cases => return .switched { discriminant, cases := ← switchCases id cases }
          | _ => fail (.switchWithoutCases id)
  | _ => fail (.fieldType id)

/-- The byte that ends a field, if there is one. -/
def Terminator.ofValue (id : String) : Value → Loading (Option Terminator)
  | .null => return none
  | .bool b => return some (.flag b)
  | .int n =>
      if 0 ≤ n ∧ n ≤ 255 then return some (.byte (UInt8.ofNat n.toNat))
      else fail (.terminatorNotByte id)
  | _ => fail (.terminatorNotByte id)

/-- How a field is repeated. -/
def Repetition.ofEntries (id : String) (entries : List (Value × Value)) :
    Loading (Option Repetition) :=
  match get entries "repeat" with
  | .null => return none
  | .str "expr" =>
      match getEither entries "repeat-expr" "repeatExpr" with
      | .null => fail (.repeatWithoutCount id)
      | expr => return some (.count expr)
  | .str "until" =>
      match getEither entries "repeat-until" "repeatUntil" with
      | .null => fail (.repeatWithoutCondition id)
      | condition => return some (.untilTrue condition)
  | .str "eos" => return some .toEnd
  | kind => fail (.unknownRepeat kind id)

/-- A field. -/
def Field.ofValue (raw : Value) : Loading Field :=
  match raw.unfolded with
  | .map entries => do
      let id ←
        match get entries "id" with
        | .null => fail .fieldWithoutId
        | .str "" => fail .fieldWithoutId
        | v => textOf v
      let type ← FieldType.ofValue id (get entries "type")
      let terminator ← Terminator.ofValue id (get entries "terminator")
      let encoding ← optionalText (get entries "encoding")
      let repetition ← Repetition.ofEntries id entries
      return {
        id, type, encoding, repetition, terminator
        size := get entries "size"
        sizeToEnd := flag entries "size-eos" false
        position := get entries "pos"
        condition := get entries "if"
        keepTerminator := flag entries "include" false
        skipTerminator := flag entries "consume" true
        doc := get entries "doc" }
  | v => fail (.fieldNotMapping v.kindName)

/-- A sequence of fields. `owner` names what it belongs to. -/
def fieldsOf (v : Value) (owner : String) : Loading (List Field) :=
  match v.unfolded with
  | .null => return []
  | .list items => items.mapM Field.ofValue
  | _ => fail (.seqNotList owner)

theorem sizeOf_lookupKey_lt {name : String} {entries : List (Value × Value)} {v : Value}
    (h : lookupKey name entries = some v) : sizeOf v < sizeOf entries := by
  induction entries with
  | nil => simp [lookupKey] at h
  | cons entry rest ih =>
    obtain ⟨key, w⟩ := entry
    have step : lookupKey name rest = some v → sizeOf v < sizeOf ((key, w) :: rest) := by
      intro hr
      have := ih hr
      simp only [List.cons.sizeOf_spec]
      omega
    cases key with
    | str k =>
      unfold lookupKey at h
      split at h
      · cases h
        simp only [List.cons.sizeOf_spec, Prod.mk.sizeOf_spec]
        omega
      · exact step h
    | _ => exact step (by simpa [lookupKey] using h)

theorem sizeOf_get_lt (entries : List (Value × Value)) (name : String) :
    sizeOf (get entries name) < 1 + sizeOf entries := by
  unfold Loading.get
  cases hl : lookupKey name entries with
  | none =>
    cases entries with
    | nil => simp only [Option.getD_none, Value.null.sizeOf_spec, List.nil.sizeOf_spec]; omega
    | cons head rest =>
      simp only [Option.getD_none, Value.null.sizeOf_spec, List.cons.sizeOf_spec]
      omega
  | some v =>
    have := sizeOf_lookupKey_lt hl
    simp
    omega

theorem length_erase_lt {label : Nat} {left : List Nat} (h : label ∈ left) :
    (left.erase label).length < left.length := by
  have := List.length_pos_of_mem h
  rw [List.length_erase_of_mem h]
  omega

/-- The byte order declared in a type: its own, or that of its `meta`. -/
def typeEndian (entries : List (Value × Value)) : Value :=
  match lookupKey "endian" entries with
  | some v => v
  | none =>
      match (get entries "meta").unfolded with
      | .map info => get info "endian"
      | _ => .null

mutual

/-- A type. `left` holds the labels that may still be unfolded on the way down. -/
def TypeDef.ofValueWithin (left : List Nat) (raw : Value) (name : String) : Loading TypeDef :=
  match raw with
  | .null => return {}
  | .map entries => do
      let owner := "type '" ++ name ++ "'"
      let seq ← fieldsOf (get entries "seq") owner
      let types ← Types.ofValueWithin left (get entries "types") owner
      let endian ← Endian.ofValue (typeEndian entries) owner
      return { seq, types, endian }
  | .cycle label v =>
      if label ∈ left then
        TypeDef.ofValueWithin (left.erase label) (Value.cycle label v).unfolded name
      else .error (.escape .endless)
  | _ => fail (.typeNotMapping name)
termination_by (left.length, sizeOf raw)
decreasing_by
  · have := sizeOf_get_lt entries "types"
    exact Prod.Lex.right _ (by simp only [Value.map.sizeOf_spec]; omega)
  · exact Prod.Lex.left _ _ (length_erase_lt ‹_›)

/-- The types declared in a schema or in a type. `owner` names which. -/
def Types.ofValueWithin (left : List Nat) (v : Value) (owner : String) : Loading Types :=
  match v with
  | .null => return []
  | .map entries => Types.ofEntriesWithin left entries []
  | .cycle label v =>
      if label ∈ left then
        Types.ofValueWithin (left.erase label) (Value.cycle label v).unfolded owner
      else .error (.escape .endless)
  | _ => fail (.typesNotMapping owner)
termination_by (left.length, sizeOf v)
decreasing_by
  · exact Prod.Lex.right _ (by simp only [Value.map.sizeOf_spec]; omega)
  · exact Prod.Lex.left _ _ (length_erase_lt ‹_›)

/-- The types of a mapping, put to those in `done`. -/
def Types.ofEntriesWithin (left : List Nat) (entries : List (Value × Value)) (done : Types) :
    Loading Types :=
  match entries with
  | [] => return done
  | (key, body) :: rest => do
      let name ← textOf key
      let d ← TypeDef.ofValueWithin left body name
      Types.ofEntriesWithin left rest (Types.put done name d)
termination_by (left.length, sizeOf entries)
decreasing_by
  · exact Prod.Lex.right _ (by
      simp only [List.cons.sizeOf_spec, Prod.mk.sizeOf_spec]
      omega)
  · exact Prod.Lex.right _ (by
      simp only [List.cons.sizeOf_spec]
      omega)

end

/-- Labels that may be unfolded in a value. A collection is met at most twice on the way down to a
type that ends: as a type and as the types of one. -/
def unfoldings (v : Value) : List Nat := v.labels ++ v.labels

/-- A type. -/
def TypeDef.ofValue (raw : Value) (name : String) : Loading TypeDef :=
  TypeDef.ofValueWithin (unfoldings raw) raw name

/-- The types declared in a schema or in a type. `owner` names which. -/
def Types.ofValue (v : Value) (owner : String) : Loading Types :=
  Types.ofValueWithin (unfoldings v) v owner

/-- What a schema says about the whole. A `meta` that counts as false is an empty one. -/
def Meta.ofValue (v : Value) : Loading Meta := do
  let entries ←
    match v.unfolded with
    | .map entries => pure entries
    | v => if v.isTrue then fail .metaNotMapping else pure []
  let id ← optionalText (get entries "id")
  let endian ← Endian.ofValue (get entries "endian") "meta"
  let encoding ← optionalText (get entries "encoding")
  return { id, endian, encoding }

namespace Schema

/-- The schema of a document's mapping. -/
def ofEntries (entries : List (Value × Value)) : Loading Schema := do
  let info ← Meta.ofValue (get entries "meta")
  let seq ←
    match get entries "seq" with
    | .null => pure none
    | v => some <$> fieldsOf v "schema"
  let types ← Types.ofValue (get entries "types") "schema"
  return { info, seq, types }

/-- The schema of a text, whose document `read` gives. -/
def ofTextBy (read : String → Loading Value) (text : String) : Loading Schema :=
  if Text.strip text = "" then fail .emptySource
  else do
    match (← read text).unfolded with
    | .map entries => ofEntries entries
    | _ => fail .documentNotMapping

/-- The schema of a YAML text. -/
def ofText (text : String) : Loading Schema := ofTextBy Yaml.read text

/-- The schema of a source: a mapping, a YAML text, or the bytes of one in UTF-8. -/
def load (source : Value) : Loading Schema :=
  match source.unfolded with
  | .map entries => ofEntries entries
  | .str text => ofText text
  | .bytes bytes =>
      match Encoding.utf8Text bytes with
      | .ok text => ofText (Text.ofChars text.toList)
      | .error detail => fail (.sourceNotUtf8 detail)
  | v => fail (.sourceKind v.kindName)

end Schema

end ByteSchema
