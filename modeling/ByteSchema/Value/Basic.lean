import ByteSchema.Number.Basic
import ByteSchema.Value.Calendar

/-!
# ByteSchema.Value.Basic

The data that schema documents hold and that decoding produces. Schema documents are free-form, so
one dynamic type covers them; a decoded instance of a type is a `record`, whose fields have names
and keep the order in which they were decoded.

A collection of a document may hold itself. It is written as a finite term: `cycle` gives it a
label, and `back` stands for it further down.
-/

namespace ByteSchema

/-- Byte order of numbers that are wider than one byte. -/
inductive Endian where
  /-- Most significant byte first. -/
  | big
  /-- Least significant byte first. -/
  | little
  deriving DecidableEq, Repr, Inhabited

/-- The short name of a byte order. -/
def Endian.name : Endian → String
  | big => "be"
  | little => "le"

/-- The long name of a byte order. -/
def Endian.longName : Endian → String
  | big => "big"
  | little => "little"

/-- A datum of a schema document or of a decoded buffer. -/
inductive Value where
  | null
  | bool (b : Bool)
  | int (n : Int)
  | float (x : Float)
  | str (s : String)
  | bytes (bs : List UInt8)
  /-- A list of a document. -/
  | list (items : List Value)
  /-- The elements of a decoded array. -/
  | tuple (items : List Value)
  /-- A set of a document, in the order of its elements. -/
  | set (elements : List Value)
  /-- A mapping of a document, in order. -/
  | map (entries : List (Value × Value))
  /-- The named fields of a decoded instance, in order. -/
  | record (fields : List (String × Value))
  | date (d : Date)
  | moment (m : Moment)
  | endian (e : Endian)
  /-- A list or mapping of a document that holds itself under a label. -/
  | cycle (label : Nat) (collection : Value)
  /-- The collection that has the label, once more. -/
  | back (label : Nat) (isMap : Bool)
  deriving Inhabited

/-- Named values in order. -/
abbrev Fields := List (String × Value)

namespace Value

/-- The name of a value's kind, as messages give it. -/
def kindName : Value → String
  | null => "NoneType"
  | bool _ => "bool"
  | int _ => "int"
  | float _ => "float"
  | str _ => "str"
  | bytes _ => "bytes"
  | list _ => "list"
  | tuple _ => "tuple"
  | set _ => "set"
  | map _ => "dict"
  | record _ => "mappingproxy"
  | date _ => "date"
  | moment _ => "datetime"
  | endian _ => "Endian"
  | cycle _ v => kindName v
  | back _ isMap => if isMap then "dict" else "list"

/-- The number that a value is; truth values are not numbers. -/
def number? : Value → Option Number
  | int n => some (.int n)
  | float x => some (.float x)
  | _ => none

@[simp] theorem number?_int (n : Int) : number? (int n) = some (.int n) := rfl
@[simp] theorem number?_float (x : Float) : number? (float x) = some (.float x) := rfl
@[simp] theorem number?_null : number? null = none := rfl
@[simp] theorem number?_str (s : String) : number? (str s) = none := rfl
@[simp] theorem number?_bytes (bs : List UInt8) : number? (bytes bs) = none := rfl
@[simp] theorem number?_tuple (vs : List Value) : number? (tuple vs) = none := rfl
@[simp] theorem number?_record (fs : Fields) : number? (record fs) = none := rfl

/-- A value counts as false when it is null, false, zero or empty. A collection that holds itself is
not empty. -/
def isTrue : Value → Bool
  | null => false
  | bool b => b
  | int n => n != 0
  | float x => x != 0
  | str s => s != ""
  | bytes bs => !bs.isEmpty
  | list vs => !vs.isEmpty
  | tuple vs => !vs.isEmpty
  | set vs => !vs.isEmpty
  | map es => !es.isEmpty
  | record fs => !fs.isEmpty
  | date _ => true
  | moment _ => true
  | endian _ => true
  | cycle _ _ => true
  | back _ _ => true

@[simp] theorem isTrue_null : isTrue null = false := rfl
@[simp] theorem isTrue_bool (b : Bool) : isTrue (bool b) = b := rfl

/-- Is the value null? -/
def isNull : Value → Bool
  | null => true
  | _ => false

@[simp] theorem isNull_iff {v : Value} : v.isNull = true ↔ v = null := by
  cases v <;> simp [isNull]

end Value

/-- A number as a value. -/
def Number.toValue : Number → Value
  | int n => .int n
  | float x => .float x
  | flag b => .bool b

/-- The value stored under `name`, if any. -/
def Fields.get? (fields : Fields) (name : String) : Option Value := fields.lookup name

/-- Store `value` under `name`: in place when the name is there already, else at the end. -/
def Fields.put (fields : Fields) (name : String) (value : Value) : Fields :=
  match fields with
  | [] => [(name, value)]
  | (n, v) :: rest => if n = name then (n, value) :: rest else (n, v) :: Fields.put rest name value

/-- The value under the text key `name` of a mapping. -/
def lookupKey (name : String) : List (Value × Value) → Option Value
  | [] => none
  | (.str k, v) :: rest => if k = name then some v else lookupKey name rest
  | _ :: rest => lookupKey name rest

namespace Value

/-- The value under the text key `name`, when the value is a mapping or a record. -/
def get? (v : Value) (name : String) : Option Value :=
  match v with
  | map entries => lookupKey name entries
  | record fields => fields.lookup name
  | _ => none

/-- Is the value a mapping of a document? -/
def isMap : Value → Bool
  | map _ => true
  | cycle _ v => isMap v
  | back _ isMap => isMap
  | _ => false

end Value

end ByteSchema
