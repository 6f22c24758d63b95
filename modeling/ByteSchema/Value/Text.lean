import ByteSchema.Number.Shortest
import ByteSchema.Text.Quoted
import ByteSchema.Value.Basic

/-!
# ByteSchema.Value.Text

The text of values in messages and reports. `Value.quoted` shows a value so that its kind can be
seen: text and byte strings stand in quotes. `Value.text` differs from it only in the outermost
layer: a text stands for itself there, and dates are written out. A collection that is met again
inside itself is shown by dots.
-/

namespace ByteSchema

namespace Value

/-- Join the parts of a collection. -/
def joined (parts : List String) : String := String.intercalate ", " parts

/-- What stands for a collection that is being shown already. -/
def elided (isMap : Bool) : String := if isMap then "\x7b...\x7d" else "[...]"

mutual

/-- The quoted form of a value within the collections with the labels `shown`. -/
def quotedIn (shown : List Nat) : Value → String
  | null => "None"
  | bool b => if b then "True" else "False"
  | int n => toString n
  | float x => floatText x
  | str s => Text.quote s
  | bytes bs => Text.quoteBytes bs
  | list vs => "[" ++ joined (quotedItems shown vs) ++ "]"
  | tuple [] => "()"
  | tuple [v] => "(" ++ quotedIn shown v ++ ",)"
  | tuple (v :: w :: rest) =>
      "(" ++ joined (quotedIn shown v :: quotedIn shown w :: quotedItems shown rest) ++ ")"
  | set [] => "set()"
  | set (v :: rest) =>
      "\x7b" ++ joined (quotedIn shown v :: quotedItems shown rest) ++ "\x7d"
  | map es => "\x7b" ++ joined (quotedEntries shown es) ++ "\x7d"
  | record fs => "mappingproxy(\x7b" ++ joined (quotedFields shown fs) ++ "\x7d)"
  | date d => d.quoted
  | moment m => m.quoted
  | endian .big => "<Endian.BIG: 'be'>"
  | endian .little => "<Endian.LITTLE: 'le'>"
  | cycle label v => if shown.contains label then elided v.isMap else quotedIn (label :: shown) v
  | back _ isMap => elided isMap

/-- The quoted forms of a list of values. -/
def quotedItems (shown : List Nat) : List Value → List String
  | [] => []
  | v :: rest => quotedIn shown v :: quotedItems shown rest

/-- The entries of a mapping as `key: value`. -/
def quotedEntries (shown : List Nat) : List (Value × Value) → List String
  | [] => []
  | (k, v) :: rest =>
      (quotedIn shown k ++ ": " ++ quotedIn shown v) :: quotedEntries shown rest

/-- The fields of a record as `'name': value`. -/
def quotedFields (shown : List Nat) : List (String × Value) → List String
  | [] => []
  | (k, v) :: rest => (Text.quote k ++ ": " ++ quotedIn shown v) :: quotedFields shown rest

end

/-- The quoted form of a value. -/
def quoted (v : Value) : String := quotedIn [] v

/-- The plain form of a value. -/
def text : Value → String
  | str s => s
  | record fs => "\x7b" ++ joined (quotedFields [] fs) ++ "\x7d"
  | date d => d.text
  | moment m => m.text
  | endian .big => "Endian.BIG"
  | endian .little => "Endian.LITTLE"
  | v => quoted v

@[simp] theorem text_str (s : String) : text (str s) = s := rfl

/-- Most digits that the decimal text of an integer may have. -/
def maxDecimalDigits : Nat := 4300

/-- Does the decimal text of `n` have more digits than allowed? -/
def isOverlong (n : Int) : Bool := decide (Nat.pow 10 maxDecimalDigits ≤ n.natAbs)

/-- The least overlong number. -/
theorem isOverlong_pow : isOverlong (Nat.pow 10 maxDecimalDigits : Nat) = true :=
  decide_eq_true (Nat.le_of_eq (Int.natAbs_natCast _).symm)

mutual

/-- Does the text of the value need the digits of an overlong integer? -/
def hasOverlong : Value → Bool
  | int n => isOverlong n
  | list vs => hasOverlongItem vs
  | tuple vs => hasOverlongItem vs
  | set vs => hasOverlongItem vs
  | map es => hasOverlongEntry es
  | record fs => hasOverlongField fs
  | cycle _ v => hasOverlong v
  | _ => false

/-- Is there an overlong integer in one of the items? -/
def hasOverlongItem : List Value → Bool
  | [] => false
  | v :: rest => hasOverlong v || hasOverlongItem rest

/-- Is there an overlong integer in one of the entries? -/
def hasOverlongEntry : List (Value × Value) → Bool
  | [] => false
  | (k, v) :: rest => hasOverlong k || hasOverlong v || hasOverlongEntry rest

/-- Is there an overlong integer in one of the fields? -/
def hasOverlongField : List (String × Value) → Bool
  | [] => false
  | (_, v) :: rest => hasOverlong v || hasOverlongField rest

end

end Value

end ByteSchema
