import ByteSchema.Value.Basic

/-!
# ByteSchema.Value.Cycle

Collections that hold themselves. The term `cycle label v` is the collection `v` in which
`back label` stands for the whole; a term is closed when every `back` is below the `cycle` of its
label. What is found inside such a collection is closed only after unfolding, which puts the whole
in the place of each `back`.
-/

namespace ByteSchema.Value

mutual

/-- Put `whole` in the place of what refers back to the collection with the label `label`. -/
def fill (label : Nat) (whole : Value) : Value → Value
  | list vs => list (fillItems label whole vs)
  | tuple vs => tuple (fillItems label whole vs)
  | map es => map (fillEntries label whole es)
  | record fs => record (fillFields label whole fs)
  | cycle n v => if n = label then cycle n v else cycle n (fill label whole v)
  | back n isMap => if n = label then whole else back n isMap
  | v => v

/-- Fill in some items. -/
def fillItems (label : Nat) (whole : Value) : List Value → List Value
  | [] => []
  | v :: rest => fill label whole v :: fillItems label whole rest

/-- Fill in the values of some entries; their keys are no collections. -/
def fillEntries (label : Nat) (whole : Value) : List (Value × Value) → List (Value × Value)
  | [] => []
  | (k, v) :: rest => (k, fill label whole v) :: fillEntries label whole rest

/-- Fill in some fields. -/
def fillFields (label : Nat) (whole : Value) : List (String × Value) → List (String × Value)
  | [] => []
  | (k, v) :: rest => (k, fill label whole v) :: fillFields label whole rest

end

/-- The value with its outermost layer open to view. -/
def unfolded : Value → Value
  | cycle label v => fill label (cycle label v) v
  | v => v

@[simp] theorem unfolded_null : unfolded null = null := rfl
@[simp] theorem unfolded_list (vs : List Value) : unfolded (list vs) = list vs := rfl
@[simp] theorem unfolded_map (es : List (Value × Value)) : unfolded (map es) = map es := rfl
@[simp] theorem unfolded_str (s : String) : unfolded (str s) = str s := rfl

mutual

/-- The labels in a value. -/
def labels : Value → List Nat
  | list vs => labelsOfItems vs
  | tuple vs => labelsOfItems vs
  | map es => labelsOfEntries es
  | record fs => labelsOfFields fs
  | cycle n v => n :: labels v
  | back n _ => [n]
  | _ => []

/-- The labels in some items. -/
def labelsOfItems : List Value → List Nat
  | [] => []
  | v :: rest => labels v ++ labelsOfItems rest

/-- The labels in some entries. -/
def labelsOfEntries : List (Value × Value) → List Nat
  | [] => []
  | (_, v) :: rest => labels v ++ labelsOfEntries rest

/-- The labels in some fields. -/
def labelsOfFields : List (String × Value) → List Nat
  | [] => []
  | (_, v) :: rest => labels v ++ labelsOfFields rest

end

mutual

/-- The labels that a value refers back to from outside their collections. -/
def openLabels : Value → List Nat
  | list vs => openLabelsOfItems vs
  | tuple vs => openLabelsOfItems vs
  | map es => openLabelsOfEntries es
  | record fs => openLabelsOfFields fs
  | cycle n v => (openLabels v).filter (· ≠ n)
  | back n _ => [n]
  | _ => []

/-- The labels that some items refer back to. -/
def openLabelsOfItems : List Value → List Nat
  | [] => []
  | v :: rest => openLabels v ++ openLabelsOfItems rest

/-- The labels that the values of some entries refer back to. -/
def openLabelsOfEntries : List (Value × Value) → List Nat
  | [] => []
  | (_, v) :: rest => openLabels v ++ openLabelsOfEntries rest

/-- The labels that some fields refer back to. -/
def openLabelsOfFields : List (String × Value) → List Nat
  | [] => []
  | (_, v) :: rest => openLabels v ++ openLabelsOfFields rest

end

end ByteSchema.Value
