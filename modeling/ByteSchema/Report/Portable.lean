import ByteSchema.Fault
import ByteSchema.Value.Cycle

/-!
# ByteSchema.Report.Portable

Values as reports for other programs hold them: a byte string is the list of its bytes, a tuple is a
list, and every mapping is a record, whose keys are the plain texts of the mapping's keys. Where two
keys have the same text the last value stays, in the place of the first. A collection that holds
itself has no such form: it would be infinite.
-/

namespace ByteSchema

namespace Value

mutual

/-- The portable form of a value. What a collection holds of itself is left out. -/
def portable : Value → Value
  | bytes bs => list (bs.map fun b => int b.toNat)
  | list vs => list (portableItems vs)
  | tuple vs => list (portableItems vs)
  | map es => record (portableEntries es [])
  | record fs => record (portableFields fs [])
  | cycle _ v => portable v
  | back _ _ => null
  | v => v

/-- The portable forms of some items. -/
def portableItems : List Value → List Value
  | [] => []
  | v :: rest => portable v :: portableItems rest

/-- The portable forms of a mapping's entries, put behind those in `done`. -/
def portableEntries : List (Value × Value) → Fields → Fields
  | [], done => done
  | (k, v) :: rest, done => portableEntries rest (Fields.put done k.text (portable v))

/-- The portable forms of a record's fields, put behind those in `done`. -/
def portableFields : List (String × Value) → Fields → Fields
  | [], done => done
  | (k, v) :: rest, done => portableFields rest (Fields.put done k (portable v))

end

theorem portableItems_eq_map (vs : List Value) : portableItems vs = vs.map portable := by
  induction vs with
  | nil => rfl
  | cons v rest ih => simp [portableItems, ih]

@[simp] theorem portable_bytes (bs : List UInt8) :
    portable (bytes bs) = list (bs.map fun b => int b.toNat) := by
  simp [portable]

@[simp] theorem portable_list (vs : List Value) : portable (list vs) = list (vs.map portable) := by
  simp [portable, portableItems_eq_map]

@[simp] theorem portable_tuple (vs : List Value) :
    portable (tuple vs) = list (vs.map portable) := by
  simp [portable, portableItems_eq_map]

mutual

/-- What is met first in a value that keeps it from having a portable form: a collection inside
itself, which has no end, or a key whose text needs the digits of an overlong integer. -/
def obstacle : Value → Option Escape
  | list vs => obstacleInItems vs
  | tuple vs => obstacleInItems vs
  | map es => obstacleInEntries es
  | record fs => obstacleInFields fs
  | cycle _ v => obstacle v
  | back _ _ => some .endless
  | _ => none

/-- What is met first in some items. -/
def obstacleInItems : List Value → Option Escape
  | [] => none
  | v :: rest => (obstacle v).or (obstacleInItems rest)

/-- What is met first in some entries; the key of an entry comes before its value. -/
def obstacleInEntries : List (Value × Value) → Option Escape
  | [] => none
  | (k, v) :: rest =>
      ((if k.hasOverlong then some .longInteger else none).or (obstacle v)).or
        (obstacleInEntries rest)

/-- What is met first in some fields. -/
def obstacleInFields : List (String × Value) → Option Escape
  | [] => none
  | (_, v) :: rest => (obstacle v).or (obstacleInFields rest)

end

/-- The portable form of a value, if it has one. -/
def portable? (v : Value) : Except Escape Value :=
  match v.obstacle with
  | some e => .error e
  | none => .ok v.portable

end Value

end ByteSchema
