import ByteSchema.Value.Basic

/-!
# ByteSchema.Value.Equal

Equality of values. Numbers are equal by value, a truth value counting as 0 or 1, and mappings
without regard to the order of their entries. Moments are equal when they are the same instant. A
NaN differs from itself, but within collections it is taken to be that of the other.
-/

namespace ByteSchema.Value

/-- A value as a number, truth values included. -/
def asNumber? : Value → Option Number
  | bool b => some (.flag b)
  | v => v.number?

/-- Are both values NaN? -/
def areNan : Value → Value → Bool
  | float x, float y => x != x && y != y
  | _, _ => false

mutual

/-- Are two values equal? -/
def equal : Value → Value → Bool
  | null, null => true
  | str s, str t => s == t
  | bytes bs, bytes cs => bs == cs
  | list vs, list ws => equalItems vs ws
  | tuple vs, tuple ws => equalItems vs ws
  | set vs, set ws => vs.length == ws.length && equalElements vs ws
  | map es, map fs => es.length == fs.length && equalEntries es fs
  | date d, date e => d == e
  | moment m, moment n => m.isSame n
  | endian e, endian f => e == f
  | v, w =>
      match asNumber? v, asNumber? w with
      | some a, some b => a.equal b
      | _, _ => false

/-- Are the items of two lists pairwise equal? -/
def equalItems : List Value → List Value → Bool
  | [], [] => true
  | v :: vs, w :: ws => (equal v w || areNan v w) && equalItems vs ws
  | _, _ => false

/-- Does a set hold all elements of another? -/
def equalElements : List Value → List Value → Bool
  | [], _ => true
  | v :: rest, ws => (ws.any fun w => equal v w || areNan v w) && equalElements rest ws

/-- Does a mapping hold all entries of another? -/
def equalEntries : List (Value × Value) → List (Value × Value) → Bool
  | [], _ => true
  | (k, v) :: rest, fs =>
      (fs.any fun entry => equal k entry.1 && (equal v entry.2 || areNan v entry.2)) &&
        equalEntries rest fs

end

/-- Are two items of collections taken to be equal? -/
def isSame (v w : Value) : Bool := equal v w || areNan v w

/-- Put an entry into a mapping: in place of the value of an equal key, or at the end. -/
def putEntry (key value : Value) : List (Value × Value) → List (Value × Value)
  | [] => [(key, value)]
  | (k, v) :: rest =>
      if equal k key then (k, value) :: rest else (k, v) :: putEntry key value rest

/-- The mapping with the given entries, each key once. -/
def ofEntries (entries : List (Value × Value)) : Value :=
  map (entries.foldl (fun done entry => putEntry entry.1 entry.2 done) [])

end ByteSchema.Value
