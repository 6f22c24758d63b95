import ByteSchema.Proofs.IntegerBytes
import ByteSchema.Value.Basic

/-!
# ByteSchema.Proofs.Layout

Layouts whose parts have fixed sizes, and the format that they stand for.

A layout is written field by field (`Layout.encode?`) and read from the front of some bytes
(`Layout.read?`). Neither knows of schemas: together they say what it means to decode a buffer of such
a layout. Every value that fits can be written (`Layout.exists_encode?`), and what was written is read
back (`Layout.read?_of_encode?`).
-/

namespace ByteSchema

/-- The layout of a value. -/
inductive Layout where
  | integer (width : Nat) (signed : Bool) (endian : Endian)
  | bytes (size : Nat)
  | array (count : Nat) (element : Layout)
  /-- Named fields, one behind the other. -/
  | record (fields : List (String × Layout))
  deriving Inhabited

/-- The first `count` bytes, and the bytes that are left. -/
def chop? (count : Nat) (bs : List UInt8) : Option (List UInt8 × List UInt8) :=
  if count ≤ bs.length then some (bs.take count, bs.drop count) else none

@[simp] theorem chop?_append (front rest : List UInt8) :
    chop? front.length (front ++ rest) = some (front, rest) := by
  simp [chop?]

/-- What is cut off stands in front of what is left. -/
theorem chop?_eq_some {count : Nat} {bs front left : List UInt8}
    (h : chop? count bs = some (front, left)) : front.length = count ∧ bs = front ++ left := by
  unfold chop? at h
  split at h
  case isFalse => cases h
  case isTrue hle =>
      cases h
      exact ⟨List.length_take_of_le hle, (List.take_append_drop count bs).symm⟩

theorem chop?_eq_none_iff {count : Nat} {bs : List UInt8} :
    chop? count bs = none ↔ bs.length < count := by
  simp [chop?]

/-- The encodings of some values one behind the other. -/
def encodeItems? (encode : Value → Option (List UInt8)) : List Value → Option (List UInt8)
  | [] => some []
  | v :: rest => do return (← encode v) ++ (← encodeItems? encode rest)

/-- Read some values one behind the other; with the bytes that are left. -/
def readItems? (read : List UInt8 → Option (Value × List UInt8)) :
    Nat → List UInt8 → Option (List Value × List UInt8)
  | 0, bytes => some ([], bytes)
  | count + 1, bytes => do
    let (v, left) ← read bytes
    (readItems? read count left).map fun (items, left) => (v :: items, left)

namespace Layout

mutual

/-- The lengths of all parts, in order. -/
def lengths : Layout → List Nat
  | integer width _ _ => [width]
  | bytes size => [size]
  | array count element => (List.replicate count element.lengths).flatten
  | record fields => lengthsAll fields

/-- The lengths of all parts of some fields, in order. -/
def lengthsAll : List (String × Layout) → List Nat
  | [] => []
  | (_, l) :: rest => l.lengths ++ lengthsAll rest

end

/-- How many bytes a value of the layout has. -/
def size (l : Layout) : Nat := l.lengths.sum

mutual

/-- Is it a value of the layout? -/
def Fits : Layout → Value → Prop
  | integer width signed _, .int z => InRange signed width z
  | bytes size, .bytes bs => bs.length = size
  | array count element, .tuple items => items.length = count ∧ ∀ v ∈ items, element.Fits v
  | record fields, .record values => FitsAll fields values
  | _, _ => False

/-- Are these the values of the fields, in order? -/
def FitsAll : List (String × Layout) → Fields → Prop
  | [], [] => True
  | (name, l) :: rest, (id, v) :: values => name = id ∧ l.Fits v ∧ FitsAll rest values
  | _, _ => False

end

mutual

/-- The bytes of a value, if it fits the layout. -/
def encode? : Layout → Value → Option (List UInt8)
  | integer width signed endian, .int z => bytesOfInteger? endian signed width z
  | bytes size, .bytes bs => if bs.length = size then some bs else none
  | array count element, .tuple items =>
      if items.length = count then encodeItems? element.encode? items else none
  | record fields, .record values => encodeAll? fields values
  | _, _ => none

/-- The bytes of named values, if they fit the fields. -/
def encodeAll? : List (String × Layout) → Fields → Option (List UInt8)
  | [], [] => some []
  | (name, l) :: rest, (id, v) :: values =>
      if name = id then do return (← l.encode? v) ++ (← encodeAll? rest values) else none
  | _, _ => none

end

mutual

/-- Read a value from the front of some bytes; with the bytes that are left. -/
def read? : Layout → List UInt8 → Option (Value × List UInt8)
  | integer width signed endian, bs =>
      (chop? width bs).map fun (front, left) => (.int (integerOfBytes endian signed front), left)
  | bytes size, bs => (chop? size bs).map fun (front, left) => (.bytes front, left)
  | array count element, bs =>
      (readItems? element.read? count bs).map fun (items, left) => (.tuple items, left)
  | record fields, bs => (readAll? fields bs).map fun (values, left) => (.record values, left)

/-- Read fields from the front of some bytes; with the bytes that are left. -/
def readAll? : List (String × Layout) → List UInt8 → Option (Fields × List UInt8)
  | [], bs => some ([], bs)
  | (name, l) :: rest, bs => do
    let (v, left) ← l.read? bs
    (readAll? rest left).map fun (values, left) => ((name, v) :: values, left)

end

/-! ## Elements -/

section

variable {element : Layout} {count : Nat} {items : List Value} {bs left rest : List UInt8}

theorem readItems?_succ {read : List UInt8 → Option (Value × List UInt8)}
    (h : readItems? read (count + 1) bs = some (items, rest)) :
    ∃ v left more, read bs = some (v, left) ∧ readItems? read count left = some (more, rest) ∧
      items = v :: more := by
  obtain ⟨⟨v, left⟩, hread, h⟩ := Option.bind_eq_some_iff.1 h
  obtain ⟨⟨more, _⟩, hmore, h⟩ := Option.map_eq_some_iff.1 h
  cases h
  exact ⟨v, left, more, hread, hmore, rfl⟩

theorem exists_encodeItems? (helement : ∀ v ∈ items, ∃ bs, element.encode? v = some bs) :
    ∃ bs, encodeItems? element.encode? items = some bs := by
  induction items with
  | nil => exact ⟨[], rfl⟩
  | cons v items ih =>
      obtain ⟨⟨first, hfirst⟩, hitems⟩ := List.forall_mem_cons.1 helement
      obtain ⟨more, hmore⟩ := ih hitems
      exact ⟨first ++ more, by simp [encodeItems?, hfirst, hmore]⟩

theorem readItems?_of_encodeItems?
    (helement : ∀ {v bs} rest, element.encode? v = some bs →
      element.read? (bs ++ rest) = some (v, rest))
    (h : encodeItems? element.encode? items = some bs) :
    readItems? element.read? items.length (bs ++ rest) = some (items, rest) := by
  induction items generalizing bs with
  | nil =>
      cases h
      rfl
  | cons v items ih =>
      obtain ⟨first, hfirst, h⟩ := Option.bind_eq_some_iff.1 h
      obtain ⟨more, hmore, h⟩ := Option.bind_eq_some_iff.1 h
      cases h
      simp only [List.length_cons, readItems?, List.append_assoc, helement _ hfirst, ih hmore,
        Option.bind_eq_bind, Option.bind_some]
      rfl

theorem length_of_readItems?
    (helement : ∀ {bs v left}, element.read? bs = some (v, left) →
      bs.length = element.size + left.length)
    (h : readItems? element.read? count bs = some (items, rest)) :
    bs.length = (List.replicate count element.lengths).flatten.sum + rest.length := by
  induction count generalizing bs items with
  | zero =>
      cases h
      exact (Nat.zero_add _).symm
  | succ count ih =>
      obtain ⟨v, left, more, hread, hmore, -⟩ := readItems?_succ h
      -- What is left behind the first element is what the others start from.
      rw [helement hread, ih hmore, List.replicate_succ, List.flatten_cons, List.sum_append, size,
        Nat.add_assoc]

end

/-! ## Layouts -/

mutual

/-- Every value of the layout can be written. -/
theorem exists_encode? : ∀ (l : Layout) {v : Value}, l.Fits v → ∃ bs, l.encode? v = some bs
  | integer width signed endian, .int z, h => ⟨_, if_pos h⟩
  | bytes size, .bytes bs, h => ⟨bs, if_pos h⟩
  | array count element, .tuple items, ⟨hcount, hitems⟩ => by
      obtain ⟨bs, hbs⟩ := exists_encodeItems? fun v hv => element.exists_encode? (hitems v hv)
      exact ⟨bs, (if_pos hcount).trans hbs⟩
  | record fields, .record values, h => exists_encodeAll? fields h

theorem exists_encodeAll? : ∀ (fields : List (String × Layout)) {values : Fields},
    FitsAll fields values → ∃ bs, encodeAll? fields values = some bs
  | [], [], _ => ⟨[], rfl⟩
  | (name, l) :: fields, (id, v) :: values, ⟨hname, hv, hvalues⟩ => by
      obtain ⟨first, hfirst⟩ := l.exists_encode? hv
      obtain ⟨more, hmore⟩ := exists_encodeAll? fields hvalues
      exact ⟨first ++ more, by simp [encodeAll?, hname, hfirst, hmore]⟩

end

theorem readAll?_cons {name : String} {l : Layout} {fields : List (String × Layout)}
    {values : Fields} {bs rest : List UInt8}
    (h : readAll? ((name, l) :: fields) bs = some (values, rest)) :
    ∃ v left more, l.read? bs = some (v, left) ∧ readAll? fields left = some (more, rest) ∧
      values = (name, v) :: more := by
  rw [readAll?] at h
  obtain ⟨⟨v, left⟩, hread, h⟩ := Option.bind_eq_some_iff.1 h
  obtain ⟨⟨more, _⟩, hmore, h⟩ := Option.map_eq_some_iff.1 h
  cases h
  exact ⟨v, left, more, hread, hmore, rfl⟩

mutual

/-- What was written is read back, whatever stands behind. -/
theorem read?_of_encode? : ∀ (l : Layout) {v : Value} {bs : List UInt8} (rest : List UInt8),
    l.encode? v = some bs → l.read? (bs ++ rest) = some (v, rest)
  | integer width signed endian, .int z, bs, rest, h => by
      -- A written integer is as long as the layout says, so all of it is chopped off.
      obtain ⟨rfl, rfl⟩ := integerOfBytes_bytesOfInteger? h
      simp [read?]
  | bytes size, .bytes written, bs, rest, h => by
      rw [encode?] at h
      split at h
      case isFalse => cases h
      case isTrue hsize =>
          obtain rfl := Option.some.inj h
          rw [read?, ← hsize, chop?_append]
          rfl
  | array count element, .tuple items, bs, rest, h => by
      rw [encode?] at h
      split at h
      case isFalse => cases h
      case isTrue hcount =>
          rw [read?, ← hcount, readItems?_of_encodeItems? (element.read?_of_encode?) h]
          rfl
  | record fields, .record values, bs, rest, h => by
      rw [read?, readAll?_of_encodeAll? fields rest h]
      rfl

theorem readAll?_of_encodeAll? : ∀ (fields : List (String × Layout)) {values : Fields}
    {bs : List UInt8} (rest : List UInt8), encodeAll? fields values = some bs →
      readAll? fields (bs ++ rest) = some (values, rest)
  | [], [], _, _, rfl => rfl
  | (name, l) :: fields, (id, v) :: values, bs, rest, h => by
      rw [encodeAll?] at h
      split at h
      case isFalse => cases h
      case isTrue hname =>
          obtain ⟨first, hfirst, h⟩ := Option.bind_eq_some_iff.1 h
          obtain ⟨more, hmore, h⟩ := Option.bind_eq_some_iff.1 h
          cases h
          simp only [readAll?, List.append_assoc, l.read?_of_encode? _ hfirst,
            readAll?_of_encodeAll? fields rest hmore, Option.bind_eq_bind, Option.bind_some, hname]
          rfl

end

mutual

/-- What is read and what is left are all the bytes. -/
theorem length_of_read? : ∀ (l : Layout) {bs : List UInt8} {v : Value} {left : List UInt8},
    l.read? bs = some (v, left) → bs.length = l.size + left.length
  | integer width signed endian, bs, v, left, h => by
      obtain ⟨⟨front, _⟩, hfront, h⟩ := Option.map_eq_some_iff.1 h
      cases h
      obtain ⟨rfl, rfl⟩ := chop?_eq_some hfront
      simp [size, lengths]
  | bytes n, bs, v, left, h => by
      obtain ⟨⟨front, _⟩, hfront, h⟩ := Option.map_eq_some_iff.1 h
      cases h
      obtain ⟨rfl, rfl⟩ := chop?_eq_some hfront
      simp [size, lengths]
  | array count element, bs, v, left, h => by
      rw [read?] at h
      obtain ⟨⟨items, _⟩, hitems, h⟩ := Option.map_eq_some_iff.1 h
      cases h
      rw [size, lengths]
      exact length_of_readItems? element.length_of_read? hitems
  | record fields, bs, v, left, h => by
      rw [read?] at h
      obtain ⟨⟨values, _⟩, hvalues, h⟩ := Option.map_eq_some_iff.1 h
      cases h
      rw [size, lengths]
      exact length_of_readAll? fields hvalues

/-- Reading takes as many bytes as the lengths of the fields say. -/
theorem length_of_readAll? : ∀ (fields : List (String × Layout)) {bs : List UInt8}
    {values : Fields} {left : List UInt8}, readAll? fields bs = some (values, left) →
      bs.length = (lengthsAll fields).sum + left.length
  | [], _, _, _, rfl => (Nat.zero_add _).symm
  | (name, l) :: fields, bs, values, left, h => by
      obtain ⟨v, middle, more, hread, hmore, -⟩ := readAll?_cons h
      rw [l.length_of_read? hread, length_of_readAll? fields hmore, lengthsAll, List.sum_append,
        size, Nat.add_assoc]

end

/-- All encodings of a layout have its size. -/
theorem length_of_encode? {l : Layout} {v : Value} {bs : List UInt8} (h : l.encode? v = some bs) :
    bs.length = l.size := by
  simpa using l.length_of_read? (l.read?_of_encode? [] h)

end Layout

end ByteSchema
