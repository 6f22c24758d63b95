import ByteSchema.Fault

/-!
# ByteSchema.Decode.Raw

Reading raw bytes and numbers from a buffer. Every read is checked against the buffer first: the
offset is not negative, the length is not negative, and the end is not past the end of the buffer.
-/

namespace ByteSchema

/-- The bytes to decode. -/
abbrev Buffer := List UInt8

namespace Buffer

/-- The cause against reading `length` bytes at `offset`, if there is one. -/
def boundsFault? (b : Buffer) (offset length : Int) : Option Cause :=
  if offset < 0 then some (.negativeOffset offset)
  else if length < 0 then some (.negativeSize length offset)
  else if (b.length : Int) < offset + length then
    some (.pastEnd offset length (max 0 (b.length - offset)))
  else none

theorem boundsFault?_eq_none_iff {b : Buffer} {offset length : Int} :
    b.boundsFault? offset length = none ↔
      0 ≤ offset ∧ 0 ≤ length ∧ offset + length ≤ (b.length : Int) := by
  unfold boundsFault?
  split
  · simp; omega
  · split
    · simp; omega
    · split
      · simp; omega
      · simp; omega

/-- The bytes from `offset` on, `length` of them. -/
def slice (b : Buffer) (offset length : Nat) : List UInt8 := (b.drop offset).take length

theorem length_slice {b : Buffer} {offset length : Nat} (h : offset + length ≤ b.length) :
    (b.slice offset length).length = length := by
  simp [slice]
  omega

/-- Read `length` bytes at `offset`. -/
def read (b : Buffer) (offset length : Int) : Except Cause (List UInt8) :=
  match b.boundsFault? offset length with
  | some cause => .error cause
  | none => .ok (b.slice offset.toNat length.toNat)

theorem read_eq_ok_iff {b : Buffer} {offset length : Int} {bytes : List UInt8} :
    b.read offset length = .ok bytes ↔
      (0 ≤ offset ∧ 0 ≤ length ∧ offset + length ≤ (b.length : Int)) ∧
        bytes = b.slice offset.toNat length.toNat := by
  unfold read
  rw [← boundsFault?_eq_none_iff]
  cases h : b.boundsFault? offset length <;> simp [eq_comm]

/-- The bytes up to the first terminator, which is kept only when `keep` holds; all of them when
there is no terminator. -/
def cutAt (terminator : UInt8) (keep : Bool) (bytes : List UInt8) : List UInt8 :=
  let front := bytes.takeWhile (· != terminator)
  if keep && front.length < bytes.length then front ++ [terminator] else front

/-- Read `size` bytes, cut at a terminator if there is one; with the number of bytes consumed. -/
def readSized (b : Buffer) (offset size : Int) (terminator : Option UInt8) (keep : Bool) :
    Except Cause (List UInt8 × Int) := do
  let bytes ← b.read offset size
  match terminator with
  | none => return (bytes, size)
  | some t => return (cutAt t keep bytes, size)

/-- Read all bytes from `offset` on; with the number of bytes consumed. -/
def readRest (b : Buffer) (offset : Int) : Except Cause (List UInt8 × Int) := do
  let _ ← b.read offset 0
  return (b.drop offset.toNat, max 0 (b.length - offset))

/-- Read up to the first terminator; with the number of bytes consumed, which counts the terminator
when `skip` holds. -/
def readTerminated (b : Buffer) (offset : Int) (terminator : UInt8) (keep skip : Bool) :
    Except Cause (List UInt8 × Int) := do
  let _ ← b.read offset 0
  let rest := b.drop offset.toNat
  let front := rest.takeWhile (· != terminator)
  if front.length < rest.length then
    return (if keep then front ++ [terminator] else front, front.length + if skip then 1 else 0)
  else .error (.terminatorMissing terminator offset)

end Buffer

/-- The bytes with the most significant one first. -/
def Endian.bigFirst : Endian → List UInt8 → List UInt8
  | .big, bytes => bytes
  | .little, bytes => bytes.reverse

/-- The number that bytes write, the most significant one first. -/
def natOfBytes (bytes : List UInt8) : Nat := bytes.foldl (fun n b => n * 256 + b.toNat) 0

/-- The integer in some bytes; a signed one is in two's complement. -/
def integerOfBytes (endian : Endian) (signed : Bool) (bytes : List UInt8) : Int :=
  let n := natOfBytes (endian.bigFirst bytes)
  let span := Nat.pow 2 (8 * bytes.length)
  if signed && span ≤ 2 * n then (n : Int) - span else n

/-- The double in four or eight bytes. -/
def floatOfBytes (endian : Endian) (bytes : List UInt8) : Float :=
  let n := natOfBytes (endian.bigFirst bytes)
  if bytes.length = 4 then (Float32.ofBits (UInt32.ofNat n)).toFloat
  else Float.ofBits (UInt64.ofNat n)

end ByteSchema
