/-!
# ByteSchema.Encoding.Piece

Reading text from bytes piece by piece. An encoding is given by a step function that looks at the
front of the remaining bytes and says which character stands there, or what is wrong, and how many
bytes that takes up. From the pieces follow both ways of decoding: the strict one, which fails at
the first fault, and the lenient one, which writes U+FFFD for each.
-/

namespace ByteSchema.Encoding

/-- What stands at the front of some bytes. -/
inductive Piece where
  /-- A character in `width` bytes. -/
  | char (c : Char) (width : Nat)
  /-- `width` bytes that are wrong, and why. -/
  | bad (reason : String) (width : Nat)
  deriving DecidableEq, Repr, Inhabited

namespace Piece

/-- How many bytes the piece takes up; never none. -/
def width : Piece → Nat
  | char _ w => max w 1
  | bad _ w => max w 1

theorem width_pos (p : Piece) : 0 < p.width := by
  cases p <;> exact Nat.lt_of_lt_of_le Nat.one_pos (Nat.le_max_right _ _)

/-- The character to show for a piece. -/
def shown : Piece → Char
  | char c _ => c
  | bad _ _ => '\uFFFD'

end Piece

/-- The pieces of some bytes. -/
def pieces (step : List UInt8 → Piece) (bytes : List UInt8) : List Piece :=
  match bytes with
  | [] => []
  | b :: rest =>
      let piece := step (b :: rest)
      piece :: pieces step ((b :: rest).drop piece.width)
termination_by bytes.length
decreasing_by
  have := Piece.width_pos (step (b :: rest))
  simp
  omega

@[simp] theorem pieces_nil (step : List UInt8 → Piece) : pieces step [] = [] := by
  simp [pieces]

theorem pieces_cons (step : List UInt8 → Piece) (b : UInt8) (rest : List UInt8) :
    pieces step (b :: rest) =
      step (b :: rest) :: pieces step ((b :: rest).drop (step (b :: rest)).width) := by
  rw [pieces]

/-- Bytes that are wrong: where they start, how many they are, and why. -/
structure TextFault where
  start : Nat
  length : Nat
  reason : String
  deriving DecidableEq, Repr

/-- The first fault among pieces that start at offset `start`. -/
def firstFault? : Nat → List Piece → Option TextFault
  | _, [] => none
  | start, .char c w :: rest => firstFault? (start + (Piece.char c w).width) rest
  | start, .bad reason w :: _ => some ⟨start, (Piece.bad reason w).width, reason⟩

/-- Decode, failing at the first fault. -/
def decodeStrict (step : List UInt8 → Piece) (bytes : List UInt8) : Except TextFault String :=
  let ps := pieces step bytes
  match firstFault? 0 ps with
  | some fault => .error fault
  | none => .ok (String.ofList (ps.map Piece.shown))

/-- Decode, writing U+FFFD for each fault. -/
def decodeLenient (step : List UInt8 → Piece) (bytes : List UInt8) : String :=
  String.ofList ((pieces step bytes).map Piece.shown)

end ByteSchema.Encoding
