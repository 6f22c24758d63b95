import ByteSchema.Fault

/-!
# ByteSchema.Encoding.Repertoire

Which texts an encoding can write. A text that has to leave the program as bytes, and be it only to
name something, is checked first; the first part that cannot be written is at fault.
-/

namespace ByteSchema

open Text

/-- The signs that an encoding can write, and what it says of others. -/
structure Repertoire where
  encoding : String
  holds : Sign → Bool
  reason : String

namespace Repertoire

/-- Why the encoding cannot write a text, if it cannot. -/
def refusal? (r : Repertoire) (text : String) : Option Escape :=
  (firstUnfit? r.holds (signs text.toList)).map fun (front, part) =>
    .unwritten r.encoding front.length part r.reason

theorem dropWhile_eq_nil_iff {fits : Sign → Bool} {ss : List Sign} :
    ss.dropWhile fits = [] ↔ ∀ s ∈ ss, fits s = true := by
  induction ss with
  | nil => simp
  | cons s rest ih =>
    cases hs : fits s with
    | true => rw [List.dropWhile_cons_of_pos hs, ih, List.forall_mem_cons, and_iff_right hs]
    | false => simp [hs]

theorem refusal?_eq_none_iff {r : Repertoire} {text : String} :
    r.refusal? text = none ↔ ∀ s ∈ signs text.toList, r.holds s = true := by
  rw [refusal?, Option.map_eq_none_iff, firstUnfit?, ← dropWhile_eq_nil_iff]
  cases (signs text.toList).dropWhile r.holds <;> simp

/-- UTF-8 writes all characters. -/
def utf8 : Repertoire where
  encoding := "utf-8"
  holds s := s.char?.isSome
  reason := "surrogates not allowed"

theorem utf8_refusal?_of_isAscii {text : String} (h : IsAscii text) : utf8.refusal? text = none := by
  refine refusal?_eq_none_iff.2 fun s hs => ?_
  rw [signs_of_isAscii h] at hs
  obtain ⟨c, -, rfl⟩ := List.mem_map.1 hs
  rfl

/-- ASCII writes the first 128 characters. -/
def ascii : Repertoire where
  encoding := "ascii"
  holds s := decide (s.code < 128)
  reason := "ordinal not in range(128)"

/-- The form of UTF-8 in which paths are written: a surrogate of the upper half stands there for a
byte that is no UTF-8. -/
def path : Repertoire where
  encoding := "utf-8"
  holds s := s.char?.isSome || (0xDC80 ≤ s.code && s.code ≤ 0xDCFF)
  reason := "surrogates not allowed"

end Repertoire

end ByteSchema
