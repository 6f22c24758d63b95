/-!
# ByteSchema.Text.Surrogate

The signs of texts. Nearly all signs are characters. An escape in a document, an encoding or a byte
of a command line can also put a surrogate into a text: half of the UTF-16 form of a character, and
no character by itself.

A text is kept as a string. A surrogate is written in it by two characters, the last code point of
all and a stand-in, and that code point is written twice when it is meant itself, so that no two
texts are written alike (`signs_written`). Other characters stand for themselves.
-/

namespace ByteSchema.Text

/-- The character in front of the stand-in for a surrogate. -/
def mark : Char := Char.ofNat 0x10FFFF

/-- A sign of a text. -/
inductive Sign where
  | char (c : Char)
  /-- The surrogate that is `low` above the first of them. -/
  | surrogate (low : Fin 2048)
  deriving DecidableEq, Repr, Inhabited

namespace Sign

/-- The code of a sign. -/
def code : Sign → Nat
  | char c => c.toNat
  | surrogate low => 0xD800 + low

/-- The sign with a code. -/
def ofCode (code : Nat) : Sign :=
  if h : 0xD800 ≤ code ∧ code < 0xE000 then surrogate ⟨code - 0xD800, by omega⟩
  else char (Char.ofNat code)

/-- The character of a sign, unless it is a surrogate. -/
def char? : Sign → Option Char
  | char c => some c
  | surrogate _ => none

/-- What stands behind the mark for a surrogate. -/
def standIn (low : Fin 2048) : Char := Char.ofNat (0x10D800 + low)

/-- The characters that a sign is written by. -/
def written : Sign → List Char
  | char c => if c = mark then [mark, mark] else [c]
  | surrogate low => [mark, standIn low]

end Sign

/-- The surrogate that a character stands for behind the mark. -/
def low? (c : Char) : Option (Fin 2048) :=
  if h : 0x10D800 ≤ c.toNat ∧ c.toNat < 0x10E000 then some ⟨c.toNat - 0x10D800, by omega⟩ else none

/-- The signs that characters write. A mark that nothing fitting follows stands for itself. -/
def signs : List Char → List Sign
  | [] => []
  | [c] => [.char c]
  | c :: d :: rest =>
      if c = mark then
        match low? d with
        | some low => .surrogate low :: signs rest
        | none => if d = mark then .char mark :: signs rest else .char mark :: signs (d :: rest)
      else .char c :: signs (d :: rest)

/-- The text of some signs. -/
def ofSigns (ss : List Sign) : String := String.ofList (ss.flatMap Sign.written)

/-- The text of some characters. -/
def ofChars (cs : List Char) : String := ofSigns (cs.map Sign.char)

/-- The first part of a text that does not fit: the signs in front of it, and its own. -/
def firstUnfit? (fits : Sign → Bool) (ss : List Sign) : Option (List Sign × List Sign) :=
  match ss.dropWhile fits with
  | [] => none
  | rest => some (ss.takeWhile fits, rest.takeWhile fun s => !fits s)

/-! ## Reading signs back -/

theorem low?_standIn : ∀ low : Fin 2048, low? (Sign.standIn low) = some low := by
  intro low
  have hvalid : (0x10D800 + low.val).isValidChar := .inr ⟨by omega, by omega⟩
  have hcode : (Sign.standIn low).toNat = 0x10D800 + low.val := by
    rw [Sign.standIn, Char.ofNat, dif_pos hvalid]
    rfl
  unfold low?
  rw [dif_pos (by omega)]
  exact congrArg some (Fin.ext (by simp [hcode]))

@[simp] theorem low?_mark : low? mark = none := by decide

/-- All characters are ASCII. -/
def IsAscii (s : String) : Prop := ∀ c ∈ s.toList, c.toNat < 128

instance (s : String) : Decidable (IsAscii s) :=
  decidable_of_iff (s.toList.all fun c => c.toNat < 128) (by simp [IsAscii])

theorem signs_cons_of_ne {c : Char} (hc : c ≠ mark) (rest : List Char) :
    signs (c :: rest) = .char c :: signs rest := by
  cases rest with
  | nil => rfl
  | cons d more => rw [signs, if_neg hc]

/-- No two texts are written alike. -/
theorem signs_written (ss : List Sign) : signs (ss.flatMap Sign.written) = ss := by
  induction ss with
  | nil => rfl
  | cons s rest ih =>
    rw [List.flatMap_cons]
    cases s with
    | surrogate low => simp [Sign.written, signs, low?_standIn, ih]
    | char c =>
      by_cases hc : c = mark
      · simp [Sign.written, hc, signs, ih]
      · rw [Sign.written, if_neg hc, List.singleton_append, signs_cons_of_ne hc, ih]

/-- Without marks there are characters only. -/
theorem signs_eq_map {cs : List Char} (h : mark ∉ cs) : signs cs = cs.map .char := by
  induction cs with
  | nil => rfl
  | cons c rest ih =>
    rw [List.mem_cons, not_or] at h
    rw [signs_cons_of_ne (Ne.symm h.1), ih h.2, List.map_cons]

theorem signs_of_isAscii {s : String} (h : IsAscii s) : signs s.toList = s.toList.map .char :=
  signs_eq_map fun hmark => absurd (h mark hmark) (by decide)

end ByteSchema.Text
