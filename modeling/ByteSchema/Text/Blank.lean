import ByteSchema.Text.Interval

/-!
# ByteSchema.Text.Blank

White space of format descriptions: the code points with bidirectional class `WS`, `B` or `S`,
or with general category `Zs` (Unicode 14). Expressions skip it between tokens, and names are
stripped of it at both ends.
-/

namespace ByteSchema.Text

/-- The code points of white space. -/
def blankIntervals : List (Nat × Nat) :=
  [(9, 13), (28, 32), (133, 133), (160, 160), (5760, 5760), (8192, 8202), (8232, 8233),
   (8239, 8239), (8287, 8287), (12288, 12288)]

/-- Is `c` white space? -/
def isBlank (c : Char) : Bool := memIntervals blankIntervals c.toNat

@[simp] theorem isBlank_space : isBlank ' ' = true := by decide

/-- The text without the white space at its two ends. -/
def strip (s : String) : String :=
  String.ofList (((s.toList.dropWhile isBlank).reverse.dropWhile isBlank).reverse)

@[simp] theorem strip_empty : strip "" = "" := by decide +kernel

end ByteSchema.Text
