/-!
# ByteSchema.Text.Interval

Sets of code points given as lists of closed intervals. The character classes of the library
(`isBlank`, `isLetter`, `isDigitSign`, `isWordSign`, `isPrintable`) are built from tables of this
form.
-/

namespace ByteSchema.Text

/-- Does the code point `n` lie in one of the closed intervals of `table`? -/
def memIntervals (table : List (Nat × Nat)) (n : Nat) : Bool :=
  table.any fun interval => interval.1 ≤ n && n ≤ interval.2

@[simp] theorem memIntervals_nil (n : Nat) : memIntervals [] n = false := rfl

theorem memIntervals_iff {table : List (Nat × Nat)} {n : Nat} :
    memIntervals table n = true ↔ ∃ interval ∈ table, interval.1 ≤ n ∧ n ≤ interval.2 := by
  simp [memIntervals]

end ByteSchema.Text
