import ByteSchema.Expression.Reader

/-!
# ByteSchema.Proofs.Sign

The classes of characters that the expression language tells apart.

White space, signs of identifiers and signs of operators have nothing in common, and no letter is a
digit. For the classes that are tables of code points this is decided on the tables (`areApart`).
-/

namespace ByteSchema

open Expression Text

/-- A name as the expression language reads it. -/
def IsIdentifier (x : String) : Prop :=
  ∃ c rest, x.toList = c :: rest ∧ startsIdentifier c = true ∧
    ∀ d ∈ c :: rest, continuesIdentifier d = true

/-- The code points of the signs that identifiers go on with. -/
def signIntervals : List (Nat × Nat) :=
  letterIntervals ++ decimalIntervals ++ otherDigitIntervals ++ otherNumeralIntervals ++
    [(36, 36), (46, 46), (95, 95)]

/-- Letters, digits and the three other signs are all that an identifier goes on with. -/
theorem mem_signIntervals {c : Char} (h : continuesIdentifier c = true) :
    memIntervals signIntervals c.toNat = true := by
  simp only [continuesIdentifier, isWordSign, isLetter, isDigitSign, Bool.or_eq_true,
    beq_iff_eq] at h
  simp only [signIntervals, memIntervals, List.any_append, Bool.or_eq_true] at h ⊢
  rcases h with ((((h | h | h) | h) | rfl) | rfl) | rfl
  · exact .inl (.inl (.inl (.inl h)))
  · exact .inl (.inl (.inl (.inr h)))
  · exact .inl (.inl (.inr h))
  · exact .inl (.inr h)
  · exact .inr rfl
  · exact .inr rfl
  · exact .inr rfl

/-- No interval of the first table meets one of the second. -/
def areApart (first second : List (Nat × Nat)) : Bool :=
  first.all fun a => second.all fun b => Nat.blt a.2 b.1 || Nat.blt b.2 a.1

/-- A code point of one table would have to lie in an interval of each. -/
theorem memIntervals_of_areApart {first second : List (Nat × Nat)} {n : Nat}
    (h : areApart first second = true) (hn : memIntervals second n = true) :
    memIntervals first n = false := by
  rw [Bool.eq_false_iff]
  intro hfirst
  obtain ⟨a, ha, halow, hahigh⟩ := memIntervals_iff.1 hfirst
  obtain ⟨b, hb, hblow, hbhigh⟩ := memIntervals_iff.1 hn
  have hab := List.all_eq_true.1 (List.all_eq_true.1 h a ha) b hb
  rw [Bool.or_eq_true, Nat.blt_eq, Nat.blt_eq] at hab
  omega

/-- No sign of an identifier is white space. -/
theorem isBlank_of_continuesIdentifier {c : Char} (h : continuesIdentifier c = true) :
    isBlank c = false :=
  memIntervals_of_areApart (by decide +kernel) (mem_signIntervals h)

/-- No identifier starts like a numeral. -/
theorem isDigitSign_of_startsIdentifier {c : Char} (h : startsIdentifier c = true) :
    isDigitSign c = false := by
  simp only [startsIdentifier, Bool.or_eq_true, beq_iff_eq] at h
  rcases h with (h | rfl) | rfl
  · simp only [isDigitSign, Bool.or_eq_false_iff]
    exact ⟨memIntervals_of_areApart (by decide +kernel) h,
      memIntervals_of_areApart (by decide +kernel) h⟩
  · decide +kernel
  · decide +kernel

theorem continuesIdentifier_of_startsIdentifier {c : Char} (h : startsIdentifier c = true) :
    continuesIdentifier c = true := by
  simp only [startsIdentifier, Bool.or_eq_true] at h
  rcases h with (h | h) | h <;> simp [continuesIdentifier, isWordSign, h]

/-! ## Signs of operators -/

/-- The signs of operators and brackets. -/
def operatorSigns : List Char := ['(', ')', '+', '-', '*', '/', '=', '!', '<', '>']

theorem isBlank_of_mem_operatorSigns {c : Char} (h : c ∈ operatorSigns) : isBlank c = false := by
  have hall : operatorSigns.all (! isBlank ·) = true := by decide +kernel
  exact Bool.not_eq_true' _ ▸ List.all_eq_true.1 hall c h

theorem continuesIdentifier_of_mem_operatorSigns {c : Char} (h : c ∈ operatorSigns) :
    continuesIdentifier c = false := by
  have hall : operatorSigns.all (! continuesIdentifier ·) = true := by decide +kernel
  exact Bool.not_eq_true' _ ▸ List.all_eq_true.1 hall c h

theorem not_mem_operatorSigns {c : Char} (h : continuesIdentifier c = true) :
    c ∉ operatorSigns := by
  intro hc
  rw [continuesIdentifier_of_mem_operatorSigns hc] at h
  cases h

end ByteSchema
