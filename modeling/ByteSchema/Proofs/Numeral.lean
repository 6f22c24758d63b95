import ByteSchema.Proofs.Grammar
import Mathlib.Data.List.Induction
import Mathlib.Data.List.TakeWhile

/-!
# ByteSchema.Proofs.Numeral

The numeral at the start of a text is one of the grammar, and as long as it can be.

Each base has its class of digits. On ASCII the classes are decided one character at a time, and
beyond it no class has a member (`digitClass_of_ascii`). Digits in a row then write the number that
they are read as (`digits_iff`), so reading and deriving a numeral differ only in where they stop:
the reader takes all digits there are, and the grammar's numeral is all of them when no sign of an
identifier comes behind it.
-/

namespace ByteSchema.Expression

open ByteSchema.Text

/-! ## Digits -/

instance (base d : Nat) (c : Char) : Decidable (IsDigit base d c) :=
  inferInstanceAs (Decidable (_ ∧ _))

/-- The digits of a base are the characters for which a test holds. -/
def DigitClass (isDigit : Char → Bool) (base : Nat) : Prop :=
  base ≤ 16 ∧ ∀ c, isDigit c = true ↔ IsDigit base (digitValue c) c

/-- What holds of each ASCII character holds of a character below 128. -/
theorem forall_ascii {P : Char → Prop} (h : ∀ n < 128, P (Char.ofNat n)) {c : Char}
    (hc : c.toNat < 128) : P c := by
  have hofNat := h c.toNat hc
  rwa [Char.ofNat_toNat] at hofNat

theorem isDigit_ascii {base d : Nat} {c : Char} (h : IsDigit base d c) : c.toNat < 128 := by
  have htable : (lowerDigits ++ upperDigits).all (fun c => c.toNat < 128) = true := by decide
  have hall : ∀ c ∈ lowerDigits ++ upperDigits, c.toNat < 128 := fun c hc =>
    of_decide_eq_true (List.all_eq_true.1 htable c hc)
  obtain ⟨-, h | h⟩ := h
  · exact hall c (List.mem_append_left _ (List.mem_of_getElem? h))
  · exact hall c (List.mem_append_right _ (List.mem_of_getElem? h))

/-- A class of digits is known by its ASCII members, if it has no others. -/
theorem digitClass_of_ascii {isDigit : Char → Bool} {base : Nat} (hbase : base ≤ 16)
    (hascii : ∀ c, isDigit c = true → c.toNat < 128)
    (h : ∀ n < 128, isDigit (Char.ofNat n) = true ↔
      IsDigit base (digitValue (Char.ofNat n)) (Char.ofNat n)) :
    DigitClass isDigit base := by
  refine ⟨hbase, fun c => ⟨fun hc => ?_, fun hc => ?_⟩⟩
  · exact (forall_ascii (P := fun c => isDigit c = true ↔ IsDigit base (digitValue c) c) h
      (hascii c hc)).1 hc
  · exact (forall_ascii (P := fun c => isDigit c = true ↔ IsDigit base (digitValue c) c) h
      (isDigit_ascii hc)).2 hc

theorem ascii_of_isHexadecimal {c : Char} (h : isHexadecimal c = true) : c.toNat < 128 := by
  simp only [isHexadecimal, isDecimal, Bool.or_eq_true, Bool.and_eq_true, decide_eq_true_eq,
    Char.le_def, UInt32.le_iff_toNat_le] at h
  change c.val.toNat < 128
  rcases h with (h | h) | h <;> exact Nat.lt_of_le_of_lt h.2 (by decide)

theorem isHexadecimal_of_isDecimal {c : Char} (h : isDecimal c = true) :
    isHexadecimal c = true := by
  simp [isHexadecimal, h]

theorem digitClass_hexadecimal : DigitClass isHexadecimal 16 :=
  digitClass_of_ascii (by decide) (fun _ => ascii_of_isHexadecimal) (by decide)

theorem digitClass_decimal : DigitClass isDecimal 10 :=
  digitClass_of_ascii (by decide)
    (fun _ h => ascii_of_isHexadecimal (isHexadecimal_of_isDecimal h)) (by decide)

theorem digitClass_octal : DigitClass isOctal 8 := by
  refine digitClass_of_ascii (by decide) (fun c h => ?_) (by decide)
  simp only [isOctal, Bool.and_eq_true, decide_eq_true_eq, Char.le_def,
    UInt32.le_iff_toNat_le] at h
  exact Nat.lt_of_le_of_lt h.2 (by decide)

theorem digitClass_binary : DigitClass isBinary 2 := by
  refine digitClass_of_ascii (by decide) (fun c h => ?_) (by decide)
  simp only [isBinary, Bool.or_eq_true, beq_iff_eq] at h
  rcases h with rfl | rfl <;> decide

/-- A character is the digit for one number only. -/
theorem digitValue_of_isDigit {base d : Nat} {c : Char} (hbase : base ≤ 16)
    (h : IsDigit base d c) : digitValue c = d := by
  have hall : ∀ d < 16, lowerDigits[d]?.map digitValue = some d ∧
      upperDigits[d]?.map digitValue = some d := by decide
  obtain ⟨hlower, hupper⟩ := hall d (Nat.lt_of_lt_of_le h.1 hbase)
  obtain ⟨-, hc | hc⟩ := h
  · simpa [hc] using hlower
  · simpa [hc] using hupper

theorem digitsValue_concat (base : Nat) (ds : List Char) (c : Char) :
    digitsValue base (ds ++ [c]) = digitsValue base ds * base + digitValue c := by
  simp [digitsValue, List.foldl_append]

/-- Digits in a row write the number that they are read as. -/
theorem digits_iff {isDigit : Char → Bool} {base : Nat} (hclass : DigitClass isDigit base)
    {ds : List Char} {n : Nat} :
    Digits base ds n ↔ ds ≠ [] ∧ (∀ c ∈ ds, isDigit c = true) ∧ n = digitsValue base ds := by
  constructor
  · intro h
    induction h with
    | one digit =>
        have hvalue := digitValue_of_isDigit hclass.1 digit
        refine ⟨List.cons_ne_nil _ _, ?_, ?_⟩
        · rw [List.forall_mem_singleton, hclass.2, hvalue]
          exact digit
        · simp [digitsValue, hvalue]
    | more _ digit ih =>
        have hvalue := digitValue_of_isDigit hclass.1 digit
        refine ⟨by simp, ?_, ?_⟩
        · rw [List.forall_mem_append, List.forall_mem_singleton, hclass.2, hvalue]
          exact ⟨ih.2.1, digit⟩
        · rw [digitsValue_concat, ← ih.2.2, hvalue]
  -- Digits are read from left to right, so the last one is split off.
  · rintro ⟨hne, hall, rfl⟩
    induction ds using List.reverseRecOn with
    | nil => exact absurd rfl hne
    | append_singleton front c ih =>
        rw [List.forall_mem_append, List.forall_mem_singleton, hclass.2] at hall
        rcases eq_or_ne front [] with rfl | hfront
        · simpa [digitsValue] using Digits.one hall.2
        · rw [digitsValue_concat]
          exact .more (ih hfront hall.1) hall.2

/-! ## The numeral at the start of a text -/

theorem continuesIdentifier_of_isHexadecimal {c : Char} (h : isHexadecimal c = true) :
    continuesIdentifier c = true :=
  forall_ascii (P := fun c => isHexadecimal c = true → continuesIdentifier c = true)
    (by decide +kernel) (ascii_of_isHexadecimal h) h

theorem isHexadecimal_of_digitClass {isDigit : Char → Bool} {base : Nat}
    (hclass : DigitClass isDigit base) {c : Char} (h : isDigit c = true) :
    isHexadecimal c = true :=
  have hdigit := (hclass.2 c).1 h
  (digitClass_hexadecimal.2 c).2 ⟨Nat.lt_of_lt_of_le hdigit.1 hclass.1, hdigit.2⟩

theorem takeWhile_append {p : Char → Bool} {front rest : List Char} (hfront : ∀ c ∈ front, p c = true)
    (hrest : ∀ c ∈ rest.head?, p c = false) : (front ++ rest).takeWhile p = front := by
  rw [List.takeWhile_append_of_pos hfront]
  cases rest with
  | nil => simp
  | cons c rest => simp [hrest c rfl]

/-- All digits are taken when no sign of an identifier comes behind them. -/
theorem takeWhile_digits {isDigit : Char → Bool} {base : Nat} (hclass : DigitClass isDigit base)
    {ds rest : List Char} (hds : ∀ c ∈ ds, isDigit c = true) (hrest : TokenEnd rest) :
    (ds ++ rest).takeWhile isDigit = ds := by
  refine takeWhile_append hds fun c hc => ?_
  rw [Bool.eq_false_iff]
  intro hdigit
  have hcontinues :=
    continuesIdentifier_of_isHexadecimal (isHexadecimal_of_digitClass hclass hdigit)
  rw [hrest c hc] at hcontinues
  cases hcontinues

theorem basedDigits?_eq_some {lower upper : Char} {isDigit : Char → Bool} {text ds : List Char}
    (h : basedDigits? lower upper isDigit text = some ds) :
    ∃ mark rest, text = '0' :: mark :: rest ∧ (mark = lower ∨ mark = upper) ∧
      rest.takeWhile isDigit = ds ∧ ds ≠ [] := by
  unfold basedDigits? at h
  split at h
  · next mark rest =>
      obtain ⟨hmark, hds⟩ := Option.ite_none_right_eq_some.1 h
      obtain rfl := Option.some.inj hds
      simp only [Bool.and_eq_true, Bool.or_eq_true, beq_iff_eq, Bool.not_eq_true',
        List.isEmpty_eq_false_iff] at hmark
      exact ⟨mark, rest, rfl, hmark.1, rfl, hmark.2⟩
  · cases h

/-- The numeral that a base mark announces, and its length. -/
theorem numeral_of_basedDigits {lower upper : Char} {isDigit : Char → Bool} {base : Nat}
    (hclass : DigitClass isDigit base) (hlower : (lower, base) ∈ baseMarks)
    (hupper : (upper, base) ∈ baseMarks) {text ds : List Char}
    (h : basedDigits? lower upper isDigit text = some ds) :
    ∃ token rest, text = token ++ rest ∧ Numeral token (digitsValue base ds) ∧
      ds.length + 2 = token.length := by
  obtain ⟨mark, rest, rfl, hmark, rfl, hne⟩ := basedDigits?_eq_some h
  have hmarked : (mark, base) ∈ baseMarks := by
    rcases hmark with rfl | rfl
    · exact hlower
    · exact hupper
  refine ⟨'0' :: mark :: rest.takeWhile isDigit, rest.dropWhile isDigit, by simp, ?_, rfl⟩
  exact .based hmarked ((digits_iff hclass).2 ⟨hne, fun c => List.mem_takeWhile_imp, rfl⟩)

/-- What is read is a numeral; if there is none, the expression has no value. A numeral may also be
longer than is read. -/
theorem numeralAt_sound (text : List Char) :
    (∃ token rest n, text = token ++ rest ∧ Numeral token n ∧
      numeralAt text = .ok (n, token.length)) ∨
    ∃ stop, numeralAt text = .error stop ∧ Stops text stop := by
  have hread {token rest : List Char} {n length : Nat}
      (h : text = token ++ rest ∧ Numeral token n ∧ length = token.length) :
      ∃ token rest m, text = token ++ rest ∧ Numeral token m ∧
        (pure (n, length) : Except Stop (Nat × Nat)) = .ok (m, token.length) :=
    ⟨token, rest, n, h.1, h.2.1, by rw [h.2.2]; rfl⟩
  -- The marks of the three bases are tried first, then decimal digits.
  unfold numeralAt
  split
  · next ds hds =>
      obtain ⟨token, rest, h⟩ :=
        numeral_of_basedDigits digitClass_hexadecimal (by decide) (by decide) hds
      exact .inl (hread h)
  split
  · next ds hds =>
      obtain ⟨token, rest, h⟩ :=
        numeral_of_basedDigits digitClass_binary (by decide) (by decide) hds
      exact .inl (hread h)
  split
  · next ds hds =>
      obtain ⟨token, rest, h⟩ :=
        numeral_of_basedDigits digitClass_octal (by decide) (by decide) hds
      exact .inl (hread h)
  dsimp only
  have hdigits : ∀ c ∈ text.takeWhile isDecimal, isDecimal c = true :=
    fun c => List.mem_takeWhile_imp
  split
  · exact .inr ⟨_, rfl, .noValue⟩
  split
  · next hlong =>
      -- Only decimal digits are limited in number.
      refine .inr ⟨_, rfl, .longNumeral fun hshort => ?_⟩
      exact Nat.not_lt.2 (hshort _ (List.takeWhile_prefix _).isInfix hdigits) hlong
  · next hne _ =>
      refine .inl ⟨_, text.dropWhile isDecimal, _, List.takeWhile_append_dropWhile.symm, ?_, rfl⟩
      exact .decimal ((digits_iff digitClass_decimal).2 ⟨by simpa using hne, hdigits, rfl⟩)

/-- A numeral without base mark is not taken for one with a mark. -/
theorem basedDigits?_decimal {lower upper : Char} {isDigit : Char → Bool} {ds rest : List Char}
    (hds : ∀ c ∈ ds, isDecimal c = true) (hne : ds ≠ []) (hrest : TokenEnd rest)
    (hlower : isDecimal lower = false ∧ continuesIdentifier lower = true)
    (hupper : isDecimal upper = false ∧ continuesIdentifier upper = true) :
    basedDigits? lower upper isDigit (ds ++ rest) = none := by
  rw [Option.eq_none_iff_forall_not_mem]
  intro found hfound
  obtain ⟨mark, after, htext, hmark, -, -⟩ := basedDigits?_eq_some hfound
  have hsign : isDecimal mark = false ∧ continuesIdentifier mark = true := by
    rcases hmark with rfl | rfl
    · exact hlower
    · exact hupper
  -- the mark is either the second digit or what comes behind the only one
  match ds, hne with
  | [_], _ =>
      obtain ⟨-, rfl⟩ := List.cons.inj htext
      exact absurd hsign.2 (by simp [hrest mark rfl])
  | _ :: c :: _, _ =>
      obtain ⟨rfl, -⟩ := List.cons.inj (List.cons.inj htext).2
      exact absurd (hds c (by simp)) (by simp [hsign.1])

/-- A numeral of the grammar is read as a whole when its token ends there. -/
theorem numeralAt_complete {ds rest : List Char} {n : Nat} (h : Numeral ds n)
    (hrest : TokenEnd rest) (hshort : NoLongRun (ds ++ rest)) :
    numeralAt (ds ++ rest) = .ok (n, ds.length) := by
  cases h with
  | decimal digits =>
      obtain ⟨hne, hall, rfl⟩ := (digits_iff digitClass_decimal).1 digits
      have hlength : ds.length ≤ maxNumeralDigits :=
        hshort ds (List.prefix_append _ _).isInfix hall
      simp only [numeralAt]
      rw [basedDigits?_decimal hall hne hrest (by decide +kernel) (by decide +kernel),
        basedDigits?_decimal hall hne hrest (by decide +kernel) (by decide +kernel),
        basedDigits?_decimal hall hne hrest (by decide +kernel) (by decide +kernel)]
      simp only [takeWhile_digits digitClass_decimal hall hrest]
      rw [if_neg (by simpa using hne), if_neg (Nat.not_lt.2 hlength)]
      rfl
  | @based mark base ds _ marked digits =>
      simp only [baseMarks, List.mem_cons, Prod.mk.injEq, List.not_mem_nil, or_false] at marked
      have hread {isDigit : Char → Bool} (hclass : DigitClass isDigit base) :
          ds ≠ [] ∧ (ds ++ rest).takeWhile isDigit = ds ∧ n = digitsValue base ds := by
        obtain ⟨hne, hall, hn⟩ := (digits_iff hclass).1 digits
        exact ⟨hne, takeWhile_digits hclass hall hrest, hn⟩
      rcases marked with ⟨rfl, rfl⟩ | ⟨rfl, rfl⟩ | ⟨rfl, rfl⟩ | ⟨rfl, rfl⟩ | ⟨rfl, rfl⟩ | ⟨rfl, rfl⟩
      · obtain ⟨hne, htake, rfl⟩ := hread digitClass_hexadecimal
        simp [numeralAt, basedDigits?, htake, hne]; rfl
      · obtain ⟨hne, htake, rfl⟩ := hread digitClass_hexadecimal
        simp [numeralAt, basedDigits?, htake, hne]; rfl
      · obtain ⟨hne, htake, rfl⟩ := hread digitClass_binary
        simp [numeralAt, basedDigits?, htake, hne]; rfl
      · obtain ⟨hne, htake, rfl⟩ := hread digitClass_binary
        simp [numeralAt, basedDigits?, htake, hne]; rfl
      · obtain ⟨hne, htake, rfl⟩ := hread digitClass_octal
        simp [numeralAt, basedDigits?, htake, hne]; rfl
      · obtain ⟨hne, htake, rfl⟩ := hread digitClass_octal
        simp [numeralAt, basedDigits?, htake, hne]; rfl

end ByteSchema.Expression
