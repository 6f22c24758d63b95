import ByteSchema.CommandLine.Payload
import Mathlib.Data.List.TakeWhile

/-!
# ByteSchema.Proofs.Payload

A payload may be written in many ways, and all of them are read as the bytes that are written.

What does not count is taken out of the whole text before its digits are paired: first the blanks,
then the marks, last the commas. The mark `0x` starts with a digit, so it has to be shown that no
digit of a byte is taken for one. Its second character never follows a byte (`Renders.head_ne`): what
follows is a gap, a mark or a digit. So each mark that is found is one that was written, whatever
the digits in front of it (`Renders.strike_mark`).
-/

namespace ByteSchema

/-! ## Taking marks out of a text -/

namespace Text

/-- `left` is what is left of a text when every `mark` is taken out, from left to right. -/
inductive Strikes (mark : List Char) : List Char → List Char → Prop
  | nil : Strikes mark [] []
  | strike {cs left : List Char} (rest : Strikes mark cs left) : Strikes mark (mark ++ cs) left
  | keep {c : Char} {cs left : List Char} (other : ¬ mark <+: c :: cs)
      (rest : Strikes mark cs left) : Strikes mark (c :: cs) (c :: left)

variable {mark cs left piece : List Char} {fuel : Nat}

/-- What is between the marks is what is left without them. -/
theorem Strikes.flatten_splitListOn (hmark : mark ≠ []) (h : Strikes mark cs left)
    (hfuel : cs.length ≤ fuel) : (splitListOn mark fuel piece cs).flatten = piece.reverse ++ left := by
  induction h generalizing fuel piece with
  | nil => cases fuel <;> simp [splitListOn]
  | @strike cs left _ ih =>
      obtain ⟨c, mark, rfl⟩ := List.exists_cons_of_ne_nil hmark
      simp only [List.cons_append, List.length_cons, List.length_append] at hfuel
      obtain ⟨fuel, rfl⟩ : ∃ more, fuel = more + 1 := ⟨fuel - 1, by omega⟩
      have hfound : (c :: mark).isPrefixOf (c :: (mark ++ cs)) = true :=
        List.isPrefixOf_iff_prefix.2 (List.prefix_append (c :: mark) cs)
      have hbehind : (c :: (mark ++ cs)).drop (c :: mark).length = cs :=
        List.drop_left
      rw [List.cons_append, splitListOn, if_pos hfound, hbehind, List.flatten_cons,
        ih (by omega), List.reverse_nil, List.nil_append]
  | @keep c cs left other _ ih =>
      rw [List.length_cons] at hfuel
      obtain ⟨fuel, rfl⟩ : ∃ more, fuel = more + 1 := ⟨fuel - 1, by omega⟩
      rw [splitListOn, if_neg (mt List.isPrefixOf_iff_prefix.1 other), ih (by omega)]
      simp

theorem nil_intercalate (pieces : List (List Char)) : [].intercalate pieces = pieces.flatten := by
  induction pieces with
  | nil => rfl
  | cons first rest ih =>
      cases rest with
      | nil => simp
      | cons second rest =>
          rw [List.intercalate_cons_cons, ih, List.append_nil, List.flatten_cons (l := first)]

theorem Strikes.toList_replaceAll {mark s : String} (hmark : mark.toList ≠ [])
    (h : Strikes mark.toList s.toList left) : (replaceAll mark "" s).toList = left := by
  have hid : String.toList ∘ String.ofList = id := funext fun cs => String.toList_ofList
  have hnone : "".toList = [] := rfl
  rw [replaceAll, String.toList_intercalate, splitOn, List.map_map, hid, List.map_id, hnone,
    nil_intercalate, h.flatten_splitListOn hmark (Nat.le_of_eq String.length_toList)]
  rfl

/-- To take a character out is to filter. -/
theorem strikes_char (c : Char) (cs : List Char) : Strikes [c] cs (cs.filter (· ≠ c)) := by
  induction cs with
  | nil => exact .nil
  | cons d cs ih =>
      by_cases hd : d = c
      · subst hd
        rw [List.filter_cons_of_neg (by simp)]
        exact .strike ih
      · rw [List.filter_cons_of_pos (by simpa using hd)]
        refine .keep (fun hfound => hd ?_) ih
        exact (List.cons_prefix_cons.1 hfound).1.symm

end Text

namespace Payload

/-! ## Digits -/

/-- `c` is the hexadecimal digit of `n`, in lower or upper case. -/
def IsDigitOf (n : Nat) (c : Char) : Prop := c = Text.hexDigit n ∨ c = (Text.hexDigit n).toUpper

/-- A digit is read back, be it a large letter or a small one. -/
theorem IsDigitOf.digit?_eq {n : Nat} {c : Char} (h : IsDigitOf n c) (hn : n < 16) :
    digit? c = some n := by
  have hall : ∀ n : Fin 16,
      digit? (Text.hexDigit n) = some n.val ∧ digit? (Text.hexDigit n).toUpper = some n.val := by
    decide
  rcases h with rfl | rfl
  · exact (hall ⟨n, hn⟩).1
  · exact (hall ⟨n, hn⟩).2

section

variable {c d : Char} {n : Nat}

theorem ne_of_digit? (hc : digit? c = some n) (hd : digit? d = none) : c ≠ d := by
  rintro rfl
  rw [hd] at hc
  cases hc

theorem isGap_of_digit? (h : digit? c = some n) : isGap c = false := by
  have hne : c ≠ ' ' ∧ c ≠ '\t' ∧ c ≠ '\n' ∧ c ≠ '\x0b' ∧ c ≠ '\x0c' ∧ c ≠ '\r' := by
    refine ⟨?_, ?_, ?_, ?_, ?_, ?_⟩ <;> exact ne_of_digit? h (by decide)
  simp [isGap, Numeral.isMargin, hne]

theorem ascii_of_digit? (h : digit? c = some n) : c.toNat < 128 := by
  unfold digit? at h
  split at h
  · assumption
  · cases h

end

/-! ## Renderings -/

/-- The ways to write bytes: each as two digits, high one first, behind one of the `marks`, with any of
the `gaps` before, between and after. -/
inductive Renders (gaps : List Char) (marks : List (List Char)) : List UInt8 → List Char → Prop
  | nil : Renders gaps marks [] []
  | gap {c : Char} {bytes : List UInt8} {cs : List Char} (hc : c ∈ gaps)
      (rest : Renders gaps marks bytes cs) : Renders gaps marks bytes (c :: cs)
  | byte {mark : List Char} {b : UInt8} {high low : Char} {bytes : List UInt8} {cs : List Char}
      (hmark : mark ∈ marks) (hhigh : IsDigitOf (b.toNat / 16) high)
      (hlow : IsDigitOf (b.toNat % 16) low) (rest : Renders gaps marks bytes cs) :
      Renders gaps marks (b :: bytes) (mark ++ high :: low :: cs)

namespace Renders

variable {gaps : List Char} {marks : List (List Char)} {bytes : List UInt8} {cs : List Char}

theorem unmarked {b : UInt8} {high low : Char} (hmark : [] ∈ marks)
    (hhigh : IsDigitOf (b.toNat / 16) high) (hlow : IsDigitOf (b.toNat % 16) low)
    (rest : Renders gaps marks bytes cs) :
    Renders gaps marks (b :: bytes) (high :: low :: cs) :=
  show Renders gaps marks (b :: bytes) ([] ++ high :: low :: cs) from
    .byte hmark hhigh hlow rest

theorem marked {b : UInt8} {high low : Char} (hmark : ['0', 'x'] ∈ marks)
    (hhigh : IsDigitOf (b.toNat / 16) high) (hlow : IsDigitOf (b.toNat % 16) low)
    (rest : Renders gaps marks bytes cs) :
    Renders gaps marks (b :: bytes) ('0' :: 'x' :: high :: low :: cs) :=
  show Renders gaps marks (b :: bytes) (['0', 'x'] ++ high :: low :: cs) from
    .byte hmark hhigh hlow rest

theorem digits {b : UInt8} {high low : Char} (hhigh : IsDigitOf (b.toNat / 16) high)
    (hlow : IsDigitOf (b.toNat % 16) low) :
    digit? high = some (b.toNat / 16) ∧ digit? low = some (b.toNat % 16) := by
  have hb : b.toNat < 256 := b.toNat_lt
  exact ⟨hhigh.digit?_eq (by omega), hlow.digit?_eq (by omega)⟩

/-- Without one of the gaps the rendering is one of the same bytes. -/
theorem strike_gap {c : Char} (hc : digit? c = none) (hmarks : ∀ mark ∈ marks, c ∉ mark)
    (h : Renders gaps marks bytes cs) :
    Renders (gaps.filter (· ≠ c)) marks bytes (cs.filter (· ≠ c)) := by
  induction h with
  | nil => exact .nil
  | @gap d bytes cs hd _ ih =>
      by_cases heq : d = c
      · rwa [List.filter_cons_of_neg (by simpa using heq)]
      · rw [List.filter_cons_of_pos (by simpa using heq)]
        exact .gap (List.mem_filter.2 ⟨hd, by simpa using heq⟩) ih
  | @byte mark b high low bytes cs hmark hhigh hlow _ ih =>
      obtain ⟨hhigh?, hlow?⟩ := digits hhigh hlow
      have hkeep : mark.filter (· ≠ c) = mark := List.filter_eq_self.2 fun d hd =>
        decide_eq_true fun heq => hmarks mark hmark (heq ▸ hd)
      rw [List.filter_append, hkeep,
        List.filter_cons_of_pos (by simpa using ne_of_digit? hhigh? hc),
        List.filter_cons_of_pos (by simpa using ne_of_digit? hlow? hc)]
      exact .byte hmark hhigh hlow ih

/-- The second character of the mark stands nowhere in front. -/
theorem head_ne (hgaps : 'x' ∉ gaps) (h : Renders gaps [[], ['0', 'x']] bytes cs) :
    cs.head? ≠ some 'x' := by
  cases h with
  | nil => simp
  | gap hc => exact fun heq => hgaps (Option.some.inj heq ▸ hc)
  | byte hmark hhigh hlow =>
      obtain ⟨hhigh?, -⟩ := digits hhigh hlow
      rcases List.mem_cons.1 hmark with rfl | hmark
      · exact fun heq => ne_of_digit? hhigh? (by decide) (Option.some.inj heq)
      · cases List.mem_singleton.1 hmark
        simp

/-- The marks that are found are those that were written. -/
theorem strike_mark (hzero : '0' ∉ gaps) (hx : 'x' ∉ gaps)
    (h : Renders gaps [[], ['0', 'x']] bytes cs) :
    ∃ left, Text.Strikes ['0', 'x'] cs left ∧ Renders gaps [[]] bytes left := by
  have hunmarked {c : Char} {cs : List Char} (hcs : cs.head? ≠ some 'x') :
      ¬ ['0', 'x'] <+: c :: cs := by
    rintro ⟨behind, hbehind⟩
    obtain ⟨-, rfl⟩ := List.cons.inj hbehind
    exact hcs rfl
  induction h with
  | nil => exact ⟨[], .nil, .nil⟩
  | @gap c bytes cs hc _ ih =>
      obtain ⟨left, hleft, hrenders⟩ := ih
      -- A gap is neither of the two characters of a mark.
      have hne : c ≠ '0' := fun heq => hzero (heq ▸ hc)
      have hother : ¬ ['0', 'x'] <+: c :: cs := fun hfound =>
        hne (List.cons_prefix_cons.1 hfound).1.symm
      exact ⟨c :: left, .keep hother hleft, .gap hc hrenders⟩
  | @byte mark b high low bytes cs hmark hhigh hlow rest ih =>
      obtain ⟨left, hleft, hrenders⟩ := ih
      obtain ⟨-, hlow?⟩ := digits hhigh hlow
      -- No mark starts at a digit, for no digit is an x.
      have hbehind : (low :: cs).head? ≠ some 'x' := fun heq =>
        ne_of_digit? hlow? (by decide) (Option.some.inj heq)
      have hdigits : Text.Strikes ['0', 'x'] (high :: low :: cs) (high :: low :: left) :=
        .keep (hunmarked hbehind) (.keep (hunmarked (rest.head_ne hx)) hleft)
      refine ⟨high :: low :: left, ?_, .unmarked List.mem_cons_self hhigh hlow hrenders⟩
      rcases List.mem_cons.1 hmark with rfl | hmark
      · exact hdigits
      · cases List.mem_singleton.1 hmark
        exact .strike hdigits

/-- Bytes that are written without gaps and marks are read. -/
theorem readPairs_eq {position : Nat} (h : Renders [] [[]] bytes cs) :
    readPairs position none cs = .ok bytes := by
  induction h generalizing position with
  | nil => rfl
  | gap hc => cases hc
  | @byte mark b high low bytes cs hmark hhigh hlow _ ih =>
      obtain ⟨hhigh?, hlow?⟩ := digits hhigh hlow
      have hbyte : UInt8.ofNat (b.toNat / 16 * 16 + b.toNat % 16) = b := by
        rw [Nat.div_add_mod', UInt8.ofNat_toNat]
      cases List.mem_singleton.1 hmark
      simp only [List.nil_append, readPairs, isGap_of_digit? hhigh?, hhigh?, hlow?, ih, hbyte]
      rfl

/-- Without gaps there are only digits, so all characters are ASCII. -/
theorem ascii (h : Renders [] [[]] bytes cs) : ∀ c ∈ cs, c.toNat < 128 := by
  induction h with
  | nil => simp
  | gap hc => cases hc
  | byte hmark hhigh hlow _ ih =>
      obtain ⟨hhigh?, hlow?⟩ := digits hhigh hlow
      cases List.mem_singleton.1 hmark
      exact List.forall_mem_cons.2
        ⟨ascii_of_digit? hhigh?, List.forall_mem_cons.2 ⟨ascii_of_digit? hlow?, ih⟩⟩

theorem readDigits_eq (h : Renders [] [[]] bytes cs) : readDigits cs = .ok bytes := by
  have hplain : (cs.takeWhile fun c => c.toNat < 128) = cs :=
    List.takeWhile_eq_self_iff.2 fun c hc => decide_eq_true (h.ascii c hc)
  unfold readDigits
  dsimp only
  rw [hplain, if_neg (Nat.lt_irrefl _)]
  exact h.readPairs_eq

end Renders

/-- What is left of a rendering when all that does not count is taken out. -/
theorem Renders.clean {bytes : List UInt8} {text : String}
    (h : Renders [' ', ','] [[], ['0', 'x']] bytes text.toList) :
    Renders [] [[]] bytes (Payload.clean text).toList := by
  have hblanks : Renders [','] [[], ['0', 'x']] bytes (text.toList.filter (· ≠ ' ')) :=
    h.strike_gap (c := ' ') (by decide) (by decide)
  obtain ⟨left, hleft, hunmarked⟩ := hblanks.strike_mark (by decide) (by decide)
  have hcommas : Renders [] [[]] bytes (left.filter (· ≠ ',')) :=
    hunmarked.strike_gap (c := ',') (by decide) (by decide)
  have hfirst : (Text.replaceAll " " "" text).toList = text.toList.filter (· ≠ ' ') :=
    (Text.strikes_char ' ' text.toList).toList_replaceAll (by decide)
  have hsecond : (Text.replaceAll "0x" "" (Text.replaceAll " " "" text)).toList = left :=
    Text.Strikes.toList_replaceAll (by decide) (hfirst ▸ hleft)
  have hthird : (Payload.clean text).toList = left.filter (· ≠ ',') :=
    Text.Strikes.toList_replaceAll (by decide) (hsecond ▸ Text.strikes_char ',' _)
  rwa [hthird]

/-- **Renderings of a payload.** However bytes are written, with digits of either case, with or without
the mark in front of each, and with any blanks and commas around them, exactly these are read. -/
theorem read_of_renders {bytes : List UInt8} {text : String}
    (h : Renders [' ', ','] [[], ['0', 'x']] bytes text.toList) : read text = .ok bytes := by
  unfold read
  rw [h.clean.readDigits_eq]

/-- A byte that ends in the first character of the mark stands right in front of one. -/
theorem read_of_renders_zero :
    Renders [' ', ','] [[], ['0', 'x']] [0x00, 0x4a, 0xff] "000x4A, fF,".toList ∧
      read "000x4A, fF," = .ok [0x00, 0x4a, 0xff] := by
  have hrenders : Renders [' ', ','] [[], ['0', 'x']] [0x00, 0x4a, 0xff] "000x4A, fF,".toList := by
    refine .unmarked (by decide) (.inl rfl) (.inl rfl) ?_
    refine .marked (by decide) (.inl rfl) (.inr rfl) ?_
    refine .gap (by decide) (.gap (by decide) ?_)
    refine .unmarked (by decide) (.inl rfl) (.inr rfl) ?_
    exact .gap (by decide) .nil
  exact ⟨hrenders, read_of_renders hrenders⟩

end Payload

end ByteSchema
