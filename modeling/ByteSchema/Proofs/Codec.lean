import Mathlib.Data.List.Basic
import ByteSchema.Encoding.Basic
import ByteSchema.Proofs.IntegerBytes

/-!
# ByteSchema.Proofs.Codec

Writing text in bytes, the way back from decoding it.

A `Codec` is an encoding that writes each character by a rule and in a fixed byte order. The bytes of
a character are the ones from which the step function of the encoding reads it, whatever stands
behind them (`Codec.step_encodeChar`). So a text that the encoding can write is decoded from its bytes
(`Codec.decode_encode`).

Where NUL is written in one byte, a zero byte stands for nothing else (`Codec.zero_mem_encodeChar`).
-/

namespace ByteSchema

/-- The encodings that write every character by a rule, without a mark in front. -/
inductive Codec where
  | ascii
  | latin1
  | utf8
  | utf16 (order : Endian)
  | utf32 (order : Endian)
  deriving DecidableEq, Repr

namespace Codec

/-- The encoding that reads the text. -/
def encoding : Codec → Encoding
  | ascii => .ascii
  | latin1 => .latin1
  | utf8 => .utf8
  | utf16 order => .utf16 (some order)
  | utf32 order => .utf32 (some order)

/-- The step function of the encoding. -/
def step : Codec → List UInt8 → Encoding.Piece
  | ascii => Encoding.asciiStep
  | latin1 => Encoding.latin1Step
  | utf8 => Encoding.utf8Step
  | utf16 order => Encoding.utf16Step order
  | utf32 order => Encoding.utf32Step order

/-- The encoding can write the characters below this code point. -/
def limit : Codec → Nat
  | ascii => 0x80
  | latin1 => 0x100
  | utf8 | utf16 _ | utf32 _ => 0x110000

/-- How many bytes a unit takes up, and with it NUL. -/
def unitWidth : Codec → Nat
  | ascii | latin1 | utf8 => 1
  | utf16 _ => 2
  | utf32 _ => 4

/-- The units of a character in UTF-16: a character past the 16 bits is a pair of surrogates. -/
def surrogates (c : Char) : List Nat :=
  if c.toNat < 0x10000 then [c.toNat]
  else [0xD800 + (c.toNat - 0x10000) / 0x400, 0xDC00 + (c.toNat - 0x10000) % 0x400]

/-- There is no mark in front: the step function reads all bytes. -/
theorem reading?_eq (k : Codec) (bytes : List UInt8) :
    k.encoding.reading? bytes = some (k.step, bytes) := by
  cases k <;> rfl

/-- The bytes of a character that can be written. -/
def encodeChar : Codec → Char → List UInt8
  | ascii, c | latin1, c => [UInt8.ofNat c.toNat]
  | utf8, c => String.utf8EncodeChar c
  | utf16 order, c => (surrogates c).flatMap (orderedBytes order 2)
  | utf32 order, c => orderedBytes order 4 c.toNat

/-- The bytes of a text that can be written. -/
def encode (k : Codec) (text : String) : List UInt8 := text.toList.flatMap k.encodeChar

/-- Can the text be written? -/
def Represents (k : Codec) (text : String) : Prop := ∀ c ∈ text.toList, c.toNat < k.limit

instance (k : Codec) (text : String) : Decidable (k.Represents text) :=
  decidable_of_iff (text.toList.all fun c => c.toNat < k.limit) (by simp [Represents])

end Codec

namespace Encoding

/-! ## Characters and bytes -/

theorem toNat_valid (c : Char) : c.toNat < 0xD800 ∨ 0xDFFF < c.toNat ∧ c.toNat < 0x110000 := c.valid

theorem ofNat_eq (c : Char) {n : Nat} (h : n = c.toNat) : Char.ofNat n = c := by
  rw [h, Char.ofNat_toNat]

theorem toNat_byte (n : Nat) (h : n < 256) : (UInt8.ofNat n).toNat = n :=
  UInt8.toNat_ofNat_of_lt' h

/-! ## UTF-8 -/

section

variable {a b c d : UInt8} {rest : List UInt8}

theorem isContinuation_iff : isContinuation b = true ↔ 0x80 ≤ b.toNat ∧ b.toNat < 0xC0 := by
  simp [isContinuation, UInt8.le_iff_toNat_le, UInt8.lt_iff_toNat_lt]

/-- Behind the first of three bytes, a continuation byte fits if the form is not overlong and no
surrogate is written. -/
theorem fitsSecond_of_three (ha : 0xE0 ≤ a.toNat ∧ a.toNat < 0xF0)
    (hb : 0x80 ≤ b.toNat ∧ b.toNat < 0xC0) (hlong : a.toNat = 0xE0 → 0xA0 ≤ b.toNat)
    (hsurrogate : a.toNat = 0xED → b.toNat < 0xA0) : fitsSecond a b = true := by
  unfold fitsSecond secondRange
  simp only [beq_iff_eq, ← UInt8.toNat_inj, Bool.and_eq_true, decide_eq_true_eq,
    UInt8.le_iff_toNat_le, UInt8.reduceToNat]
  split_ifs <;> simp only [UInt8.reduceToNat] <;> omega

/-- Behind the first of four bytes, a continuation byte fits if the form is not overlong and the
number is that of a code point. -/
theorem fitsSecond_of_four (ha : 0xF0 ≤ a.toNat ∧ a.toNat < 0xF5)
    (hb : 0x80 ≤ b.toNat ∧ b.toNat < 0xC0) (hlong : a.toNat = 0xF0 → 0x90 ≤ b.toNat)
    (hlast : a.toNat = 0xF4 → b.toNat < 0x90) : fitsSecond a b = true := by
  unfold fitsSecond secondRange
  simp only [beq_iff_eq, ← UInt8.toNat_inj, Bool.and_eq_true, decide_eq_true_eq,
    UInt8.le_iff_toNat_le, UInt8.reduceToNat]
  split_ifs <;> simp only [UInt8.reduceToNat] <;> omega

theorem utf8Step_one (ha : a.toNat < 0x80) :
    utf8Step (a :: rest) = .char (Char.ofNat a.toNat) 1 := by
  show (if a < 0x80 then _ else _) = _
  rw [if_pos (UInt8.lt_iff_toNat_lt.2 ha)]

theorem utf8Step_two (ha : 0xC2 ≤ a.toNat ∧ a.toNat < 0xE0)
    (hb : 0x80 ≤ b.toNat ∧ b.toNat < 0xC0) :
    utf8Step (a :: b :: rest) = .char (Char.ofNat (a.toNat % 32 * 64 + b.toNat % 64)) 2 := by
  unfold utf8Step
  simp only [UInt8.lt_iff_toNat_lt, UInt8.le_iff_toNat_le, UInt8.reduceToNat, Bool.or_eq_true,
    decide_eq_true_eq]
  rw [if_neg (by omega), if_neg (by omega), if_pos ha.2, if_pos (isContinuation_iff.2 hb)]
  rfl

theorem utf8Step_three (ha : 0xE0 ≤ a.toNat ∧ a.toNat < 0xF0)
    (hb : fitsSecond a b = true) (hc : 0x80 ≤ c.toNat ∧ c.toNat < 0xC0) :
    utf8Step (a :: b :: c :: rest) =
      .char (Char.ofNat ((a.toNat % 16 * 64 + b.toNat % 64) * 64 + c.toNat % 64)) 3 := by
  unfold utf8Step
  simp only [UInt8.lt_iff_toNat_lt, UInt8.le_iff_toNat_le, UInt8.reduceToNat, Bool.or_eq_true,
    decide_eq_true_eq, hb, isContinuation_iff.2 hc]
  rw [if_neg (by omega), if_neg (by omega), if_neg (by omega), if_pos ha.2]
  rfl

theorem utf8Step_four (ha : 0xF0 ≤ a.toNat ∧ a.toNat < 0xF5)
    (hb : fitsSecond a b = true) (hc : 0x80 ≤ c.toNat ∧ c.toNat < 0xC0)
    (hd : 0x80 ≤ d.toNat ∧ d.toNat < 0xC0) :
    utf8Step (a :: b :: c :: d :: rest) =
      .char (Char.ofNat (((a.toNat % 8 * 64 + b.toNat % 64) * 64 + c.toNat % 64) * 64 +
        d.toNat % 64)) 4 := by
  unfold utf8Step
  simp only [UInt8.lt_iff_toNat_lt, UInt8.le_iff_toNat_le, UInt8.reduceToNat, Bool.or_eq_true,
    decide_eq_true_eq, hb, isContinuation_iff.2 hc, isContinuation_iff.2 hd]
  rw [if_neg (by omega), if_neg (by omega), if_neg (by omega), if_neg (by omega)]
  rfl

end

/-- The character is read back from its bytes. The cases are those of the number of bytes, and in
each the number that the step puts together is the one that was taken apart. -/
theorem utf8Step_utf8EncodeChar (c : Char) (rest : List UInt8) :
    utf8Step (String.utf8EncodeChar c ++ rest) = .char c (String.utf8EncodeChar c).length := by
  have hvalid := toNat_valid c
  -- Each byte holds its part of the number, as none of the parts is too large.
  have hlast := toNat_byte (c.toNat % 64 + 128) (by omega)
  have hthird := toNat_byte (c.toNat / 64 % 64 + 128) (by omega)
  have hsecond := toNat_byte (c.toNat / 4096 % 64 + 128) (by omega)
  rw [String.utf8EncodeChar, show c.val.toNat = c.toNat from rfl]
  split_ifs with hone htwo hthree
  · have hfirst := toNat_byte c.toNat (by omega)
    rw [List.singleton_append, utf8Step_one (by omega), ofNat_eq c hfirst]
    rfl
  · have hfirst := toNat_byte (c.toNat / 64 % 32 + 192) (by omega)
    rw [List.cons_append, List.singleton_append, utf8Step_two (by omega) (by omega),
      ofNat_eq c (by omega)]
    rfl
  · have hfirst := toNat_byte (c.toNat / 4096 % 16 + 224) (by omega)
    rw [List.cons_append, List.cons_append, List.singleton_append,
      utf8Step_three (by omega)
        (fitsSecond_of_three (by omega) (by omega) (by omega) (by omega)) (by omega),
      ofNat_eq c (by omega)]
    rfl
  · have hfirst := toNat_byte (c.toNat / 262144 % 8 + 240) (by omega)
    rw [List.cons_append, List.cons_append, List.cons_append, List.singleton_append,
      utf8Step_four (by omega)
        (fitsSecond_of_four (by omega) (by omega) (by omega) (by omega)) (by omega) (by omega),
      ofNat_eq c (by omega)]
    rfl

/-! ## Units of two and of four bytes -/

theorem unitOf_eq (order : Endian) (bytes : List UInt8) :
    unitOf order bytes = natOfBytes (order.bigFirst bytes) := by
  cases order with
  | big => rfl
  | little => exact List.foldl_reverse.symm

theorem unitOf_orderedBytes {order : Endian} {width n : Nat} (h : n < 256 ^ width) :
    unitOf order (orderedBytes order width n) = n := by
  rw [unitOf_eq, natOfBytes_orderedBytes h]

/-- A unit that is no surrogate is a character. -/
theorem utf16Step_unit {order : Endian} {unit : Nat} {rest : List UInt8}
    (h : unit < 0xD800 ∨ 0xE000 ≤ unit ∧ unit < 0x10000) :
    utf16Step order (orderedBytes order 2 unit ++ rest) = .char (Char.ofNat unit) 2 := by
  have hunit : unitOf order (orderedBytes order 2 unit) = unit := unitOf_orderedBytes (by omega)
  obtain ⟨a, b, hab⟩ := List.length_eq_two.1 (length_orderedBytes order 2 unit)
  rw [hab] at hunit ⊢
  show utf16Step order (a :: b :: rest) = _
  unfold utf16Step
  simp only [hunit, Bool.or_eq_true, decide_eq_true_eq]
  rw [if_pos (by omega)]

/-- Two surrogates are a character. -/
theorem utf16Step_pair {order : Endian} {high low : Nat} {rest : List UInt8}
    (hhigh : 0xD800 ≤ high ∧ high < 0xDC00) (hlow : 0xDC00 ≤ low ∧ low < 0xE000) :
    utf16Step order (orderedBytes order 2 high ++ (orderedBytes order 2 low ++ rest)) =
      .char (Char.ofNat (0x10000 + (high - 0xD800) * 0x400 + (low - 0xDC00))) 4 := by
  have hhigh' : unitOf order (orderedBytes order 2 high) = high := unitOf_orderedBytes (by omega)
  have hlow' : unitOf order (orderedBytes order 2 low) = low := unitOf_orderedBytes (by omega)
  obtain ⟨a, b, hab⟩ := List.length_eq_two.1 (length_orderedBytes order 2 high)
  obtain ⟨c, d, hcd⟩ := List.length_eq_two.1 (length_orderedBytes order 2 low)
  rw [hab] at hhigh' ⊢
  rw [hcd] at hlow' ⊢
  show utf16Step order (a :: b :: c :: d :: rest) = _
  unfold utf16Step
  simp only [hhigh', hlow', Bool.or_eq_true, Bool.and_eq_true, decide_eq_true_eq]
  rw [if_neg (by omega), if_neg (by omega), if_pos (by omega)]

/-- A unit of four bytes that is a code point is a character. -/
theorem utf32Step_unit {order : Endian} {unit : Nat} {rest : List UInt8}
    (h : unit < 0xD800 ∨ 0xE000 ≤ unit ∧ unit < 0x110000) :
    utf32Step order (orderedBytes order 4 unit ++ rest) = .char (Char.ofNat unit) 4 := by
  have hunit : unitOf order (orderedBytes order 4 unit) = unit := unitOf_orderedBytes (by omega)
  obtain ⟨a, b, c, d, habcd⟩ := List.length_eq_four.1 (length_orderedBytes order 4 unit)
  rw [habcd] at hunit ⊢
  show utf32Step order (a :: b :: c :: d :: rest) = _
  unfold utf32Step
  simp only [hunit, Bool.and_eq_true, decide_eq_true_eq]
  rw [if_neg (by omega), if_neg (by omega)]

/-! ## Whole texts -/

/-- A character that the step function reads from the bytes in front is the first piece. -/
theorem pieces_append {step : List UInt8 → Piece} {front rest : List UInt8} {c : Char}
    (hfront : front ≠ []) (h : step (front ++ rest) = .char c front.length) :
    pieces step (front ++ rest) = .char c front.length :: pieces step rest := by
  cases front with
  | nil => exact absurd rfl hfront
  | cons b front =>
      have hwidth : (Piece.char c (b :: front).length).width = (b :: front).length :=
        Nat.max_eq_left (Nat.succ_pos _)
      rw [List.cons_append, pieces_cons, ← List.cons_append, h, hwidth, List.drop_left]

theorem firstFault?_chars {widthOf : Char → Nat} {cs : List Char} {start : Nat} :
    firstFault? start (cs.map fun c => .char c (widthOf c)) = none := by
  induction cs generalizing start with
  | nil => rfl
  | cons c cs ih => exact ih

theorem decodeStrict_of_pieces {step : List UInt8 → Piece} {widthOf : Char → Nat}
    {bytes : List UInt8} {text : String}
    (h : pieces step bytes = text.toList.map fun c => .char c (widthOf c)) :
    decodeStrict step bytes = .ok text := by
  have hshown : (pieces step bytes).map Piece.shown = text.toList := by
    rw [h, List.map_map]
    exact List.map_id _
  have hclean : firstFault? 0 (pieces step bytes) = none := by rw [h, firstFault?_chars]
  unfold decodeStrict
  dsimp only
  rw [hclean, hshown]
  exact congrArg Except.ok String.ofList_toList

end Encoding

namespace Codec

/-! ## The way back -/

/-- A character is read from its bytes, whatever stands behind them. -/
theorem step_encodeChar (k : Codec) {c : Char} (hc : c.toNat < k.limit) (rest : List UInt8) :
    k.step (k.encodeChar c ++ rest) = .char c (k.encodeChar c).length := by
  have hvalid := Encoding.toNat_valid c
  cases k with
  | ascii =>
      have hc : c.toNat < 0x80 := hc
      have hlow : UInt8.ofNat c.toNat < 0x80 :=
        UInt8.lt_iff_toNat_lt.2 (by rw [Encoding.toNat_byte _ (by omega)]; exact hc)
      show Encoding.asciiStep (UInt8.ofNat c.toNat :: rest) = _
      rw [Encoding.asciiStep, if_pos hlow, Encoding.ofNat_eq c (Encoding.toNat_byte _ (by omega))]
      rfl
  | latin1 =>
      have hc : c.toNat < 0x100 := hc
      show Encoding.latin1Step (UInt8.ofNat c.toNat :: rest) = _
      rw [Encoding.latin1Step, Encoding.ofNat_eq c (Encoding.toNat_byte _ (by omega))]
      rfl
  | utf8 => exact Encoding.utf8Step_utf8EncodeChar c rest
  | utf16 order =>
      show Encoding.utf16Step order ((surrogates c).flatMap _ ++ rest) =
        .char c ((surrogates c).flatMap _).length
      -- The characters up to 0xFFFF are one unit, the others two.
      unfold surrogates
      split_ifs with hunit
      · simp only [List.flatMap_cons, List.flatMap_nil, List.append_nil, length_orderedBytes]
        rw [Encoding.utf16Step_unit (by omega), Char.ofNat_toNat]
      · simp only [List.flatMap_cons, List.flatMap_nil, List.append_nil, List.append_assoc,
          List.length_append, length_orderedBytes]
        rw [Encoding.utf16Step_pair (by omega) (by omega), Encoding.ofNat_eq c (by omega)]
  | utf32 order =>
      show Encoding.utf32Step order (orderedBytes order 4 c.toNat ++ rest) =
        .char c (orderedBytes order 4 c.toNat).length
      rw [Encoding.utf32Step_unit (by omega), Char.ofNat_toNat, length_orderedBytes]

theorem encodeChar_ne_nil (k : Codec) (c : Char) : k.encodeChar c ≠ [] := by
  have hutf16 (order : Endian) : ((utf16 order).encodeChar c).length ≠ 0 := by
    rw [encodeChar, surrogates]
    split_ifs <;> simp
  intro hnil
  cases k with
  | ascii | latin1 => cases hnil
  | utf8 =>
      rw [encodeChar, String.utf8EncodeChar] at hnil
      split_ifs at hnil
  | utf16 order => exact hutf16 order (congrArg List.length hnil)
  | utf32 order => simpa [encodeChar] using congrArg List.length hnil

theorem pieces_encode {k : Codec} {cs : List Char} (h : ∀ c ∈ cs, c.toNat < k.limit) :
    Encoding.pieces k.step (cs.flatMap k.encodeChar) =
      cs.map fun c => .char c (k.encodeChar c).length := by
  induction cs with
  | nil => exact Encoding.pieces_nil _
  | cons c cs ih =>
      rw [List.forall_mem_cons] at h
      rw [List.flatMap_cons, Encoding.pieces_append (k.encodeChar_ne_nil c)
        (k.step_encodeChar h.1 _), ih h.2]
      rfl

/-- **The way back.** A text that the encoding can write is decoded from its bytes, and nothing is
wrong with them. -/
theorem decode_encode {k : Codec} {text : String} (h : k.Represents text) :
    k.encoding.decode (k.encode text) = .ok (Encoding.textValue text, none) := by
  have hstrict : Encoding.decodeStrict k.step (k.encode text) = .ok text :=
    Encoding.decodeStrict_of_pieces (pieces_encode h)
  rw [Encoding.decode, k.reading?_eq]
  dsimp only
  rw [hstrict]

/-- Any bytes give a value, if with a problem. -/
theorem decode_total (k : Codec) (bytes : List UInt8) :
    ∃ value problem, k.encoding.decode bytes = .ok (value, problem) := by
  rw [Encoding.decode, k.reading?_eq]
  dsimp only
  cases Encoding.decodeStrict k.step bytes with
  | ok text => exact ⟨_, _, rfl⟩
  | error fault => exact ⟨_, _, rfl⟩

/-! ## NUL -/

theorem encodeChar_nul (k : Codec) : k.encodeChar '\x00' = List.replicate k.unitWidth 0 := by
  cases k with
  | ascii | latin1 | utf8 => decide
  | utf16 order => cases order <;> decide
  | utf32 order => cases order <;> decide

theorem encodeChar_nul_eq_cons (k : Codec) :
    k.encodeChar '\x00' = 0 :: (k.encodeChar '\x00').tail := by
  rw [encodeChar_nul]
  cases k <;> rfl

theorem unitWidth_eq {k : Codec} (h : k.unitWidth ≠ 1) : ∃ more, k.unitWidth = more + 1 + 1 := by
  cases k with
  | ascii | latin1 | utf8 => exact absurd rfl h
  | utf16 order | utf32 order => exact ⟨_, rfl⟩

/-- Where NUL takes up one byte, a zero byte is NUL. -/
theorem zero_mem_encodeChar {k : Codec} {c : Char} (hunit : k.unitWidth = 1)
    (hc : c.toNat < k.limit) (h : 0 ∈ k.encodeChar c) : c = '\x00' := by
  have hbyte {n : Nat} (hn : n < 256) (hz : 0 = UInt8.ofNat n) : n = 0 := by
    rw [← Encoding.toNat_byte n hn, ← hz]
    rfl
  have hzero : c.toNat = 0 := by
    cases k with
    | ascii => exact hbyte (Nat.lt_trans hc (by decide)) (List.mem_singleton.1 h)
    | latin1 => exact hbyte hc (List.mem_singleton.1 h)
    | utf8 =>
        -- Every byte of a character of several bytes has its highest bit set.
        rw [encodeChar, String.utf8EncodeChar, show c.val.toNat = c.toNat from rfl] at h
        split_ifs at h <;> simp only [List.mem_cons, List.not_mem_nil, or_false] at h
        · exact hbyte (by omega) h
        · rcases h with h | h <;> exact absurd (hbyte (by omega) h) (by omega)
        · rcases h with h | h | h <;> exact absurd (hbyte (by omega) h) (by omega)
        · rcases h with h | h | h | h <;> exact absurd (hbyte (by omega) h) (by omega)
    | utf16 order | utf32 order => cases hunit
  rw [← Char.ofNat_toNat c, hzero]

/-- So a text without NUL has no zero byte. -/
theorem zero_not_mem_encode {k : Codec} {text : String} (hunit : k.unitWidth = 1)
    (h : k.Represents text) (hfree : '\x00' ∉ text.toList) : 0 ∉ k.encode text := by
  intro hmem
  obtain ⟨c, hc, hbyte⟩ := List.mem_flatMap.1 hmem
  rw [zero_mem_encodeChar hunit (h c hc) hbyte] at hc
  exact hfree hc

end Codec

end ByteSchema
