import ByteSchema.Proofs.Codec
import ByteSchema.Proofs.Replay
import ByteSchema.Proofs.Span

/-!
# ByteSchema.Proofs.TerminatedText

Text with NUL behind it.

A field of type `strz` looks for the end of its text among the bytes: it ends at the first one that is
zero, whatever the encoding. Where NUL takes up one byte, that is the NUL behind the text, and what was
written is read. In wider encodings the first zero byte can be one of a character, and where it is not,
it is the first byte of NUL, whose others are left for the next field (`Setting.decodeField_text`).
-/

namespace ByteSchema

/-! ## Names of encodings -/

/-- The name is one of the encoding. -/
def Encoding.IsNamed (e : Encoding) (name : String) : Prop :=
  ∀ hosts bytes, Encoding.decodeNamed hosts (some name) bytes = e.decode bytes

namespace Codec

/-- The usual name of the encoding. -/
def label : Codec → String
  | ascii => "ascii"
  | latin1 => "latin-1"
  | utf8 => "utf-8"
  | utf16 .little => "utf-16-le"
  | utf16 .big => "utf-16-be"
  | utf32 .little => "utf-32-le"
  | utf32 .big => "utf-32-be"

theorem isNamed_label (k : Codec) : k.encoding.IsNamed k.label := by
  intro hosts bytes
  cases k with
  | ascii | latin1 | utf8 => rfl
  | utf16 order | utf32 order => cases order <;> rfl

end Codec

namespace Setting

variable {s : Setting} {custom : CustomDecoder} {ctx ctx' : Context} {f : Field} {k : Codec}
  {name : String} {text : String} {front behind rest : List UInt8} {p : Progress}

/-! ## What a step decodes -/

/-- The values of the field are text up to NUL, in the encoding of the codec. -/
structure IsText (s : Setting) (f : Field) (k : Codec) : Prop where
  type : ∃ typeName, f.type = .named typeName ∧ Primitive.ofName? typeName = some (.text true)
  endsAt : f.EndsAt (some 0) 0
  drops : f.keepTerminator = false
  encoding : ∃ label, s.encodingOf f = some label ∧ k.encoding.IsNamed label

/-- The step decodes the bytes in front, and `left` is left behind them. Nothing else happens, unless
there is a problem with the bytes. -/
def TakesText (s : Setting) (step : Decoder Outcome) (k : Codec) (p : Progress)
    (front left : List UInt8) : Prop :=
  ∃ o p' problem, step.Yields p o p' ∧ k.encoding.decode front = .ok (o.node.value, problem) ∧
    (problem = none → o.node.problems = [] ∧ p' = p) ∧ s.HasLeft o.next left

/-- The step gives the text without any problem or warning, and `left` is left behind it. -/
def Restores (s : Setting) (step : Decoder Outcome) (text : String) (p : Progress)
    (left : List UInt8) : Prop :=
  ∃ o, step.Yields p o p ∧ o.node.value = Encoding.textValue text ∧ o.node.problems = [] ∧
    s.HasLeft o.next left

/-- A text that was written in the bytes is restored from them. -/
theorem TakesText.restores {step : Decoder Outcome} {left : List UInt8}
    (h : s.TakesText step k p (k.encode text) left) (htext : k.Represents text) :
    s.Restores step text p left := by
  obtain ⟨o, p', problem, hrun, hdecode, hquiet, hleft⟩ := h
  rw [Codec.decode_encode htext, Except.ok.injEq, Prod.mk.injEq] at hdecode
  obtain ⟨hproblems, rfl⟩ := hquiet hdecode.2.symm
  exact ⟨o, hrun, hdecode.1.symm, hproblems, hleft⟩

/-- Text is decoded from its span. A problem is warned of; without one nothing changes. -/
theorem readText_of_span (terminated : Bool) {bytes : List UInt8} {consumed : Int} {value : Value}
    {problem : Option Cause}
    (hspan : s.readSpan ctx f "string type" (if terminated then some 0 else none) =
      pure (bytes, consumed))
    (hdecode : Encoding.decodeNamed s.hosts (s.encodingOf f) bytes = .ok (value, problem)) :
    ∃ o p', (s.readText ctx f name terminated).Yields p o p' ∧ o.node.value = value ∧
      o.next = ctx.offset + consumed ∧ (problem = none → o.node.problems = [] ∧ p' = p) := by
  unfold readText
  simp only [hspan, hdecode, pure_bind, Decoder.yields_bind, Decoder.yields_orEscape,
    Decoder.yields_forIn_warn, Decoder.yields_pure]
  refine ⟨_, _, ⟨_, _, ⟨rfl, rfl⟩, ⟨⟩, _, rfl, rfl, rfl⟩, rfl, rfl, ?_⟩
  intro hproblem
  subst hproblem
  exact ⟨rfl, by simp⟩

/-! ## The field -/

/-- The bytes in front of the first zero byte are decoded, and that byte is consumed. -/
theorem decodeSingle_text (hf : s.IsText f k) (hfree : 0 ∉ front)
    (hleft : s.HasLeft ctx.offset (front ++ 0 :: behind)) :
    s.TakesText (s.decodeSingle custom ctx f name) k p front behind := by
  obtain ⟨typeName, htype, hprimitive⟩ := hf.type
  obtain ⟨label, hlabel, hnamed⟩ := hf.encoding
  obtain ⟨value, problem, hdecode⟩ := k.decode_total front
  rw [List.append_cons] at hleft
  have hspan : s.readSpan ctx f "string type" (some 0) =
      pure (front, ((front ++ [0]).length : Int)) := by
    rw [readSpan_of_first hf.endsAt hfree hleft, hf.drops]
    rfl
  have hvalue : Encoding.decodeNamed s.hosts (s.encodingOf f) front = .ok (value, problem) := by
    rw [hlabel, hnamed, hdecode]
  obtain ⟨o, p', hrun, rfl, hnext, hquiet⟩ := readText_of_span true hspan hvalue
  rw [decodeSingle_of_text htype hprimitive]
  refine ⟨o, p', problem, Decoder.yields_located.2 hrun, hdecode, hquiet, ?_⟩
  rw [hnext]
  exact hleft.past

theorem decodeField_front (hf : s.IsText f k) (hplaced : (s.placed ctx f).Yields p ctx' p)
    (honce : f.repetition = none) (hfree : 0 ∉ front)
    (hleft : s.HasLeft ctx'.offset (front ++ 0 :: behind)) :
    s.TakesText (s.decodeField custom ctx f) k p front behind := by
  obtain ⟨o, p', problem, hrun, hrest⟩ := decodeSingle_text hf hfree hleft
  exact ⟨o, p', problem, (run_decodeField hplaced honce).trans hrun, hrest⟩

/-- What a step gives for a text with NUL behind it. -/
structure ReadsText (s : Setting) (step : Decoder Outcome) (k : Codec) (p : Progress)
    (text : String) (rest : List UInt8) : Prop where
  /-- It takes the bytes in front of the first zero byte, and consumes that byte. -/
  cut : ∃ front behind, k.encode text ++ k.encodeChar '\x00' = front ++ 0 :: behind ∧ 0 ∉ front ∧
    s.TakesText step k p front (behind ++ rest)
  /-- If no byte of the text is zero, it is read, and the first byte of NUL is consumed. -/
  free : 0 ∉ k.encode text → s.Restores step text p ((k.encodeChar '\x00').tail ++ rest)
  /-- Where NUL takes up one byte, every text is read, and it is consumed with its NUL. -/
  whole : k.unitWidth = 1 → s.Restores step text p rest
  /-- Where NUL takes up more, no text is consumed with its NUL. -/
  torn : k.unitWidth ≠ 1 → ∀ o p', step.Yields p o p' → ¬ s.HasLeft o.next rest

/-- **Text up to NUL.** A field of text that ends at NUL reads what was written, in the encodings in
which NUL is one byte. In the others it never leaves off behind NUL. -/
theorem decodeField_text (hf : s.IsText f k) (hplaced : (s.placed ctx f).Yields p ctx' p)
    (honce : f.repetition = none) (htext : k.Represents text) (hfree : '\x00' ∉ text.toList)
    (hleft : s.HasLeft ctx'.offset (k.encode text ++ k.encodeChar '\x00' ++ rest)) :
    s.ReadsText (s.decodeField custom ctx f) k p text rest := by
  have htakes {front behind : List UInt8} (hfront : 0 ∉ front)
      (hbytes : k.encode text ++ k.encodeChar '\x00' = front ++ 0 :: behind) :
      s.TakesText (s.decodeField custom ctx f) k p front (behind ++ rest) := by
    rw [hbytes, List.append_assoc, List.cons_append] at hleft
    exact decodeField_front hf hplaced honce hfront hleft
  have hnul := k.encodeChar_nul_eq_cons
  have hrestores (hzero : 0 ∉ k.encode text) := (htakes hzero (by rw [← hnul])).restores htext
  have hmem : 0 ∈ k.encode text ++ k.encodeChar '\x00' := by
    rw [hnul]
    simp
  obtain ⟨front, behind, hbytes, hfront⟩ := List.eq_append_cons_of_mem hmem
  refine ⟨⟨front, behind, hbytes, hfront, htakes hfront hbytes⟩, hrestores, fun hunit => ?_,
    fun hunit o p' hrun hnext => ?_⟩
  · have htail : (k.encodeChar '\x00').tail = [] := by rw [k.encodeChar_nul, hunit]; rfl
    have hread := hrestores (Codec.zero_not_mem_encode hunit htext hfree)
    rwa [htail] at hread
  · -- Behind NUL, the bytes up to its last one would be in front of the first zero byte.
    obtain ⟨o', p'', -, hrun', -, -, hleft'⟩ := htakes hfront hbytes
    obtain ⟨rfl, rfl⟩ := hrun.unique hrun'
    have hlength := hleft'.offset_eq.trans hnext.offset_eq.symm
    rw [List.length_append] at hlength
    obtain rfl : behind = [] := List.eq_nil_of_length_eq_zero (by omega)
    obtain ⟨more, hmore⟩ := Codec.unitWidth_eq hunit
    rw [k.encodeChar_nul, hmore, List.replicate_succ', ← List.append_assoc] at hbytes
    refine hfront ?_
    rw [← List.append_cancel_right hbytes]
    simp

end Setting

/-- Text up to NUL in an encoding. -/
def Field.text (k : Codec) : Field :=
  { id := "a", type := .named "strz", encoding := some k.label }

namespace Setting

/-- Every one of the encodings can be named. -/
theorem isText_text (s : Setting) (k : Codec) : s.IsText (.text k) k where
  type := ⟨"strz", rfl, by decide⟩
  endsAt := ⟨rfl, rfl, rfl, rfl⟩
  drops := rfl
  encoding := by
    refine ⟨k.label, ?_, k.isNamed_label⟩
    cases k with
    | ascii | latin1 | utf8 => rfl
    | utf16 order | utf32 order => cases order <;> rfl

/-- A text of two characters in three bytes, from the second byte of the buffer on. -/
theorem decodeField_text_accent :
    ((Setting.of [7, 0x61, 0xC3, 0xA9, 0, 8]).placed (Context.moveTo {} 1) (.text .utf8)).Yields {}
        (Context.moveTo {} 1) {} ∧
      Codec.utf8.Represents "aé" ∧ '\x00' ∉ "aé".toList ∧
      Codec.utf8.encode "aé" ++ Codec.utf8.encodeChar '\x00' = [0x61, 0xC3, 0xA9, 0] ∧
      (Setting.of [7, 0x61, 0xC3, 0xA9, 0, 8]).ReadsText
        ((Setting.of [7, 0x61, 0xC3, 0xA9, 0, 8]).decodeField
          ((Setting.of [7, 0x61, 0xC3, 0xA9, 0, 8]).nested 0) (Context.moveTo {} 1) (.text .utf8))
        .utf8 {} "aé" [8] := by
  have hplaced : ((Setting.of [7, 0x61, 0xC3, 0xA9, 0, 8]).placed (Context.moveTo {} 1)
      (.text .utf8)).Yields {} (Context.moveTo {} 1) {} := rfl
  have htext : Codec.utf8.Represents "aé" := by decide +kernel
  have hfree : '\x00' ∉ "aé".toList := by simp
  exact ⟨hplaced, htext, hfree, by decide +kernel,
    decodeField_text (isText_text _ _) hplaced rfl htext hfree ⟨[7], by decide +kernel, rfl⟩⟩

/-- The letter A in two bytes, of which the second is zero, is cut in two, and half of NUL is left. -/
theorem decodeField_text_cut :
    Codec.encode (.utf16 .little) "A" ++ Codec.encodeChar (.utf16 .little) '\x00' =
        [0x41, 0, 0, 0] ∧
      ((((Setting.of [0x41, 0, 0, 0]).decodeField ((Setting.of [0x41, 0, 0, 0]).nested 0) {}
        (.text (.utf16 .little))).run.run {}).1.toOption.map fun o => (o.next, o.node.value.text)) =
      some (2, "\uFFFD") := by
  decide +kernel

end Setting

end ByteSchema
