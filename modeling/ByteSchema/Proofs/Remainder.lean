import ByteSchema.Proofs.Replay
import ByteSchema.Proofs.Span
import ByteSchema.Proofs.Termination

/-!
# ByteSchema.Proofs.Remainder

The rest of the buffer, asked for in two ways.

A field of raw bytes takes the rest of the buffer by its flag (`Field.toEnd`) or by the size
`_io.size - _io.pos` (`Field.measured`). Both consume all of it. But a terminator cuts a span that has
a size, and it does not cut one that is read to the end: the flag is asked for first, and the
terminator is then not looked for. So the two agree where the terminator would cut nothing off
(`Field.Keeps`), and the bytes differ wherever it does (`Setting.decodeField_remainder`).
-/

namespace ByteSchema

/-! ## The length of the rest -/

namespace Expression

theorem isIdentifier_size : IsIdentifier "_io.size" :=
  ⟨'_', "io.size".toList, by decide +kernel, by decide +kernel,
    List.all_eq_true.1 (by decide +kernel)⟩

theorem isSentence_rest :
    IsSentence "_io.size - _io.pos" (.binary .sub (.name "_io.size") (.name "_io.pos")) := by
  have hnone : Blank [] := by simp [Blank]
  have hspace : Blank [' '] := List.forall_mem_singleton.2 Text.isBlank_space
  have hsize : Derives .primary ([] ++ "_io.size".toList) (.name "_io.size") :=
    .name hnone isIdentifier_size
  have hpos : Derives .primary ([' '] ++ "_io.pos".toList) (.name "_io.pos") :=
    .name hspace isIdentifier_position
  refine ⟨_, [], ?_, hnone,
    .additive (.sum (.inr rfl) (.term (.unary (.primary hsize))) hspace (.unary (.primary hpos)))⟩
  decide +kernel

end Expression

namespace View

variable (view : View)

theorem resolve_size : view.resolve "_io.size" = some (.int view.size) := by
  have hstrip : Text.strip "_io.size" = "_io.size" := by decide +kernel
  unfold resolve
  simp only [hstrip]
  rfl

theorem evaluate_rest :
    view.evaluate (.str "_io.size - _io.pos") =
      .ok (some (.int (view.size - view.place.offset))) := by
  have hshort : Expression.NoLongRun "_io.size - _io.pos".toList :=
    Expression.noLongRun_of_length (by decide +kernel)
  refine evaluate_sentence Expression.isSentence_rest hshort ?_
  simp only [Expression.Tree.eval, resolve_size, resolve_position]
  rfl

end View

/-! ## Fields of raw bytes -/

namespace Field

/-- The field, up to the end of the buffer. -/
def toEnd (f : Field) : Field := { f with size := .null, sizeToEnd := true }

/-- The field, as long as the rest of the buffer. -/
def measured (f : Field) : Field :=
  { f with size := .str "_io.size - _io.pos", sizeToEnd := false }

/-- A value of the field is made of raw bytes, with a terminator that may be implied. -/
inductive IsSpanned (f : Field) : Option UInt8 → Prop
  | raw (isRaw : f.IsRaw) : IsSpanned f none
  | text {typeName : String} {terminated : Bool} (type_eq : f.type = .named typeName)
      (primitive : Primitive.ofName? typeName = some (.text terminated)) :
      IsSpanned f (if terminated then some 0 else none)

theorem IsRaw.toEnd {f : Field} (h : f.IsRaw) : f.toEnd.IsRaw := by
  cases h with
  | untyped type_eq => exact .untyped type_eq
  | bytes type_eq primitive => exact .bytes type_eq primitive

theorem IsRaw.measured {f : Field} (h : f.IsRaw) : f.measured.IsRaw := by
  cases h with
  | untyped type_eq => exact .untyped type_eq
  | bytes type_eq primitive => exact .bytes type_eq primitive

/-- No terminator is implied where the value is the raw bytes. -/
theorem IsRaw.implied_eq_none {f : Field} {implied : Option UInt8} (h : f.IsRaw)
    (hf : f.IsSpanned implied) : implied = none := by
  cases hf with
  | raw => rfl
  | text type_eq primitive =>
      cases h with
      | untyped type_eq' =>
          rw [type_eq] at type_eq'
          cases type_eq'
      | bytes type_eq' primitive' =>
          rw [type_eq] at type_eq'
          cases type_eq'
          rw [primitive] at primitive'
          cases primitive'

/-- What the terminator of the field leaves of some bytes. -/
def cut (f : Field) (implied : Option UInt8) (bytes : List UInt8) : List UInt8 :=
  match f.terminatorOr implied with
  | none => bytes
  | some t => Buffer.cutAt t f.keepTerminator bytes

/-- The terminator of the field is not among the bytes, or it is kept and stands at their end only. -/
def Keeps (f : Field) (implied : Option UInt8) (bytes : List UInt8) : Prop :=
  ∀ t, f.terminatorOr implied = some t →
    t ∉ bytes ∨ f.keepTerminator = true ∧ ∃ front, bytes = front ++ [t] ∧ t ∉ front

variable {f : Field} {implied : Option UInt8}

theorem keeps_nil : f.Keeps implied [] := fun _ _ => .inl List.not_mem_nil

end Field

theorem Buffer.cutAt_eq_self_iff {t : UInt8} {keep : Bool} {bytes : List UInt8} :
    cutAt t keep bytes = bytes ↔
      t ∉ bytes ∨ keep = true ∧ ∃ front, bytes = front ++ [t] ∧ t ∉ front := by
  by_cases ht : t ∈ bytes
  · obtain ⟨front, behind, rfl, hfirst⟩ := List.eq_append_cons_of_mem ht
    have hshorter : front.length < (front ++ t :: behind).length := by simp
    unfold cutAt
    simp only [takeWhile_first hfirst, hshorter, decide_true, Bool.and_true, ht, not_true,
      false_or]
    cases keep with
    | false => simp
    | true =>
        -- What is kept of the bytes is the front and one terminator.
        rw [if_pos rfl, List.append_right_inj]
        constructor
        · intro h
          exact ⟨rfl, front, (List.append_right_inj front).2 h.symm, hfirst⟩
        · intro h
          obtain ⟨-, other, hother, hfree⟩ := h
          cases behind with
          | nil => rfl
          | cons b behind =>
              have hlast : (front ++ t :: b :: behind).dropLast = other := by
                rw [hother, List.dropLast_concat]
              refine absurd ?_ hfree
              rw [← hlast]
              simp
  · unfold cutAt
    simp [takeWhile_of_not_mem ht, ht]

/-- What is kept as it is. -/
theorem Field.cut_eq_self_iff {f : Field} {implied : Option UInt8} {bytes : List UInt8} :
    f.cut implied bytes = bytes ↔ f.Keeps implied bytes := by
  unfold cut Keeps
  cases f.terminatorOr implied with
  | none => simp
  | some t => simp [Buffer.cutAt_eq_self_iff]

/-- What a decoder gives for a step depends only on how it goes on from what the step gives. -/
theorem Decoder.run_bind_congr {α β : Type} {m : Decoder α} {f g : α → Decoder β} {p : Progress}
    (h : ∀ a p', m.Yields p a p' → (f a).run.run p' = (g a).run.run p') :
    (m >>= f).run.run p = (m >>= g).run.run p := by
  rw [run_bind, run_bind]
  cases hrun : m.run.run p with
  | mk result p' =>
      cases result with
      | error e => rfl
      | ok a => exact h a p' hrun

namespace Setting

variable {s : Setting} {custom : CustomDecoder} {ctx ctx' : Context} {f : Field} {name : String}
  {implied : Option UInt8} {p p' : Progress} {o : Outcome}

/-! ## Spans -/

theorem readSpan_rest {what : String} (h₀ : 0 ≤ ctx.offset)
    (hle : ctx.offset ≤ (s.buffer.length : Int)) :
    s.readSpan ctx f.toEnd what implied =
      pure (s.buffer.drop ctx.offset.toNat, s.buffer.length - ctx.offset) := by
  rw [readSpan_toEnd rfl rfl, Buffer.readRest_of_le h₀ hle]
  rfl

theorem readSpan_measured {what : String} (h₀ : 0 ≤ ctx.offset)
    (hle : ctx.offset ≤ (s.buffer.length : Int)) :
    s.readSpan ctx f.measured what implied =
      pure (f.cut implied (s.buffer.drop ctx.offset.toNat), s.buffer.length - ctx.offset) := by
  have hrequired (p : Progress) :
      (s.requireInt ctx.toPlace "size" f.measured.size (ctx.childId f.id)).Yields p
        (s.buffer.length - ctx.offset) p := by
    refine yields_requireInt.2 ⟨?_, rfl⟩
    unfold View.requireInt
    rw [show f.measured.size = .str "_io.size - _io.pos" from rfl, View.evaluate_rest]
    rfl
  -- From the offset on there are as many bytes as the size says.
  have hread : s.buffer.read ctx.offset (s.buffer.length - ctx.offset) =
      .ok (s.buffer.drop ctx.offset.toNat) := by
    refine Buffer.read_eq_ok_iff.2 ⟨⟨h₀, by omega, by omega⟩, ?_⟩
    rw [Buffer.slice, List.take_of_length_le]
    rw [List.length_drop]
    omega
  have hsized : s.buffer.readSized ctx.offset (s.buffer.length - ctx.offset)
      (f.measured.terminatorOr implied) f.measured.keepTerminator =
        .ok (f.cut implied (s.buffer.drop ctx.offset.toNat), s.buffer.length - ctx.offset) := by
    have hterminator : f.measured.terminatorOr implied = f.terminatorOr implied := rfl
    unfold Buffer.readSized Field.cut
    rw [hread, hterminator]
    cases f.terminatorOr implied <;> rfl
  rw [readSpan_sized rfl]
  refine Decoder.eq_pure fun p => Decoder.yields_bind.2 ⟨_, p, hrequired p, ?_⟩
  exact Decoder.yields_check.2 ⟨hsized, rfl⟩

/-! ## One value -/

/-- Where the spans are the same, so are the values that are made of them. -/
theorem decodeSingle_of_spans (hf : f.IsSpanned implied)
    (h : ∀ what, s.readSpan ctx f.measured what implied = s.readSpan ctx f.toEnd what implied) :
    s.decodeSingle custom ctx f.measured name = s.decodeSingle custom ctx f.toEnd name := by
  cases hf with
  | raw isRaw =>
      have hmeasured : f.measured.type = f.type := rfl
      have htoEnd : f.toEnd.type = f.type := rfl
      rw [decodeSingle_of_isRaw isRaw.measured, decodeSingle_of_isRaw isRaw.toEnd]
      simp only [readBytes, hmeasured, htoEnd, h]
      rfl
  | text type_eq primitive =>
      have htext := h "string type"
      rw [decodeSingle_of_text (f := f.measured) type_eq primitive,
        decodeSingle_of_text (f := f.toEnd) type_eq primitive]
      simp only [readText, htext]
      rfl

/-- Where the terminator cuts nothing off, a value is decoded alike. -/
theorem decodeSingle_measured (hf : f.IsSpanned implied) (h₀ : 0 ≤ ctx.offset)
    (hle : ctx.offset ≤ (s.buffer.length : Int))
    (hkeeps : f.Keeps implied (s.buffer.drop ctx.offset.toNat)) :
    s.decodeSingle custom ctx f.measured name = s.decodeSingle custom ctx f.toEnd name := by
  refine decodeSingle_of_spans hf fun what => ?_
  rw [readSpan_rest h₀ hle, readSpan_measured h₀ hle, Field.cut_eq_self_iff.2 hkeeps]

/-- A value that takes the rest of the buffer ends where the buffer does. -/
theorem next_of_toEnd (hf : f.IsSpanned implied) (h₀ : 0 ≤ ctx.offset)
    (hle : ctx.offset ≤ (s.buffer.length : Int))
    (h : (s.decodeSingle custom ctx f.toEnd name).Yields p o p') : o.next = s.buffer.length := by
  have hstop : ctx.offset + ((s.buffer.length : Int) - ctx.offset) = s.buffer.length := by omega
  cases hf with
  | raw isRaw =>
      rw [decodeSingle_of_isRaw isRaw.toEnd, readBytes_of_span fun _ => readSpan_rest h₀ hle,
        Decoder.yields_located, Decoder.yields_pure] at h
      rw [h.1]
      exact hstop
  | text type_eq primitive =>
      rw [decodeSingle_of_text (f := f.toEnd) type_eq primitive, Decoder.yields_located] at h
      simp only [readText, readSpan_rest h₀ hle, pure_bind, Decoder.yields_bind,
        Decoder.yields_pure] at h
      obtain ⟨_, _, _, _, _, _, rfl, -⟩ := h
      exact hstop

/-! ## Repetitions and fields -/

/-- Behind an element that takes the rest of the buffer there are only empty ones. -/
theorem decodeElements_measured {r : Repetition} {count : Option Int} {rounds index : Nat}
    {done : List Node} {cursor : Int} (hf : f.IsSpanned implied) (h₀ : 0 ≤ cursor)
    (hle : cursor ≤ (s.buffer.length : Int))
    (hkeeps : f.Keeps implied (s.buffer.drop cursor.toNat)) :
    (s.decodeElements custom ctx f.measured r count rounds index done cursor).run.run p =
      (s.decodeElements custom ctx f.toEnd r count rounds index done cursor).run.run p := by
  induction rounds generalizing index done cursor p with
  | zero => rfl
  | succ rounds ih =>
      have hsingle : s.decodeSingle custom (ctx.moveTo cursor) f.measured (elementName f.id index) =
          s.decodeSingle custom (ctx.moveTo cursor) f.toEnd (elementName f.id index) :=
        decodeSingle_measured hf h₀ hle hkeeps
      unfold decodeElements
      by_cases hover : s.isComplete r count index cursor = true
      · rw [if_pos hover, if_pos hover]
      rw [if_neg hover, if_neg hover]
      show (s.decodeSingle custom _ f.measured _ >>= _).run.run p = _
      rw [show f.measured.id = f.id from rfl, hsingle]
      refine Decoder.run_bind_congr fun o p₁ hrun => ?_
      have hnext : o.next = s.buffer.length := next_of_toEnd hf h₀ hle hrun
      refine Decoder.run_bind_congr fun holds p₂ _ => ?_
      cases holds with
      | true => rfl
      | false =>
          rw [if_neg Bool.false_ne_true, if_neg Bool.false_ne_true]
          by_cases hidle : count.isNone ∧ o.next ≤ cursor
          · rw [if_pos hidle, if_pos hidle]
            rfl
          · rw [if_neg hidle, if_neg hidle]
            -- Behind this element nothing is left, so the next ones are empty.
            refine ih (by omega) (by omega) ?_
            rw [hnext, Int.toNat_natCast, List.drop_length]
            exact Field.keeps_nil

/-- Where the terminator cuts nothing off, the field is decoded alike, once or repeatedly. -/
theorem decodeField_measured (hf : f.IsSpanned implied)
    (hplaced : (s.placed ctx f).Yields p ctx' p) (h₀ : 0 ≤ ctx'.offset)
    (hle : ctx'.offset ≤ (s.buffer.length : Int))
    (hkeeps : f.Keeps implied (s.buffer.drop ctx'.offset.toNat)) :
    (s.decodeField custom ctx f.measured).run.run p =
      (s.decodeField custom ctx f.toEnd).run.run p := by
  show (s.placed ctx f >>= _).run.run p = (s.placed ctx f >>= _).run.run p
  refine Decoder.run_bind_congr fun ctx₁ p₁ hrun => ?_
  obtain ⟨rfl, rfl⟩ := hplaced.unique hrun
  have hmeasured : f.measured.repetition = f.repetition := rfl
  have htoEnd : f.toEnd.repetition = f.repetition := rfl
  rw [hmeasured, htoEnd]
  cases f.repetition with
  | none =>
      show (s.decodeSingle custom ctx₁ f.measured f.id).run.run p₁ = _
      rw [decodeSingle_measured hf h₀ hle hkeeps]
      rfl
  | some r =>
      refine Decoder.run_bind_congr fun count p₂ _ => ?_
      dsimp only
      rw [Decoder.run_bind, Decoder.run_bind, decodeElements_measured hf h₀ hle hkeeps]
      rfl

theorem yields_decodeField_raw {bytes : List UInt8} {consumed : Int} (hf : f.IsRaw)
    (hplaced : (s.placed ctx f).Yields p ctx' p) (honce : f.repetition = none)
    (hspan : ∀ what, s.readSpan ctx' f what none = pure (bytes, consumed)) :
    (s.decodeField custom ctx f).Yields p
      (leaf ctx' f.id "bytes" consumed none (.bytes bytes) f.remarks) p := by
  unfold Decoder.Yields
  rw [run_decodeField hplaced honce, decodeSingle_of_isRaw hf, readBytes_of_span hspan]
  rfl

/-- How a field that starts at the offset of `ctx'` is decoded with its flag, and how with its size:
it is the same but for what the terminator cuts off. -/
structure ComparesRemainder (s : Setting) (custom : CustomDecoder) (ctx ctx' : Context) (f : Field)
    (implied : Option UInt8) (p : Progress) : Prop where
  /-- With the flag the bytes are all that are left. -/
  whole : ∀ what, s.readSpan ctx' f.toEnd what implied =
    pure (s.buffer.drop ctx'.offset.toNat, s.buffer.length - ctx'.offset)
  /-- With the size they are cut, and as many are consumed. -/
  cut : ∀ what, s.readSpan ctx' f.measured what implied =
    pure (f.cut implied (s.buffer.drop ctx'.offset.toNat), s.buffer.length - ctx'.offset)
  /-- When nothing is cut off, the field gives the same nodes, values, offsets, warnings and entries
  in the table, or the same failure. -/
  same : f.Keeps implied (s.buffer.drop ctx'.offset.toNat) →
    (s.decodeField custom ctx f.measured).run.run p = (s.decodeField custom ctx f.toEnd).run.run p
  /-- Else the bytes differ. -/
  differ : ¬ f.Keeps implied (s.buffer.drop ctx'.offset.toNat) →
    f.cut implied (s.buffer.drop ctx'.offset.toNat) ≠ s.buffer.drop ctx'.offset.toNat
  /-- And where they are the value, the fields do. -/
  unequal : f.IsRaw → f.repetition = none →
    ¬ f.Keeps implied (s.buffer.drop ctx'.offset.toNat) →
      (s.decodeField custom ctx f.measured).run.run p ≠ (s.decodeField custom ctx f.toEnd).run.run p

/-- **The rest of the buffer.** A field of text or raw bytes that starts in the buffer is decoded alike
with the flag and with the size, as far as its terminator cuts nothing off. -/
theorem decodeField_remainder (hf : f.IsSpanned implied)
    (hplaced : (s.placed ctx f).Yields p ctx' p) (h₀ : 0 ≤ ctx'.offset)
    (hle : ctx'.offset ≤ (s.buffer.length : Int)) :
    s.ComparesRemainder custom ctx ctx' f implied p where
  whole _ := readSpan_rest h₀ hle
  cut _ := readSpan_measured h₀ hle
  same hkeeps := decodeField_measured hf hplaced h₀ hle hkeeps
  differ hcuts := mt Field.cut_eq_self_iff.1 hcuts
  unequal hraw honce hcuts := by
    obtain rfl := hraw.implied_eq_none hf
    intro heq
    have hwhole : (s.decodeField custom ctx f.toEnd).Yields p _ p :=
      yields_decodeField_raw hraw.toEnd hplaced honce fun _ => readSpan_rest h₀ hle
    have hcut : (s.decodeField custom ctx f.measured).Yields p _ p :=
      yields_decodeField_raw hraw.measured hplaced honce fun _ => readSpan_measured h₀ hle
    have hsame : (s.decodeField custom ctx f.toEnd).Yields p _ p := heq.symm.trans hcut
    have hbytes := congrArg (fun o => o.node.value) (hwhole.unique hsame).1
    exact hcuts (Field.cut_eq_self_iff.1 (Value.bytes.inj hbytes))

end Setting

/-- Terminated text. -/
def Field.tail : Field := { id := "a", type := .named "strz", encoding := some "ascii" }

/-- From the second byte on there is no zero, so the text is the rest of the buffer in both ways. -/
theorem Setting.decodeField_remainder_tail :
    Field.tail.IsSpanned (some 0) ∧
      ((Setting.of [0, 0x61, 0x62]).placed (Context.moveTo {} 1) .tail).Yields {}
        (Context.moveTo {} 1) {} ∧
      Field.tail.Keeps (some 0) ((Setting.of [0, 0x61, 0x62]).buffer.drop 1) ∧
      (Setting.of [0, 0x61, 0x62]).ComparesRemainder ((Setting.of [0, 0x61, 0x62]).nested 0)
        (Context.moveTo {} 1) (Context.moveTo {} 1) .tail (some 0) {} := by
  have hstrz : Primitive.ofName? "strz" = some (.text true) := by decide
  have hspanned : Field.tail.IsSpanned (some 0) := .text rfl hstrz
  have hplaced : ((Setting.of [0, 0x61, 0x62]).placed (Context.moveTo {} 1) .tail).Yields {}
      (Context.moveTo {} 1) {} := rfl
  refine ⟨hspanned, hplaced, ?_,
    decodeField_remainder hspanned hplaced (by decide) (by decide)⟩
  intro t ht
  obtain rfl : 0 = t := Option.some.inj ht
  exact .inl (by decide)

/-- The text ends at a zero with the size, and goes on behind it with the flag. -/
theorem Setting.decodeField_measured_zero :
    ((((Setting.of [0x61, 0, 0x62]).decodeField ((Setting.of [0x61, 0, 0x62]).nested 0) {}
        Field.tail.measured).run.run {}).1.toOption.map fun o => (o.next, o.node.value.text)) =
      some (3, "a") ∧
    ((((Setting.of [0x61, 0, 0x62]).decodeField ((Setting.of [0x61, 0, 0x62]).nested 0) {}
        Field.tail.toEnd).run.run {}).1.toOption.map fun o => (o.next, o.node.value.text)) =
      some (3, "a\x00b") := by
  decide +kernel

end ByteSchema
