import ByteSchema.Proofs.Chunks

/-!
# ByteSchema.Proofs.TerminatedList

Lists of byte strings, each with a terminator behind it.

An array of raw bytes up to a terminator splits the buffer at every terminator, also where two stand
side by side or one stands in front. The strings that were written are what is read, as long as
none holds the terminator (`Schema.splits_arrayOf`). What stands behind the last terminator is no
string, unless it is nothing: the decode fails at the element that it would be.
-/

namespace ByteSchema

/-- What the field gives for a string. -/
def Field.kept (f : Field) (t : UInt8) (string : List UInt8) : Value :=
  .bytes (if f.keepTerminator then string ++ [t] else string)

/-- Lines with their line ends. -/
def Field.lines : Field :=
  { id := "lines", terminator := some (.byte 10), keepTerminator := true }

namespace Setting

variable {s : Setting} {custom : CustomDecoder} {ctx : Context} {f : Field} {t : UInt8}
  {name what : String} {string rest : List UInt8} {p : Progress}

/-- A string with the terminator behind it is decoded, and the terminator is left behind. -/
theorem decodeSingle_terminated (htype : f.type = .untyped) (hf : f.EndsAt none t)
    (hfree : t ∉ string) (hleft : s.HasLeft ctx.offset ((string ++ [t]) ++ rest)) :
    ∃ o, (s.decodeSingle custom ctx f name).Yields p o p ∧ o.node.value = f.kept t string ∧
      s.HasLeft o.next rest := by
  refine ⟨leaf ctx name "bytes" (string ++ [t]).length none (f.kept t string) f.remarks, ?_, rfl,
    hleft.past⟩
  rw [decodeSingle_of_isRaw (.untyped htype),
    readBytes_of_span fun _ => readSpan_of_first hf hfree hleft]
  rfl

/-- Bytes without the terminator are no string. -/
theorem decodeSingle_unterminated (htype : f.type = .untyped) (hf : f.EndsAt none t)
    (hfree : t ∉ rest) (hleft : s.HasLeft ctx.offset rest)
    (hwords : Value.isOverlong s.buffer.length = false) :
    (s.decodeSingle custom ctx f name).StopsAt p (ctx.childId name) := by
  obtain ⟨-, hdrop⟩ := hleft.drop_eq
  have hshort : RunsShort (s.buffer.readTerminated ctx.offset t f.keepTerminator true)
      [ctx.offset] :=
    Buffer.readTerminated_runsShort (.inr (.inr (hdrop ▸ hfree)))
  rw [decodeSingle_of_isRaw (.untyped htype), readBytes, readSpan_endsAt hf]
  exact hshort.stopsAt (List.forall_mem_singleton.2 (hleft.not_isOverlong hwords))

theorem decodesChunks_terminated {strings : List (List UInt8)} (htype : f.type = .untyped)
    (hf : f.EndsAt none t) (hfree : ∀ string ∈ strings, t ∉ string) :
    s.DecodesChunks custom ctx f (· ++ [t]) (f.kept t) strings where
  nonempty string _ := by simp
  element string hstring index cursor rest p hleft _ := by
    have hleft : s.HasLeft (ctx.moveTo cursor).offset ((string ++ [t]) ++ rest) := hleft
    obtain ⟨o, hrun, hvalue, hrest⟩ := decodeSingle_terminated htype hf (hfree string hstring) hleft
    exact ⟨o, p, hrun, hvalue, hrest, rfl⟩

end Setting

namespace Schema

/-- To decode is to split at the terminator: the way back from writing it behind each of the
strings. -/
structure Splits (schema : Schema) (options : Options) (f : Field) (t : UInt8)
    (strings : List (List UInt8)) : Prop where
  /-- What was written is read, to the last byte and without a warning. -/
  decoded : options.Admit (strings.flatMap (· ++ [t])) → ∃ result,
    schema.decode options (strings.flatMap (· ++ [t])) = .ok result ∧ result.success = true ∧
      result.data = [(f.id, .tuple (strings.map (f.kept t)))] ∧
      result.consumed = (strings.flatMap (· ++ [t])).length ∧ result.warnings = []
  /-- With a rest that is not terminated there is no tree, and one error, at the element behind the
  strings. -/
  unterminated : ∀ rest, rest ≠ [] → t ∉ rest → options.Admit (strings.flatMap (· ++ [t]) ++ rest) →
    ∃ result message, schema.decode options (strings.flatMap (· ++ [t]) ++ rest) = .ok result ∧
      result.root = none ∧ result.errors =
        [⟨message, some (nodeIdOf [schema.rootId, Setting.elementName f.id strings.length]),
          "BoundsError"⟩]

/-- **Terminated lists.** An array of raw bytes with a terminator splits the buffer, whichever byte it
is and whether or not it is kept, into the strings that were written without it. -/
theorem splits_arrayOf {info : Meta} {f : Field} {t : UInt8} {options : Options}
    {strings : List (List UInt8)} (htype : f.type = .untyped) (hf : f.EndsAt none t)
    (hnamed : f.id ≠ "") (hunplaced : f.position = .null) (hunconditional : f.condition = .null)
    (hdepth : 0 < options.maxDepth) (hfree : ∀ string ∈ strings, t ∉ string) :
    (arrayOf info [] f).Splits options f t strings := by
  obtain ⟨depth, hdepth⟩ : ∃ depth, options.maxDepth.toNat = depth + 1 :=
    ⟨options.maxDepth.toNat - 1, by omega⟩
  have hid : ∀ g ∈ (arrayOf info [] f).fields, g.id ≠ "" := List.forall_mem_singleton.2 hnamed
  refine ⟨fun hadmits => ?_, fun rest hrest hunterminated hadmits => ?_⟩
  · exact decode_chunks hid hunplaced hunconditional hdepth hadmits.rounds
      (Setting.decodesChunks_terminated htype hf hfree) rfl
  · refine decode_chunks_stops hid hunplaced hunconditional hdepth hadmits.rounds
      (Setting.decodesChunks_terminated htype hf hfree) rfl hrest ?_
    intro cursor p hleft _
    have hleft : Setting.HasLeft _ ((elementContext info [] f).moveTo cursor).offset rest := hleft
    exact Setting.decodeSingle_unterminated htype hf hunterminated hleft hadmits.words

/-- Three lines, of which the second is empty. -/
theorem splits_arrayOf_lines :
    Field.lines.EndsAt none 10 ∧ (∀ line ∈ [[0x61], [], [0x62, 0x63]], (10 : UInt8) ∉ line) ∧
      ({} : Options).Admit [0x61, 10, 10, 0x62, 0x63, 10] ∧
      (arrayOf {} [] .lines).Splits {} .lines 10 [[0x61], [], [0x62, 0x63]] := by
  have hends : Field.lines.EndsAt none 10 := ⟨rfl, rfl, rfl, rfl⟩
  have hfree : ∀ line ∈ [[0x61], [], [0x62, 0x63]], (10 : UInt8) ∉ line := by decide
  exact ⟨hends, hfree, ⟨by decide, by decide +kernel⟩,
    splits_arrayOf rfl hends (by decide) rfl rfl (by decide) hfree⟩

end Schema

end ByteSchema
