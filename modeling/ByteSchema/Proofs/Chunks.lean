import Mathlib.Algebra.BigOperators.Group.List.Basic
import ByteSchema.Proofs.Replay
import ByteSchema.Proofs.Span

/-!
# ByteSchema.Proofs.Chunks

Arrays up to the end of the buffer, made of chunks.

Where each element is decoded from a chunk of bytes of its own, whatever stands behind it
(`Setting.DecodesChunks`), the loop over the elements goes through the chunks one by one. What it
keeps on the way is that no warning is given and that nothing is written yet under the names of the
elements to come (`Setting.Untouched`). Behind the last chunk it is at the end of the buffer, or at
bytes that are no chunk; then it fails as the element there does.

The array is the only field of its schema (`Schema.arrayOf`), so this says all about the decode.
-/

namespace ByteSchema

/-- The buffer is within the bounds that stand for "none": a repetition has a round for each of its
bytes, and the digits of its length can be written. -/
structure Options.Admit (options : Options) (buffer : Buffer) : Prop where
  rounds : buffer.length < options.maxRounds
  words : Value.isOverlong buffer.length = false

namespace Setting

/-- The offsets in a buffer have no more digits than its length. -/
theorem HasLeft.not_isOverlong {s : Setting} {offset : Int} {left : List UInt8}
    (h : s.HasLeft offset left) (hwords : Value.isOverlong s.buffer.length = false) :
    Value.isOverlong offset = false := by
  obtain ⟨front, hbuffer, rfl⟩ := h
  have hle : front.length ≤ s.buffer.length := by simp [hbuffer]
  cases hlong : Value.isOverlong front.length with
  | false => rfl
  | true =>
      rw [Value.isOverlong_mono hle hlong] at hwords
      cases hwords

/-! ## The loop -/

section

variable {α : Type} {s : Setting} {custom : CustomDecoder} {ctx : Context} {f : Field}
  {bytesOf : α → List UInt8} {valueOf : α → Value} {items : List α} {index : Nat} {cursor : Int}
  {rest : List UInt8} {p : Progress}

/-- No warning is given, and nothing is written under the names of the elements from `index` on. -/
structure Untouched (ctx : Context) (f : Field) (index : Nat) (p : Progress) : Prop where
  quiet : p.warnings = []
  vacant : ∀ i ≥ index, p.values.Vacant ctx.path (elementName f.id i)

theorem untouched_start (ctx : Context) (f : Field) : Untouched ctx f 0 {} :=
  ⟨rfl, fun _ _ _ _ => rfl⟩

theorem Untouched.next {p' : Progress} {o : Outcome} (h : Untouched ctx f index p)
    (ho : o.Coheres (ctx.moveTo cursor) (elementName f.id index) p p')
    (hquiet : p'.warnings = p.warnings) : Untouched ctx f (index + 1) p' where
  quiet := hquiet.trans h.quiet
  vacant i hi := by
    have hvacant : p.values.Vacant (ctx.moveTo cursor).path (elementName f.id i) :=
      h.vacant i (Nat.le_of_succ_le hi)
    exact hvacant.next ho (Nat.ne_of_lt hi)

/-- Each of the items is decoded as an element from its chunk of bytes, of which there is at least
one. -/
structure DecodesChunks (s : Setting) (custom : CustomDecoder) (ctx : Context) (f : Field)
    (bytesOf : α → List UInt8) (valueOf : α → Value) (items : List α) : Prop where
  nonempty : ∀ a ∈ items, bytesOf a ≠ []
  element : ∀ a ∈ items, ∀ {index cursor rest p}, s.HasLeft cursor (bytesOf a ++ rest) →
    Untouched ctx f index p →
      ∃ o p', (s.decodeSingle custom (ctx.moveTo cursor) f (elementName f.id index)).Yields p o p' ∧
        o.node.value = valueOf a ∧ s.HasLeft o.next rest ∧ p'.warnings = p.warnings

theorem DecodesChunks.tail {a : α} (h : s.DecodesChunks custom ctx f bytesOf valueOf (a :: items)) :
    s.DecodesChunks custom ctx f bytesOf valueOf items where
  nonempty b hb := h.nonempty b (List.mem_cons_of_mem a hb)
  element b hb := h.element b (List.mem_cons_of_mem a hb)

/-- A loop with bytes left is not complete, and without any it is. -/
theorem HasLeft.isComplete_toEnd {left : List UInt8} (h : s.HasLeft cursor left) :
    s.isComplete .toEnd none index cursor = decide (left = []) := by
  have hoffset := h.offset_eq
  have hlength : (s.buffer.length : Int) ≤ cursor ↔ left = [] := by
    rw [← List.length_eq_zero_iff]
    omega
  exact decide_eq_decide.2 hlength

/-- What takes bytes away leads on. -/
theorem HasLeft.lt_of_append {front rest : List UInt8} {next : Int}
    (h : s.HasLeft cursor (front ++ rest)) (hnext : s.HasLeft next rest) (hfront : front ≠ []) :
    cursor < next := by
  have hstart := h.offset_eq
  have hstop := hnext.offset_eq
  have hpos := List.length_pos_iff.2 hfront
  rw [List.length_append] at hstart
  omega

/-- A round behind which the loop goes on. -/
theorem decodeElements_round {r : Repetition} {count : Option Int} {rounds : Nat} {done : List Node}
    {o : Outcome} {p₁ : Progress} (hmore : s.isComplete r count index cursor = false)
    (hsingle : (s.decodeSingle custom (ctx.moveTo cursor) f (elementName f.id index)).Yields p o p₁)
    (hfails : (s.isSatisfied r ctx index o.node.value o.next).Yields p₁ false p₁)
    (hmoves : ¬ (count.isNone ∧ o.next ≤ cursor)) :
    (s.decodeElements custom ctx f r count (rounds + 1) index done cursor).run.run p =
      (s.decodeElements custom ctx f r count rounds (index + 1) (o.node :: done) o.next).run.run
        p₁ := by
  unfold Decoder.Yields at hsingle hfails
  rw [decodeElements, hmore, if_neg Bool.false_ne_true, Decoder.run_bind, hsingle]
  dsimp only
  rw [Decoder.run_bind, hfails]
  dsimp only
  rw [if_neg Bool.false_ne_true, if_neg hmoves]

/-- The loop goes through the chunks, with a round for each, and stands behind them. -/
theorem DecodesChunks.through (h : s.DecodesChunks custom ctx f bytesOf valueOf items)
    (hcustom : CoheresCustom custom) (hctx : ctx.Every Field.IsNamed)
    (hleft : s.HasLeft cursor (items.flatMap bytesOf ++ rest)) (hp : Untouched ctx f index p) :
    ∃ (nodes : List Node) (cursor' : Int) (p' : Progress),
      nodes.map Node.value = items.map valueOf ∧ s.HasLeft cursor' rest ∧
      Untouched ctx f (index + items.length) p' ∧
      ∀ rounds done,
        (s.decodeElements custom ctx f .toEnd none (items.length + rounds) index done cursor).run.run
            p =
          (s.decodeElements custom ctx f .toEnd none rounds (index + items.length)
            (nodes.reverse ++ done) cursor').run.run p' := by
  induction items generalizing index cursor p with
  | nil =>
      refine ⟨[], cursor, p, rfl, hleft, hp, fun rounds done => ?_⟩
      rw [List.length_nil, Nat.zero_add]
      rfl
  | cons a items ih =>
      rw [List.flatMap_cons, List.append_assoc] at hleft
      have hnonempty : bytesOf a ≠ [] := h.nonempty a List.mem_cons_self
      have hmore : s.isComplete .toEnd none index cursor = false := by
        rw [hleft.isComplete_toEnd]
        simp [hnonempty]
      obtain ⟨o, p₁, hsingle, hvalue, hbehind, hquiet⟩ :=
        h.element a List.mem_cons_self hleft hp
      have ho := decodeSingle_coheres hsingle hcustom hctx elementName_ne_empty
      obtain ⟨nodes, cursor', p', hvalues, hrest, hp', hloop⟩ :=
        ih h.tail hbehind (hp.next ho hquiet)
      have hindex : index + 1 + items.length = index + (a :: items).length := by
        rw [List.length_cons]
        omega
      rw [hindex] at hp' hloop
      refine ⟨o.node :: nodes, cursor', p', by simp [hvalue, hvalues], hrest, hp',
        fun rounds done => ?_⟩
      have hmoves : ¬ ((none : Option Int).isNone ∧ o.next ≤ cursor) := fun hidle =>
        Int.not_le.2 (hleft.lt_of_append hbehind hnonempty) hidle.2
      have hrounds : (a :: items).length + rounds = items.length + rounds + 1 := by
        rw [List.length_cons]
        omega
      have hreverse : (o.node :: nodes).reverse ++ done = nodes.reverse ++ (o.node :: done) := by simp
      rw [hrounds, hreverse, ← hloop]
      exact decodeElements_round hmore hsingle rfl hmoves

/-- Where the chunks are all that is left, the loop ends with them. -/
theorem DecodesChunks.yields {rounds : Nat}
    (h : s.DecodesChunks custom ctx f bytesOf valueOf items) (hcustom : CoheresCustom custom)
    (hctx : ctx.Every Field.IsNamed) (hleft : s.HasLeft cursor (items.flatMap bytesOf))
    (hp : Untouched ctx f 0 p) (hrounds : items.length < rounds) :
    ∃ (nodes : List Node) (p' : Progress), nodes.map Node.value = items.map valueOf ∧
      p'.warnings = [] ∧
      (s.decodeElements custom ctx f .toEnd none rounds 0 [] cursor).Yields p
        (nodes, s.buffer.length) p' := by
  rw [← List.append_nil (items.flatMap bytesOf)] at hleft
  obtain ⟨nodes, cursor', p', hvalues, hend, hp', hloop⟩ := h.through hcustom hctx hleft hp
  have hcursor : cursor' = s.buffer.length := by simpa using hend.offset_eq
  have hover : s.isComplete .toEnd none (0 + items.length) cursor' = true := by
    rw [hend.isComplete_toEnd]
    simp
  refine ⟨nodes, p', hvalues, hp'.quiet, ?_⟩
  obtain ⟨left, rfl⟩ : ∃ left, rounds = items.length + (left + 1) :=
    ⟨rounds - items.length - 1, by omega⟩
  unfold Decoder.Yields
  rw [hloop, decodeElements, if_pos hover, hcursor, List.append_nil, List.reverse_reverse]
  rfl

/-- Where bytes stand behind the chunks at which the next element fails, the loop fails as it does. -/
theorem DecodesChunks.fails {rounds : Nat} {path : String}
    (h : s.DecodesChunks custom ctx f bytesOf valueOf items) (hcustom : CoheresCustom custom)
    (hctx : ctx.Every Field.IsNamed) (hleft : s.HasLeft cursor (items.flatMap bytesOf ++ rest))
    (hrest : rest ≠ []) (hp : Untouched ctx f 0 p) (hrounds : items.length < rounds)
    (hfails : ∀ {cursor p}, s.HasLeft cursor rest → Untouched ctx f items.length p →
      (s.decodeSingle custom (ctx.moveTo cursor) f (elementName f.id items.length)).StopsAt p path) :
    (s.decodeElements custom ctx f .toEnd none rounds 0 [] cursor).StopsAt p path := by
  obtain ⟨nodes, cursor', p', -, hend, hp', hloop⟩ := h.through hcustom hctx hleft hp
  rw [Nat.zero_add] at hp'
  obtain ⟨c, hkind, hsingle⟩ := hfails hend hp'
  have hmore : ¬ s.isComplete .toEnd none (0 + items.length) cursor' = true := by
    rw [hend.isComplete_toEnd]
    simp [hrest]
  refine ⟨c, hkind, ?_⟩
  obtain ⟨left, rfl⟩ : ∃ left, rounds = items.length + (left + 1) :=
    ⟨rounds - items.length - 1, by omega⟩
  unfold Decoder.Fails
  rw [hloop, decodeElements, if_neg hmore, Nat.zero_add]
  exact hsingle.bind_left _

/-- There are no more chunks than bytes. -/
theorem DecodesChunks.length_le (h : s.DecodesChunks custom ctx f bytesOf valueOf items) :
    items.length ≤ (items.flatMap bytesOf).length := by
  rw [List.length_flatMap, ← List.length_map (fun a => (bytesOf a).length)]
  refine List.length_le_sum_of_one_le _ fun n hn => ?_
  obtain ⟨a, ha, rfl⟩ := List.mem_map.1 hn
  exact List.length_pos_iff.2 (h.nonempty a ha)

end

end Setting

/-! ## A schema of one array -/

namespace Schema

/-- The schema of an array up to the end of the buffer. -/
def arrayOf (info : Meta) (types : Types) (f : Field) : Schema where
  info := info
  seq := some [f.repeatedBy .toEnd]
  types := types

/-- The type of its root. -/
def arrayType (info : Meta) (types : Types) (f : Field) : TypeDef where
  seq := [f.repeatedBy .toEnd]
  types := types
  endian := info.endian

/-- Where the elements are decoded. -/
def elementContext (info : Meta) (types : Types) (f : Field) : Context :=
  Setting.inside { endian := (arrayOf info types f).endian }
    ((arrayOf info types f).rootInstance (arrayType info types f))

theorem rootType?_arrayOf (info : Meta) (types : Types) (f : Field) :
    (arrayOf info types f).rootType? = some (arrayType info types f) := rfl

/-- The elements have the byte order of the schema. -/
theorem endian_elementContext (info : Meta) (types : Types) (f : Field) :
    (elementContext info types f).endian = info.endian.getD .big := by
  show info.endian.getD (info.endian.getD .big) = _
  cases info.endian <;> rfl

section

variable {info : Meta} {types : Types} {f : Field} {options : Options} {buffer : Buffer}
  {depth : Nat}

theorem elementContext_every (hid : ∀ g ∈ (arrayOf info types f).fields, g.id ≠ "") :
    (elementContext info types f).Every Field.IsNamed :=
  (rootInstance_every (rootType?_arrayOf info types f) hid).every

/-- The root is decoded as the array is. -/
theorem decode_arrayOf {nodes : List Node} {p : Progress}
    (hid : ∀ g ∈ (arrayOf info types f).fields, g.id ≠ "") (hunplaced : f.position = .null)
    (hunconditional : f.condition = .null) (hdepth : options.maxDepth.toNat = depth + 1)
    (h : (((arrayOf info types f).setting options buffer).decodeElements
      (((arrayOf info types f).setting options buffer).nested depth) (elementContext info types f) f
      .toEnd none options.maxRounds 0 [] 0).Yields {} (nodes, buffer.length) p) :
    ∃ result, (arrayOf info types f).decode options buffer = .ok result ∧ result.success = true ∧
      result.data = [(f.id, .tuple (nodes.map Node.value))] ∧ result.consumed = buffer.length ∧
      result.warnings = p.warnings := by
  have hnamed : (f.repeatedBy .toEnd).IsNamed :=
    (rootInstance_every (rootType?_arrayOf info types f) hid).seq (List.mem_singleton_self _)
  let s := (arrayOf info types f).setting options buffer
  let ctx := elementContext info types f
  let node := Setting.arrayNode ctx f .toEnd nodes buffer.length
  have hfield : (s.decodeField (s.nested depth) ctx (f.repeatedBy .toEnd)).Yields {}
      ⟨node, buffer.length⟩ p := by
    rw [Setting.decodeField_repeatedBy]
    refine Decoder.yields_bind.2 ⟨ctx, {}, Setting.yields_placed_self hunplaced, ?_⟩
    refine Decoder.yields_bind.2 ⟨none, {}, rfl, ?_⟩
    exact Decoder.yields_bind.2 ⟨(nodes, buffer.length), p, h, rfl⟩
  -- What the elements have written stands below the array, whose own path is free.
  have hcoheres := Setting.decodeField_coheres hfield Setting.coheresCustom_nested
    (elementContext_every hid) hnamed
  have hvacant : ({} : Progress).values.Vacant ctx.path f.id := fun _ _ => rfl
  have hrecord : (Decoder.record node.id node.value).Yields p () (p.write node.id node.value) :=
    Decoder.yields_record.2 ⟨hvacant.get?_id hcoheres hnamed, rfl⟩
  have hfields : (s.decodeFields (s.nested depth) [f.repeatedBy .toEnd] ctx []).Yields {}
      ([node], [(f.id, node.value)], (buffer.length : Int)) (p.write node.id node.value) := by
    refine Decoder.yields_bind.2 ⟨true, {}, Setting.yields_isPresent hunconditional, ?_⟩
    refine Decoder.yields_bind.2 ⟨_, p, hfield, ?_⟩
    exact Decoder.yields_bind.2 ⟨(), _, hrecord, rfl⟩
  have hroot : ((arrayOf info types f).decodeRoot options (arrayType info types f) buffer).Yields {}
      ⟨s.instanceNode { endian := (arrayOf info types f).endian }
        ((arrayOf info types f).rootInstance (arrayType info types f)) [node] [(f.id, node.value)]
        buffer.length, buffer.length⟩ (p.write node.id node.value) := by
    unfold decodeRoot
    rw [hdepth]
    exact Decoder.yields_bind.2 ⟨_, _, hfields, rfl⟩
  refine ⟨_, decode_of_yields (rootType?_arrayOf info types f) hroot, rfl, rfl, ?_, rfl⟩
  show (0 : Int) + max 0 (buffer.length - 0) = buffer.length
  omega

/-- Where the array fails with an error that names a path, the decode ends with it. -/
theorem decode_arrayOf_fails {c : Cause} {path : String} (hunplaced : f.position = .null)
    (hunconditional : f.condition = .null) (hdepth : options.maxDepth.toNat = depth + 1)
    (h : (((arrayOf info types f).setting options buffer).decodeElements
      (((arrayOf info types f).setting options buffer).nested depth) (elementContext info types f) f
      .toEnd none options.maxRounds 0 [] 0).Fails {} (.error ⟨c, some path⟩)) :
    ∃ warnings, (arrayOf info types f).decode options buffer =
      .ok (failed ⟨c, some path⟩ warnings) := by
  let s := (arrayOf info types f).setting options buffer
  let ctx := elementContext info types f
  have hfield : (s.decodeField (s.nested depth) ctx (f.repeatedBy .toEnd)).Fails {}
      (.error ⟨c, some path⟩) := by
    rw [Setting.decodeField_repeatedBy]
    refine (Setting.yields_placed_self hunplaced).bind_fails ?_
    have hcount : (s.repeatCount ctx f .toEnd).Yields {} none {} := rfl
    exact hcount.bind_fails (h.bind_left _)
  have hfields : (s.decodeFields (s.nested depth) [f.repeatedBy .toEnd] ctx []).Fails {}
      (.error ⟨c, some path⟩) :=
    Setting.decodeFields_fails (Setting.yields_isPresent hunconditional) hfield
  refine decode_of_fails (rootType?_arrayOf info types f) ?_
  unfold decodeRoot
  rw [hdepth]
  exact Decoder.Fails.bind_left hfields _

variable {α : Type} {bytesOf : α → List UInt8} {valueOf : α → Value} {items : List α}

/-- A buffer of chunks is decoded to the values of the items, in order, and no warning is given. -/
theorem decode_chunks (hid : ∀ g ∈ (arrayOf info types f).fields, g.id ≠ "")
    (hunplaced : f.position = .null) (hunconditional : f.condition = .null)
    (hdepth : options.maxDepth.toNat = depth + 1) (hrounds : buffer.length < options.maxRounds)
    (h : ((arrayOf info types f).setting options buffer).DecodesChunks
      (((arrayOf info types f).setting options buffer).nested depth) (elementContext info types f) f
      bytesOf valueOf items)
    (hbuffer : buffer = items.flatMap bytesOf) :
    ∃ result, (arrayOf info types f).decode options buffer = .ok result ∧ result.success = true ∧
      result.data = [(f.id, .tuple (items.map valueOf))] ∧ result.consumed = buffer.length ∧
      result.warnings = [] := by
  have hlength := h.length_le
  rw [← hbuffer] at hlength
  obtain ⟨nodes, p, hvalues, hquiet, hrun⟩ := h.yields Setting.coheresCustom_nested
    (elementContext_every hid) ⟨[], hbuffer, rfl⟩ (Setting.untouched_start _ f)
    (Nat.lt_of_le_of_lt hlength hrounds)
  obtain ⟨result, hresult, hsuccess, hdata, hconsumed, hwarnings⟩ :=
    decode_arrayOf hid hunplaced hunconditional hdepth hrun
  rw [hvalues] at hdata
  exact ⟨result, hresult, hsuccess, hdata, hconsumed, hwarnings.trans hquiet⟩

/-- Behind the chunks, bytes at which the next element runs out make the decode end there: there is
no tree, and one error. -/
theorem decode_chunks_stops {rest : List UInt8} {path : String}
    (hid : ∀ g ∈ (arrayOf info types f).fields, g.id ≠ "")
    (hunplaced : f.position = .null) (hunconditional : f.condition = .null)
    (hdepth : options.maxDepth.toNat = depth + 1) (hrounds : buffer.length < options.maxRounds)
    (h : ((arrayOf info types f).setting options buffer).DecodesChunks
      (((arrayOf info types f).setting options buffer).nested depth) (elementContext info types f) f
      bytesOf valueOf items)
    (hbuffer : buffer = items.flatMap bytesOf ++ rest) (hrest : rest ≠ [])
    (hfails : ∀ {cursor p}, ((arrayOf info types f).setting options buffer).HasLeft cursor rest →
      Setting.Untouched (elementContext info types f) f items.length p →
        (((arrayOf info types f).setting options buffer).decodeSingle
          (((arrayOf info types f).setting options buffer).nested depth)
          ((elementContext info types f).moveTo cursor) f
          (Setting.elementName f.id items.length)).StopsAt p path) :
    ∃ result message, (arrayOf info types f).decode options buffer = .ok result ∧
      result.root = none ∧ result.errors = [⟨message, some path, "BoundsError"⟩] := by
  have hlength := h.length_le
  have hbuffer' := congrArg List.length hbuffer
  rw [List.length_append] at hbuffer'
  have henough : items.length < options.maxRounds := by omega
  obtain ⟨c, hkind, hrun⟩ := h.fails Setting.coheresCustom_nested
    (elementContext_every hid) ⟨[], hbuffer, rfl⟩ hrest (Setting.untouched_start _ f) henough hfails
  obtain ⟨warnings, hdecode⟩ := decode_arrayOf_fails hunplaced hunconditional hdepth hrun
  refine ⟨_, c.message, hdecode, rfl, ?_⟩
  show [(⟨c.message, some path, c.kind.name⟩ : Diagnostic)] = _
  rw [hkind]
  rfl

end

end Schema

end ByteSchema
