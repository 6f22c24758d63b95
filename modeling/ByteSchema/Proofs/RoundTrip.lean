import ByteSchema.Proofs.Coherence
import ByteSchema.Proofs.Follows
import ByteSchema.Proofs.Layout

/-!
# ByteSchema.Proofs.RoundTrip

Schemas with a fixed layout, and decoding as the inverse of writing.

A schema has a fixed layout when its fields are integers, raw bytes of literal sizes and instances of
such types, possibly repeated a literal number of times, and all are read one behind the other
(`Schema.HasLayout`). What each decoder does with such a field is what `Layout.read?` does with the
bytes that are left of the buffer (`Setting.Decodes`), for the table of values never stands in the
way: below the name of a field that is still to come nothing is written (`ValueTable.Vacant`). The
decoders of nested instances are a parameter as before, and the induction is on the number of
instances that may be nested.
-/

namespace ByteSchema

/-! ## Schemas with a fixed layout -/

/-- Whatever is decoded, the expression has the value `n`. -/
def Value.IsLiteral (expr : Value) (n : Nat) : Prop :=
  ∀ view : View, view.evaluate expr = .ok (some (.int n))

theorem Value.isLiteral_int (n : Nat) : (Value.int n).IsLiteral n := fun _ => rfl

theorem Value.IsLiteral.isNull {expr : Value} {n : Nat} (h : expr.IsLiteral n) :
    expr.isNull = false := by
  cases expr with
  | null => cases h default
  | _ => rfl

namespace Field

/-- The layout of one value of the field, in a byte order and where the type names in `types` have
these layouts. -/
inductive OneHasLayout (endian : Endian) (types : String → Layout → Prop) (f : Field) :
    Layout → Prop
  | integer {typeName : String} {width : Nat} {signed : Bool} {suffix : Option Endian}
      (type_eq : f.type = .named typeName)
      (primitive : Primitive.ofName? typeName = some (.integer width signed suffix)) :
      OneHasLayout endian types f (.integer width signed (suffix.getD endian))
  | untyped {n : Nat} (type_eq : f.type = .untyped) (size : f.size.IsLiteral n)
      (unterminated : f.terminator = none) : OneHasLayout endian types f (.bytes n)
  | bytes {typeName : String} {n : Nat} (type_eq : f.type = .named typeName)
      (primitive : Primitive.ofName? typeName = some .bytes) (size : f.size.IsLiteral n)
      (unterminated : f.terminator = none) : OneHasLayout endian types f (.bytes n)
  | custom {typeName : String} {l : Layout} (type_eq : f.type = .named typeName)
      (custom : Primitive.ofName? typeName = none) (found : types typeName l) :
      OneHasLayout endian types f l

/-- The layout of all values of the field. -/
inductive AllHaveLayout (maxCount : Int) (endian : Endian) (types : String → Layout → Prop)
    (f : Field) : Layout → Prop
  | once {l : Layout} (once : f.repetition = none) (one : f.OneHasLayout endian types l) :
      AllHaveLayout maxCount endian types f l
  | repeated {expr : Value} {count : Nat} {l : Layout}
      (repeated : f.repetition = some (.count expr)) (literal : expr.IsLiteral count)
      (allowed : count ≤ maxCount) (one : f.OneHasLayout endian types l) :
      AllHaveLayout maxCount endian types f (.array count l)

/-- The field is always there, right behind the one before, and has this layout. -/
structure HasLayout (maxCount : Int) (endian : Endian) (types : String → Layout → Prop) (f : Field)
    (l : Layout) : Prop where
  unplaced : f.position = .null
  unconditional : f.condition = .null
  all : f.AllHaveLayout maxCount endian types l

end Field

/-- The layout of an instance of a named type, where instances of types have their layouts by
`holds`. The byte order in it is that of the type, or else the one around. -/
def TypeChain.HasLayout (holds : TypeChain → Endian → TypeDef → List (String × Layout) → Prop)
    (chain : TypeChain) (endian : Endian) (typeName : String) (l : Layout) : Prop :=
  ∃ definition around fields, chain.lookup? typeName = some (definition, around) ∧
    l = .record fields ∧ holds around (definition.endian.getD endian) definition fields

/-- The layout of an instance of a type, given the chain of the type and the byte order in it, if at
most `depth` instances are nested in each other. -/
def TypeDef.HasLayout (maxCount : Int) :
    Nat → TypeChain → Endian → TypeDef → List (String × Layout) → Prop
  | 0, _, _, _, _ => False
  | depth + 1, chain, endian, d, fields =>
      (d.seq.map Field.id).Nodup ∧ (∀ f ∈ d.seq, IsPlain f.id) ∧
        List.Forall₂ (fun f entry => entry.1 = f.id ∧
          f.HasLayout maxCount endian (chain.HasLayout (HasLayout maxCount depth) endian) entry.2)
          d.seq fields

/-- The layout of what a schema describes: type names are resolved, no type uses itself, the nesting
and the counts are within the limits. -/
def Schema.HasLayout (schema : Schema) (options : Options) (fields : List (String × Layout)) :
    Prop :=
  ∃ definition, schema.rootType? = some definition ∧
    definition.HasLayout options.maxCount options.maxDepth.toNat [definition]
      (definition.endian.getD schema.endian) fields

/-! ## Vacant names -/

/-- Nothing is written at the name or below it. -/
def ValueTable.Vacant (values : ValueTable) (path : List String) (name : String) : Prop :=
  ∀ t, IsTail t → values.get? (pathLead path ++ (name ++ t)) = none

namespace ValueTable.Vacant

variable {values : ValueTable} {path : List String} {name : String}

theorem child {inner : String} (h : values.Vacant path name) (hname : name ≠ "") :
    values.Vacant (path ++ [name]) inner := by
  intro t _
  have hpath : pathLead (path ++ [name]) ++ (inner ++ t) =
      pathLead path ++ (name ++ ("." ++ (inner ++ t))) := by
    rw [pathLead_concat hname]
    simp only [String.append_assoc]
  rw [hpath]
  exact h _ (.inr (goesOn_dot _))

theorem element {index : Nat} (h : values.Vacant path name) :
    values.Vacant path (Setting.elementName name index) := by
  intro t _
  rw [elementName_eq, String.append_assoc]
  exact h _ (.inr ((goesOn_bracket _).append t))

/-- It stays vacant when what is written stands at or below another name. -/
theorem grows {p p' : Progress} {entries : Fields} {other : String} (h : p.values.Vacant path name)
    (hgrows : p.Grows p' entries)
    (hentries : ∀ entry ∈ entries, ∃ t, IsTail t ∧ entry.1 = pathLead path ++ (other ++ t))
    (hother : ∀ t u, IsTail t → IsTail u → other ++ t ≠ name ++ u) : p'.values.Vacant path name := by
  intro u hu
  rw [← h u hu]
  refine hgrows.get?_eq fun entry hentry heq => ?_
  obtain ⟨t, ht, hkey⟩ := hentries entry hentry
  rw [hkey, String.append_right_inj] at heq
  exact hother t u ht hu heq

variable {ctx : Context} {p p' : Progress} {o : Outcome}

/-- What is decoded under the name itself leaves its own path free. -/
theorem get?_id (h : p.values.Vacant ctx.path name) (ho : o.Coheres ctx name p p')
    (hname : name ≠ "") : p'.values.get? o.node.id = none := by
  have hid : o.node.id = pathLead ctx.path ++ (name ++ "") := by
    rw [ho.id_eq, Place.childId_eq hname, String.append_empty]
  rw [hid, ← h "" (.inl rfl)]
  refine ho.grows.get?_eq fun entry hentry heq => ?_
  obtain ⟨t, ⟨c, rest, ht, -⟩, hkey⟩ := ho.below hname entry hentry
  rw [hkey, String.append_right_inj, String.append_right_inj] at heq
  rw [heq] at ht
  cases ht

/-- Behind a field, the names of the others are still vacant. -/
theorem past {other : String} (h : p.values.Vacant ctx.path name) (ho : o.Coheres ctx other p p')
    (hnamed : other ≠ "") (hother : IsPlain other) (hname : IsPlain name) (hne : other ≠ name) :
    (p'.write o.node.id o.node.value).values.Vacant ctx.path name :=
  h.grows (ho.grows.write _ _) (ho.at_or_below hnamed) (hother.append_ne hname hne)

/-- Behind an element, those with other indices are still vacant. -/
theorem next {id : String} {i j : Nat} (h : p.values.Vacant ctx.path (Setting.elementName id j))
    (ho : o.Coheres ctx (Setting.elementName id i) p p') (hne : i ≠ j) :
    p'.values.Vacant ctx.path (Setting.elementName id j) := by
  refine h.grows ho.grows (fun entry hentry => ?_) fun _ _ _ _ heq => hne (elementName_inj heq)
  obtain ⟨t, ht, hkey⟩ := ho.below elementName_ne_empty entry hentry
  exact ⟨t, .inr ht, hkey⟩

end ValueTable.Vacant

namespace Setting

/-! ## One value -/

/-- The bytes are what is left of the buffer from the offset on. -/
def HasLeft (s : Setting) (offset : Int) (left : List UInt8) : Prop :=
  ∃ front, s.buffer = front ++ left ∧ offset = front.length

theorem HasLeft.offset_eq {s : Setting} {offset : Int} {left : List UInt8}
    (h : s.HasLeft offset left) : offset + left.length = s.buffer.length := by
  obtain ⟨front, hbuffer, rfl⟩ := h
  simp [hbuffer]

theorem HasLeft.drop_eq {s : Setting} {offset : Int} {left : List UInt8}
    (h : s.HasLeft offset left) : 0 ≤ offset ∧ s.buffer.drop offset.toNat = left := by
  obtain ⟨front, hbuffer, rfl⟩ := h
  exact ⟨Int.natCast_nonneg _, by simp [hbuffer]⟩

theorem HasLeft.past {s : Setting} {offset : Int} {front left : List UInt8}
    (h : s.HasLeft offset (front ++ left)) : s.HasLeft (offset + front.length) left := by
  obtain ⟨before, hbuffer, rfl⟩ := h
  exact ⟨before ++ front, by rw [hbuffer, List.append_assoc], by simp⟩

/-- The step decodes a value of the layout from the bytes that are left. -/
def Decodes (s : Setting) (step : Decoder Outcome) (p : Progress) (l : Layout)
    (left : List UInt8) : Prop :=
  s.Follows step p l.lengths (l.read? left) fun o (v, rest) =>
    o.node.value = v ∧ s.HasLeft o.next rest

variable {s : Setting} {custom : CustomDecoder}
  {types : TypeChain → Endian → String → Layout → Prop} {ctx : Context} {f : Field} {name : String}
  {p : Progress} {l : Layout} {left : List UInt8} {maxCount : Int}

/-- A read at the offset takes what is left. -/
theorem HasLeft.follows_read {offset : Int} {n : Nat} (h : s.HasLeft offset left) :
    s.Follows (Decoder.check (s.buffer.read offset n)) p [n] (chop? n left)
      fun bytes (front, rest) => bytes = front ∧ s.HasLeft (offset + n) rest := by
  obtain ⟨before, hbuffer, rfl⟩ := h
  have hlength : s.buffer.length = before.length + left.length := by simp [hbuffer]
  cases hchop : chop? n left with
  | some taken =>
      obtain ⟨front, rest⟩ := taken
      obtain ⟨rfl, rfl⟩ := chop?_eq_some hchop
      refine ⟨front, p, Decoder.yields_check.2 ⟨Buffer.read_eq_ok_iff.2 ⟨?_, ?_⟩, rfl⟩, rfl,
        before ++ front, ?_, ?_⟩
      · rw [List.length_append] at hlength
        omega
      · simp [hbuffer, Buffer.slice]
      · rw [hbuffer, List.append_assoc]
      · simp
  -- The read starts in the buffer, but there are too few bytes left in it.
  | none =>
      have hlt := chop?_eq_none_iff.1 hchop
      have hread : s.buffer.read before.length n =
          .error (.pastEnd before.length n (s.buffer.length - before.length)) := by
        unfold Buffer.read Buffer.boundsFault?
        rw [if_neg (by omega), if_neg (by omega), if_pos (by omega), max_eq_right (by omega)]
      refine ⟨before.length, n, none, List.mem_singleton.2 rfl, by omega, by omega, ?_⟩
      rw [hread]
      rfl

theorem readInteger_decodes {label : String} {width : Nat} {signed : Bool}
    {endian : Option Endian} (hleft : s.HasLeft ctx.offset left) :
    s.Decodes (s.readInteger ctx f name label width signed endian) p
      (.integer width signed (endian.getD ctx.endian)) left := by
  refine Follows.map hleft.follows_read ?_
  rintro bytes ⟨front, rest⟩ ⟨rfl, hrest⟩
  exact ⟨rfl, hrest⟩

theorem yields_requireInt_literal {place : Place} {what path : String} {expr : Value} {n : Nat}
    (h : expr.IsLiteral n) : (s.requireInt place what expr path).Yields p n p := by
  refine yields_requireInt.2 ⟨?_, rfl⟩
  unfold View.requireInt
  rw [h]
  rfl

/-- The span of a field with a literal size is read in one go. -/
theorem readSpan_follows {what : String} {n : Nat} (hsize : f.size.IsLiteral n)
    (hterminator : f.terminator = none) (hleft : s.HasLeft ctx.offset left) :
    s.Follows (s.readSpan ctx f what none) p [n] (chop? n left)
      fun span (front, rest) => span = (front, (n : Int)) ∧ s.HasLeft (ctx.offset + n) rest := by
  have hspan : s.readSpan ctx f what none = (do
      let size ← s.requireInt ctx.toPlace "size" f.size (ctx.childId f.id)
      Decoder.check (s.buffer.readSized ctx.offset size none f.keepTerminator)) := by
    simp [readSpan, hterminator, hsize.isNull]
  have hsized : Decoder.check (s.buffer.readSized ctx.offset n none f.keepTerminator) = (do
      let bytes ← Decoder.check (s.buffer.read ctx.offset n)
      pure (bytes, (n : Int))) := by
    unfold Buffer.readSized
    cases s.buffer.read ctx.offset n <;> rfl
  rw [hspan]
  refine .behind (yields_requireInt_literal hsize) ?_
  rw [hsized, ← Option.map_id_apply (x := chop? n left)]
  refine hleft.follows_read.map ?_
  rintro bytes ⟨front, rest⟩ ⟨rfl, hrest⟩
  exact ⟨rfl, hrest⟩

theorem readBytes_decodes {n : Nat} (hsize : f.size.IsLiteral n) (hterminator : f.terminator = none)
    (hleft : s.HasLeft ctx.offset left) :
    s.Decodes (s.readBytes ctx f name) p (.bytes n) left := by
  refine Follows.map (readSpan_follows hsize hterminator hleft) ?_
  rintro span ⟨front, rest⟩ ⟨rfl, hrest⟩
  exact ⟨rfl, hrest⟩

/-- What is asked of the decoder of nested instances. -/
def DecodesCustom (s : Setting) (custom : CustomDecoder)
    (types : TypeChain → Endian → String → Layout → Prop) : Prop :=
  ∀ {ctx : Context} {f : Field} {typeName name : String} {l : Layout} {p : Progress}
    {left : List UInt8}, types ctx.chain ctx.endian typeName l → ctx.Every Field.IsNamed →
      name ≠ "" → p.values.Vacant ctx.path name → s.HasLeft ctx.offset left →
        s.Decodes (custom ctx f typeName name) p l left

theorem decodeSingle_decodes (hcustom : s.DecodesCustom custom types)
    (hf : f.OneHasLayout ctx.endian (types ctx.chain ctx.endian) l) (hctx : ctx.Every Field.IsNamed)
    (hname : name ≠ "") (hvacant : p.values.Vacant ctx.path name)
    (hleft : s.HasLeft ctx.offset left) : s.Decodes (s.decodeSingle custom ctx f name) p l left := by
  refine Follows.located ?_ _
  cases hf with
  | integer type_eq primitive =>
      simp only [type_eq, decodeNamed, primitive]
      exact readInteger_decodes hleft
  | untyped type_eq size unterminated =>
      simp only [type_eq]
      exact readBytes_decodes size unterminated hleft
  | bytes type_eq primitive size unterminated =>
      simp only [type_eq, decodeNamed, primitive]
      exact readBytes_decodes size unterminated hleft
  | custom type_eq primitive found =>
      simp only [type_eq, decodeNamed, primitive]
      exact hcustom found hctx hname hvacant hleft

/-! ## Repetitions -/

/-- The elements that are still missing are decoded from the bytes that are left. -/
theorem decodeElements_follows {expr : Value} {count missing index : Nat} {cursor : Int}
    {done : List Node} (hcustom : s.DecodesCustom custom types) (hcoheres : CoheresCustom custom)
    (hf : f.OneHasLayout ctx.endian (types ctx.chain ctx.endian) l) (hctx : ctx.Every Field.IsNamed)
    (hcount : index + missing = count)
    (hvacant : ∀ i ≥ index, p.values.Vacant ctx.path (elementName f.id i))
    (hleft : s.HasLeft cursor left) :
    s.Follows
      (s.decodeElements custom ctx f (.count expr) (some count) (missing + 1) index done cursor) p
      (List.replicate missing l.lengths).flatten (readItems? l.read? missing left)
      fun (nodes, stop) (items, rest) =>
        nodes.map Node.value = done.reverse.map Node.value ++ items ∧ s.HasLeft stop rest := by
  induction missing generalizing index cursor done left p with
  | zero =>
      have hover : s.isComplete (.count expr) (some count) index cursor = true := by
        simp [isComplete, ← hcount]
      refine ⟨(done.reverse, cursor), p, ?_, (List.append_nil _).symm, hleft⟩
      rw [decodeElements, hover]
      exact Decoder.yields_pure.2 ⟨rfl, rfl⟩
  | succ missing ih =>
      have hmore : s.isComplete (.count expr) (some count) index cursor = false := by
        simp [isComplete, ← hcount]
      have hsingle : s.Decodes
          (s.decodeSingle custom (ctx.moveTo cursor) f (elementName f.id index)) p l left :=
        decodeSingle_decodes hcustom hf hctx elementName_ne_empty (hvacant index le_rfl) hleft
      rw [decodeElements, hmore, List.replicate_succ, List.flatten_cons]
      refine hsingle.bind ?_
      rintro o ⟨v, middle⟩ p₁ hrun ⟨rfl, hmiddle⟩
      have ho := decodeSingle_coheres hrun hcoheres hctx elementName_ne_empty
      have hvacant₁ : ∀ i ≥ index + 1, p₁.values.Vacant ctx.path (elementName f.id i) := by
        intro i hi
        have hvi : p.values.Vacant (ctx.moveTo cursor).path (elementName f.id i) :=
          hvacant i (Nat.le_of_succ_le hi)
        exact hvi.next ho (Nat.ne_of_lt hi)
      -- With a count there is no condition, and an element without bytes does not end the loop.
      have hgoes : (s.isSatisfied (.count expr) ctx index o.node.value o.next).Yields p₁ false p₁ :=
        Decoder.yields_pure.2 ⟨rfl, rfl⟩
      have hcounted : ¬ ((some (count : Int)).isNone ∧ o.next ≤ cursor) := by simp
      refine .behind hgoes ?_
      rw [if_neg Bool.false_ne_true, if_neg hcounted]
      have hcount₁ : index + 1 + missing = count := by omega
      refine (ih hcount₁ hvacant₁ hmiddle).map_read ?_
      rintro ⟨nodes, stop⟩ ⟨items, rest⟩ ⟨hvalues, hrest⟩
      exact ⟨by simpa using hvalues, hrest⟩

/-- The number of elements is the literal. -/
theorem yields_repeatCount_literal {expr : Value} {count : Nat} (hliteral : expr.IsLiteral count)
    (hallowed : count ≤ s.options.maxCount) :
    (s.repeatCount ctx f (.count expr)).Yields p (some count) p := by
  refine Decoder.yields_bind.2 ⟨count, p, yields_requireInt_literal hliteral, ?_⟩
  rw [if_neg (by omega), if_neg (by omega)]
  exact Decoder.yields_pure.2 ⟨rfl, rfl⟩

/-! ## Fields and instances -/

theorem decodeField_decodes (hcustom : s.DecodesCustom custom types)
    (hcoheres : CoheresCustom custom) (hctx : ctx.Every Field.IsNamed) (hnamed : f.IsNamed)
    (hf : f.HasLayout s.options.maxCount ctx.endian (types ctx.chain ctx.endian) l)
    (hvacant : p.values.Vacant ctx.path f.id) (hleft : s.HasLeft ctx.offset left) :
    s.Decodes (s.decodeField custom ctx f) p l left := by
  refine .behind (yields_placed_self hf.unplaced) ?_
  cases hf.all with
  | once once one =>
      rw [once]
      exact decodeSingle_decodes hcustom one hctx hnamed hvacant hleft
  | @repeated expr count l repeated literal allowed one =>
      rw [repeated]
      refine .behind (yields_repeatCount_literal literal allowed) ?_
      refine Follows.map (decodeElements_follows hcustom hcoheres one hctx (Nat.zero_add _)
        (fun i _ => hvacant.element) hleft) ?_
      rintro ⟨nodes, stop⟩ ⟨items, rest⟩ ⟨hvalues, hrest⟩
      exact ⟨congrArg Value.tuple hvalues, hrest⟩

/-- The fields that are still to come have names of their own, at which nothing is written yet. -/
structure FieldsAhead (ctx : Context) (values : ValueTable) (seq : List Field) : Prop where
  inSight : ctx.Every Field.IsNamed
  named : ∀ f ∈ seq, f.IsNamed
  plain : ∀ f ∈ seq, IsPlain f.id
  distinct : (ctx.scope.map Prod.fst ++ seq.map Field.id).Nodup
  vacant : ∀ f ∈ seq, values.Vacant ctx.path f.id

namespace FieldsAhead

variable {seq : List Field} {o : Outcome}

/-- The value of the next field is put at the end of the scope. -/
theorem scope_past {values : ValueTable} (h : FieldsAhead ctx values (f :: seq)) :
    (ctx.past f o).scope = ctx.scope ++ [(f.id, o.node.value)] :=
  Fields.put_of_not_mem fun hmem =>
    (List.nodup_append.1 h.distinct).2.2 _ hmem _ List.mem_cons_self rfl

theorem past {p₁ : Progress} (h : FieldsAhead ctx p.values (f :: seq))
    (ho : o.Coheres ctx f.id p p₁) :
    FieldsAhead (ctx.past f o) (p₁.write o.node.id o.node.value).values seq := by
  obtain ⟨hfnamed, hnamed⟩ := List.forall_mem_cons.1 h.named
  obtain ⟨hfplain, hplain⟩ := List.forall_mem_cons.1 h.plain
  obtain ⟨-, hvacant⟩ := List.forall_mem_cons.1 h.vacant
  have hne : f.id ∉ seq.map Field.id :=
    (List.nodup_cons.1 (List.nodup_append.1 h.distinct).2.1).1
  refine ⟨h.inSight, hnamed, hplain, ?_, fun g hg => ?_⟩
  · rw [h.scope_past]
    simpa using h.distinct
  · exact (hvacant g hg).past ho hfnamed hfplain (hplain g hg) fun heq =>
      hne (heq ▸ List.mem_map_of_mem hg)

end FieldsAhead

theorem decodeFields_follows {seq : List Field} {fields : List (String × Layout)} {done : List Node}
    (hcustom : s.DecodesCustom custom types) (hcoheres : CoheresCustom custom)
    (hseq : List.Forall₂ (fun f entry => entry.1 = f.id ∧
      f.HasLayout s.options.maxCount ctx.endian (types ctx.chain ctx.endian) entry.2) seq fields)
    (hahead : FieldsAhead ctx p.values seq) (hleft : s.HasLeft ctx.offset left) :
    s.Follows (s.decodeFields custom seq ctx done) p (Layout.lengthsAll fields)
      (Layout.readAll? fields left)
      fun (_, scope, stop) (values, rest) => scope = ctx.scope ++ values ∧ s.HasLeft stop rest := by
  induction seq generalizing ctx fields done p left with
  | nil =>
      cases hseq
      exact ⟨_, p, Decoder.yields_pure.2 ⟨rfl, rfl⟩, (List.append_nil _).symm, hleft⟩
  | cons f seq ih =>
      cases hseq with
      | @cons _ entry _ fields hf hseq =>
      obtain ⟨name, l⟩ := entry
      obtain ⟨rfl, hf⟩ := hf
      have hnamed : f.IsNamed := hahead.named f List.mem_cons_self
      have hvacant := hahead.vacant f List.mem_cons_self
      rw [decodeFields, Layout.lengthsAll, Layout.readAll?]
      refine .behind (yields_isPresent hf.unconditional) ?_
      rw [if_pos rfl]
      refine (decodeField_decodes hcustom hcoheres hahead.inSight hnamed hf hvacant hleft).bind ?_
      rintro o ⟨v, middle⟩ p₁ hrun ⟨rfl, hmiddle⟩
      have ho := decodeField_coheres hrun hcoheres hahead.inSight hnamed
      -- All that the field has written stands below its own path, so this is free.
      refine Follows.behind (a := ()) (Decoder.yields_record.2 ⟨hvacant.get?_id ho hnamed, rfl⟩) ?_
      refine Follows.map_read (ih hseq (hahead.past ho) hmiddle) ?_
      rintro ⟨nodes, scope, stop⟩ ⟨values, rest⟩ ⟨hscope, hrest⟩
      refine ⟨hscope.trans ?_, hrest⟩
      show (ctx.past f o).scope ++ values = _
      rw [hahead.scope_past, List.append_assoc, List.singleton_append]

theorem decodeInstance_decodes {depth : Nat} {i : Instance} {fields : List (String × Layout)}
    (hi : i.Every Field.IsNamed) (hname : i.name ≠ "")
    (hlayout : i.definition.HasLayout s.options.maxCount depth i.chain
      (i.definition.endian.getD ctx.endian) fields)
    (hvacant : p.values.Vacant ctx.path i.name) (hleft : s.HasLeft ctx.offset left) :
    s.Decodes (s.decodeInstance depth ctx i) p (.record fields) left := by
  induction depth generalizing ctx i p left fields with
  | zero => exact hlayout.elim
  | succ depth ih =>
      obtain ⟨hnodup, hplain, hseq⟩ := hlayout
      have hcustom : s.DecodesCustom (s.nested depth)
          (TypeChain.HasLayout (TypeDef.HasLayout s.options.maxCount depth)) := by
        intro ctx f typeName name l p left hl hctx hname hvacant hleft
        obtain ⟨definition, around, inner, hfound, rfl, hinner⟩ := hl
        unfold nested
        rw [hfound]
        exact ih (Instance.every_of_lookup? hctx hfound) hname hinner hvacant hleft
      have hahead : FieldsAhead (inside ctx i) p.values i.definition.seq :=
        ⟨hi.inside, fun f hf => hi.seq hf, hplain, hnodup, fun f _ => hvacant.child hname⟩
      refine Follows.map (decodeFields_follows hcustom coheresCustom_nested hseq hahead hleft) ?_
      rintro ⟨nodes, scope, stop⟩ ⟨values, rest⟩ ⟨hscope, hrest⟩
      exact ⟨congrArg Value.record hscope, hrest⟩

end Setting

/-! ## Whole decodes -/

theorem Value.isOverlong_mono {m n : Nat} (h : m ≤ n) (hm : Value.isOverlong m = true) :
    Value.isOverlong n = true := by
  unfold Value.isOverlong at hm ⊢
  simp only [decide_eq_true_eq, Int.natAbs_natCast] at hm ⊢
  exact hm.trans h

theorem Value.pos_of_isOverlong {n : Nat} (h : Value.isOverlong n = true) : 0 < n := by
  have hpow (digits : Nat) : 0 < Nat.pow 10 digits := Nat.pow_pos (by decide)
  unfold Value.isOverlong at h
  simp only [decide_eq_true_eq, Int.natAbs_natCast] at h
  exact (hpow _).trans_le h

/-- Only a length of its own or that of the buffer can make a read past the end too long for words. -/
theorem Cause.hasOverlong_pastEnd {offset length total : Nat} (hle : offset ≤ total)
    (h : (pastEnd offset length (total - offset)).hasOverlong = true) :
    Value.isOverlong length = true ∨ Value.isOverlong total = true := by
  rw [hasOverlong, Bool.or_eq_true, Bool.or_eq_true, ← Int.natCast_sub hle] at h
  rcases h with (hoffset | hlength) | havailable
  · exact .inr (Value.isOverlong_mono hle hoffset)
  · exact .inl hlength
  · exact .inr (Value.isOverlong_mono (Nat.sub_le total offset) havailable)

namespace Schema

variable {schema : Schema} {options : Options} {fields : List (String × Layout)} {buffer : Buffer}

/-- Decoding is writing backwards. -/
structure RoundTrips (schema : Schema) (options : Options) (fields : List (String × Layout)) :
    Prop where
  /-- What fits is written in the size of the layout, and is decoded whatever stands behind it. -/
  decoded : ∀ values, Layout.FitsAll fields values →
    ∃ bytes, Layout.encodeAll? fields values = some bytes ∧
      bytes.length = (Layout.record fields).size ∧
      ∀ rest, ∃ result, schema.decode options (bytes ++ rest) = .ok result ∧
        result.success = true ∧ result.data = values ∧ result.consumed = bytes.length
  /-- A buffer that is shorter gives no root and one error, about a part that goes past its end,
  unless one of the lengths is too long for the words of the error. -/
  short : ∀ buffer : Buffer, buffer.length < (Layout.record fields).size →
    (∃ result offset length path, schema.decode options buffer = .ok result ∧ result.root = none ∧
      length ∈ (Layout.record fields).lengths ∧ offset ≤ buffer.length ∧
      buffer.length < offset + length ∧
      result.errors =
        [⟨(Cause.pastEnd offset length (buffer.length - offset)).message, path, "BoundsError"⟩]) ∨
    ((∃ n ∈ buffer.length :: (Layout.record fields).lengths, Value.isOverlong n = true) ∧
      schema.decode options buffer = .error .longInteger)

theorem HasLayout.decodes (hid : ∀ f ∈ schema.fields, f.id ≠ "")
    (h : schema.HasLayout options fields) (buffer : Buffer) :
    ∃ definition, schema.rootType? = some definition ∧
      (schema.setting options buffer).Decodes (schema.decodeRoot options definition buffer) {}
        (.record fields) buffer := by
  obtain ⟨definition, hroot, hlayout⟩ := h
  refine ⟨definition, hroot, ?_⟩
  exact Setting.decodeInstance_decodes (rootInstance_every hroot hid) schema.rootId_ne_empty hlayout
    (fun _ _ => rfl) ⟨[], rfl, rfl⟩

theorem HasLayout.decode_encoded {values : Fields} {bytes rest : List UInt8}
    (hid : ∀ f ∈ schema.fields, f.id ≠ "") (h : schema.HasLayout options fields)
    (hbytes : Layout.encodeAll? fields values = some bytes) :
    ∃ result, schema.decode options (bytes ++ rest) = .ok result ∧ result.success = true ∧
      result.data = values ∧ result.consumed = bytes.length := by
  obtain ⟨definition, hroot, hdecodes⟩ := h.decodes hid (bytes ++ rest)
  have hread : (Layout.record fields).read? (bytes ++ rest) = some (.record values, rest) :=
    Layout.read?_of_encode? _ rest hbytes
  unfold Setting.Decodes Setting.Follows at hdecodes
  rw [hread] at hdecodes
  obtain ⟨o, p, hrun, hvalue, front, hbuffer, hnext⟩ := hdecodes
  -- Exactly the rest is left behind the root, so the root ends where the written bytes do.
  obtain rfl : bytes = front := List.append_cancel_right hbuffer
  refine ⟨_, decode_of_yields hroot hrun, rfl, ?_, ?_⟩
  · simp [Result.data, hvalue]
  · obtain ⟨left, children, own, stop, -, -, rfl⟩ := Setting.decodeInstance_inv hrun
    obtain rfl : stop = bytes.length := hnext
    show (0 : Int) + max 0 (bytes.length - 0) = bytes.length
    omega

theorem HasLayout.decode_short (hid : ∀ f ∈ schema.fields, f.id ≠ "")
    (h : schema.HasLayout options fields)
    (hshort : buffer.length < (Layout.record fields).size) :
    ∃ definition, schema.rootType? = some definition ∧
      (schema.setting options buffer).StopsShort (schema.decodeRoot options definition buffer) {}
        (Layout.record fields).lengths := by
  obtain ⟨definition, hroot, hdecodes⟩ := h.decodes hid buffer
  refine ⟨definition, hroot, ?_⟩
  unfold Setting.Decodes Setting.Follows at hdecodes
  split at hdecodes
  case h_1 read hread =>
      -- What is read has the size of the layout, which is more than there is.
      have hlength := Layout.length_of_read? _ hread
      omega
  case h_2 => exact hdecodes

/-- **Round trip.** With a fixed layout, all that fits it is written and decoded again, whatever stands
behind it, and a shorter buffer gives no tree. That every field has an id is
checked when a schema is loaded (`Schema.isNamed_of_load`). -/
theorem decode_roundTrips (hid : ∀ f ∈ schema.fields, f.id ≠ "")
    (h : schema.HasLayout options fields) : schema.RoundTrips options fields where
  decoded values hvalues := by
    obtain ⟨bytes, hbytes⟩ := Layout.exists_encodeAll? fields hvalues
    have hencoded : (Layout.record fields).encode? (.record values) = some bytes := hbytes
    exact ⟨bytes, hbytes, Layout.length_of_encode? hencoded, fun _ => h.decode_encoded hid hbytes⟩
  short buffer hshort := by
    obtain ⟨definition, hroot, offset, length, path, hmem, hle, hlt, hfails⟩ :=
      h.decode_short hid hshort
    unfold Failure.ofCause at hfails
    split at hfails
    case isTrue hoverlong =>
        refine .inr ⟨?_, decode_of_escapes hroot hfails⟩
        rcases Cause.hasOverlong_pastEnd hle hoverlong with hlength | htotal
        · exact ⟨length, List.mem_cons_of_mem _ hmem, hlength⟩
        · exact ⟨buffer.length, List.mem_cons_self, htotal⟩
    case isFalse =>
        obtain ⟨warnings, hdecode⟩ := decode_of_fails hroot hfails
        exact .inl ⟨_, offset, length, path, hdecode, rfl, hmem, hle, hlt, rfl⟩

/-- Two samples behind a byte that says their kind, and a mark at the end. -/
def samples : Schema where
  info := { id := some "samples", endian := some .little }
  seq := some [
    { id := "kind", type := .named "u1" },
    { id := "parts", type := .named "part", repetition := some (.count (.int 2)) },
    { id := "mark", size := .int 1 }]
  types := [
    ("part", {
      seq := [
        { id := "at", type := .named "u2le" },
        { id := "level", type := .named "s2" }]
      endian := some .big })]

/-- The layout of samples. -/
def sampleFields : List (String × Layout) :=
  [("kind", .integer 1 false .little),
    ("parts", .array 2 (.record [("at", .integer 2 false .little), ("level", .integer 2 true .big)])),
    ("mark", .bytes 1)]

theorem samples_hasLayout : samples.HasLayout {} sampleFields := by
  have hu1 : Primitive.ofName? "u1" = some (.integer 1 false none) := by decide
  have hu2le : Primitive.ofName? "u2le" = some (.integer 2 false (some .little)) := by decide
  have hs2 : Primitive.ofName? "s2" = some (.integer 2 true none) := by decide
  refine ⟨_, rfl, by decide, by decide, ?_⟩
  refine .cons ⟨rfl, rfl, rfl, .once rfl (.integer rfl hu1)⟩ ?_
  refine .cons ⟨rfl, rfl, rfl, .repeated rfl (Value.isLiteral_int 2) (by decide)
    (.custom rfl (by decide) ⟨_, _, _, rfl, rfl, by decide, by decide, ?_⟩)⟩ ?_
  · refine .cons ⟨rfl, rfl, rfl, .once rfl (.integer rfl hu2le)⟩ ?_
    exact .cons ⟨rfl, rfl, rfl, .once rfl (.integer rfl hs2)⟩ .nil
  · exact .cons ⟨rfl, rfl, rfl, .once rfl (.untyped rfl (Value.isLiteral_int 1) rfl)⟩ .nil

theorem decode_roundTrips_samples :
    (∀ f ∈ samples.fields, f.id ≠ "") ∧ samples.HasLayout {} sampleFields ∧
      samples.RoundTrips {} sampleFields := by
  have hid : ∀ f ∈ samples.fields, f.id ≠ "" := by decide
  exact ⟨hid, samples_hasLayout, decode_roundTrips hid samples_hasLayout⟩

/-- Little endian by its suffix, big endian by the type around, in two's complement. -/
example : Layout.encodeAll? sampleFields
    [("kind", .int 7),
      ("parts", .tuple [
        .record [("at", .int 258), ("level", .int 1)],
        .record [("at", .int 259), ("level", .int (-2))]]),
      ("mark", .bytes [0])] = some [7, 2, 1, 0, 1, 3, 1, 255, 254, 0] := by
  decide

/-- One span of some bytes. -/
def span (size : Nat) : Schema where
  seq := some [{ id := "a", size := .int size }]

theorem span_hasLayout (size : Nat) : (span size).HasLayout {} [("a", .bytes size)] := by
  refine ⟨_, rfl, List.nodup_singleton _, ?_, ?_⟩
  · exact List.forall_mem_singleton.2 (show IsPlain "a" by decide)
  · exact .cons ⟨rfl, rfl, rfl, .once rfl (.untyped rfl (Value.isLiteral_int size) rfl)⟩ .nil

theorem size_span (size : Nat) : (Layout.record [("a", .bytes size)]).size = size := by
  simp [Layout.size, Layout.lengths, Layout.lengthsAll]

/-- A span of an overlong size escapes from the decode of an empty buffer. -/
theorem decode_span {size : Nat} (h : Value.isOverlong size = true) :
    (span size).HasLayout {} [("a", .bytes size)] ∧
      ([] : Buffer).length < (Layout.record [("a", .bytes size)]).size ∧
      (span size).decode {} [] = .error .longInteger := by
  have hid : ∀ f ∈ (span size).fields, f.id ≠ "" :=
    List.forall_mem_singleton.2 (show "a" ≠ "" by decide)
  have hshort : ([] : Buffer).length < (Layout.record [("a", .bytes size)]).size := by
    rw [size_span]
    exact Value.pos_of_isOverlong h
  refine ⟨span_hasLayout size, hshort, ?_⟩
  obtain ⟨definition, hroot, offset, length, path, hmem, hle, hlt, hfails⟩ :=
    (span_hasLayout size).decode_short hid hshort
  obtain rfl : length = size := by simpa [Layout.lengths, Layout.lengthsAll] using hmem
  refine decode_of_escapes hroot ?_
  unfold Failure.ofCause at hfails
  rwa [if_pos (by simp [Cause.hasOverlong, h])] at hfails

/-- The shortest size that is overlong. -/
theorem decode_span_overlong :
    (span (Nat.pow 10 Value.maxDecimalDigits)).HasLayout {}
        [("a", .bytes (Nat.pow 10 Value.maxDecimalDigits))] ∧
      ([] : Buffer).length <
        (Layout.record [("a", .bytes (Nat.pow 10 Value.maxDecimalDigits))]).size ∧
      (span (Nat.pow 10 Value.maxDecimalDigits)).decode {} [] = .error .longInteger :=
  decode_span Value.isOverlong_pow

end Schema

end ByteSchema
