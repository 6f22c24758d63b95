import ByteSchema.Proofs.Reading

/-!
# ByteSchema.Proofs.Run

What a successful run of each decoder consists of.

A run of the loop over elements is a derivation of `Elements`, a run of the loop over fields one of
`Sequence`; the functions around them are inverted once each. What a run keeps is then proved by
induction on these derivations, and on the number of instances that may be nested, with the decoding
of nested instances as a parameter wherever the decoders have it as one.
-/

namespace ByteSchema

/-! ## Trees -/

section

variable {P : Node → Prop} {n : Node} {rest : List Node}

/-- What holds of a node and of all nodes below its children, holds of its whole tree. -/
theorem Node.forall_flatten :
    (∀ m ∈ n.flatten, P m) ↔ P n ∧ ∀ m ∈ n.children.flatMap Node.flatten, P m := by
  rw [Node.flatten_eq]
  exact List.forall_mem_cons

theorem Node.forall_flatten_of_leaf (h : n.children = []) : (∀ m ∈ n.flatten, P m) ↔ P n := by
  rw [Node.forall_flatten, h]
  simp

theorem forall_flatten_cons : (∀ m ∈ (n :: rest).flatMap Node.flatten, P m) ↔
    (∀ m ∈ n.flatten, P m) ∧ ∀ m ∈ rest.flatMap Node.flatten, P m := by
  rw [List.flatMap_cons]
  exact List.forall_mem_append

end

/-! ## Decoders -/

/-- The context behind a field that is decoded. -/
def Context.past (ctx : Context) (f : Field) (o : Outcome) : Context :=
  { ctx with offset := o.next, scope := Fields.put ctx.scope f.id o.node.value }

@[simp] theorem Context.offset_past (ctx : Context) (f : Field) (o : Outcome) :
    (ctx.past f o).offset = o.next := rfl
@[simp] theorem Context.path_past (ctx : Context) (f : Field) (o : Outcome) :
    (ctx.past f o).path = ctx.path := rfl
@[simp] theorem Context.chain_past (ctx : Context) (f : Field) (o : Outcome) :
    (ctx.past f o).chain = ctx.chain := rfl
@[simp] theorem Context.scope_past (ctx : Context) (f : Field) (o : Outcome) :
    (ctx.past f o).scope = Fields.put ctx.scope f.id o.node.value := rfl

namespace Setting

variable {s : Setting} {custom : CustomDecoder} {ctx : Context} {f : Field} {name : String}
  {p p' : Progress} {o : Outcome}

/-! ## Questions

The decoders ask for types, counts, positions and conditions without changing the progress. -/

theorem caseNumber_inv {place : Place} {key : Value} {n : Option Number}
    (h : (s.caseNumber place key).Yields p n p') : p' = p := by
  unfold caseNumber at h
  split at h
  · exact (Decoder.yields_pure.1 h).2
  · exact (Decoder.yields_pure.1 h).2
  · exact (Decoder.yields_pure.1 h).2
  · split at h
    · exact absurd h Decoder.not_yields_throw
    dsimp only at h
    split at h
    · exact (Decoder.yields_pure.1 h).2
    · simp only [Decoder.yields_bind, yields_evaluate] at h
      obtain ⟨value, _, ⟨-, rfl⟩, h⟩ := h
      cases value <;> exact (Decoder.yields_pure.1 h).2

theorem selectCase_inv {place : Place} {d : Number} {entries : List (Value × String)}
    {selected : Option String} (h : (s.selectCase place d entries).Yields p selected p') :
    p' = p := by
  induction entries with
  | nil => exact (Decoder.yields_pure.1 h).2
  | cons entry rest ih =>
      obtain ⟨key, typeName⟩ := entry
      unfold selectCase at h
      split at h
      · exact ih h
      · obtain ⟨number, _, hnumber, hrest⟩ := Decoder.yields_bind.1 h
        obtain rfl := caseNumber_inv hnumber
        split at hrest
        · split at hrest
          · exact (Decoder.yields_pure.1 hrest).2
          · exact ih hrest
        · exact ih hrest

theorem selectType_inv {place : Place} {id typeName : String} {sw : Switch}
    (h : (s.selectType place id sw).Yields p typeName p') : p' = p := by
  simp only [selectType, Decoder.yields_bind, yields_evaluate] at h
  obtain ⟨d, _, ⟨-, rfl⟩, h⟩ := h
  cases d with
  | none =>
      simp only [Decoder.yields_bind, Decoder.yields_pure] at h
      obtain ⟨selected, _, ⟨rfl, rfl⟩, hrest⟩ := h
      split at hrest
      · exact (Decoder.yields_pure.1 hrest).2
      · exact absurd hrest Decoder.not_yields_fail
  | some n =>
      obtain ⟨selected, _, hselected, hrest⟩ := Decoder.yields_bind.1 h
      obtain rfl := selectCase_inv hselected
      split at hrest
      · exact (Decoder.yields_pure.1 hrest).2
      · exact absurd hrest Decoder.not_yields_fail

theorem isSatisfied_inv {r : Repetition} {index : Nat} {v : Value} {cursor : Int} {b : Bool}
    (h : (s.isSatisfied r ctx index v cursor).Yields p b p') : p' = p := by
  unfold isSatisfied at h
  split at h
  · simp only [Decoder.yields_bind, yields_evaluate, Decoder.yields_pure] at h
    obtain ⟨_, _, ⟨-, rfl⟩, -, rfl⟩ := h
    rfl
  · exact (Decoder.yields_pure.1 h).2

theorem repeatCount_inv {r : Repetition} {count : Option Int}
    (h : (s.repeatCount ctx f r).Yields p count p') : p' = p := by
  unfold repeatCount at h
  split at h
  · simp only [Decoder.yields_bind, yields_requireInt] at h
    obtain ⟨n, _, ⟨-, rfl⟩, h⟩ := h
    split at h
    · exact absurd h Decoder.not_yields_fail
    split at h
    · exact absurd h Decoder.not_yields_fail
    · exact (Decoder.yields_pure.1 h).2
  · exact (Decoder.yields_pure.1 h).2

theorem isPresent_inv {b : Bool} (h : (s.isPresent ctx f).Yields p b p') : p' = p := by
  unfold isPresent at h
  split at h
  · exact (Decoder.yields_pure.1 h).2
  · simp only [Decoder.yields_bind, yields_evaluate, Decoder.yields_pure] at h
    obtain ⟨_, _, ⟨-, rfl⟩, -, rfl⟩ := h
    rfl

/-- A field without condition is there. -/
theorem yields_isPresent (h : f.condition = .null) : (s.isPresent ctx f).Yields p true p := by
  rw [isPresent, h]
  exact Decoder.yields_pure.2 ⟨rfl, rfl⟩

/-- A field without position is read where the one before ends. -/
theorem yields_placed_self (h : f.position = .null) : (s.placed ctx f).Yields p ctx p := by
  rw [placed, h]
  exact Decoder.yields_bind.2
    ⟨none, p, yields_evaluate.2 ⟨rfl, rfl⟩, Decoder.yields_pure.2 ⟨rfl, rfl⟩⟩

/-- A field is read where the one before ends, or at another offset if it has a position. -/
theorem placed_inv {ctx' : Context} (h : (s.placed ctx f).Yields p ctx' p') :
    p' = p ∧ (∃ offset, ctx' = ctx.moveTo offset) ∧ (f.position = .null → ctx' = ctx) := by
  simp only [placed, Decoder.yields_bind, yields_evaluate] at h
  obtain ⟨n, _, ⟨hn, rfl⟩, h⟩ := h
  cases n with
  | none =>
      obtain ⟨rfl, rfl⟩ := Decoder.yields_pure.1 h
      exact ⟨rfl, ⟨ctx'.offset, rfl⟩, fun _ => rfl⟩
  | some n =>
      simp only [Decoder.yields_bind, yields_requireInt, Decoder.yields_pure] at h
      obtain ⟨offset, _, ⟨-, rfl⟩, rfl, rfl⟩ := h
      refine ⟨rfl, ⟨offset, rfl⟩, ?_⟩
      intro hnull
      rw [hnull] at hn
      cases hn

/-! ## A single value -/

/-- The name of the type that a value of `f` has, as it is decided in the progress `p`. -/
def Selects (s : Setting) (ctx : Context) (f : Field) (p : Progress) (typeName : String) : Prop :=
  match f.type with
  | .untyped => False
  | .named name => typeName = name
  | .switched sw => (s.selectType ctx.toPlace f.id sw).Yields p typeName p

theorem decodeNamed_inv {typeName : String}
    (h : (s.decodeNamed custom ctx f name typeName).Yields p o p') :
    (s.IsLeaf ctx name o ∧ p'.values = p.values) ∨
      (Primitive.ofName? typeName = none ∧ (custom ctx f typeName name).Yields p o p') := by
  unfold decodeNamed at h
  split at h
  case h_1 => exact .inl ((readInteger_inv h).imp_right (congrArg Progress.values))
  case h_2 => exact .inl ((readFloat_inv h).imp_right (congrArg Progress.values))
  case h_3 => exact .inl ((readBytes_inv h).imp_right (congrArg Progress.values))
  case h_4 => exact .inl (readText_inv h)
  case h_5 hname => exact .inr ⟨hname, h⟩

/-- A single value has the type that is selected, or is raw bytes for want of one. -/
theorem decodeSingle_named (h : (s.decodeSingle custom ctx f name).Yields p o p') :
    (s.readBytes ctx f name).Yields p o p' ∨
      ∃ typeName, s.Selects ctx f p typeName ∧
        (s.decodeNamed custom ctx f name typeName).Yields p o p' := by
  simp only [decodeSingle, Decoder.yields_located] at h
  split at h
  case h_1 => exact .inl h
  case h_2 typeName htype => exact .inr ⟨typeName, by simp [Selects, htype], h⟩
  case h_3 sw htype =>
      obtain ⟨typeName, _, hselected, hnamed⟩ := Decoder.yields_bind.1 h
      obtain rfl := selectType_inv hselected
      exact .inr ⟨typeName, by simpa [Selects, htype] using hselected, hnamed⟩

/-- A single value is a primitive, or an instance of the type that is selected. -/
theorem decodeSingle_inv (h : (s.decodeSingle custom ctx f name).Yields p o p') :
    (s.IsLeaf ctx name o ∧ p'.values = p.values) ∨
      ∃ typeName, s.Selects ctx f p typeName ∧ Primitive.ofName? typeName = none ∧
        (custom ctx f typeName name).Yields p o p' := by
  rcases decodeSingle_named h with hbytes | ⟨typeName, hselected, hnamed⟩
  · exact .inl ((readBytes_inv hbytes).imp_right (congrArg Progress.values))
  · rcases decodeNamed_inv hnamed with hleaf | ⟨hname, hcustom⟩
    · exact .inl hleaf
    · exact .inr ⟨typeName, hselected, hname, hcustom⟩

/-- A value of a type of the schema is left to the decoder of instances. -/
theorem decodeSingle_custom {typeName : String} (hselected : s.Selects ctx f p typeName)
    (hcustom : Primitive.ofName? typeName = none)
    (h : (s.decodeSingle custom ctx f name).Yields p o p') :
    (custom ctx f typeName name).Yields p o p' := by
  simp only [decodeSingle, Decoder.yields_located] at h
  have hnamed : (s.decodeNamed custom ctx f name typeName) = custom ctx f typeName name := by
    unfold decodeNamed
    rw [hcustom]
  unfold Selects at hselected
  split at h
  case h_1 htype => simp [htype] at hselected
  case h_2 named htype =>
      simp only [htype] at hselected
      rwa [← hselected, hnamed] at h
  case h_3 sw htype =>
      simp only [htype] at hselected
      obtain ⟨_, _, hselect, hrun⟩ := Decoder.yields_bind.1 h
      obtain ⟨rfl, rfl⟩ := hselected.unique hselect
      exact hnamed ▸ hrun

/-! ## Repetitions -/

/-- A run of the loop over the elements of a repetition, from the element `index` at `cursor` on: the
elements, and where the last one ends. -/
inductive Elements (s : Setting) (custom : CustomDecoder) (ctx : Context) (f : Field)
    (r : Repetition) (count : Option Int) :
    Nat → Int → Progress → List Node → Int → Progress → Prop
  /-- There are enough elements, or the buffer ends. -/
  | complete {index : Nat} {cursor : Int} {p : Progress}
      (reached : s.isComplete r count index cursor = true) :
      Elements s custom ctx f r count index cursor p [] cursor p
  /-- The condition holds behind an element. -/
  | satisfied {index : Nat} {cursor : Int} {p p₁ : Progress} {o : Outcome}
      (more : s.isComplete r count index cursor = false)
      (single : (s.decodeSingle custom (ctx.moveTo cursor) f (elementName f.id index)).Yields p o p₁)
      (holds : (s.isSatisfied r ctx index o.node.value o.next).Yields p₁ true p₁) :
      Elements s custom ctx f r count index cursor p [o.node] o.next p₁
  /-- An element takes up no bytes, and there is no count. -/
  | stuck {index : Nat} {cursor : Int} {p p₁ : Progress} {o : Outcome}
      (more : s.isComplete r count index cursor = false)
      (single : (s.decodeSingle custom (ctx.moveTo cursor) f (elementName f.id index)).Yields p o p₁)
      (fails : (s.isSatisfied r ctx index o.node.value o.next).Yields p₁ false p₁)
      (idle : count.isNone ∧ o.next ≤ cursor) :
      Elements s custom ctx f r count index cursor p [o.node] o.next
        { p₁ with warnings := p₁.warnings ++ [ctx.childId f.id ++ ": element " ++
          toString index ++ " consumed no bytes, repetition stopped"] }
  /-- There is another element behind one. -/
  | next {index : Nat} {cursor stop : Int} {p p₁ p' : Progress} {o : Outcome} {items : List Node}
      (more : s.isComplete r count index cursor = false)
      (single : (s.decodeSingle custom (ctx.moveTo cursor) f (elementName f.id index)).Yields p o p₁)
      (fails : (s.isSatisfied r ctx index o.node.value o.next).Yields p₁ false p₁)
      (moves : ¬ (count.isNone ∧ o.next ≤ cursor))
      (rest : Elements s custom ctx f r count (index + 1) o.next p₁ items stop p') :
      Elements s custom ctx f r count index cursor p (o.node :: items) stop p'

/-- Behind an element that leads on, the run is that of the elements behind it. -/
theorem Elements.of_next {r : Repetition} {count : Option Int} {index : Nat} {cursor stop : Int}
    {p₁ : Progress} {items : List Node}
    (h : Elements s custom ctx f r count index cursor p items stop p')
    (more : s.isComplete r count index cursor = false)
    (single : (s.decodeSingle custom (ctx.moveTo cursor) f (elementName f.id index)).Yields p o p₁)
    (fails : (s.isSatisfied r ctx index o.node.value o.next).Yields p₁ false p₁)
    (moves : ¬ (count.isNone ∧ o.next ≤ cursor)) :
    ∃ later, Elements s custom ctx f r count (index + 1) o.next p₁ later stop p' ∧
      items = o.node :: later := by
  cases h with
  | complete reached =>
      rw [more] at reached
      cases reached
  | satisfied _ single' holds =>
      obtain ⟨rfl, rfl⟩ := single.unique single'
      cases (holds.unique fails).1
  | stuck _ single' _ idle =>
      obtain ⟨rfl, rfl⟩ := single.unique single'
      exact absurd idle moves
  | next _ single' _ _ rest =>
      obtain ⟨rfl, rfl⟩ := single.unique single'
      exact ⟨_, rest, rfl⟩

theorem decodeElements_inv {r : Repetition} {count : Option Int} {rounds index : Nat}
    {done items : List Node} {cursor stop : Int}
    (h : (s.decodeElements custom ctx f r count rounds index done cursor).Yields p (items, stop) p') :
    ∃ new, items = done.reverse ++ new ∧ Elements s custom ctx f r count index cursor p new stop p' := by
  induction rounds generalizing index done cursor p with
  | zero => exact absurd h Decoder.not_yields_throw
  | succ rounds ih =>
      unfold decodeElements at h
      split at h
      case isTrue hover =>
          obtain ⟨heq, rfl⟩ := Decoder.yields_pure.1 h
          cases heq
          exact ⟨[], by simp, .complete hover⟩
      case isFalse hmore =>
          obtain ⟨o, p₁, hsingle, h₁⟩ := Decoder.yields_bind.1 h
          obtain ⟨holds, _, hholds, h₂⟩ := Decoder.yields_bind.1 h₁
          obtain rfl := isSatisfied_inv hholds
          have hmore : s.isComplete r count index cursor = false := by simpa using hmore
          cases holds with
          | true =>
              obtain ⟨heq, rfl⟩ := Decoder.yields_pure.1 h₂
              cases heq
              exact ⟨[o.node], by simp, .satisfied hmore hsingle hholds⟩
          | false =>
              -- The condition does not hold: the loop goes on, unless it stands still.
              rw [if_neg (by simp)] at h₂
              split at h₂
              case isTrue hidle =>
                  simp only [Decoder.yields_bind, Decoder.yields_warn, Decoder.yields_pure] at h₂
                  obtain ⟨_, _, rfl, heq, rfl⟩ := h₂
                  cases heq
                  exact ⟨[o.node], by simp, .stuck hmore hsingle hholds hidle⟩
              case isFalse hmoves =>
                  obtain ⟨new, rfl, hnew⟩ := ih h₂
                  exact ⟨o.node :: new, by simp, .next hmore hsingle hholds hmoves hnew⟩

theorem decodeRepeated_inv {r : Repetition} (h : (s.decodeRepeated custom ctx f r).Yields p o p') :
    ∃ count items stop, (s.repeatCount ctx f r).Yields p count p ∧
      Elements s custom ctx f r count 0 ctx.offset p items stop p' ∧
      o = ⟨arrayNode ctx f r items stop, stop⟩ := by
  obtain ⟨count, _, hcount, h₁⟩ := Decoder.yields_bind.1 h
  obtain rfl := repeatCount_inv hcount
  obtain ⟨⟨items, stop⟩, _, helements, h₂⟩ := Decoder.yields_bind.1 h₁
  obtain ⟨rfl, rfl⟩ := Decoder.yields_pure.1 h₂
  obtain ⟨_, rfl, hrun⟩ := decodeElements_inv helements
  exact ⟨count, items, stop, hcount, hrun, rfl⟩

/-! ## Fields and instances -/

/-- A field without repetition is decoded as one value is, where it is placed. -/
theorem run_decodeField {ctx' : Context} (hplaced : (s.placed ctx f).Yields p ctx' p)
    (honce : f.repetition = none) :
    (s.decodeField custom ctx f).run.run p = (s.decodeSingle custom ctx' f f.id).run.run p := by
  unfold Decoder.Yields at hplaced
  rw [decodeField, Decoder.run_bind, hplaced]
  dsimp only
  rw [honce]

/-- A field is a single value or a repetition, read where `placed` says. -/
theorem decodeField_inv (h : (s.decodeField custom ctx f).Yields p o p') :
    ∃ ctx', (s.placed ctx f).Yields p ctx' p ∧
      ((f.repetition = none ∧ (s.decodeSingle custom ctx' f f.id).Yields p o p') ∨
        ∃ r count items stop, f.repetition = some r ∧ (s.repeatCount ctx' f r).Yields p count p ∧
          Elements s custom ctx' f r count 0 ctx'.offset p items stop p' ∧
          o = ⟨arrayNode ctx' f r items stop, stop⟩) := by
  obtain ⟨ctx', _, hplaced, h₁⟩ := Decoder.yields_bind.1 h
  obtain ⟨rfl, -, -⟩ := placed_inv hplaced
  refine ⟨ctx', hplaced, ?_⟩
  split at h₁
  case h_1 r hr =>
      obtain ⟨count, items, stop, hrun⟩ := decodeRepeated_inv h₁
      exact .inr ⟨r, count, items, stop, hr, hrun⟩
  case h_2 hnone => exact .inl ⟨hnone, h₁⟩

/-- Of a field without repetition a single value is decoded, where the field is placed. -/
theorem decodeField_of_once {ctx' : Context} (h : (s.decodeField custom ctx f).Yields p o p')
    (placed : (s.placed ctx f).Yields p ctx' p) (once : f.repetition = none) :
    (s.decodeSingle custom ctx' f f.id).Yields p o p' :=
  (run_decodeField placed once).symm.trans h

/-- Of a field with a repetition the elements are decoded, as many as it counts. -/
theorem decodeField_of_repeated {ctx' : Context} {r : Repetition} {count : Option Int}
    (h : (s.decodeField custom ctx f).Yields p o p') (placed : (s.placed ctx f).Yields p ctx' p)
    (repeated : f.repetition = some r) (counted : (s.repeatCount ctx' f r).Yields p count p) :
    ∃ items stop, Elements s custom ctx' f r count 0 ctx'.offset p items stop p' ∧
      o = ⟨arrayNode ctx' f r items stop, stop⟩ := by
  obtain ⟨_, hplaced, hvalue⟩ := decodeField_inv h
  obtain ⟨rfl, -⟩ := placed.unique hplaced
  rcases hvalue with ⟨hnone, -⟩ | ⟨r', count', items, stop, hr, hcount, helements, ho⟩
  · rw [repeated] at hnone
    cases hnone
  · rw [repeated] at hr
    cases hr
    obtain ⟨rfl, -⟩ := counted.unique hcount
    exact ⟨items, stop, helements, ho⟩

/-- A run of the loop over the fields of an instance: the nodes, the values by name, and where the
last field ends. -/
inductive Sequence (s : Setting) (custom : CustomDecoder) :
    List Field → Context → Progress → List Node → Fields → Int → Progress → Prop
  | nil {ctx : Context} {p : Progress} : Sequence s custom [] ctx p [] ctx.scope ctx.offset p
  | skip {f : Field} {rest : List Field} {ctx : Context} {p p' : Progress} {nodes : List Node}
      {fields : Fields} {stop : Int}
      (absent : (s.isPresent ctx f).Yields p false p)
      (tail : Sequence s custom rest ctx p nodes fields stop p') :
      Sequence s custom (f :: rest) ctx p nodes fields stop p'
  /-- A decoded field is written to the table, where its path must be new. -/
  | field {f : Field} {rest : List Field} {ctx : Context} {p p₁ p' : Progress} {o : Outcome}
      {nodes : List Node} {fields : Fields} {stop : Int}
      (present : (s.isPresent ctx f).Yields p true p)
      (decoded : (s.decodeField custom ctx f).Yields p o p₁)
      (new : p₁.values.get? o.node.id = none)
      (tail : Sequence s custom rest (ctx.past f o) (p₁.write o.node.id o.node.value) nodes fields
        stop p') :
      Sequence s custom (f :: rest) ctx p (o.node :: nodes) fields stop p'

/-- A field that is present is the first that is decoded. -/
theorem Sequence.of_present {rest : List Field} {nodes : List Node} {fields : Fields} {stop : Int}
    (h : Sequence s custom (f :: rest) ctx p nodes fields stop p')
    (present : (s.isPresent ctx f).Yields p true p) :
    ∃ o p₁ later, (s.decodeField custom ctx f).Yields p o p₁ ∧
      p₁.values.get? o.node.id = none ∧
      Sequence s custom rest (ctx.past f o) (p₁.write o.node.id o.node.value) later fields stop p' ∧
      nodes = o.node :: later := by
  cases h with
  | skip absent => cases (absent.unique present).1
  | field _ decoded new tail => exact ⟨_, _, _, decoded, new, tail, rfl⟩

theorem decodeFields_inv {seq : List Field} {done nodes : List Node} {fields : Fields} {stop : Int}
    (h : (s.decodeFields custom seq ctx done).Yields p (nodes, fields, stop) p') :
    ∃ new, nodes = done.reverse ++ new ∧ Sequence s custom seq ctx p new fields stop p' := by
  induction seq generalizing ctx done p with
  | nil =>
      obtain ⟨heq, rfl⟩ := Decoder.yields_pure.1 h
      cases heq
      exact ⟨[], by simp, .nil⟩
  | cons f rest ih =>
      obtain ⟨present, _, hpresent, h₁⟩ := Decoder.yields_bind.1 h
      obtain rfl := isPresent_inv hpresent
      cases present with
      | false =>
          obtain ⟨new, rfl, hnew⟩ := ih h₁
          exact ⟨new, rfl, .skip hpresent hnew⟩
      | true =>
          obtain ⟨o, p₁, hdecoded, h₂⟩ := Decoder.yields_bind.1 h₁
          obtain ⟨_, _, hrecord, h₃⟩ := Decoder.yields_bind.1 h₂
          obtain ⟨hfresh, rfl⟩ := Decoder.yields_record.1 hrecord
          obtain ⟨new, rfl, hnew⟩ := ih h₃
          exact ⟨o.node :: new, by simp, .field hpresent hdecoded hfresh hnew⟩

/-- The decoder of the instances nested in one in which `depth` more may be nested. -/
def nested (s : Setting) (depth : Nat) : CustomDecoder := fun ctx f typeName name =>
  match ctx.chain.lookup? typeName with
  | some (definition, chain) =>
      s.decodeInstance depth ctx { name, typeName, definition, chain, attributes := f.remarks }
  | none => Decoder.fail (.unknownType typeName)

theorem nested_inv {depth : Nat} {typeName : String}
    (h : (s.nested depth ctx f typeName name).Yields p o p') :
    ∃ definition chain, ctx.chain.lookup? typeName = some (definition, chain) ∧
      (s.decodeInstance depth ctx
        { name, typeName, definition, chain, attributes := f.remarks }).Yields p o p' := by
  unfold nested at h
  split at h
  case h_1 definition chain hlookup => exact ⟨definition, chain, hlookup, h⟩
  case h_2 => exact absurd h Decoder.not_yields_fail

/-- An instance is the sequence of its fields, and its depth is not used up. -/
theorem decodeInstance_inv {depth : Nat} {i : Instance}
    (h : (s.decodeInstance depth ctx i).Yields p o p') :
    ∃ left children fields stop, depth = left + 1 ∧
      Sequence s (s.nested left) i.definition.seq (inside ctx i) p children fields stop p' ∧
      o = ⟨s.instanceNode ctx i children fields stop, stop⟩ := by
  cases depth with
  | zero => exact absurd h Decoder.not_yields_fail
  | succ left =>
      obtain ⟨⟨children, fields, stop⟩, _, hfields, h₁⟩ := Decoder.yields_bind.1 h
      obtain ⟨rfl, rfl⟩ := Decoder.yields_pure.1 h₁
      obtain ⟨_, rfl, hrun⟩ := decodeFields_inv hfields
      exact ⟨left, children, fields, stop, rfl, hrun, rfl⟩

/-- The node of a field has the path and the name of the field, wherever the field is placed. -/
theorem decodeField_named {depth : Nat} (h : (s.decodeField (s.nested depth) ctx f).Yields p o p') :
    o.node.id = ctx.childId f.id ∧ o.node.name = f.id := by
  obtain ⟨ctx', hplaced, hrun⟩ := decodeField_inv h
  obtain ⟨-, ⟨offset, rfl⟩, -⟩ := placed_inv hplaced
  rcases hrun with ⟨-, hsingle⟩ | ⟨r, count, items, stop, -, -, -, rfl⟩
  · rcases decodeSingle_inv hsingle with ⟨hleaf, -⟩ | ⟨typeName, -, -, hnested⟩
    · exact ⟨hleaf.id_eq, hleaf.name_eq⟩
    · obtain ⟨definition, chain, -, hinstance⟩ := nested_inv hnested
      obtain ⟨_, _, _, _, -, -, rfl⟩ := decodeInstance_inv hinstance
      exact ⟨rfl, rfl⟩
  · exact ⟨rfl, rfl⟩

/-- The children of an instance are named like the fields that are decoded, in their order. -/
theorem Sequence.names_sublist {depth : Nat} {seq : List Field} {nodes : List Node}
    {fields : Fields} {stop : Int}
    (h : Sequence s (s.nested depth) seq ctx p nodes fields stop p') :
    (nodes.map Node.name).Sublist (seq.map Field.id) := by
  induction h with
  | nil => exact .slnil
  | skip _ _ ih => exact ih.cons _
  | field _ decoded _ _ ih =>
      rw [List.map_cons, List.map_cons, (decodeField_named decoded).2]
      exact ih.cons_cons _

end Setting

/-! ## Whole decodes -/

theorem Result.exists_root {r : Result} (h : r.success = true) : ∃ root, r.root = some root :=
  Option.isSome_iff_exists.1 (Bool.and_eq_true_iff.1 h).1

namespace Schema

/-- Does a decode succeed? -/
def succeeds (schema : Schema) (options : Options) (buffer : Buffer) : Bool :=
  match schema.decode options buffer with
  | .ok result => result.success
  | .error _ => false

theorem exists_of_succeeds {schema : Schema} {options : Options} {buffer : Buffer}
    (h : schema.succeeds options buffer = true) :
    ∃ result, schema.decode options buffer = .ok result ∧ result.success = true := by
  unfold succeeds at h
  cases hr : schema.decode options buffer with
  | ok result =>
      rw [hr] at h
      exact ⟨result, rfl, h⟩
  | error e =>
      rw [hr] at h
      cases h

/-- A decode with a tree is a run of the root instance. -/
theorem decode_inv {schema : Schema} {options : Options} {buffer : Buffer} {result : Result}
    {root : Node} (h : schema.decode options buffer = .ok result) (hroot : result.root = some root) :
    ∃ definition o p, schema.rootType? = some definition ∧
      (schema.decodeRoot options definition buffer).Yields {} o p ∧
      result = { root := some o.node, nodes := o.node.flatten, warnings := p.warnings } := by
  unfold decode at h
  split at h
  case h_1 => cases h; cases hroot
  case h_2 definition hdefinition =>
      split at h
      case h_1 o p hrun => cases h; exact ⟨definition, o, p, hdefinition, hrun, rfl⟩
      case h_2 => cases h; cases hroot
      case h_3 => cases h

/-- A run of the root instance is a decode with a tree. -/
theorem decode_of_yields {definition : TypeDef} {options : Options} {buffer : Buffer} {o : Outcome}
    {p : Progress} {schema : Schema} (hroot : schema.rootType? = some definition)
    (h : (schema.decodeRoot options definition buffer).Yields {} o p) :
    schema.decode options buffer =
      .ok { root := some o.node, nodes := o.node.flatten, warnings := p.warnings } := by
  unfold decode
  rw [hroot]
  dsimp only
  rw [h]

end Schema

theorem decode_schema (schema : Schema) (options : Options) (buffer : Buffer) :
    decode (.schema schema) options buffer = schema.decode options buffer := rfl

/-- A source is loaded and then decoded with, or the error against it is the result. -/
theorem decode_source_inv {source : Source} {options : Options} {buffer : Buffer} {result : Result}
    (h : decode source options buffer = .ok result) :
    (∃ schema, source.load = .ok schema ∧ schema.decode options buffer = .ok result) ∨
      ∃ e, source.load = .error (.error e) ∧ result = Schema.failed e := by
  obtain ⟨prepared, hprepared, h⟩ := bind_eq_ok h
  rcases Loading.settle_eq_ok hprepared with ⟨schema, hload, rfl⟩ | ⟨e, hload, rfl⟩
  · exact .inl ⟨schema, hload, h⟩
  · cases h
    exact .inr ⟨e, hload, rfl⟩

/-- With a loaded schema the source decodes as the schema does. -/
theorem decode_of_load {source : Source} {schema : Schema} (h : source.load = .ok schema)
    (options : Options) (buffer : Buffer) :
    decode source options buffer = schema.decode options buffer := by
  unfold decode Source.prepare
  rw [h]
  rfl

end ByteSchema
