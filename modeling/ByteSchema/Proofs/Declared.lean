import ByteSchema.Proofs.Run

/-!
# ByteSchema.Proofs.Declared

The fields that a schema declares, at any depth. A decode meets no others: the root type takes its
fields from the schema, and a type that is found from a chain takes its fields from the chain. What
holds of all fields of a schema thus holds of each field that is decoded.

This is shown of the fields of each type together (`sequences`), for what holds of them may speak of
several at once; of single fields it follows.
-/

namespace ByteSchema

mutual

/-- All fields of a type and of the types inside it. -/
def TypeDef.fields : TypeDef → List Field
  | ⟨seq, types, _⟩ => seq ++ fieldsIn types

/-- All fields of some types and of the types inside them. -/
def fieldsIn : List (String × TypeDef) → List Field
  | [] => []
  | (_, d) :: rest => d.fields ++ fieldsIn rest

end

mutual

/-- The fields of a type, and those of each type inside it. -/
def TypeDef.sequences : TypeDef → List (List Field)
  | ⟨seq, types, _⟩ => seq :: sequencesIn types

/-- The fields of each of some types and of each type inside them. -/
def sequencesIn : List (String × TypeDef) → List (List Field)
  | [] => []
  | (_, d) :: rest => d.sequences ++ sequencesIn rest

end

/-- The field has an id. -/
def Field.IsNamed (f : Field) : Prop := f.id ≠ ""

/-- All fields that a schema declares. -/
def Schema.fields (schema : Schema) : List Field := schema.seq.getD [] ++ fieldsIn schema.types

/-- The fields of the root and of each type that a schema declares. -/
def Schema.sequences (schema : Schema) : List (List Field) :=
  schema.seq.toList ++ sequencesIn schema.types

/-- All fields of the types of a chain. -/
def TypeChain.fields (chain : TypeChain) : List Field := chain.flatMap TypeDef.fields

/-- The fields of each type of a chain and of each type inside them. -/
def TypeChain.sequences (chain : TypeChain) : List (List Field) := chain.flatMap TypeDef.sequences

variable {f : Field} {fs : List Field}

theorem mem_of_lookup {α : Type} {name : String} {a : α} {entries : List (String × α)}
    (h : entries.lookup name = some a) : (name, a) ∈ entries := by
  induction entries with
  | nil => cases h
  | cons entry rest ih =>
      obtain ⟨n, b⟩ := entry
      rw [List.lookup_cons] at h
      split at h
      case h_1 hn =>
          cases h
          rw [eq_of_beq hn]
          exact List.mem_cons_self
      case h_2 => exact List.mem_cons_of_mem _ (ih h)

theorem mem_sequencesIn {types : List (String × TypeDef)} :
    fs ∈ sequencesIn types ↔ ∃ name d, (name, d) ∈ types ∧ fs ∈ d.sequences := by
  induction types with
  | nil => simp [sequencesIn]
  | cons entry rest ih =>
      obtain ⟨name, d⟩ := entry
      rw [sequencesIn, List.mem_append, ih]
      constructor
      · rintro (hfs | ⟨n, e, he, hfs⟩)
        · exact ⟨name, d, List.mem_cons_self, hfs⟩
        · exact ⟨n, e, List.mem_cons_of_mem _ he, hfs⟩
      · rintro ⟨n, e, he, hfs⟩
        rcases List.mem_cons.1 he with he | he
        · cases he
          exact .inl hfs
        · exact .inr ⟨n, e, he, hfs⟩

theorem TypeDef.mem_sequences {d : TypeDef} :
    fs ∈ d.sequences ↔ fs = d.seq ∨ ∃ name e, (name, e) ∈ d.types ∧ fs ∈ e.sequences := by
  obtain ⟨own, types, endian⟩ := d
  rw [TypeDef.sequences, List.mem_cons, mem_sequencesIn]

/-- What is declared in a type that is declared in `d`, is declared in `d`. -/
theorem TypeDef.mem_sequences_of_lookup {d e : TypeDef} {name : String}
    (he : d.types.lookup name = some e) (hfs : fs ∈ e.sequences) : fs ∈ d.sequences :=
  TypeDef.mem_sequences.2 (.inr ⟨name, e, mem_of_lookup he, hfs⟩)

mutual

theorem TypeDef.fields_eq : ∀ d : TypeDef, d.fields = d.sequences.flatten
  | ⟨seq, types, _⟩ => by
      rw [TypeDef.fields, TypeDef.sequences, List.flatten_cons, fieldsIn_eq types]

theorem fieldsIn_eq : ∀ types : List (String × TypeDef),
    fieldsIn types = (sequencesIn types).flatten
  | [] => rfl
  | (_, d) :: rest => by
      rw [fieldsIn, sequencesIn, List.flatten_append, d.fields_eq, fieldsIn_eq rest]

end

theorem TypeDef.mem_fields {d : TypeDef} : f ∈ d.fields ↔ ∃ seq ∈ d.sequences, f ∈ seq := by
  rw [d.fields_eq, List.mem_flatten]

theorem TypeDef.mem_fields_of_seq {d : TypeDef} (hf : f ∈ d.seq) : f ∈ d.fields :=
  TypeDef.mem_fields.2 ⟨d.seq, TypeDef.mem_sequences.2 (.inl rfl), hf⟩

theorem mem_fieldsIn {types : List (String × TypeDef)} :
    f ∈ fieldsIn types ↔ ∃ name d, (name, d) ∈ types ∧ f ∈ d.fields := by
  rw [fieldsIn_eq, List.mem_flatten]
  constructor
  · rintro ⟨seq, hseq, hf⟩
    obtain ⟨name, d, hd, hseq⟩ := mem_sequencesIn.1 hseq
    exact ⟨name, d, hd, TypeDef.mem_fields.2 ⟨seq, hseq, hf⟩⟩
  · rintro ⟨name, d, hd, hf⟩
    obtain ⟨seq, hseq, hf⟩ := TypeDef.mem_fields.1 hf
    exact ⟨seq, mem_sequencesIn.2 ⟨name, d, hd, hseq⟩, hf⟩

theorem Schema.mem_fields {schema : Schema} :
    f ∈ schema.fields ↔ ∃ seq ∈ schema.sequences, f ∈ seq := by
  have hflatten : schema.fields = schema.sequences.flatten := by
    rw [fields, sequences, List.flatten_append, fieldsIn_eq]
    cases schema.seq <;> simp
  rw [hflatten, List.mem_flatten]

theorem TypeChain.mem_fields {chain : TypeChain} :
    f ∈ chain.fields ↔ ∃ seq ∈ chain.sequences, f ∈ seq := by
  simp only [TypeChain.fields, TypeChain.sequences, List.mem_flatMap, TypeDef.mem_fields]
  constructor
  · rintro ⟨d, hd, seq, hseq, hf⟩
    exact ⟨seq, ⟨d, hd, hseq⟩, hf⟩
  · rintro ⟨seq, ⟨d, hd, hseq⟩, hf⟩
    exact ⟨d, hd, seq, hseq, hf⟩

/-! ## The root -/

/-- A type that is put is new, or takes the place of one of its name. -/
theorem Types.mem_of_mem_put {types : Types} {name : String} {d : TypeDef}
    {entry : String × TypeDef} (h : entry ∈ Types.put types name d) :
    entry ∈ types ∨ entry = (name, d) := by
  induction types with
  | nil => exact .inr (by simpa [Types.put] using h)
  | cons first rest ih =>
      unfold Types.put at h
      split at h
      case isTrue hn =>
          rcases List.mem_cons.1 h with h | h
          · exact .inr (h.trans (by rw [hn]))
          · exact .inl (List.mem_cons_of_mem _ h)
      case isFalse =>
          rcases List.mem_cons.1 h with h | h
          · exact .inl (h ▸ List.mem_cons_self)
          · exact (ih h).imp_left (List.mem_cons_of_mem _)

theorem Types.mem_of_mem_putAll {types more : Types} {entry : String × TypeDef}
    (h : entry ∈ Types.putAll types more) : entry ∈ types ∨ entry ∈ more := by
  induction more generalizing types with
  | nil => exact .inl h
  | cons first rest ih =>
      rcases ih h with h | h
      · exact (Types.mem_of_mem_put h).imp_right fun h => List.mem_cons.2 (.inl h)
      · exact .inr (List.mem_cons_of_mem _ h)

/-- The type that the root is borrowed from is one of the schema's own. -/
theorem Schema.mem_types_of_namesake {schema : Schema} {d : TypeDef}
    (h : schema.namesake? = some d) : ∃ name, (name, d) ∈ schema.types := by
  unfold namesake? at h
  split at h
  case h_1 id _ =>
      split at h
      · cases h
      · exact ⟨id, mem_of_lookup h⟩
  case h_2 => cases h

/-- The root type brings no fields of its own. -/
theorem Schema.mem_sequences_of_rootType {schema : Schema} {definition : TypeDef}
    (h : schema.rootType? = some definition) (hfs : fs ∈ definition.sequences) :
    fs ∈ schema.sequences := by
  rw [sequences, List.mem_append, mem_sequencesIn]
  unfold rootType? at h
  split at h
  case h_1 own hown =>
      cases h
      rw [hown]
      rcases TypeDef.mem_sequences.1 hfs with rfl | hfs
      · exact .inl List.mem_cons_self
      · exact .inr hfs
  case h_2 =>
      obtain ⟨d, hd, rfl⟩ := Option.map_eq_some_iff.1 h
      obtain ⟨name, hmem⟩ := mem_types_of_namesake hd
      refine .inr ?_
      rcases TypeDef.mem_sequences.1 hfs with rfl | ⟨n, e, he, hfs⟩
      · exact ⟨name, d, hmem, TypeDef.mem_sequences.2 (.inl rfl)⟩
      -- The types inside the namesake are put into those of the schema.
      rcases Types.mem_of_mem_putAll he with he | he
      · exact ⟨n, e, he, hfs⟩
      · exact ⟨name, d, hmem, TypeDef.mem_sequences.2 (.inr ⟨n, e, he, hfs⟩)⟩

/-! ## Chains -/

namespace TypeChain

variable {chain around : TypeChain} {name : String} {d : TypeDef}

theorem mem_sequences_cons :
    fs ∈ TypeChain.sequences (d :: chain) ↔ fs ∈ d.sequences ∨ fs ∈ chain.sequences := by
  simp [TypeChain.sequences]

/-- A type that is found heads its own chain, which has no fields but those of the chain around. -/
theorem findFirst?_inv (h : findFirst? name chain = some (d, around)) :
    ∃ outer, around = d :: outer ∧ ∀ fs ∈ around.sequences, fs ∈ chain.sequences := by
  induction chain with
  | nil => cases h
  | cons e outer ih =>
      unfold findFirst? at h
      split at h
      case h_1 found hfound =>
          cases h
          refine ⟨_, rfl, ?_⟩
          intro fs hfs
          rcases mem_sequences_cons.1 hfs with hfs | hfs
          · exact mem_sequences_cons.2 (.inl (TypeDef.mem_sequences_of_lookup hfound hfs))
          · exact hfs
      case h_2 =>
          obtain ⟨outer', rfl, hsub⟩ := ih h
          exact ⟨outer', rfl, fun fs hfs => mem_sequences_cons.2 (.inr (hsub fs hfs))⟩

/-- Each part of a name goes down into a type that is declared in the one before. -/
theorem descend?_inv {found : TypeDef} {parts : List String}
    (h : descend? found chain parts = some (d, around)) (hhead : ∃ outer, chain = found :: outer) :
    ∃ outer, around = d :: outer ∧ ∀ fs ∈ around.sequences, fs ∈ chain.sequences := by
  induction parts generalizing found chain with
  | nil =>
      cases h
      obtain ⟨outer, rfl⟩ := hhead
      exact ⟨outer, rfl, fun _ hfs => hfs⟩
  | cons part rest ih =>
      unfold descend? at h
      split at h
      case h_1 inner hinner =>
          obtain ⟨outer, rfl, hsub⟩ := ih h ⟨chain, rfl⟩
          refine ⟨outer, rfl, ?_⟩
          intro fs hfs
          rcases mem_sequences_cons.1 (hsub fs hfs) with hfs | hfs
          · obtain ⟨_, rfl⟩ := hhead
            exact mem_sequences_cons.2 (.inl (TypeDef.mem_sequences_of_lookup hinner hfs))
          · exact hfs
      case h_2 => cases h

/-- The same for a qualified name. -/
theorem lookup?_inv (h : chain.lookup? name = some (d, around)) :
    ∃ outer, around = d :: outer ∧ ∀ fs ∈ around.sequences, fs ∈ chain.sequences := by
  unfold lookup? at h
  split at h
  case h_1 => cases h
  case h_2 first rest _ =>
      split at h
      case h_1 found inner hfound =>
          obtain ⟨outer₁, rfl, hsub₁⟩ := findFirst?_inv hfound
          obtain ⟨outer, rfl, hsub⟩ := descend?_inv h ⟨outer₁, rfl⟩
          exact ⟨outer, rfl, fun fs hfs => hsub₁ fs (hsub fs hfs)⟩
      case h_2 => cases h

/-- What the types of a chain have in sight of each other. -/
theorem fields_of_lookup? (h : chain.lookup? name = some (d, around)) :
    ∀ f ∈ around.fields, f ∈ chain.fields := by
  obtain ⟨-, -, hsub⟩ := lookup?_inv h
  intro f hf
  obtain ⟨seq, hseq, hf⟩ := mem_fields.1 hf
  exact mem_fields.2 ⟨seq, hsub seq hseq, hf⟩

end TypeChain

/-! ## Contexts and instances -/

/-- What holds of all fields in sight, which are those of the types of the chain. -/
def Context.Every (P : Field → Prop) (ctx : Context) : Prop := ∀ f ∈ ctx.chain.fields, P f

namespace Setting

variable {P : Field → Prop} {s : Setting} {ctx : Context} {i : Instance}

/-- What holds of all fields that an instance can meet. The chain of an instance starts with its own
type, so these are its own fields and those in sight from within. -/
structure Instance.Every (P : Field → Prop) (i : Instance) : Prop where
  head : ∃ outer, i.chain = i.definition :: outer
  every : ∀ f ∈ i.chain.fields, P f

/-- The fields of an instance are those of the first type in its chain. -/
theorem Instance.Every.seq (h : i.Every P) {f : Field} (hf : f ∈ i.definition.seq) : P f := by
  obtain ⟨outer, houter⟩ := h.head
  have hin : f ∈ TypeChain.fields (i.definition :: outer) :=
    List.mem_flatMap.2 ⟨i.definition, List.mem_cons_self, TypeDef.mem_fields_of_seq hf⟩
  exact h.every f (houter ▸ hin)

theorem Instance.Every.inside (h : i.Every P) : (inside ctx i).Every P := h.every

/-- An instance of a type that is found meets no fields but those in sight. -/
theorem Instance.every_of_lookup? {name typeName : String} {definition : TypeDef}
    {chain : TypeChain} {attributes : Fields} (hctx : ctx.Every P)
    (h : ctx.chain.lookup? typeName = some (definition, chain)) :
    Instance.Every P { name, typeName, definition, chain, attributes } where
  head := by
    obtain ⟨outer, houter, -⟩ := TypeChain.lookup?_inv h
    exact ⟨outer, houter⟩
  every f hf := hctx f (TypeChain.fields_of_lookup? h f hf)

/-- A type that is found in a chain is declared there, with all that is in it. -/
theorem nested_every {depth : Nat} {f : Field} {typeName name : String} {p p' : Progress}
    {o : Outcome} (hctx : ctx.Every P)
    (h : (s.nested depth ctx f typeName name).Yields p o p') :
    ∃ i : Instance, i.name = name ∧ i.Every P ∧ (s.decodeInstance depth ctx i).Yields p o p' := by
  obtain ⟨definition, chain, hlookup, hrun⟩ := nested_inv h
  exact ⟨_, rfl, Instance.every_of_lookup? hctx hlookup, hrun⟩

end Setting

/-- The root instance meets no fields but those of the schema. -/
theorem Schema.rootInstance_every {P : Field → Prop} {schema : Schema} {definition : TypeDef}
    (h : schema.rootType? = some definition) (hP : ∀ f ∈ schema.fields, P f) :
    (schema.rootInstance definition).Every P where
  head := ⟨[], rfl⟩
  every f hf := by
    have hf : f ∈ definition.fields := by simpa [rootInstance, TypeChain.fields] using hf
    obtain ⟨seq, hseq, hf⟩ := TypeDef.mem_fields.1 hf
    exact hP f (mem_fields.2 ⟨seq, mem_sequences_of_rootType h hseq, hf⟩)

end ByteSchema
