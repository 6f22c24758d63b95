import ByteSchema.Proofs.Declared

/-!
# ByteSchema.Proofs.Loading

What loading promises: each field of a schema that is loaded has an id that is not empty. An id is
the plain text of a value, and no value but the empty text has an empty text.
-/

namespace ByteSchema

/-! ## Texts of values -/

namespace Value

theorem append_ne_empty {s t : String} (h : t ≠ "") : s ++ t ≠ "" :=
  fun hst => h (String.append_eq_empty_iff.1 hst).2

theorem bracket_ne_empty : ")" ≠ "" := by decide

theorem layoutDigits_ne_empty (layout : FloatLayout) (ds : List Char) (lead : Int) :
    layoutDigits layout ds lead ≠ "" := by
  unfold layoutDigits
  split
  · split <;> simp
  · simp

/-- A number is written with digits, or with the name that it has. -/
theorem floatText_ne_empty (x : Float) : floatText x ≠ "" := by
  unfold floatText
  split
  · split
    · decide
    · split <;> decide
  · dsimp only
    split
    · simp
    · exact append_ne_empty (layoutDigits_ne_empty _ _ _)

/-- By cases on the value: even an empty collection has its brackets. -/
theorem quotedIn_ne_empty (shown : List Nat) : ∀ v : Value, quotedIn shown v ≠ ""
  | null => by simp [quotedIn]
  | bool b => by cases b <;> simp [quotedIn]
  | int n => by
      rw [quotedIn]
      cases n <;> simp [toString, Int.repr]
  | float x => floatText_ne_empty x
  | str s => by simp [quotedIn, Text.quote]
  | bytes bs => by simp [quotedIn, Text.quoteBytes]
  | list vs => by simp [quotedIn]
  | tuple [] => by simp [quotedIn]
  | tuple [v] => by simp [quotedIn]
  | tuple (v :: w :: rest) => by simp [quotedIn]
  | set [] => by simp [quotedIn]
  | set (v :: rest) => by simp [quotedIn]
  | map es => by simp [quotedIn]
  | record fs => by simp [quotedIn]
  | date d => by
      have h : d.quoted ≠ "" := append_ne_empty bracket_ne_empty
      simpa [quotedIn] using h
  | moment m => by
      have h : m.quoted ≠ "" := append_ne_empty bracket_ne_empty
      simpa [quotedIn] using h
  | endian .big => by simp [quotedIn]
  | endian .little => by simp [quotedIn]
  | cycle label v => by
      rw [quotedIn]
      split
      · cases v.isMap <;> simp [elided]
      · exact quotedIn_ne_empty (label :: shown) v
  | back label isMap => by cases isMap <;> simp [quotedIn, elided]

/-- Only the empty text has an empty text. -/
theorem text_ne_empty {v : Value} (h : v ≠ .str "") : v.text ≠ "" := by
  unfold text
  split
  case h_1 s => exact fun hs => h (congrArg str hs)
  case h_2 => simp
  case h_3 d => simp [Date.text]
  case h_4 m => simp [Moment.text]
  case h_5 => decide
  case h_6 => decide
  case h_7 => exact quotedIn_ne_empty [] _

end Value

/-! ## Fields -/

namespace Loading

/-- Only the empty text has an empty text. -/
theorem textOf_ne_empty {v : Value} {id : String} (h : textOf v = .ok id) (hv : v ≠ .str "") :
    id ≠ "" := by
  have htext := Value.text_ne_empty hv
  unfold textOf at h
  split at h
  case h_1 s => cases h; exact htext
  case h_2 =>
      split at h
      · cases h
      · cases h; exact htext

/-- An id is asked for, and the empty text counts as none. -/
theorem isNamed_of_field {raw : Value} {f : Field} (h : Field.ofValue raw = .ok f) :
    f.IsNamed := by
  unfold Field.ofValue at h
  split at h
  case h_2 => cases h
  case h_1 entries _ =>
      dsimp only at h
      split at h
      case h_1 => cases h
      case h_2 => cases h
      case h_3 hempty =>
          obtain ⟨id, hid, h⟩ := bind_eq_ok h
          obtain ⟨type, -, h⟩ := bind_eq_ok h
          obtain ⟨terminator, -, h⟩ := bind_eq_ok h
          obtain ⟨encoding, -, h⟩ := bind_eq_ok h
          obtain ⟨repetition, -, h⟩ := bind_eq_ok h
          cases h
          exact textOf_ne_empty hid hempty

theorem isNamed_of_fieldsOf {v : Value} {owner : String} {fields : List Field}
    (h : fieldsOf v owner = .ok fields) : ∀ f ∈ fields, f.IsNamed := by
  unfold fieldsOf at h
  split at h
  case h_1 =>
      cases h
      simp
  case h_2 => exact forall_of_mapM h fun _ => isNamed_of_field
  case h_3 => cases h

/-! ## Types and schemas -/

theorem isNamed_of_put {types : Types} {name : String} {d : TypeDef}
    (htypes : ∀ f ∈ fieldsIn types, f.IsNamed) (hd : ∀ f ∈ d.fields, f.IsNamed) :
    ∀ f ∈ fieldsIn (Types.put types name d), f.IsNamed := by
  intro f hf
  obtain ⟨n, e, he, hf⟩ := mem_fieldsIn.1 hf
  rcases Types.mem_of_mem_put he with he | he
  · exact htypes f (mem_fieldsIn.2 ⟨n, e, he, hf⟩)
  · cases he
    exact hd f hf

section Inversion

variable {left : List Nat} {label : Nat} {v key : Value} {entries rest : List (Value × Value)}
  {name owner : String} {d : TypeDef} {types done : Types}

/-- A mapping is read as a type when its fields and its own types are read. -/
theorem type_map_inv (h : TypeDef.ofValueWithin left (.map entries) name = .ok d) :
    ∃ seq own endian, fieldsOf (get entries "seq") ("type '" ++ name ++ "'") = .ok seq ∧
      Types.ofValueWithin left (get entries "types") ("type '" ++ name ++ "'") = .ok own ∧
      d = { seq, types := own, endian } := by
  unfold TypeDef.ofValueWithin at h
  obtain ⟨seq, hseq, h⟩ := bind_eq_ok h
  obtain ⟨own, hown, h⟩ := bind_eq_ok h
  obtain ⟨endian, -, h⟩ := bind_eq_ok h
  cases h
  exact ⟨seq, own, endian, hseq, hown, rfl⟩

/-- A value that is met again inside itself is unfolded, at the cost of a label. -/
theorem type_cycle_inv (h : TypeDef.ofValueWithin left (.cycle label v) name = .ok d) :
    label ∈ left ∧
      TypeDef.ofValueWithin (left.erase label) (Value.cycle label v).unfolded name = .ok d := by
  unfold TypeDef.ofValueWithin at h
  by_cases hlabel : label ∈ left
  · rw [if_pos hlabel] at h
    exact ⟨hlabel, h⟩
  · rw [if_neg hlabel] at h
    cases h

/-- Of the other values only null is a type, one without anything. -/
theorem type_other_inv (h : TypeDef.ofValueWithin left v name = .ok d)
    (hmap : ∀ entries, v = .map entries → False)
    (hcycle : ∀ label w, v = .cycle label w → False) : d = {} := by
  unfold TypeDef.ofValueWithin at h
  split at h
  · cases h
    rfl
  · exact absurd rfl (hmap _)
  · exact absurd rfl (hcycle _ _)
  · cases h

/-- The types of an owner are read from a cycle only by unfolding it. -/
theorem table_cycle_inv (h : Types.ofValueWithin left (.cycle label v) owner = .ok types) :
    label ∈ left ∧
      Types.ofValueWithin (left.erase label) (Value.cycle label v).unfolded owner = .ok types := by
  unfold Types.ofValueWithin at h
  by_cases hlabel : label ∈ left
  · rw [if_pos hlabel] at h
    exact ⟨hlabel, h⟩
  · rw [if_neg hlabel] at h
    cases h

theorem table_other_inv (h : Types.ofValueWithin left v owner = .ok types)
    (hmap : ∀ entries, v = .map entries → False)
    (hcycle : ∀ label w, v = .cycle label w → False) : types = [] := by
  unfold Types.ofValueWithin at h
  split at h
  · cases h
    rfl
  · exact absurd rfl (hmap _)
  · exact absurd rfl (hcycle _ _)
  · cases h

/-- The first type of a mapping is put to those read before, and the rest is read then. -/
theorem entries_cons_inv (h : Types.ofEntriesWithin left ((key, v) :: rest) done = .ok types) :
    ∃ name d, TypeDef.ofValueWithin left v name = .ok d ∧
      Types.ofEntriesWithin left rest (Types.put done name d) = .ok types := by
  unfold Types.ofEntriesWithin at h
  obtain ⟨name, -, h⟩ := bind_eq_ok h
  obtain ⟨d, hd, h⟩ := bind_eq_ok h
  exact ⟨name, d, hd, h⟩

end Inversion

/-- What holds of types that are read, and of the types in them: a property of types and one of
tables that are kept where types are put together hold of all of them. -/
theorem within_induction {P : TypeDef → Prop} {Q : Types → Prop} (hnone : P {}) (hnil : Q [])
    (htype : ∀ {v owner seq types endian}, fieldsOf v owner = .ok seq → Q types →
      P { seq, types, endian })
    (hput : ∀ {types name d}, Q types → P d → Q (Types.put types name d)) :
    (∀ (left : List Nat) (raw : Value) (name : String) (d : TypeDef),
      TypeDef.ofValueWithin left raw name = .ok d → P d) ∧
    (∀ (left : List Nat) (v : Value) (owner : String) (types : Types),
      Types.ofValueWithin left v owner = .ok types → Q types) ∧
    (∀ (left : List Nat) (entries : List (Value × Value)) (done types : Types),
      Types.ofEntriesWithin left entries done = .ok types → Q done → Q types) := by
  apply TypeDef.ofValueWithin.mutual_induct
  -- Types: nothing, a mapping, a value that is met again inside itself, and any other value.
  case case1 => exact fun left name d h => type_other_inv h nofun nofun ▸ hnone
  case case2 =>
      intro left name entries owner htypes d h
      obtain ⟨seq, types, endian, hseq, hrun, rfl⟩ := type_map_inv h
      exact htype hseq (htypes types hrun)
  case case3 => exact fun left name label v hlabel ih d h => ih d (type_cycle_inv h).2
  case case4 => exact fun left name label v hlabel d h => absurd (type_cycle_inv h).1 hlabel
  case case5 => exact fun left raw name _ hmap hcycle d h => type_other_inv h hmap hcycle ▸ hnone
  -- Tables of types: the same four.
  case case6 => exact fun left owner types h => table_other_inv h nofun nofun ▸ hnil
  case case7 =>
      intro left owner entries ih types h
      unfold Types.ofValueWithin at h
      exact ih types h hnil
  case case8 => exact fun left owner label v hlabel ih types h => ih types (table_cycle_inv h).2
  case case9 => exact fun left owner label v hlabel types h => absurd (table_cycle_inv h).1 hlabel
  case case10 => exact fun left v owner _ hmap hcycle types h => table_other_inv h hmap hcycle ▸ hnil
  -- Entries of a table: none left, and one type put before the rest is read.
  case case11 =>
      intro left done types h hdone
      unfold Types.ofEntriesWithin at h
      cases h
      exact hdone
  case case12 =>
      intro left done key body rest ihType ihRest types h hdone
      obtain ⟨name, d, hd, hrest⟩ := entries_cons_inv h
      exact ihRest name d types hrest (hput hdone (ihType name d hd))

theorem isNamed_of_type {v : Value} {owner : String} {seq : List Field} {types : Types}
    {endian : Option Endian} (hseq : fieldsOf v owner = .ok seq)
    (htypes : ∀ f ∈ fieldsIn types, f.IsNamed) :
    ∀ f ∈ TypeDef.fields { seq, types, endian }, f.IsNamed := by
  intro f hf
  rcases List.mem_append.1 hf with hf | hf
  · exact isNamed_of_fieldsOf hseq f hf
  · exact htypes f hf

theorem isNamed_of_types {v : Value} {owner : String} {types : Types}
    (h : Types.ofValue v owner = .ok types) : ∀ f ∈ fieldsIn types, f.IsNamed := by
  refine (within_induction (P := fun d => ∀ f ∈ d.fields, f.IsNamed)
    (Q := fun types => ∀ f ∈ fieldsIn types, f.IsNamed) ?_ ?_ isNamed_of_type
    isNamed_of_put).2.1 _ v owner types h
  · simp [TypeDef.fields, fieldsIn]
  · simp [fieldsIn]

end Loading

namespace Schema

open Loading

/-- The parts that a schema is read from. -/
theorem ofEntries_inv {entries : List (Value × Value)} {schema : Schema}
    (h : ofEntries entries = .ok schema) :
    (∀ seq, schema.seq = some seq → fieldsOf (get entries "seq") "schema" = .ok seq) ∧
      Types.ofValue (get entries "types") "schema" = .ok schema.types := by
  obtain ⟨info, -, h⟩ := bind_eq_ok h
  dsimp only at h
  split at h
  case h_1 =>
      obtain ⟨seq, hseq, hrest⟩ := bind_eq_ok h
      cases hseq
      obtain ⟨types, htypes, hdone⟩ := bind_eq_ok hrest
      cases hdone
      exact ⟨nofun, htypes⟩
  case h_2 =>
      obtain ⟨seq, hseq, hrest⟩ := bind_eq_ok h
      obtain ⟨fields, hfields, hsome⟩ := bind_eq_ok hseq
      cases hsome
      obtain ⟨types, htypes, hdone⟩ := bind_eq_ok hrest
      cases hdone
      exact ⟨fun seq hseq => Option.some.inj hseq ▸ hfields, htypes⟩

theorem exists_entries_of_text {text : String} {schema : Schema} (h : ofText text = .ok schema) :
    ∃ entries, ofEntries entries = .ok schema := by
  unfold ofText ofTextBy at h
  split at h
  · cases h
  · obtain ⟨document, -, h⟩ := bind_eq_ok h
    split at h
    · exact ⟨_, h⟩
    · cases h

/-- A schema that is loaded is read from a mapping. -/
theorem exists_entries_of_load {source : Value} {schema : Schema} (h : load source = .ok schema) :
    ∃ entries, ofEntries entries = .ok schema := by
  unfold load at h
  split at h
  · exact ⟨_, h⟩
  · exact exists_entries_of_text h
  · split at h
    · exact exists_entries_of_text h
    · cases h
  · cases h

/-- Each field of a schema that is loaded has an id. -/
theorem isNamed_of_load {source : Value} {schema : Schema} (h : load source = .ok schema) :
    ∀ f ∈ schema.fields, f.IsNamed := by
  obtain ⟨entries, hentries⟩ := exists_entries_of_load h
  obtain ⟨hseq, htypes⟩ := ofEntries_inv hentries
  intro f hf
  rcases List.mem_append.1 hf with hf | hf
  · cases hown : schema.seq with
    | none =>
        rw [hown] at hf
        cases hf
    | some seq =>
        rw [hown] at hf
        exact isNamed_of_fieldsOf (hseq seq hown) f hf
  · exact isNamed_of_types htypes f hf

end Schema

end ByteSchema
