import ByteSchema.Proofs.Run

/-!
# ByteSchema.Proofs.Growth

The table of values only grows.

Whatever is decoded, the table behind it holds what it held before, for a path is written only when
it is new. This is proved of one decoder after the other, with the decoding of nested instances as a
parameter, and needs nothing of the schema. What exactly is added is another matter
(`Node.written`).
-/

namespace ByteSchema

@[simp] theorem Progress.get?_write (p : Progress) (path : String) (v : Value) :
    (p.write path v).values.get? path = some v := by
  simp [ValueTable.get?]

theorem Progress.get?_write_of_ne (p : Progress) {path other : String} (v : Value)
    (h : other ≠ path) : (p.write path v).values.get? other = p.values.get? other := by
  have hb : (other == path) = false := by simpa using h
  simp [ValueTable.get?, List.lookup_cons, hb]

/-- Each path of the table has one entry only. -/
def ValueTable.IsDistinct (t : ValueTable) : Prop := (t.entries.map Prod.fst).Nodup

/-- All values of the second progress are those of the first one too, and with it, it has one entry
a path. -/
structure Progress.Extends (p' p : Progress) : Prop where
  kept : ∀ path x, p.values.get? path = some x → p'.values.get? path = some x
  distinct : p.values.IsDistinct → p'.values.IsDistinct

namespace Progress.Extends

variable {p p₁ p' : Progress}

theorem of_values_eq (h : p'.values = p.values) : p'.Extends p :=
  ⟨fun _ _ hx => h ▸ hx, fun hdistinct => h ▸ hdistinct⟩

theorem refl (p : Progress) : p.Extends p := of_values_eq rfl

theorem trans (h : p'.Extends p₁) (h₁ : p₁.Extends p) : p'.Extends p :=
  ⟨fun path x hx => h.kept path x (h₁.kept path x hx), fun hp => h.distinct (h₁.distinct hp)⟩

/-- A new path is written beside those that are there. -/
theorem write {path : String} {v : Value} (hnew : p.values.get? path = none) :
    (p.write path v).Extends p := by
  have hrecord : p.values.record path v = .ok (p.write path v).values :=
    ValueTable.record_eq_ok_iff.2 ⟨hnew, rfl⟩
  refine ⟨fun other x hx => ValueTable.get?_record_of_some hrecord hx, fun hdistinct => ?_⟩
  refine List.nodup_cons.2 ⟨?_, hdistinct⟩
  intro hmem
  obtain ⟨entry, hentry, rfl⟩ := List.mem_map.1 hmem
  simpa using List.lookup_eq_none_iff.1 hnew entry hentry

end Progress.Extends

namespace Setting

variable {s : Setting} {custom : CustomDecoder} {ctx : Context} {f : Field} {name : String}
  {p p' : Progress} {o : Outcome}

/-- What is asked of the decoder of nested instances. -/
def ExtendsCustom (custom : CustomDecoder) : Prop :=
  ∀ {ctx : Context} {f : Field} {typeName name : String} {p p' : Progress} {o : Outcome},
    (custom ctx f typeName name).Yields p o p' → p'.Extends p

theorem decodeSingle_extends (hcustom : ExtendsCustom custom)
    (h : (s.decodeSingle custom ctx f name).Yields p o p') : p'.Extends p := by
  rcases decodeSingle_inv h with ⟨-, hp⟩ | ⟨typeName, -, -, hrun⟩
  · exact .of_values_eq hp
  · exact hcustom hrun

/-- Each element keeps the values that the ones before it have written. -/
theorem elements_extends {r : Repetition} {count : Option Int} {index : Nat} {cursor stop : Int}
    {items : List Node} (hcustom : ExtendsCustom custom)
    (h : Elements s custom ctx f r count index cursor p items stop p') : p'.Extends p := by
  induction h with
  | complete => exact .refl _
  | satisfied _ single => exact decodeSingle_extends hcustom single
  | stuck _ single =>
      have hstopped := decodeSingle_extends hcustom single
      exact ⟨hstopped.kept, hstopped.distinct⟩
  | next _ single _ _ _ ih => exact ih.trans (decodeSingle_extends hcustom single)

/-- While an array is not complete its run starts with an element, whose values are kept. -/
theorem Elements.exists_first {r : Repetition} {count : Option Int} {index : Nat}
    {cursor stop : Int} {items : List Node} (hcustom : ExtendsCustom custom)
    (h : Elements s custom ctx f r count index cursor p items stop p')
    (more : s.isComplete r count index cursor = false) :
    ∃ o p₁ later,
      (s.decodeSingle custom (ctx.moveTo cursor) f (elementName f.id index)).Yields p o p₁ ∧
        p'.Extends p₁ ∧ items = o.node :: later := by
  cases h with
  | complete reached =>
      rw [more] at reached
      cases reached
  | satisfied _ single => exact ⟨_, _, [], single, .refl _, rfl⟩
  | stuck _ single => exact ⟨_, _, [], single, .of_values_eq rfl, rfl⟩
  | next _ single _ _ rest => exact ⟨_, _, _, single, elements_extends hcustom rest, rfl⟩

/-- A field writes its own value last, under a path that was free. -/
theorem decodeField_extends (hcustom : ExtendsCustom custom)
    (h : (s.decodeField custom ctx f).Yields p o p') : p'.Extends p := by
  obtain ⟨ctx', -, hrun⟩ := decodeField_inv h
  rcases hrun with ⟨-, hsingle⟩ | ⟨r, count, items, stop, -, -, helements, -⟩
  · exact decodeSingle_extends hcustom hsingle
  · exact elements_extends hcustom helements

theorem sequence_extends {seq : List Field} {nodes : List Node} {fields : Fields} {stop : Int}
    (hcustom : ExtendsCustom custom)
    (h : Sequence s custom seq ctx p nodes fields stop p') : p'.Extends p := by
  induction h with
  | nil => exact .refl _
  | skip _ _ ih => exact ih
  | field _ decoded new _ ih =>
      exact (ih.trans (.write new)).trans (decodeField_extends hcustom decoded)

/-- By induction on the depth: the instances in it only add values, too. -/
theorem decodeInstance_extends {depth : Nat} {i : Instance}
    (h : (s.decodeInstance depth ctx i).Yields p o p') : p'.Extends p := by
  induction depth generalizing ctx i p o p' with
  | zero => exact absurd h Decoder.not_yields_fail
  | succ depth ih =>
      obtain ⟨left, children, fields, stop, hleft, hrun, -⟩ := decodeInstance_inv h
      cases hleft
      refine sequence_extends (fun hnested => ?_) hrun
      obtain ⟨definition, chain, -, hinstance⟩ := nested_inv hnested
      exact ih hinstance

theorem extendsCustom_nested {depth : Nat} : ExtendsCustom (s.nested depth) := by
  intro ctx f typeName name p p' o h
  obtain ⟨definition, chain, -, hrun⟩ := nested_inv h
  exact decodeInstance_extends hrun

end Setting

end ByteSchema
