import ByteSchema.Proofs.Resolution
import ByteSchema.Proofs.WriteOnce

/-!
# ByteSchema.Proofs.Condition

What the condition of a repetition sees behind an element.

The element and its index are put into the scope, as `_` and `_index`, and nowhere else. But a name is
looked for below the path of the instance first, then below that of the instance around, and only then
as it stands. So they are what the names stand for unless a field of one of these ids was decoded
before, and then it depends on where:

* Where no field with such an id was decoded, the names stand for the element and its index, in every
  schema. Whatever a path leads to in a scope is the value of a field, and stands in the table
  (`Visit.Covered`), so no other text can lead to a value by accident.
* Where ids are plain, a number in the instance or in the one around it comes before the element, and
  nothing else does.
-/

namespace ByteSchema

/-! ## The last name of a path -/

/-- The name is the last one of the path. -/
def EndsIn (path name : String) : Prop := path = name ∨ ∃ lead, path = lead ++ "." ++ name

theorem endsIn_iff {path name : String} :
    EndsIn path name ↔ path = name ∨ '.' :: name.toList <:+ path.toList := by
  refine or_congr_right ⟨?_, ?_⟩
  · rintro ⟨lead, rfl⟩
    exact ⟨lead.toList, by simp⟩
  · rintro ⟨lead, hlead⟩
    refine ⟨String.ofList lead, ?_⟩
    rw [← String.ofList_toList (s := path), ← hlead]
    simp [String.ofList_append, String.append_assoc]

instance (path name : String) : Decidable (EndsIn path name) := decidable_of_iff' _ endsIn_iff

/-- The table holds a field of this name. -/
def ValueTable.HasField (t : ValueTable) (name : String) : Prop :=
  ∃ entry ∈ t.entries, EndsIn entry.1 name

instance (t : ValueTable) (name : String) : Decidable (t.HasField name) :=
  inferInstanceAs (Decidable (∃ entry ∈ t.entries, EndsIn entry.1 name))

theorem ValueTable.HasField.of_get? {t : ValueTable} {path name : String} {v : Value}
    (h : t.get? path = some v) (hends : EndsIn path name) : t.HasField name :=
  ⟨(path, v), mem_of_lookup h, hends⟩

theorem ValueTable.get?_eq_none {t : ValueTable} {path name : String} (h : ¬ t.HasField name)
    (hends : EndsIn path name) : t.get? path = none := by
  by_contra hsome
  obtain ⟨v, hv⟩ := Option.ne_none_iff_exists'.1 hsome
  exact h (.of_get? hv hends)

/-- What stands before the name is nothing, or ends with a dot. -/
theorem pathLead_eq (path : List String) :
    pathLead path = "" ∨ ∃ lead, pathLead path = lead ++ "." := by
  induction path with
  | nil => exact .inl rfl
  | cons name rest ih =>
      unfold pathLead
      split
      case isTrue => exact ih
      case isFalse =>
          rcases ih with hrest | ⟨lead, hrest⟩
          · exact .inr ⟨name, by rw [hrest, String.append_empty]⟩
          · exact .inr ⟨name ++ "." ++ lead, by rw [hrest, ← String.append_assoc]⟩

theorem endsIn_nodeIdOf {path : List String} {name : String} (h : name ≠ "") :
    EndsIn (nodeIdOf (path ++ [name])) name := by
  rw [nodeIdOf_concat h]
  rcases pathLead_eq path with hlead | ⟨lead, hlead⟩
  · exact .inl (by rw [hlead, String.empty_append])
  · exact .inr ⟨lead, by rw [hlead]⟩

namespace Text

/-- By induction on the text: what has no dot in it is one piece. -/
theorem splitListOn_last {fuel : Nat} {piece cs last : List Char} (h : '.' ∉ last)
    (hfuel : cs.length < fuel) :
    ∃ more, splitListOn ['.'] fuel piece (cs ++ '.' :: last) = more ++ [last] := by
  induction cs generalizing fuel piece with
  | nil =>
      cases fuel with
      | zero => cases hfuel
      | succ fuel => exact ⟨[piece.reverse], by simp [splitListOn, splitListOn_of_not_mem h]⟩
  | cons c cs ih =>
      cases fuel with
      | zero => cases hfuel
      | succ fuel =>
          have hfuel : cs.length < fuel := Nat.lt_of_succ_lt_succ hfuel
          by_cases hc : '.' = c
          · obtain ⟨more, hmore⟩ : ∃ more, splitListOn ['.'] fuel [] (cs ++ '.' :: last) =
                more ++ [last] := ih hfuel
            exact ⟨piece.reverse :: more, by simp [splitListOn, hc.symm, hmore]⟩
          · obtain ⟨more, hmore⟩ : ∃ more, splitListOn ['.'] fuel (c :: piece) (cs ++ '.' :: last) =
                more ++ [last] := ih hfuel
            exact ⟨more, by simp [splitListOn, hc, hmore]⟩

/-- The last piece starts at the last dot. -/
theorem splitOn_last (lead : String) {last : String} (h : '.' ∉ last.toList) :
    ∃ more, splitOn "." (lead ++ "." ++ last) = more ++ [last] := by
  have hmark : ".".toList = ['.'] := rfl
  have hlist : (lead ++ "." ++ last).toList = lead.toList ++ '.' :: last.toList := by simp
  have hfuel : lead.toList.length < (lead ++ "." ++ last).length := by
    rw [← String.length_toList, hlist, List.length_append, List.length_cons]
    omega
  obtain ⟨more, hmore⟩ : ∃ more, splitListOn ['.'] (lead ++ "." ++ last).length []
      (lead.toList ++ '.' :: last.toList) = more ++ [last.toList] := splitListOn_last h hfuel
  refine ⟨more.map String.ofList, ?_⟩
  unfold splitOn
  rw [hmark, hlist, hmore]
  simp

end Text

/-- Cut at its dots, a path has its last name as the last piece. -/
theorem EndsIn.names {path name : String} (h : EndsIn path name) (hdot : '.' ∉ name.toList)
    (hne : name ≠ "") :
    ∃ names, (Text.splitOn "." path).filter (· ≠ "") = names ++ [name] := by
  rcases h with rfl | ⟨lead, rfl⟩
  · exact ⟨[], by simp [Text.splitOn_of_not_mem hdot, hne]⟩
  · obtain ⟨more, hmore⟩ := Text.splitOn_last lead hdot
    exact ⟨more.filter (· ≠ ""), by simp [hmore, hne]⟩

/-! ## What a path leads to -/

/-- Some path in the value ends in the name. -/
def Value.Reaches (v : Value) (name : String) : Prop :=
  ∃ names w, v.follow (names ++ [name]) = some w

/-- A path in a record is one of its names, or goes on in a value of it. -/
theorem Value.reaches_record {fields : Fields} {name : String} :
    (Value.record fields).Reaches name ↔ (∃ w, fields.lookup name = some w) ∨
      ∃ first w, fields.lookup first = some w ∧ w.Reaches name := by
  have hfollow (first : String) (rest : List String) (v : Value) :
      (Value.record fields).follow (first :: rest) = some v ↔
        ∃ w, fields.lookup first = some w ∧ w.follow rest = some v := by
    rw [Value.follow_cons]
    exact Option.bind_eq_some_iff
  constructor
  · rintro ⟨_ | ⟨first, rest⟩, v, h⟩
    · obtain ⟨w, hw, -⟩ := (hfollow _ _ _).1 h
      exact .inl ⟨w, hw⟩
    · obtain ⟨w, hw, hrest⟩ := (hfollow _ _ _).1 h
      exact .inr ⟨first, w, hw, rest, v, hrest⟩
  · rintro (⟨w, hw⟩ | ⟨first, w, hw, rest, v, hrest⟩)
    · exact ⟨[], w, (hfollow _ _ _).2 ⟨w, hw, rfl⟩⟩
    · exact ⟨first :: rest, v, (hfollow _ _ _).2 ⟨w, hw, hrest⟩⟩

theorem Value.not_reaches_nil {name : String} : ¬ (Value.record []).Reaches name := by
  simp [reaches_record]

theorem mem_writtenAll {recorded : Bool} {c : Node} {ns : List Node} (hc : c ∈ ns) :
    c.written ⊆ writtenAll recorded ns ∧
      (recorded = true → (c.id, c.value) ∈ writtenAll recorded ns) := by
  induction ns with
  | nil => cases hc
  | cons n rest ih =>
      unfold writtenAll
      rcases List.mem_cons.1 hc with rfl | hc
      · refine ⟨fun entry hentry => by simp [hentry], ?_⟩
        rintro rfl
        simp
      · obtain ⟨hwritten, hself⟩ := ih hc
        exact ⟨fun entry hentry => List.mem_append_right _ (hwritten hentry),
          fun hrecorded => List.mem_append_right _ (hself hrecorded)⟩

/-- A path in the value of a node goes on in the value of a field. -/
theorem Node.Coherent.child_of_follow {n : Node} {first : String} {rest : List String} {v : Value}
    (hn : n.Coherent) (hmap : n.value.isMap = false) (h : n.value.follow (first :: rest) = some v) :
    ∃ c ∈ n.children, n.value.isRecord = true ∧ c.id = n.id ++ "." ++ first ∧
      c.value.follow rest = some v := by
  rw [Value.follow_cons] at h
  unfold Node.Coherent at hn
  cases hvalue : n.value with
  | record fields =>
      rw [hvalue] at h hn
      obtain ⟨hids, -, hfields⟩ := hn
      obtain ⟨w, hw, hrest⟩ := Option.bind_eq_some_iff.1 h
      change fields.lookup first = some w at hw
      rw [hfields] at hw
      obtain ⟨c, hc, heq⟩ := List.mem_map.1 (mem_of_lookup hw)
      obtain ⟨rfl, rfl⟩ := Prod.mk.inj heq
      exact ⟨c, hc, rfl, hids c hc, hrest⟩
  | map =>
      rw [hvalue] at hmap
      cases hmap
  | _ =>
      rw [hvalue] at h
      cases h

/-- A name that a path in the value of a node ends in is that of a field below the node. -/
theorem Node.written_of_reaches {n : Node} {name : String} (h : n.value.Reaches name)
    (hnodes : ∀ m ∈ n.flatten, m.Coherent ∧ m.value.isMap = false) :
    ∃ entry ∈ n.written, EndsIn entry.1 name := by
  obtain ⟨names, w, h⟩ := h
  induction names generalizing n with
  | nil =>
      obtain ⟨hn, hmap⟩ := hnodes n n.mem_flatten_self
      obtain ⟨c, hc, hrecord, hid, -⟩ := hn.child_of_follow hmap h
      refine ⟨(c.id, c.value), ?_, .inr ⟨n.id, hid⟩⟩
      rw [n.written_eq, hrecord]
      exact (mem_writtenAll hc).2 rfl
  | cons first rest ih =>
      obtain ⟨⟨hn, hmap⟩, hbelow⟩ := Node.forall_flatten.1 hnodes
      obtain ⟨c, hc, -, -, hrest⟩ := hn.child_of_follow hmap h
      obtain ⟨entry, hentry, hends⟩ := ih
        (fun m hm => hbelow m (List.mem_flatMap.2 ⟨c, hc, hm⟩)) hrest
      refine ⟨entry, ?_, hends⟩
      rw [n.written_eq]
      exact (mem_writtenAll hc).1 hentry

/-! ## What is decoded is no mapping of a document -/

namespace Setting

variable {s : Setting} {depth : Nat} {ctx : Context} {f : Field} {name : String}
  {p p' : Progress} {o : Outcome}

theorem isMap_of_readText {terminated : Bool}
    (h : (s.readText ctx f name terminated).Yields p o p') : o.node.value.isMap = false := by
  simp only [readText, Decoder.yields_bind, Decoder.yields_orEscape, Decoder.yields_pure,
    Decoder.yields_forIn_warn] at h
  obtain ⟨span, _, -, text, _, ⟨htext, -⟩, _, _, -, rfl, -⟩ := h
  show text.1.isMap = false
  rcases Encoding.value_of_decodeNamed htext with ⟨bs, hr⟩ | ⟨t, hr⟩ <;> rw [hr] <;> rfl

theorem isMap_of_readBytes (h : (s.readBytes ctx f name).Yields p o p') :
    o.node.value.isMap = false := by
  simp only [readBytes, Decoder.yields_bind, Decoder.yields_pure] at h
  obtain ⟨r, _, -, rfl, -⟩ := h
  rfl

/-- No type decodes to a mapping, for instances are records. -/
theorem isMap_of_decodeNamed {typeName : String}
    (h : (s.decodeNamed (s.nested depth) ctx f name typeName).Yields p o p') :
    o.node.value.isMap = false := by
  unfold decodeNamed at h
  split at h
  case h_1 =>
      simp only [readInteger, Decoder.yields_bind, Decoder.yields_pure] at h
      obtain ⟨bytes, _, -, rfl, -⟩ := h
      rfl
  case h_2 =>
      simp only [readFloat, Decoder.yields_bind, Decoder.yields_pure] at h
      obtain ⟨bytes, _, -, rfl, -⟩ := h
      rfl
  case h_3 => exact isMap_of_readBytes h
  case h_4 => exact isMap_of_readText h
  case h_5 =>
      obtain ⟨definition, chain, -, hinstance⟩ := nested_inv h
      obtain ⟨left, children, fields, stop, -, -, rfl⟩ := decodeInstance_inv hinstance
      rfl

theorem isMap_of_decodeSingle (h : (s.decodeSingle (s.nested depth) ctx f name).Yields p o p') :
    o.node.value.isMap = false := by
  rcases decodeSingle_named h with hbytes | ⟨typeName, -, hnamed⟩
  · exact isMap_of_readBytes hbytes
  · exact isMap_of_decodeNamed hnamed

theorem isMap_of_decodeField (h : (s.decodeField (s.nested depth) ctx f).Yields p o p') :
    o.node.value.isMap = false := by
  obtain ⟨ctx', -, hrun⟩ := decodeField_inv h
  rcases hrun with ⟨-, hsingle⟩ | ⟨r, count, items, stop, -, -, -, rfl⟩
  · exact isMap_of_decodeSingle hsingle
  · rfl

/-- Wherever a node is decoded its value is none of a document. -/
theorem isMap_explores : s.Explores (fun _ => True) fun n => n.value.isMap = false where
  keeps _ _ _ _ := trivial
  field _ _ := isMap_of_decodeField
  element _ _ := isMap_of_decodeSingle

theorem unmapped_of_decodeSingle
    (h : (s.decodeSingle (s.nested depth) ctx f name).Yields p o p') :
    ∀ n ∈ o.node.flatten, n.value.isMap = false := by
  have hbelow := @Explores.single s (fun _ => True) depth [] ctx f p p' o _ name isMap_explores
    (fun _ _ => @Explores.fields s _ _ _ isMap_explores) trivial h
  exact Node.forall_flatten.2 ⟨isMap_of_decodeSingle h, hbelow⟩

theorem unmapped_of_decodeField (h : (s.decodeField (s.nested depth) ctx f).Yields p o p') :
    ∀ n ∈ o.node.flatten, n.value.isMap = false := by
  obtain ⟨ctx', -, hrun⟩ := decodeField_inv h
  rcases hrun with ⟨-, hsingle⟩ | ⟨r, count, items, stop, -, -, helements, rfl⟩
  · exact unmapped_of_decodeSingle hsingle
  · have hitems := @Explores.elements s (fun _ => True) depth [] ctx' f p p' _ r count 0
      ctx'.offset stop items isMap_explores
      (fun _ _ => @Explores.fields s _ _ _ isMap_explores) trivial helements
    exact Node.forall_flatten.2 ⟨rfl, hitems⟩

end Setting

/-! ## Scopes lead to fields of the table -/

/-- A field that was decoded is not taken back. -/
theorem Progress.Extends.hasField {p p' : Progress} {x : String} (h : p'.Extends p)
    (hx : p.values.HasField x) : p'.values.HasField x := by
  obtain ⟨entry, hentry, hends⟩ := hx
  obtain ⟨v, hv⟩ : ∃ v, p.values.get? entry.1 = some v := by
    refine Option.ne_none_iff_exists'.1 fun hnone => ?_
    simpa using List.lookup_eq_none_iff.1 hnone entry hentry
  exact .of_get? (h.kept _ v hv) hends

/-- A name in the value of a field is that of a field below it, which was written. -/
theorem Outcome.Coheres.hasField {ctx : Context} {name x : String} {p p' : Progress} {o : Outcome}
    (h : o.Coheres ctx name p p') (hmap : ∀ n ∈ o.node.flatten, n.value.isMap = false)
    (hx : o.node.value.Reaches x) : p'.values.HasField x := by
  obtain ⟨entry, hentry, hends⟩ :=
    Node.written_of_reaches hx fun n hn => ⟨h.coherent n hn, hmap n hn⟩
  refine ⟨entry, ?_, hends⟩
  rw [h.grows]
  exact List.mem_append_left _ (List.mem_reverse.2 hentry)

/-- If a path in the scope ends in the name, the table holds a field of this name. -/
def Visit.Covered (x : String) (v : Visit) : Prop :=
  (Value.record v.ctx.scope).Reaches x → v.progress.values.HasField x

/-- By cases on the step: the scope grows by what was decoded just before, and the table has it. -/
theorem Setting.Leads.covered {s : Setting} {v v' : Visit} {x : String} (h : v.Covered x)
    (hmeets : v.Meets Field.IsNamed) (leads : s.Leads v v') : v'.Covered x := by
  have hextends := leads.extends
  cases leads with
  | skip | element => exact h
  | value _ placed | array _ placed =>
      obtain ⟨-, ⟨offset, rfl⟩, -⟩ := placed_inv placed
      exact h
  | next => exact fun hx => hextends.hasField (h hx)
  | enter => exact fun hx => absurd hx Value.not_reaches_nil
  | @past _ _ ctx f _ _ p₁ o _ decoded new =>
      have hf : f.IsNamed := hmeets.ahead f List.mem_cons_self
      have ho : o.Coheres ctx f.id _ p₁ :=
        decodeField_coheres decoded coheresCustom_nested hmeets.inSight hf
      have hbefore (hx : (Value.record ctx.scope).Reaches x) := hextends.hasField (h hx)
      -- The scope leads to the field itself, to what is in its value, and where it led before.
      intro hx
      rcases Value.reaches_record.1 hx with ⟨w, hw⟩ | ⟨first, w, hw, hreaches⟩ <;>
        rw [Context.scope_past, Fields.lookup_put] at hw <;> split at hw
      · refine .of_get? (Progress.get?_write p₁ o.node.id o.node.value) ?_
        rw [‹x = f.id›, ho.id_eq]
        exact endsIn_nodeIdOf hf
      · exact hbefore (Value.reaches_record.2 (.inl ⟨w, hw⟩))
      · cases hw
        exact (Progress.Extends.write new).hasField
          (ho.hasField (unmapped_of_decodeField decoded) hreaches)
      · exact hbefore (Value.reaches_record.2 (.inr ⟨first, w, hw, hreaches⟩))

theorem Schema.Reached.covered {schema : Schema} {options : Options} {buffer : Buffer} {v : Visit}
    (hid : ∀ f ∈ schema.fields, f.id ≠ "") (h : schema.Reached options buffer v) (x : String) :
    v.Covered x := by
  induction h with
  | root => exact fun hx => absurd hx Value.not_reaches_nil
  | step reached leads ih => exact leads.covered ih (reached.meets hid)

/-! ## Names that no field has -/

namespace View

variable {view : View} {x path : String}

/-- Under a text that ends in a name that no field has there is nothing, or what the scope has under
the name itself. -/
theorem numberAt?_of_endsIn (hends : EndsIn path x) (hdot : '.' ∉ x.toList) (hne : x ≠ "")
    (hvalues : ¬ view.values.HasField x)
    (hscope : ∀ first w, view.place.scope.lookup first = some w → ¬ w.Reaches x) :
    view.numberAt? path = none ∨
      view.numberAt? path = (view.place.scope.lookup x).bind Value.number? := by
  have hget : view.values.get? path = none := ValueTable.get?_eq_none hvalues hends
  obtain ⟨names, hnames⟩ := hends.names hdot hne
  rw [numberAt?, hget, Value.atPath?, hnames]
  cases names with
  | nil =>
      rw [List.nil_append, Value.follow_cons]
      refine .inr ?_
      show ((view.place.scope.lookup x).bind some).bind Value.number? = _
      rw [Option.bind_fun_some]
  | cons first rest =>
      -- A longer path would have to lead through what its first name stands for.
      have hfollow : (Value.record view.place.scope).follow (first :: rest ++ [x]) = none := by
        by_contra hsome
        obtain ⟨v, hv⟩ := Option.ne_none_iff_exists'.1 hsome
        rw [List.cons_append, Value.follow_cons] at hv
        obtain ⟨w, hw, hrest⟩ := Option.bind_eq_some_iff.1 hv
        exact hscope first w hw ⟨rest, v, hrest⟩
      rw [hfollow]
      exact .inl rfl

/-- A name that no field has stands for what the scope has under it. -/
theorem resolve_of_not_hasField {around : List String} {last : String} (hx : IsIdentifier x)
    (hdot : '.' ∉ x.toList) (hpath : view.place.path = around ++ [last])
    (hvalues : ¬ view.values.HasField x)
    (hscope : ∀ first w, view.place.scope.lookup first = some w → ¬ w.Reaches x) :
    view.resolve x = (view.place.scope.lookup x).bind Value.number? := by
  have hself : view.numberAt? x = (view.place.scope.lookup x).bind Value.number? :=
    numberAt?_of_not_mem hdot hx.ne_empty (ValueTable.get?_eq_none hvalues (.inl rfl))
  have hends (names : List String) : EndsIn (nodeIdOf (names ++ [x])) x :=
    endsIn_nodeIdOf hx.ne_empty
  -- The places are asked in order. What the first ones find, if anything, is what the last one has.
  have hor {m : Option Number}
      (h : m = none ∨ m = (view.place.scope.lookup x).bind Value.number?) :
      m.or ((view.place.scope.lookup x).bind Value.number?) =
        (view.place.scope.lookup x).bind Value.number? := by
    rcases h with rfl | rfl
    · exact Option.none_or
    · exact Option.or_self
  rw [resolve_of_unmarked hx hdot hpath, hself]
  have haround : (if around = [] then none else view.numberAt? (nodeIdOf (around ++ [x]))) = none ∨
      (if around = [] then none else view.numberAt? (nodeIdOf (around ++ [x]))) =
        (view.place.scope.lookup x).bind Value.number? := by
    split
    case isTrue => exact .inl rfl
    case isFalse => exact numberAt?_of_endsIn (hends around) hdot hx.ne_empty hvalues hscope
  rw [hor haround]
  exact hor (numberAt?_of_endsIn (hends _) hdot hx.ne_empty hvalues hscope)

end View

/-! ## Behind an element -/

namespace Setting

/-- What the condition of a repetition sees behind an element: the place where it ends, with the
element and its index in the scope. -/
def viewBehind (s : Setting) (ctx : Context) (index : Nat) (o : Outcome) (p : Progress) : View :=
  s.view { ctx.toPlace with
    offset := o.next
    scope := (Fields.put ctx.scope "_" o.node.value).put "_index" (.int index) } p.values

/-- The names that only the condition has, and what they stand for. -/
def seenBehind (index : Nat) (o : Outcome) : List (String × Value) :=
  [("_", o.node.value), ("_index", .int index)]

variable {s : Setting} {ctx : Context} {index : Nat} {o : Outcome} {p p' : Progress}

theorem isSatisfied_viewBehind {condition : Value} {b : Bool} :
    (s.isSatisfied (.untilTrue condition) ctx index o.node.value o.next).Yields p b p' ↔
      ∃ number, (s.viewBehind ctx index o p).evaluate condition = .ok number ∧
        b = (number.map Number.isTrue).getD false ∧ p' = p := by
  simp only [isSatisfied, Decoder.yields_bind, yields_evaluate, Decoder.yields_pure]
  constructor
  · rintro ⟨number, _, ⟨hnumber, rfl⟩, rfl, rfl⟩
    exact ⟨number, hnumber, rfl, rfl⟩
  · rintro ⟨number, hnumber, rfl, rfl⟩
    exact ⟨number, _, ⟨hnumber, rfl⟩, rfl, rfl⟩

theorem lookup_viewBehind (x : String) :
    (s.viewBehind ctx index o p).place.scope.lookup x =
      if x = "_index" then some (.int index)
      else if x = "_" then some o.node.value else ctx.scope.lookup x := by
  show List.lookup x (Fields.put _ _ _) = _
  rw [Fields.lookup_put, Fields.lookup_put]

/-- The two names differ, so each stands for its own value. -/
theorem lookup_of_seenBehind {x : String} {seen : Value} (h : (x, seen) ∈ seenBehind index o) :
    (s.viewBehind ctx index o p).place.scope.lookup x = some seen := by
  rw [lookup_viewBehind]
  rcases List.mem_cons.1 h with h | h
  · cases h
    rfl
  · cases List.mem_singleton.1 h
    rfl

theorem isIdentifier_of_seenBehind {x : String} {seen : Value}
    (h : (x, seen) ∈ seenBehind index o) : IsIdentifier x ∧ '.' ∉ x.toList := by
  rcases List.mem_cons.1 h with h | h
  · cases h
    exact ⟨⟨'_', [], rfl, by decide +kernel, List.all_eq_true.1 (by decide +kernel)⟩, by decide⟩
  · cases List.mem_singleton.1 h
    exact ⟨⟨'_', "index".toList, rfl, by decide +kernel, List.all_eq_true.1 (by decide +kernel)⟩,
      by decide⟩

/-- What the scope behind an element leads to, beyond its own names, are fields of the table. -/
theorem hasField_of_lookup_viewBehind {x first : String} {w : Value}
    (hscope : (Value.record ctx.scope).Reaches x → p.values.HasField x)
    (helement : o.node.value.Reaches x → p.values.HasField x)
    (hw : (s.viewBehind ctx index o p).place.scope.lookup first = some w) (hreaches : w.Reaches x) :
    p.values.HasField x := by
  rw [lookup_viewBehind] at hw
  split at hw
  · cases hw
    obtain ⟨_ | ⟨_, _⟩, v, hv⟩ := hreaches <;> cases hv
  split at hw
  · cases hw
    exact helement hreaches
  · exact hscope (Value.reaches_record.2 (.inr ⟨first, w, hw, hreaches⟩))

end Setting

/-- The ids of fields are plain, and the id of the root is none of them, nor one of the names that
only a condition has. -/
structure Schema.HasPlainIds (schema : Schema) : Prop where
  root : '.' ∉ schema.rootId.toList
  fields : ∀ f ∈ schema.fields, IsPlain f.id ∧ f.id ≠ schema.rootId
  seen : "_" ≠ schema.rootId ∧ "_index" ≠ schema.rootId

/-- **The element in its condition.** Behind each element the condition of a repetition is evaluated
in a view in which `_` stands for the element and `_index` for its index, as far as they are numbers,
unless a field of that name was decoded before, anywhere. Where ids are plain, and no field that is
entered was decoded before, only a number in the instance or in the one around it comes first. -/
theorem Schema.resolve_viewBehind {schema : Schema} {options : Options} {buffer : Buffer}
    {depth : Nat} {outer : List Frame} {ctx : Context} {f : Field} {condition : Value}
    {count : Option Int} {index : Nat} {cursor : Int} {p p₁ : Progress} {o : Outcome}
    (hid : ∀ g ∈ schema.fields, g.id ≠ "")
    (h : schema.Reached options buffer
      ⟨depth, outer, ctx, .elements f (.untilTrue condition) count index cursor, p⟩)
    (decoded : ((schema.setting options buffer).decodeSingle
      ((schema.setting options buffer).nested depth) (ctx.moveTo cursor) f
      (Setting.elementName f.id index)).Yields p o p₁) :
    (∀ b p', ((schema.setting options buffer).isSatisfied (.untilTrue condition) ctx index
        o.node.value o.next).Yields p₁ b p' ↔
      ∃ number, ((schema.setting options buffer).viewBehind ctx index o p₁).evaluate condition =
        .ok number ∧ b = (number.map Number.isTrue).getD false ∧ p' = p₁) ∧
    ∀ x seen, (x, seen) ∈ Setting.seenBehind index o →
      (¬ p₁.values.HasField x →
        ((schema.setting options buffer).viewBehind ctx index o p₁).resolve x = seen.number?) ∧
      (schema.HasPlainIds → Fresh outer →
        ((schema.setting options buffer).viewBehind ctx index o p₁).resolve x =
          (ctx.number? x).or ((outer.head?.bind fun fr => fr.ctx.number? x).or seen.number?)) := by
  refine ⟨fun b p' => Setting.isSatisfied_viewBehind, fun x seen hseen => ?_⟩
  obtain ⟨hx, hdot⟩ := Setting.isIdentifier_of_seenBehind hseen
  have hlookup : ((schema.setting options buffer).viewBehind ctx index o p₁).place.scope.lookup x =
      some seen := Setting.lookup_of_seenBehind hseen
  constructor
  · intro hnone
    obtain ⟨around, last, hpath, -⟩ := (h.scoped hid).inside
    have ho : o.Coheres (ctx.moveTo cursor) (Setting.elementName f.id index) p p₁ :=
      Setting.decodeSingle_coheres decoded Setting.coheresCustom_nested (h.meets hid).inSight
        elementName_ne_empty
    have hextends : p₁.Extends p := Setting.decodeSingle_extends Setting.extendsCustom_nested decoded
    have hscope (hreaches : (Value.record ctx.scope).Reaches x) : p₁.values.HasField x :=
      hextends.hasField (h.covered hid x hreaches)
    have helement (hreaches : o.node.value.Reaches x) : p₁.values.HasField x :=
      ho.hasField (Setting.unmapped_of_decodeSingle decoded) hreaches
    -- A field that was decoded is in the table, and the table has none of this name.
    have hbeyond (first : String) (w : Value)
        (hw : ((schema.setting options buffer).viewBehind ctx index o p₁).place.scope.lookup first =
          some w) : ¬ w.Reaches x := fun hreaches =>
      hnone (Setting.hasField_of_lookup_viewBehind hscope helement hw hreaches)
    rw [View.resolve_of_not_hasField hx hdot hpath hnone hbeyond, hlookup]
    rfl
  · intro hplain hfresh
    have hsimple : ∀ g ∈ schema.fields, g.IsSimple schema.rootId := fun g hg =>
      ⟨hid g hg, (hplain.fields g hg).1, (hplain.fields g hg).2⟩
    have hsound := (h.sound hsimple).next schema.rootId_ne_empty decoded
    have hnoRoot : ((schema.setting options buffer).viewBehind ctx index o p₁).place.scope.lookup
        schema.rootId = none := by
      rw [Setting.lookup_viewBehind, if_neg hplain.seen.2.symm, if_neg hplain.seen.1.symm]
      exact hsound.noRoot
    have hself : ((schema.setting options buffer).viewBehind ctx index o p₁).numberAt? x =
        seen.number? := by
      have hvalues : p₁.values.get? x = none := by
        by_contra hsome
        exact hdot (hsound.dotted x hsome)
      rw [View.numberAt?_of_not_mem hdot hx.ne_empty hvalues, hlookup]
      rfl
    rw [hsound.resolve_in hplain.root schema.rootId_ne_empty rfl rfl hnoRoot hx hdot hfresh, hself]

/-- Numbers up to a zero. -/
def Field.numbers : Field where
  id := "numbers"
  type := .named "u1"
  repetition := some (.untilTrue (.str "_ == 0"))

/-- Numbers up to a zero, behind another one. -/
def Schema.upToZero (first : String) : Schema where
  seq := some [{ id := first, type := .named "u1" }, .numbers]

/-- The node of a number in such a schema. -/
def Schema.numberNode (name : String) (offset value : Int) : Node where
  id := "root." ++ name
  name := name
  label := "u1"
  range := ⟨offset, 1⟩
  endian := some .big
  value := .int value

/-- Behind a one the names stand for it and for its index, once because no field has the name, and once
because the ids are plain. -/
theorem Schema.resolve_viewBehind_upToZero :
    (∀ g ∈ (upToZero "first").fields, g.id ≠ "") ∧ (upToZero "first").HasPlainIds ∧ Fresh [] ∧
      ∃ ctx p p₁, (upToZero "first").Reached {} [0, 1, 0, 9]
          ⟨63, [], ctx, .elements .numbers (.untilTrue (.str "_ == 0")) none 0 1, p⟩ ∧
        (((upToZero "first").setting {} [0, 1, 0, 9]).decodeSingle
          (((upToZero "first").setting {} [0, 1, 0, 9]).nested 63) (ctx.moveTo 1) .numbers
          (Setting.elementName "numbers" 0)).Yields p ⟨numberNode "numbers[0]" 1 1, 2⟩ p₁ ∧
        ¬ p₁.values.HasField "_" ∧
        (((upToZero "first").setting {} [0, 1, 0, 9]).viewBehind ctx 0
          ⟨numberNode "numbers[0]" 1 1, 2⟩ p₁).resolve "_" = some (.int 1) ∧
        (((upToZero "first").setting {} [0, 1, 0, 9]).viewBehind ctx 0
          ⟨numberNode "numbers[0]" 1 1, 2⟩ p₁).resolve "_index" = some (.int 0) := by
  have hid : ∀ g ∈ (upToZero "first").fields, g.id ≠ "" := by decide +kernel
  have hplain : (upToZero "first").HasPlainIds :=
    ⟨by decide, by decide +kernel, by decide +kernel⟩
  have hfresh : Fresh [] := fun _ hfr => by cases hfr
  have hstart : (upToZero "first").Reached {} [0, 1, 0, 9] ⟨63, [], _, _, _⟩ := .root rfl rfl
  have hpast := hstart.step (.past (o := ⟨numberNode "first" 0 0, 1⟩) rfl rfl rfl)
  have harray := hpast.step (.array rfl rfl rfl rfl)
  obtain ⟨-, hseen⟩ := resolve_viewBehind (o := ⟨numberNode "numbers[0]" 1 1, 2⟩) hid harray rfl
  obtain ⟨hunnamed, -⟩ := hseen "_" (.int 1) List.mem_cons_self
  obtain ⟨-, hexact⟩ := hseen "_index" (.int 0) (List.mem_cons_of_mem _ List.mem_cons_self)
  refine ⟨hid, hplain, hfresh, _, _, _, harray, rfl, ?_, hunnamed ?_,
    (hexact hplain hfresh).trans rfl⟩ <;> decide +kernel

/-- A field whose id is the name of the element hides it: behind a one the name stands for the zero in
the field, and the decode ends there. -/
theorem Schema.resolve_viewBehind_hidden :
    (∃ ctx p p₁, (upToZero "_").Reached {} [0, 1, 0, 9]
        ⟨63, [], ctx, .elements .numbers (.untilTrue (.str "_ == 0")) none 0 1, p⟩ ∧
      (((upToZero "_").setting {} [0, 1, 0, 9]).decodeSingle
        (((upToZero "_").setting {} [0, 1, 0, 9]).nested 63) (ctx.moveTo 1) .numbers
        (Setting.elementName "numbers" 0)).Yields p ⟨numberNode "numbers[0]" 1 1, 2⟩ p₁ ∧
      (((upToZero "_").setting {} [0, 1, 0, 9]).viewBehind ctx 0
        ⟨numberNode "numbers[0]" 1 1, 2⟩ p₁).resolve "_" = some (.int 0)) ∧
    ((upToZero "_").decode {} [0, 1, 0, 9]).toOption.map Result.consumed = some 2 := by
  have hstart : (upToZero "_").Reached {} [0, 1, 0, 9] ⟨63, [], _, _, _⟩ := .root rfl rfl
  have hpast := hstart.step (.past (o := ⟨numberNode "_" 0 0, 1⟩) rfl rfl rfl)
  have harray := hpast.step (.array rfl rfl rfl rfl)
  exact ⟨⟨_, _, _, harray, rfl, rfl⟩, by decide +kernel⟩

end ByteSchema
