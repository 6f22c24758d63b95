import ByteSchema.Proofs.Coherence
import ByteSchema.Proofs.Visit

/-!
# ByteSchema.Proofs.Mirror

The table of values mirrors the scopes.

Expressions look a name up under texts of paths, in a table that holds the values of all instances.
At each place that a decode comes to, what the table holds right below the path of an instance is what
the scope of the instance holds (`Context.Mirrors`). It takes two facts that are kept step by step:

* What is added below an instance starts with the name of the field that is decoded, so paths of
  other fields are as before (`Station.Tracks`).
* A field that is not decoded yet has nothing below its path, so an instance in it starts with an
  empty part of the table as it starts with an empty scope.

The second needs that the field is *fresh*: no field with its id is decoded already in the instance
around. A decode that enters a field that is not fresh fails behind it, but not before. Where no type
has two fields of one id, all fields are fresh (`Schema.fresh_of_reached`).
-/

namespace ByteSchema

/-- A field with an id that can be told from others in the text of a path. -/
structure Field.IsSimple (rootId : String) (f : Field) : Prop where
  named : f.IsNamed
  plain : IsPlain f.id
  ne_root : f.id ≠ rootId

theorem Context.Every.mono {P Q : Field → Prop} {ctx : Context} (h : ctx.Every P)
    (hPQ : ∀ {f}, P f → Q f) : ctx.Every Q :=
  fun f hf => hPQ (h f hf)

theorem lookup_entry_cons (fields : Fields) (name : String) (v : Value) (x : String) :
    List.lookup x ((name, v) :: fields) = if x = name then some v else fields.lookup x := by
  rw [List.lookup_cons]
  by_cases h : x = name
  · simp [h]
  · have hb : (x == name) = false := by simpa using h
    simp [h, hb]

theorem Fields.lookup_put (fields : Fields) (name : String) (v : Value) (x : String) :
    (Fields.put fields name v).lookup x = if x = name then some v else fields.lookup x := by
  induction fields with
  | nil => exact lookup_entry_cons [] name v x
  | cons entry rest ih =>
      obtain ⟨n, w⟩ := entry
      by_cases hn : n = name
      · subst hn
        rw [Fields.put, if_pos rfl, lookup_entry_cons, lookup_entry_cons]
        by_cases hx : x = n <;> simp [hx]
      · rw [Fields.put, if_neg hn, lookup_entry_cons, lookup_entry_cons, ih]
        by_cases hx : x = n
        · have hne : x ≠ name := fun h => hn (hx.symm.trans h)
          rw [if_pos hx, if_neg hne, if_pos hx]
        · rw [if_neg hx, if_neg hx]

/-! ## Instances and the table -/

/-- Right below the path of the instance the table holds what its scope holds. -/
def Context.Mirrors (ctx : Context) (values : ValueTable) : Prop :=
  ∀ x, IsPlain x → values.get? (pathLead ctx.path ++ x) = ctx.scope.lookup x

/-- No field that holds one of the instances was decoded before in the instance around it. -/
def Fresh (outer : List Frame) : Prop := ∀ fr ∈ outer, fr.ctx.scope.lookup fr.field.id = none

theorem fresh_cons {fr : Frame} {outer : List Frame} :
    Fresh (fr :: outer) ↔ fr.ctx.scope.lookup fr.field.id = none ∧ Fresh outer :=
  List.forall_mem_cons

/-- The instances around the one at `path`: each at the path before the last name, up to the root,
and each mirrored by the table as far as those around it are fresh. -/
def Enclosed (rootId : String) (values : ValueTable) : List String → List Frame → Prop
  | path, [] => path = [rootId]
  | path, fr :: outer =>
      (∃ name, name ≠ "" ∧ path = fr.ctx.path ++ [name]) ∧
        (Fresh outer → fr.ctx.Mirrors values) ∧ Enclosed rootId values fr.ctx.path outer

/-- What was decoded already of the instance is all that the table holds below its path. -/
def Station.Tracks (ctx : Context) (values : ValueTable) : Station → Prop
  | .fields _ => ∀ r, values.get? (pathLead ctx.path ++ r) ≠ none →
      ctx.scope.lookup (frontName r) ≠ none
  | .elements f _ _ index _ => ∀ r, values.get? (pathLead ctx.path ++ r) ≠ none →
      ctx.scope.lookup (frontName r) ≠ none ∨
        ∃ j < index, ∃ t, r = Setting.elementName f.id j ++ t
  | .single f name => ctx.scope.lookup f.id = none →
      ∀ r, values.get? (pathLead ctx.path ++ name ++ "." ++ r) = none

/-- The name of a value is not empty. -/
def Station.IsNamed : Station → Prop
  | .single _ name => name ≠ ""
  | _ => True

/-- What is kept from place to place. -/
structure Visit.Sound (rootId : String) (v : Visit) : Prop where
  inSight : v.ctx.Every (Field.IsSimple rootId)
  ahead : ∀ f ∈ v.station.fieldsAhead, f.IsSimple rootId
  named : v.station.IsNamed
  noRoot : v.ctx.scope.lookup rootId = none
  dotted : ∀ path, v.progress.values.get? path ≠ none → '.' ∈ path.toList
  enclosed : Enclosed rootId v.progress.values v.ctx.path v.outer
  mirrors : Fresh v.outer → v.ctx.Mirrors v.progress.values
  tracks : Fresh v.outer → v.station.Tracks v.ctx v.progress.values

/-! ## Growing tables -/

/-- All entries stand below the path. -/
def Below (path : List String) (entries : Fields) : Prop :=
  ∀ entry ∈ entries, ∃ r, entry.1 = pathLead path ++ r

/-- Entries below a name are none of the fields. -/
theorem Context.Mirrors.grows {ctx : Context} {p p' : Progress} {entries : Fields}
    (h : ctx.Mirrors p.values) (hgrows : p.Grows p' entries)
    (hentries : ∀ entry ∈ entries, ∃ name t, GoesOn t ∧
      entry.1 = pathLead ctx.path ++ (name ++ t)) : ctx.Mirrors p'.values := by
  intro x hx
  rw [← h x hx]
  refine hgrows.get?_eq fun entry hentry heq => ?_
  obtain ⟨name, t, ht, hid⟩ := hentries entry hentry
  rw [hid, String.append_right_inj] at heq
  exact hx.not_append ht heq.symm

theorem Enclosed.grows {rootId : String} {path : List String} {outer : List Frame}
    {p p' : Progress} {entries : Fields} (h : Enclosed rootId p.values path outer)
    (hgrows : p.Grows p' entries) (hentries : Below path entries) :
    Enclosed rootId p'.values path outer := by
  induction outer generalizing path with
  | nil => exact h
  | cons fr outer ih =>
      obtain ⟨⟨name, hname, rfl⟩, hmirrors, houter⟩ := h
      have hbelow : ∀ entry ∈ entries, ∃ t, GoesOn t ∧
          entry.1 = pathLead fr.ctx.path ++ (name ++ t) := by
        intro entry hentry
        obtain ⟨r, hr⟩ := hentries entry hentry
        refine ⟨"." ++ r, goesOn_dot r, ?_⟩
        rw [hr, pathLead_concat hname]
        simp only [String.append_assoc]
      have haround : Below fr.ctx.path entries := by
        intro entry hentry
        obtain ⟨t, -, ht⟩ := hbelow entry hentry
        exact ⟨name ++ t, ht⟩
      refine ⟨⟨name, hname, rfl⟩, ?_, ih houter haround⟩
      intro hfresh
      exact (hmirrors hfresh).grows hgrows fun entry hentry => ⟨name, hbelow entry hentry⟩

theorem Enclosed.dot_mem {rootId : String} {values : ValueTable} {path : List String}
    {outer : List Frame} (h : Enclosed rootId values path outer) (hroot : rootId ≠ "") :
    '.' ∈ (pathLead path).toList := by
  cases outer with
  | nil =>
      obtain rfl : path = [rootId] := h
      simp [pathLead, hroot]
  | cons fr outer =>
      obtain ⟨⟨name, hname, rfl⟩, -, -⟩ := h
      simp [pathLead_concat hname]

/-- All paths of the table have a dot, if those that are added stand below an instance. -/
theorem dotted_grows {p p' : Progress} {entries : Fields} {path : List String}
    (h : ∀ k, p.values.get? k ≠ none → '.' ∈ k.toList) (hgrows : p.Grows p' entries)
    (hentries : Below path entries) (hdot : '.' ∈ (pathLead path).toList) :
    ∀ k, p'.values.get? k ≠ none → '.' ∈ k.toList := by
  intro k hk
  rcases hgrows.get?_ne_none hk with ⟨entry, hentry, rfl⟩ | hk
  · obtain ⟨r, hr⟩ := hentries entry hentry
    rw [hr, String.toList_append]
    exact List.mem_append_left _ hdot
  · exact h k hk

/-! ## Steps -/

namespace Visit.Sound

variable {rootId : String} {s : Setting} {depth : Nat} {outer : List Frame} {ctx ctx' : Context}
  {f : Field} {seq : List Field} {name : String} {p p₁ : Progress} {o : Outcome}

theorem skip (h : Sound rootId ⟨depth, outer, ctx, .fields (f :: seq), p⟩) :
    Sound rootId ⟨depth, outer, ctx, .fields seq, p⟩ :=
  { h with ahead := fun g hg => h.ahead g (List.mem_cons_of_mem f hg) }

/-- The value of a field stands at its path, and all that is added stands there or below. -/
theorem past (hroot : rootId ≠ "") (h : Sound rootId ⟨depth, outer, ctx, .fields (f :: seq), p⟩)
    (decoded : (s.decodeField (s.nested depth) ctx f).Yields p o p₁) :
    Sound rootId
      ⟨depth, outer, ctx.past f o, .fields seq, p₁.write o.node.id o.node.value⟩ := by
  have hf : f.IsSimple rootId := h.ahead f List.mem_cons_self
  have ho : o.Coheres ctx f.id p p₁ :=
    Setting.decodeField_coheres decoded Setting.coheresCustom_nested
      (h.inSight.mono Field.IsSimple.named) hf.named
  have hid : o.node.id = pathLead ctx.path ++ f.id := ho.id_eq.trans (Place.childId_eq hf.named)
  have hgrows := ho.grows.write o.node.id o.node.value
  have hentries := ho.at_or_below hf.named
  have hbelow : Below ctx.path (o.node.written ++ [(o.node.id, o.node.value)]) := by
    intro entry hentry
    obtain ⟨t, -, heq⟩ := hentries entry hentry
    exact ⟨f.id ++ t, heq⟩
  refine ⟨h.inSight, fun g hg => h.ahead g (List.mem_cons_of_mem f hg), trivial, ?_, ?_,
    h.enclosed.grows hgrows hbelow, ?_, ?_⟩
  · rw [Context.scope_past, Fields.lookup_put, if_neg hf.ne_root.symm]
    exact h.noRoot
  · exact dotted_grows h.dotted hgrows hbelow (h.enclosed.dot_mem hroot)
  -- The scope gets the field itself; below other plain names nothing is added.
  · intro hfresh x hx
    rw [Context.scope_past, Fields.lookup_put]
    by_cases hxf : x = f.id
    · rw [if_pos hxf, hxf, Context.path_past, ← hid]
      show List.lookup o.node.id ((o.node.id, o.node.value) :: p₁.values.entries) = _
      rw [lookup_entry_cons, if_pos rfl]
    · rw [if_neg hxf, ← h.mirrors hfresh x hx]
      refine hgrows.get?_eq fun entry hentry heq => ?_
      obtain ⟨t, ht, hkey⟩ := hentries entry hentry
      rw [hkey, Context.path_past, String.append_right_inj] at heq
      exact hxf (hx.eq_of_tail ht heq.symm)
  -- All that is added starts with the name of the field, and the field is in the scope now.
  · intro hfresh r hr
    rw [Context.scope_past, Fields.lookup_put]
    split
    case isTrue => exact Option.some_ne_none _
    case isFalse hne =>
        rcases hgrows.get?_ne_none hr with ⟨entry, hentry, heq⟩ | hr
        · obtain ⟨t, ht, hkey⟩ := hentries entry hentry
          rw [hkey, Context.path_past, String.append_right_inj] at heq
          subst heq
          exact absurd (frontName_tail hf.plain ht) hne
        · exact h.tracks hfresh r hr

/-- A value that is not decoded yet has nothing below its path. -/
theorem value (h : Sound rootId ⟨depth, outer, ctx, .fields (f :: seq), p⟩)
    (placed : (s.placed ctx f).Yields p ctx' p) :
    Sound rootId ⟨depth, outer, ctx', .single f f.id, p⟩ := by
  have hf : f.IsSimple rootId := h.ahead f List.mem_cons_self
  obtain ⟨-, ⟨offset, rfl⟩, -⟩ := Setting.placed_inv placed
  refine ⟨h.inSight, fun g hg => List.mem_singleton.1 hg ▸ hf, hf.named, h.noRoot, h.dotted,
    h.enclosed, h.mirrors, ?_⟩
  intro hfresh hnew r
  -- What stands below the field starts with its name, so the field would be in the scope.
  by_contra hr
  have hpath : pathLead ctx.path ++ f.id ++ "." ++ r =
      pathLead ctx.path ++ (f.id ++ ("." ++ r)) := by simp only [String.append_assoc]
  refine h.tracks hfresh (f.id ++ ("." ++ r)) (hpath ▸ hr) ?_
  rw [frontName_append hf.plain (goesOn_dot r)]
  exact hnew

theorem array {r : Repetition} {count : Option Int} {cursor : Int}
    (h : Sound rootId ⟨depth, outer, ctx, .fields (f :: seq), p⟩)
    (placed : (s.placed ctx f).Yields p ctx' p) :
    Sound rootId ⟨depth, outer, ctx', .elements f r count 0 cursor, p⟩ := by
  have hf : f.IsSimple rootId := h.ahead f List.mem_cons_self
  obtain ⟨-, ⟨offset, rfl⟩, -⟩ := Setting.placed_inv placed
  exact ⟨h.inSight, fun g hg => List.mem_singleton.1 hg ▸ hf, trivial, h.noRoot, h.dotted,
    h.enclosed, h.mirrors, fun hfresh r hr => .inl (h.tracks hfresh r hr)⟩

/-- Elements before have other indices. -/
theorem element {r : Repetition} {count : Option Int} {index : Nat} {cursor : Int}
    (h : Sound rootId ⟨depth, outer, ctx, .elements f r count index cursor, p⟩) :
    Sound rootId
      ⟨depth, outer, ctx.moveTo cursor, .single f (Setting.elementName f.id index), p⟩ := by
  have hf : f.IsSimple rootId := h.ahead f List.mem_cons_self
  refine ⟨h.inSight, h.ahead, elementName_ne_empty, h.noRoot, h.dotted, h.enclosed, h.mirrors,
    ?_⟩
  intro hfresh hnew t
  by_contra ht
  have hpath : pathLead ctx.path ++ Setting.elementName f.id index ++ "." ++ t =
      pathLead ctx.path ++ (Setting.elementName f.id index ++ ("." ++ t)) := by
    simp only [String.append_assoc]
  -- It belongs to a field that is decoded already, or to an element before.
  rcases h.tracks hfresh (Setting.elementName f.id index ++ ("." ++ t)) (hpath ▸ ht) with
    hscope | ⟨j, hj, u, hu⟩
  · rw [elementName_eq, String.append_assoc,
      frontName_append hf.plain ((goesOn_bracket _).append _)] at hscope
    exact hscope hnew
  · exact absurd (elementName_inj hu) (Nat.ne_of_gt hj)

/-- What an element adds stands below its own path. -/
theorem next {r : Repetition} {count : Option Int} {index : Nat} {cursor : Int} (hroot : rootId ≠ "")
    (h : Sound rootId ⟨depth, outer, ctx, .elements f r count index cursor, p⟩)
    (decoded : (s.decodeSingle (s.nested depth) (ctx.moveTo cursor) f
      (Setting.elementName f.id index)).Yields p o p₁) :
    Sound rootId ⟨depth, outer, ctx, .elements f r count (index + 1) o.next, p₁⟩ := by
  have hmoved : (ctx.moveTo cursor).Every Field.IsNamed := h.inSight.mono Field.IsSimple.named
  have ho : o.Coheres (ctx.moveTo cursor) (Setting.elementName f.id index) p p₁ :=
    Setting.decodeSingle_coheres decoded Setting.coheresCustom_nested hmoved elementName_ne_empty
  have hentries : ∀ entry ∈ o.node.written, ∃ t, GoesOn t ∧
      entry.1 = pathLead ctx.path ++ (Setting.elementName f.id index ++ t) :=
    ho.below elementName_ne_empty
  have hbelow : Below ctx.path o.node.written := by
    intro entry hentry
    obtain ⟨t, -, heq⟩ := hentries entry hentry
    exact ⟨_, heq⟩
  refine ⟨h.inSight, h.ahead, trivial, h.noRoot, ?_, h.enclosed.grows ho.grows hbelow, ?_, ?_⟩
  · exact dotted_grows h.dotted ho.grows hbelow (h.enclosed.dot_mem hroot)
  · intro hfresh
    exact (h.mirrors hfresh).grows ho.grows fun entry hentry => ⟨_, hentries entry hentry⟩
  · intro hfresh t ht
    -- A path that is written now is below this element; one that was before is as before.
    rcases ho.grows.get?_ne_none ht with ⟨entry, hentry, heq⟩ | ht
    · obtain ⟨u, -, hkey⟩ := hentries entry hentry
      rw [hkey, String.append_right_inj] at heq
      exact .inr ⟨index, Nat.lt_succ_self index, u, heq.symm⟩
    · rcases h.tracks hfresh t ht with hscope | ⟨j, hj, u, hu⟩
      · exact .inl hscope
      · exact .inr ⟨j, Nat.lt_succ_of_lt hj, u, hu⟩

/-- An instance starts with an empty scope, and with nothing below its path in the table. -/
theorem enter {typeName : String} {definition : TypeDef} {chain : TypeChain} {remarks : Fields}
    (h : Sound rootId ⟨depth + 1, outer, ctx, .single f name, p⟩)
    (found : ctx.chain.lookup? typeName = some (definition, chain)) :
    Sound rootId
      ⟨depth, ⟨ctx, f⟩ :: outer,
        Setting.inside ctx { name, typeName, definition, chain, attributes := remarks },
        .fields definition.seq, p⟩ := by
  have hin : Setting.Instance.Every (Field.IsSimple rootId)
      { name, typeName, definition, chain, attributes := remarks } :=
    Setting.Instance.every_of_lookup? h.inSight found
  have hname : name ≠ "" := h.named
  -- Here the field must be fresh: else the table may hold values from the field before it.
  have hvacant : Fresh (⟨ctx, f⟩ :: outer) →
      ∀ r, p.values.get? (pathLead (ctx.path ++ [name]) ++ r) = none := by
    intro hfresh r
    obtain ⟨hnew, houter⟩ := fresh_cons.1 hfresh
    rw [pathLead_concat hname]
    exact h.tracks houter hnew r
  exact ⟨hin.inside, fun g hg => hin.seq hg, trivial, rfl, h.dotted,
    ⟨⟨name, hname, rfl⟩, h.mirrors, h.enclosed⟩, fun hfresh x _ => hvacant hfresh x,
    fun hfresh r hr => absurd (hvacant hfresh r) hr⟩

end Visit.Sound

theorem Setting.Leads.sound {rootId : String} {s : Setting} {v v' : Visit} (hroot : rootId ≠ "")
    (h : v.Sound rootId) (leads : s.Leads v v') : v'.Sound rootId := by
  cases leads with
  | skip => exact h.skip
  | past _ decoded _ => exact h.past hroot decoded
  | value _ placed _ => exact h.value placed
  | array _ placed _ _ => exact h.array placed
  | element _ => exact h.element
  | next _ decoded _ _ => exact h.next hroot decoded
  | enter _ _ found => exact h.enter found

/-- All places that a decode comes to are sound. -/
theorem Schema.Reached.sound {schema : Schema} {options : Options} {buffer : Buffer} {v : Visit}
    (hids : ∀ f ∈ schema.fields, f.IsSimple schema.rootId)
    (h : schema.Reached options buffer v) : v.Sound schema.rootId := by
  induction h with
  | @root definition depth isRoot allowed =>
      have hin := Schema.rootInstance_every isRoot hids
      exact {
        inSight := hin.inside
        ahead := fun f hf => hin.seq hf
        named := trivial
        noRoot := rfl
        dotted := fun path hpath => absurd rfl hpath
        enclosed := rfl
        mirrors := fun _ x _ => rfl
        tracks := fun _ r hr => absurd rfl hr }
  | step _ leads ih => exact leads.sound schema.rootId_ne_empty ih

/-! ## Fresh places

A field that is not fresh takes two fields of one type that share an id. -/

/-- The fields that are left have distinct ids, and none of them is decoded already. -/
def Station.IsNew (ctx : Context) : Station → Prop
  | .fields seq => (seq.map Field.id).Nodup ∧ ∀ f ∈ seq, ctx.scope.lookup f.id = none
  | .elements f _ _ _ _ => ctx.scope.lookup f.id = none
  | .single f _ => ctx.scope.lookup f.id = none

/-- What is kept from place to place when no type has two fields of one id. -/
structure Visit.Unshared (v : Visit) : Prop where
  inSight : ∀ seq ∈ v.ctx.chain.sequences, (seq.map Field.id).Nodup
  isNew : v.station.IsNew v.ctx
  fresh : Fresh v.outer

theorem Setting.Leads.unshared {s : Setting} {v v' : Visit} (h : v.Unshared)
    (leads : s.Leads v v') : v'.Unshared := by
  cases leads with
  | @skip _ _ _ f rest _ _ =>
      obtain ⟨hnodup, hnew⟩ := h.isNew
      exact ⟨h.inSight, ⟨hnodup.of_cons, fun g hg => hnew g (List.mem_cons_of_mem f hg)⟩, h.fresh⟩
  | @past _ _ ctx f rest _ _ o _ _ _ =>
      obtain ⟨hnodup, hnew⟩ := h.isNew
      rw [List.map_cons, List.nodup_cons] at hnodup
      refine ⟨h.inSight, ⟨hnodup.2, ?_⟩, h.fresh⟩
      intro g hg
      have hne : g.id ≠ f.id := fun heq => hnodup.1 (heq ▸ List.mem_map_of_mem hg)
      rw [Context.scope_past, Fields.lookup_put, if_neg hne]
      exact hnew g (List.mem_cons_of_mem f hg)
  | value _ placed _ =>
      obtain ⟨-, ⟨offset, rfl⟩, -⟩ := Setting.placed_inv placed
      exact ⟨h.inSight, h.isNew.2 _ List.mem_cons_self, h.fresh⟩
  | array _ placed _ _ =>
      obtain ⟨-, ⟨offset, rfl⟩, -⟩ := Setting.placed_inv placed
      exact ⟨h.inSight, h.isNew.2 _ List.mem_cons_self, h.fresh⟩
  | element _ => exact ⟨h.inSight, h.isNew, h.fresh⟩
  | next _ _ _ _ => exact ⟨h.inSight, h.isNew, h.fresh⟩
  -- Inside an instance the scope is empty, so all its fields are new.
  | enter _ _ found =>
      obtain ⟨around, rfl, hsub⟩ := TypeChain.lookup?_inv found
      have hin : ∀ seq ∈ TypeChain.sequences (_ :: around), (seq.map Field.id).Nodup :=
        fun seq hseq => h.inSight seq (hsub seq hseq)
      have hown := hin _ (TypeChain.mem_sequences_cons.2 (.inl (TypeDef.mem_sequences.2 (.inl rfl))))
      exact ⟨hin, ⟨hown, fun _ _ => rfl⟩, fresh_cons.2 ⟨h.isNew, h.fresh⟩⟩

/-- When no type has two fields of one id, a decode comes to fresh places only. -/
theorem Schema.fresh_of_reached {schema : Schema} {options : Options} {buffer : Buffer} {v : Visit}
    (hids : ∀ seq ∈ schema.sequences, (seq.map Field.id).Nodup)
    (h : schema.Reached options buffer v) : Fresh v.outer := by
  have hunshared : v.Unshared := by
    induction h with
    | @root definition depth isRoot allowed =>
        have hin : ∀ seq ∈ definition.sequences, (seq.map Field.id).Nodup :=
          fun seq hseq => hids seq (mem_sequences_of_rootType isRoot hseq)
        have hown := hin definition.seq (TypeDef.mem_sequences.2 (.inl rfl))
        refine ⟨?_, ⟨hown, fun _ _ => rfl⟩, fun _ hfr => by cases hfr⟩
        intro seq hseq
        have hseq : seq ∈ definition.sequences := by
          simpa [Setting.inside, rootInstance, TypeChain.sequences] using hseq
        exact hin seq hseq
    | step _ leads ih => exact leads.unshared ih
  exact hunshared.fresh

end ByteSchema
