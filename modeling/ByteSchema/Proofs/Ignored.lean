import ByteSchema.Proofs.Plain

/-!
# ByteSchema.Proofs.Ignored

Keys that the loader does not know are ignored.

Each mapping of a document is read in a role, which says what keys are looked up in it and in which
roles the values below them are read. Two documents are `Alike` when they differ in entries under
other keys only, at any depth. A document may hold itself, so this is the largest relation that is
kept from layer to layer. Alike documents are loaded alike (`Schema.load_alike`): what is looked up
is the same, function by function, and the types of both are derived in the same way.
-/

namespace ByteSchema

/-! ## Documents that are alike -/

/-- What a value of a schema document is read as. -/
inductive Role where
  | document
  /-- What the document says about the whole. -/
  | info
  /-- A list of fields. -/
  | fields
  | field
  /-- The type of a field, which may be a switch. -/
  | fieldType
  /-- Types by name. -/
  | types
  | type
  /-- What a type says about itself. -/
  | typeInfo
  /-- A value that is taken as it is. -/
  | value
  deriving DecidableEq

namespace Role

/-- The keys that are looked up by name in a mapping, with the roles of what stands under them. -/
def keys : Role → List (String × Role)
  | document => [("meta", info), ("seq", fields), ("types", types)]
  | info => [("id", value), ("endian", value), ("encoding", value)]
  | field => [("id", value), ("type", fieldType), ("size", value), ("size-eos", value),
      ("pos", value), ("if", value), ("encoding", value), ("repeat", value),
      ("repeat-expr", value), ("repeatExpr", value), ("repeat-until", value),
      ("repeatUntil", value), ("terminator", value), ("include", value), ("consume", value),
      ("doc", value)]
  | fieldType => [("switch-on", value), ("cases", value)]
  | type => [("seq", fields), ("types", types), ("endian", value), ("meta", typeInfo)]
  | typeInfo => [("endian", value)]
  | fields | types | value => []

/-- The role of what stands under a key of a mapping, none when the key is ignored. Each key of
types by name declares a type. -/
def under : Role → Value → Option Role
  | types, _ => some type
  | role, .str name => role.keys.lookup name
  | _, _ => none

end Role

/-- A relation between values, in each role. -/
abbrev RoleRel := Role → Value → Value → Prop

/-- Two mappings with the same keys in the same order, save for those that are ignored. `R` relates
what stands under the others. -/
inductive AlikeEntries (R : RoleRel) (role : Role) :
    List (Value × Value) → List (Value × Value) → Prop
  | nil : AlikeEntries R role [] []
  | keep {key v v' r es es'} (hkey : role.under key = some r) (hv : R r v v')
      (hes : AlikeEntries R role es es') : AlikeEntries R role ((key, v) :: es) ((key, v') :: es')
  | left {key v es es'} (hkey : role.under key = none) (hes : AlikeEntries R role es es') :
      AlikeEntries R role ((key, v) :: es) es'
  | right {key v es es'} (hkey : role.under key = none) (hes : AlikeEntries R role es es') :
      AlikeEntries R role es ((key, v) :: es')

/-- One layer of values that are alike. -/
inductive AlikeLayer (R : RoleRel) : RoleRel
  | same {role v} : AlikeLayer R role v v
  | map {role v v' es es'} (hrole : role ≠ .value) (hv : v.unfolded = .map es)
      (hv' : v'.unfolded = .map es') (hes : AlikeEntries R role es es') : AlikeLayer R role v v'
  | list {v v' vs vs'} (hv : v.unfolded = .list vs) (hv' : v'.unfolded = .list vs')
      (hvs : List.Forall₂ (R .field) vs vs') : AlikeLayer R .fields v v'

/-- The values differ in ignored entries only, at any depth. -/
def Alike : RoleRel := fun role v v' =>
  ∃ R : RoleRel, (∀ {role v v'}, R role v v' → AlikeLayer R role v v') ∧ R role v v'

theorem AlikeEntries.mono {R S : RoleRel} (hRS : ∀ {role v v'}, R role v v' → S role v v')
    {role : Role} {es es' : List (Value × Value)} (h : AlikeEntries R role es es') :
    AlikeEntries S role es es' := by
  induction h with
  | nil => exact .nil
  | keep hkey hv _ ih => exact .keep hkey (hRS hv) ih
  | left hkey _ ih => exact .left hkey ih
  | right hkey _ ih => exact .right hkey ih

theorem AlikeLayer.mono {R S : RoleRel} (hRS : ∀ {role v v'}, R role v v' → S role v v')
    {role : Role} {v v' : Value} : AlikeLayer R role v v' → AlikeLayer S role v v'
  | .same => .same
  | .map hrole hv hv' hes => .map hrole hv hv' (hes.mono hRS)
  | .list hv hv' hvs => .list hv hv' (hvs.imp fun _ _ => hRS)

/-- What is ignored on one side may be missing on the other, whichever side that is. -/
theorem AlikeEntries.symm {R S : RoleRel} (hRS : ∀ {role v v'}, R role v v' → S role v' v)
    {role : Role} {es es' : List (Value × Value)} (h : AlikeEntries R role es es') :
    AlikeEntries S role es' es := by
  induction h with
  | nil => exact .nil
  | keep hkey hv _ ih => exact .keep hkey (hRS hv) ih
  | left hkey _ ih => exact .right hkey ih
  | right hkey _ ih => exact .left hkey ih

namespace Alike

variable {role : Role} {v v' : Value}

/-- Values that are alike are so in their first layer, with values that are alike below it. -/
theorem layer : Alike role v v' → AlikeLayer Alike role v v'
  | ⟨R, hR, h⟩ => (hR h).mono fun h => ⟨R, hR, h⟩

theorem of_layer (h : AlikeLayer Alike role v v') : Alike role v v' :=
  ⟨AlikeLayer Alike, fun h => h.mono layer, h⟩

theorem refl (role : Role) (v : Value) : Alike role v v := of_layer .same

theorem symm (h : Alike role v v') : Alike role v' v := by
  refine ⟨fun role v v' => Alike role v' v, fun {role v v'} h => ?_, h⟩
  cases h.layer with
  | same => exact .same
  | map hrole hv hv' hes => exact .map hrole hv' hv (hes.symm id)
  | list hv hv' hvs => exact .list hv' hv hvs.flip

theorem map {es es' : List (Value × Value)} (hrole : role ≠ .value)
    (h : AlikeEntries Alike role es es') : Alike role (.map es) (.map es') :=
  of_layer (.map hrole rfl rfl h)

theorem list {vs vs' : List Value} (h : List.Forall₂ (Alike .field) vs vs') :
    Alike .fields (.list vs) (.list vs') := of_layer (.list rfl rfl h)

/-- A value that is taken as it is has nothing that is ignored. -/
theorem eq_of_value (h : Alike .value v v') : v = v' := by
  cases h.layer with
  | same => rfl
  | map hrole => exact absurd rfl hrole

end Alike

/-- Entries under ignored keys may stand in front. -/
theorem AlikeEntries.append {R : RoleRel} {role : Role} {more es es' : List (Value × Value)}
    (hmore : ∀ entry ∈ more, role.under entry.1 = none) (h : AlikeEntries R role es es') :
    AlikeEntries R role es (more ++ es') := by
  induction more with
  | nil => exact h
  | cons entry rest ih =>
      rw [List.forall_mem_cons] at hmore
      exact .right hmore.1 (ih hmore.2)

/-! ## What is looked up -/

open Loading

namespace AlikeEntries

variable {role r : Role} {es es' : List (Value × Value)}

theorem lookupKey_cons_of_ne {key : Value} {name : String} (h : key ≠ .str name) (v : Value)
    (es : List (Value × Value)) : lookupKey name ((key, v) :: es) = lookupKey name es := by
  cases key with
  | str k => exact if_neg fun hk => h (congrArg _ hk)
  | _ => rfl

/-- What is found under a key that is looked up is alike. -/
theorem lookup (h : AlikeEntries Alike role es es') (name : String)
    (hname : role.under (.str name) = some r) :
    (lookupKey name es = none ∧ lookupKey name es' = none) ∨
      ∃ v v', lookupKey name es = some v ∧ lookupKey name es' = some v' ∧ Alike r v v' := by
  induction h with
  | nil => exact .inl ⟨rfl, rfl⟩
  | @keep key v v' _ es es' hkey hv _ ih =>
      by_cases heq : key = .str name
      · subst heq
        obtain rfl := Option.some.inj (hkey.symm.trans hname)
        exact .inr ⟨v, v', if_pos rfl, if_pos rfl, hv⟩
      · rwa [lookupKey_cons_of_ne heq, lookupKey_cons_of_ne heq]
  | left hkey _ ih => rwa [lookupKey_cons_of_ne fun heq => by simp [heq, hname] at hkey]
  | right hkey _ ih => rwa [lookupKey_cons_of_ne fun heq => by simp [heq, hname] at hkey]

/-- Under a key that is not ignored both mappings have values that are alike. -/
theorem get (h : AlikeEntries Alike role es es') (name : String)
    (hname : role.under (.str name) = some r) : Alike r (get es name) (Loading.get es' name) := by
  unfold Loading.get
  rcases h.lookup name hname with ⟨hv, hv'⟩ | ⟨v, v', hv, hv', halike⟩ <;> rw [hv, hv']
  · exact .refl r .null
  · exact halike

/-- Values that are taken as they are are the same. -/
theorem lookup_value (h : AlikeEntries Alike role es es') (name : String)
    (hname : role.under (.str name) = some .value) : lookupKey name es = lookupKey name es' := by
  rcases h.lookup name hname with ⟨hv, hv'⟩ | ⟨v, v', hv, hv', halike⟩ <;> rw [hv, hv']
  rw [halike.eq_of_value]

theorem get_value (h : AlikeEntries Alike role es es') (name : String)
    (hname : role.under (.str name) = some .value) :
    Loading.get es name = Loading.get es' name := (h.get name hname).eq_of_value

end AlikeEntries

/-! ## Fields -/

namespace Alike

variable {v v' : Value}

theorem fieldType_eq (h : Alike .fieldType v v') (id : String) :
    FieldType.ofValue id v = FieldType.ofValue id v' := by
  cases h.layer with
  | same => rfl
  | map _ hv hv' hes =>
      simp only [FieldType.ofValue, hv, hv', hes.lookup_value "switch-on" rfl,
        hes.get_value "cases" rfl]

theorem repetition_eq {es es' : List (Value × Value)} (h : AlikeEntries Alike .field es es')
    (id : String) : Repetition.ofEntries id es = Repetition.ofEntries id es' := by
  simp only [Repetition.ofEntries, getEither, h.get_value "repeat" rfl,
    h.lookup_value "repeat-expr" rfl, h.lookup_value "repeatExpr" rfl,
    h.lookup_value "repeat-until" rfl, h.lookup_value "repeatUntil" rfl]

/-- Fields that are alike are read alike, be they refused or not. -/
theorem field_eq (h : Alike .field v v') : Field.ofValue v = Field.ofValue v' := by
  cases h.layer with
  | same => rfl
  | map _ hv hv' hes =>
      simp only [Field.ofValue, hv, hv', flag, (hes.get "type" rfl).fieldType_eq, repetition_eq hes,
        hes.get_value "id" rfl, hes.get_value "terminator" rfl, hes.get_value "encoding" rfl,
        hes.get_value "size" rfl, hes.lookup_value "size-eos" rfl, hes.get_value "pos" rfl,
        hes.get_value "if" rfl, hes.lookup_value "include" rfl, hes.lookup_value "consume" rfl,
        hes.get_value "doc" rfl]

theorem items_eq {vs vs' : List Value} (h : List.Forall₂ (Alike .field) vs vs') :
    vs.mapM Field.ofValue = vs'.mapM Field.ofValue := by
  induction h with
  | nil => rfl
  | cons hitem _ ih => rw [List.mapM_cons, List.mapM_cons, hitem.field_eq, ih]

theorem fields_eq (h : Alike .fields v v') (owner : String) :
    fieldsOf v owner = fieldsOf v' owner := by
  cases h.layer with
  | same => rfl
  | map _ hv hv' => simp only [fieldsOf, hv, hv']
  | list hv hv' hvs => simp only [fieldsOf, hv, hv', items_eq hvs]

theorem info_eq (h : Alike .info v v') : Meta.ofValue v = Meta.ofValue v' := by
  cases h.layer with
  | same => rfl
  | map _ hv hv' hes =>
      simp only [Meta.ofValue, hv, hv', pure_bind, hes.get_value "id" rfl,
        hes.get_value "endian" rfl, hes.get_value "encoding" rfl]

/-- A byte order that is not in its place is looked for in meta data that are alike. -/
theorem typeEndian_eq {es es' : List (Value × Value)} (h : AlikeEntries Alike .type es es') :
    typeEndian es = typeEndian es' := by
  have hmeta := h.get "meta" rfl
  unfold typeEndian
  rw [h.lookup_value "endian" rfl]
  generalize get es "meta" = m, get es' "meta" = m' at hmeta ⊢
  cases hmeta.layer with
  | same => rfl
  | map _ hv hv' hes => simp only [hv, hv', hes.get_value "endian" rfl]

end Alike

/-! ## Types -/

namespace Loading

/-- Apart from the types in it, a type is read from values that are alike. -/
theorem typeOf_alike {es es' : List (Value × Value)} (h : AlikeEntries Alike .type es es')
    (tables : String → Loading Types) : typeOf es tables = typeOf es' tables := by
  funext name
  simp only [typeOf, (h.get "seq" rfl).fields_eq, Alike.typeEndian_eq h]

theorem ReadsType.of_unfolded {n : Nat} {v : Value} {f : String → Loading TypeDef}
    (h : ReadsType n v.unfolded f) : ReadsType (n + 1) v f := by
  cases v with
  | cycle label v => exact .unfold h
  | _ => exact h.mono (Nat.le_succ n)

theorem ReadsTable.of_unfolded {n : Nat} {v : Value} {f : String → Loading Types}
    (h : ReadsTable n v.unfolded f) : ReadsTable (n + 1) v f := by
  cases v with
  | cycle label v => exact .unfold h
  | _ => exact h.mono (Nat.le_succ n)

theorem unfolded_ne_map {v : Value} (h : IsEnd v) (es : List (Value × Value)) :
    v.unfolded ≠ .map es := by
  cases v <;> first | exact False.elim h | exact nofun

/-- A bound that is asked for under a condition can be chosen without it. -/
theorem exists_of_imp {p : Prop} {P : Nat → Prop} (h : p → ∃ n, P n) : ∃ n, p → P n := by
  by_cases hp : p
  · obtain ⟨n, hn⟩ := h hp
    exact ⟨n, fun _ => hn⟩
  · exact ⟨0, fun h => absurd h hp⟩

mutual

/-- A value that is alike is read alike, though by a derivation of another height. By induction on
the derivation for the first value. -/
theorem ReadsType.alike {n : Nat} {v v' : Value} {f : String → Loading TypeDef} :
    ReadsType n v f → Alike .type v v' → ∃ m, ReadsType m v' f
  | .last hend, h => by
      cases h.layer with
      | same => exact ⟨0, .last hend⟩
      | map _ hv => exact absurd hv (unfolded_ne_map hend _)
  -- The types in it are read only if its fields are accepted, and they are so on both sides.
  | @ReadsType.map n es tables hread, h => by
      cases h.layer with
      | same => exact ⟨n, .map hread⟩
      | @map _ _ _ _ es' _ hv hv' hes =>
          cases hv
          have htable : (∃ owner seq, fieldsOf (get es' "seq") owner = .ok seq) →
              ∃ m, ReadsTable m (get es' "types") tables := fun ⟨owner, seq, hseq⟩ =>
            (hread (((hes.get "seq" rfl).fields_eq owner).trans hseq)).alike (hes.get "types" rfl)
          obtain ⟨m, htable⟩ := exists_of_imp htable
          rw [typeOf_alike hes]
          exact ⟨m + 1, .of_unfolded (hv' ▸ .map fun hseq => htable ⟨_, _, hseq⟩)⟩
  | @ReadsType.unfold n label v f hread, h => by
      cases h.layer with
      | same => exact ⟨n + 1, .unfold hread⟩
      | map hrole hv hv' hes =>
          exact hread.alike (.of_layer (.map hrole (by rw [hv]; rfl) hv' hes))

/-- By cases on the derivation: where a mapping stands on one side, a mapping stands on the other.
-/
theorem ReadsTable.alike {n : Nat} {v v' : Value} {f : String → Loading Types} :
    ReadsTable n v f → Alike .types v v' → ∃ m, ReadsTable m v' f
  | .last hend, h => by
      cases h.layer with
      | same => exact ⟨0, .last hend⟩
      | map _ hv => exact absurd hv (unfolded_ne_map hend _)
  | @ReadsTable.map n es f hread, h => by
      cases h.layer with
      | same => exact ⟨n, .map hread⟩
      | map _ hv hv' hes =>
          cases hv
          obtain ⟨m, hread'⟩ := hread.alike hes
          exact ⟨m + 1, .of_unfolded (hv' ▸ .map hread')⟩
  -- Unfolding one side leaves the first layer alike.
  | @ReadsTable.unfold n label v f hread, h => by
      cases h.layer with
      | same => exact ⟨n + 1, .unfold hread⟩
      | map hrole hv hv' hes =>
          exact hread.alike (.of_layer (.map hrole (by rw [hv]; rfl) hv' hes))

/-- Both mappings declare the same types in the same order; none of their keys is ignored. -/
theorem ReadsEntries.alike {n : Nat} {es es' : List (Value × Value)} {f : Types → Loading Types} :
    ReadsEntries n es f → AlikeEntries Alike .types es es' → ∃ m, ReadsEntries m es' f
  | .nil, h => by
      cases h with
      | nil => exact ⟨0, .nil⟩
      | right hkey => cases hkey
  | @ReadsEntries.cons n key body rest f g hbody hrest, h => by
      cases h with
      | left hkey | right hkey => cases hkey
      | @keep _ _ body' _ _ rest' hkey hv hes =>
          cases hkey
          have htype : (∃ name, textOf key = .ok name) → ∃ m, ReadsType m body' f :=
            fun ⟨_, hname⟩ => (hbody hname).alike hv
          have htypes : (∃ name d, textOf key = .ok name ∧ f name = .ok d) →
              ∃ m, ReadsEntries m rest' g := fun ⟨_, _, hname, hd⟩ => (hrest hname hd).alike hes
          obtain ⟨m, htype⟩ := exists_of_imp htype
          obtain ⟨k, htypes⟩ := exists_of_imp htypes
          exact ⟨max m k, .cons (fun hname => (htype ⟨_, hname⟩).mono (Nat.le_max_left m k))
            fun hname hd => (htypes ⟨_, _, hname, hd⟩).mono (Nat.le_max_right m k)⟩

end

/-- If reading comes to an end on one side, it comes to the same end on the other. -/
theorem ends_of_alike {v v' : Value} {owner : String} (hv' : v'.IsClosed) (h : Alike .types v v')
    (hends : Ends (Types.ofValue v owner)) : Types.ofValue v' owner = Types.ofValue v owner := by
  obtain ⟨n, f, hread, heq⟩ := exists_reads.2.1 _ _ _ hends
  obtain ⟨m, hread'⟩ := hread.alike h
  rw [hread'.eq_ofValue hv']
  exact heq

/-- Reading comes to an end on both sides, or on neither. -/
theorem types_alike {v v' : Value} (hv : v.IsClosed) (hv' : v'.IsClosed) (h : Alike .types v v')
    (owner : String) : Types.ofValue v' owner = Types.ofValue v owner := by
  by_cases hends : Ends (Types.ofValue v owner)
  · exact ends_of_alike hv' h hends
  · by_cases hends' : Ends (Types.ofValue v' owner)
    · exact (ends_of_alike hv h.symm hends').symm
    · rw [Ends, not_not] at hends hends'
      rw [hends, hends']

end Loading

/-! ## Schemas -/

namespace Schema

/-- A root sequence is absent from both of two documents that are alike, or from none. -/
theorem seq_isNull {v v' : Value} (h : Alike .fields v v') : v = .null ↔ v' = .null := by
  cases h.layer with
  | same => rfl
  | map _ hv hv' | list hv hv' =>
      constructor
      · rintro rfl
        cases hv
      · rintro rfl
        cases hv'

theorem ofEntries_alike {es es' : List (Value × Value)} (hes : (Value.map es).IsClosed)
    (hes' : (Value.map es').IsClosed) (h : AlikeEntries Alike .document es es') :
    ofEntries es' = ofEntries es := by
  have hseq := h.get "seq" rfl
  have htypes := types_alike (isClosed_get hes "types") (isClosed_get hes' "types")
    (h.get "types" rfl) "schema"
  unfold ofEntries
  rw [(h.get "meta" rfl).info_eq, htypes]
  refine congrArg _ (funext fun info => ?_)
  generalize get es "seq" = v, get es' "seq" = v' at hseq ⊢
  dsimp only
  split
  case h_1 => rw [(seq_isNull hseq).2 rfl]
  case h_2 hne =>
      have hne' : v ≠ .null := fun hnull => hne ((seq_isNull hseq).1 hnull)
      split
      · exact absurd rfl hne'
      · rw [hseq.fields_eq]

theorem load_eq {d d' : Value} (hd : d.IsClosed) (hd' : d'.IsClosed) (h : Alike .document d d') :
    load d' = load d := by
  cases h.layer with
  | same => rfl
  | map _ hv hv' hes =>
      simp only [load, hv, hv']
      exact ofEntries_alike (hv ▸ hd.unfolded) (hv' ▸ hd'.unfolded) hes

/-- **Ignored keys.** Documents that differ in them only give the same schema, or fail alike. A plain
mapping gives a schema or an error of one. -/
theorem load_alike {d d' : Value} (hd : d.IsClosed) (hd' : d'.IsClosed)
    (h : Alike .document d d') :
    load d' = load d ∧ (d.isMap = true → d.IsPlain →
      (∃ schema, load d = .ok schema) ∨ ∃ e, load d = .error (.error e) ∧ e.kind = .schema) :=
  ⟨load_eq hd hd' h, load_plain⟩

/-- A document with `more` in its own mapping, in those of `meta`, of a field and its switch, and of
a type and what it says about itself. -/
def switching (more : List (Value × Value)) : Value :=
  .map (more ++ [
    (.str "meta", .map (more ++ [(.str "id", .str "record")])),
    (.str "seq", .list [.map (more ++ [
      (.str "id", .str "body"),
      (.str "type", .map (more ++ [
        (.str "switch-on", .str "kind"),
        (.str "cases", .map [(.str "_", .str "point")])]))])]),
    (.str "types", .map [(.str "point", .map (more ++ [
      (.str "meta", .map (more ++ [(.str "endian", .str "le")])),
      (.str "seq", .list [.map (more ++ [
        (.str "id", .str "x"), (.str "type", .str "u2")])])]))])])

/-- Entries under keys that are nobody's are ignored wherever they stand. -/
theorem switching_alike {more : List (Value × Value)}
    (h : ∀ entry ∈ more, ∀ role ≠ .types, Role.under role entry.1 = none) :
    Alike .document (switching []) (switching more) := by
  have add {role : Role} {es es' : List (Value × Value)} (hrole : role ≠ .value ∧ role ≠ .types)
      (hes : AlikeEntries Alike role es es') : Alike role (.map es) (.map (more ++ es')) :=
    .map hrole.1 (.append (fun entry hentry => h entry hentry role hrole.2) hes)
  refine add (by decide) (.keep rfl ?info (.keep rfl (.list (.cons ?field .nil))
    (.keep rfl (.map (by decide) (.keep rfl ?type .nil)) .nil)))
  case info => exact add (by decide) (.keep rfl (.refl _ _) .nil)
  case field =>
      refine add (by decide) (.keep rfl (.refl _ _) (.keep rfl (add (by decide) ?_) .nil))
      exact .keep rfl (.refl _ _) (.keep rfl (.refl _ _) .nil)
  case type =>
      refine add (by decide) (.keep rfl ?endian (.keep rfl (.list (.cons ?field .nil)) .nil))
      case endian => exact add (by decide) (.keep rfl (.refl _ _) .nil)
      case field => exact add (by decide) (.keep rfl (.refl _ _) (.keep rfl (.refl _ _) .nil))

theorem load_alike_switching :
    (switching []).IsClosed ∧ (switching [(.str "note", .null)]).IsClosed ∧
      Alike .document (switching []) (switching [(.str "note", .null)]) ∧
      load (switching [(.str "note", .null)]) = load (switching []) ∧
      ((∃ schema, load (switching []) = .ok schema) ∨
        ∃ e, load (switching []) = .error (.error e) ∧ e.kind = .schema) := by
  have hnote : ∀ entry ∈ [(Value.str "note", Value.null)],
      ∀ role ≠ .types, Role.under role entry.1 = none := by
    rw [List.forall_mem_singleton]
    intro role hrole
    cases role <;> first | rfl | exact absurd rfl hrole
  have halike := switching_alike hnote
  have hclosed : (switching []).IsClosed := ⟨by decide⟩
  have hclosed' : (switching [(.str "note", .null)]).IsClosed := ⟨by decide⟩
  obtain ⟨heq, hload⟩ := load_alike hclosed hclosed' halike
  exact ⟨hclosed, hclosed', halike, heq, hload rfl ⟨by decide, by decide⟩⟩

/-- A document whose byte order is a number, with `more` behind it. -/
def ordered (n : Int) (more : List (Value × Value)) : Value :=
  .map ((.str "meta", .map [(.str "endian", .int n)]) :: more)

/-- The number stands in the words of the error, which therefore cannot be told. -/
theorem load_ordered {n : Int} (h : Value.isOverlong n = true) (more : List (Value × Value)) :
    load (ordered n more) = .error (.escape .longInteger) := by
  have hcause : Failure.ofCause (.unknownEndian (.int n) "meta") = .escape .longInteger := if_pos h
  have hendian : Endian.ofValue (.int n) "meta" =
      .error (.ofCause (.unknownEndian (.int n) "meta")) := rfl
  rw [hcause] at hendian
  have hinfo : Meta.ofValue (.map [(.str "endian", .int n)]) = .error (.escape .longInteger) := by
    change (Endian.ofValue (.int n) "meta" >>= fun endian => do
      let encoding ← optionalText .null
      return ({ endian, encoding } : Meta)) = _
    rw [hendian]
    rfl
  change (Meta.ofValue (.map [(.str "endian", .int n)]) >>= _) = _
  rw [hinfo]
  rfl

/-- A byte order that is no name of one is refused, but not in words when it is a number too long
for them: there is neither a schema nor an error of one. -/
theorem load_ordered_overlong :
    ∃ n : Int, Value.isOverlong n = true ∧
      Alike .document (ordered n []) (ordered n [(.str "note", .null)]) ∧
      load (ordered n []) = .error (.escape .longInteger) ∧
      load (ordered n [(.str "note", .null)]) = .error (.escape .longInteger) := by
  have hlong := Value.isOverlong_pow
  refine ⟨_, hlong, ?_, load_ordered hlong _, load_ordered hlong _⟩
  exact .map (by decide) (.keep rfl (.refl _ _) (.right rfl .nil))

end Schema

end ByteSchema
