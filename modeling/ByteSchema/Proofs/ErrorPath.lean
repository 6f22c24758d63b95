import ByteSchema.Proofs.Distinct
import ByteSchema.Proofs.Path
import ByteSchema.Proofs.Selection

/-!
# ByteSchema.Proofs.ErrorPath

The path that an error names.

Most errors are raised without a path and get that of the innermost value around them; the others
name theirs where they are raised. `Raises` says of a decoder what is known of the errors it fails
with, and one lemma a decoder carries this up to the root: an error of a value names this value or
something in it, and an error of the fields of an instance something in the instance. The one way
out is the size of a field. If it is no integer, the error names the field, and so not the element
that is being read when the field is repeated (`Setting.SizeFails`).
-/

namespace ByteSchema

namespace Decoder

variable {α β : Type} {m : Decoder α} {p p' : Progress} {P Q : DecodeError → Prop}

/-- Each error that the decoder, started in `p`, fails with is one of `P`. -/
def Raises (m : Decoder α) (p : Progress) (P : DecodeError → Prop) : Prop :=
  ∀ e, m.Fails p (.error e) → P e

theorem Raises.mono (h : m.Raises p P) (hPQ : ∀ e, P e → Q e) : m.Raises p Q :=
  fun e he => hPQ e (h e he)

theorem raises_pure {a : α} : (pure a : Decoder α).Raises p P := nofun

theorem raises_escape {e : Escape} : (throw (.escape e) : Decoder α).Raises p P := nofun

theorem raises_fail {c : Cause} {path : Option String} (h : P ⟨c, path⟩) :
    (fail c path : Decoder α).Raises p P := by
  intro e he
  obtain rfl := Failure.ofCause_eq_error (Except.error.inj he)
  exact h

/-- A check does not know where it stands, so it names no path. -/
theorem raises_check {x : Except Cause α} (h : ∀ c, P ⟨c, none⟩) : (check x).Raises p P := by
  cases x with
  | ok a => exact raises_pure
  | error c => exact raises_fail (h c)

theorem raises_orEscape {x : Except Escape α} : (orEscape x).Raises p P := by
  cases x with
  | ok a => exact raises_pure
  | error e => exact raises_escape

/-- An error of two steps is one of the first, or one of the second behind a result of the first. -/
theorem raises_bind {f : α → Decoder β} (h : m.Raises p P)
    (hf : ∀ a p', m.Yields p a p' → (f a).Raises p' P) : (m >>= f).Raises p P := by
  intro e he
  unfold Fails at he
  rw [run_bind] at he
  cases hm : m.run.run p with
  | mk r p' =>
      rw [hm] at he
      cases r with
      | ok a => exact hf a p' hm e he
      | error failure =>
          cases he
          exact h e (congrArg Prod.fst hm)

/-- A step that succeeds leaves the errors to what follows it. -/
theorem Yields.raises_bind {f : α → Decoder β} {a : α} (h : m.Yields p a p')
    (hf : (f a).Raises p' P) : (m >>= f).Raises p P := by
  refine Decoder.raises_bind (fun _ he => absurd he h.not_fails) fun b q hb => ?_
  obtain ⟨rfl, rfl⟩ := h.unique hb
  exact hf

/-- An error without path gets one here; what another error names is kept. -/
theorem raises_located {path : String} (h : m.Raises p fun e => P (e.withPath path)) :
    (located path m).Raises p P := by
  intro e he
  unfold Fails at he
  rw [run_located] at he
  cases hm : m.run.run p with
  | mk r p' =>
      rw [hm] at he
      cases r with
      | ok a => cases he
      | error failure =>
          cases failure with
          | escape => cases he
          | error raised =>
              cases he
              exact h raised (congrArg Prod.fst hm)

theorem raises_record {path : String} {v : Value} (h : P ⟨.decodedTwice path, some path⟩) :
    (record path v).Raises p P := by
  intro e he
  by_cases hnew : p.values.get? path = none
  · have hrun : (record path v).Yields p () (p.write path v) := yields_record.2 ⟨hnew, rfl⟩
    exact absurd he hrun.not_fails
  · have hfails : (record path v).Fails p _ := record_fails hnew
    cases hfails.symm.trans he
    exact h

end Decoder

/-! ## Paths -/

/-- The path is that of the node `id` or of one below it. -/
def IsAtOrBelow (id path : String) : Prop := path = id ∨ ∃ t, path = id ++ "." ++ t

/-- An array is neither one of its elements nor in one. -/
theorem not_isAtOrBelow_element {id : String} {index : Nat} :
    ¬ IsAtOrBelow (Setting.elementName id index) id := by
  have hbracket : "[".length = 1 := rfl
  rintro (h | ⟨t, h⟩)
  all_goals
    have hlength := congrArg String.length h
    simp only [Setting.elementName, String.length_append] at hlength
    omega

/-- The error names a path that starts with `lead`. -/
def DecodeError.StartsWith (lead : String) (e : DecodeError) : Prop :=
  ∃ t, e.path = some (lead ++ t)

namespace Setting

open Decoder

variable {s : Setting} {custom : CustomDecoder} {ctx : Context} {f : Field} {name : String}
  {place : Place} {p : Progress} {e : DecodeError}

/-! ## What is read at one place -/

/-- Evaluating an expression does not raise errors: it has a value or none, or it escapes. -/
theorem evaluate_raises {expr : Value} {P : DecodeError → Prop} :
    (s.evaluate place expr).Raises p P :=
  raises_bind (fun _ h => by cases h) fun _ _ _ => raises_orEscape

theorem requireInt_raises {what path : String} {expr : Value} :
    (s.requireInt place what expr path).Raises p fun e => e.path = some path := by
  refine raises_bind (fun _ h => by cases h) fun q _ _ => ?_
  unfold View.requireInt
  split
  · exact raises_escape
  · split
    · exact raises_pure
    · intro e he
      obtain rfl := Failure.ofCause_eq_error (Except.error.inj he)
      rfl

/-- The error is that of the size of the field, which is no integer. -/
structure SizeFails (s : Setting) (ctx : Context) (f : Field) (p : Progress) (e : DecodeError) :
    Prop where
  sized : f.size.isNull = false
  fails : (s.requireInt ctx.toPlace "size" f.size (ctx.childId f.id)).Fails p (.error e)

theorem SizeFails.path_eq (h : s.SizeFails ctx f p e) : e.path = some (ctx.childId f.id) :=
  requireInt_raises e h.fails

/-- The error names no path yet, or is that of the size. -/
def IsBare (s : Setting) (ctx : Context) (f : Field) (p : Progress) (e : DecodeError) : Prop :=
  e.path = none ∨ s.SizeFails ctx f p e

/-- Only the size is evaluated; what else can go wrong is found by checks. -/
theorem readSpan_raises {what : String} {implied : Option UInt8} :
    (s.readSpan ctx f what implied).Raises p (s.IsBare ctx f p) := by
  unfold readSpan
  dsimp only
  split
  case isTrue hsize =>
      refine raises_bind (fun e he => .inr ⟨by simpa using hsize, he⟩) fun _ _ _ => ?_
      exact raises_check fun _ => .inl rfl
  case isFalse =>
      split
      · exact raises_check fun _ => .inl rfl
      · split
        · exact raises_check fun _ => .inl rfl
        · exact raises_fail (.inl rfl)

theorem readInteger_raises {label : String} {width : Nat} {signed : Bool}
    {endian : Option Endian} :
    (s.readInteger ctx f name label width signed endian).Raises p (s.IsBare ctx f p) :=
  raises_bind (raises_check fun _ => .inl rfl) fun _ _ _ => raises_pure

theorem readFloat_raises {label : String} {width : Nat} {endian : Option Endian} :
    (s.readFloat ctx f name label width endian).Raises p (s.IsBare ctx f p) :=
  raises_bind (raises_check fun _ => .inl rfl) fun _ _ _ => raises_pure

theorem readBytes_raises : (s.readBytes ctx f name).Raises p (s.IsBare ctx f p) :=
  raises_bind readSpan_raises fun _ _ _ => raises_pure

/-- Text that is not in its encoding gives warnings, and no error. -/
theorem readText_raises {terminated : Bool} :
    (s.readText ctx f name terminated).Raises p (s.IsBare ctx f p) := by
  refine raises_bind readSpan_raises fun _ _ _ => raises_bind raises_orEscape fun _ _ _ => ?_
  exact Yields.raises_bind ((yields_forIn_warn (u := ⟨⟩)).2 rfl) raises_pure

theorem selectType_raises {id : String} {sw : Switch} :
    (s.selectType place id sw).Raises p fun e => e.path = none := by
  intro e he
  obtain ⟨-, -, c, rfl, -⟩ := (selectType_fails_iff.1 he).error_inv
  rfl

/-! ## One value -/

/-- What is asked of the decoder of nested instances: its errors name no path yet, or something in
the instance. -/
def RaisesInside (custom : CustomDecoder) : Prop :=
  ∀ {ctx : Context} {f : Field} {typeName name : String} {p : Progress},
    ctx.Every Field.IsNamed → name ≠ "" → (custom ctx f typeName name).Raises p fun e =>
      e.path = none ∨ e.StartsWith (ctx.childId name ++ ".")

/-- The error names the value `name` or something in it, or is that of the size of the field. -/
def NamesValue (s : Setting) (ctx : Context) (f : Field) (name : String) (p : Progress)
    (e : DecodeError) : Prop :=
  (∃ path, e.path = some path ∧ IsAtOrBelow (ctx.childId name) path) ∨ s.SizeFails ctx f p e

/-- Once the path of the value is given to errors without one. -/
theorem namesValue_withPath
    (h : e.path = none ∨ e.StartsWith (ctx.childId name ++ ".") ∨ s.SizeFails ctx f p e) :
    s.NamesValue ctx f name p (e.withPath (ctx.childId name)) := by
  obtain ⟨cause, path⟩ := e
  rcases h with hnone | ⟨t, ht⟩ | hsize
  · cases hnone
    exact .inl ⟨_, rfl, .inl rfl⟩
  · cases ht
    exact .inl ⟨_, rfl, .inr ⟨t, rfl⟩⟩
  · have hpath : path = some _ := hsize.path_eq
    subst hpath
    exact .inr hsize

/-- A leaf names no path yet, and an instance names something in it. -/
theorem decodeNamed_raises {typeName : String} (hcustom : RaisesInside custom)
    (hctx : ctx.Every Field.IsNamed) (hname : name ≠ "") :
    (s.decodeNamed custom ctx f name typeName).Raises p fun e =>
      e.path = none ∨ e.StartsWith (ctx.childId name ++ ".") ∨ s.SizeFails ctx f p e := by
  have hbare : ∀ e, s.IsBare ctx f p e → e.path = none ∨ e.StartsWith (ctx.childId name ++ ".") ∨
      s.SizeFails ctx f p e := fun e he => he.imp_right .inr
  unfold decodeNamed
  split
  · exact readInteger_raises.mono hbare
  · exact readFloat_raises.mono hbare
  · exact readBytes_raises.mono hbare
  · exact readText_raises.mono hbare
  · exact (hcustom hctx hname).mono fun e he => he.imp_right .inl

/-- The errors of a value get its path, unless they have one. -/
theorem decodeSingle_raises (hcustom : RaisesInside custom) (hctx : ctx.Every Field.IsNamed)
    (hname : name ≠ "") :
    (s.decodeSingle custom ctx f name).Raises p (s.NamesValue ctx f name p) := by
  refine raises_located (Raises.mono ?_ fun e => namesValue_withPath)
  split
  · exact readBytes_raises.mono fun e he => he.imp_right .inr
  · exact decodeNamed_raises hcustom hctx hname
  · refine raises_bind (selectType_raises.mono fun e => .inl) fun typeName p' hselect => ?_
    obtain rfl := selectType_inv hselect
    exact decodeNamed_raises hcustom hctx hname

/-! ## Fields and instances -/

/-- A path of a child starts as the paths of all children do. -/
theorem startsWith_of_childId (hname : name ≠ "") {t : String}
    (h : e.path = some (ctx.childId name ++ t)) : e.StartsWith (pathLead ctx.path) :=
  ⟨name ++ t, by rw [h, Place.childId_eq hname, String.append_assoc]⟩

theorem startsWith_of_field (hf : f.IsNamed) (h : e.path = some (ctx.childId f.id)) :
    e.StartsWith (pathLead ctx.path) :=
  startsWith_of_childId hf (by rw [h, String.append_empty])

theorem NamesValue.startsWith (hname : name ≠ "") (hf : f.IsNamed)
    (h : s.NamesValue ctx f name p e) : e.StartsWith (pathLead ctx.path) := by
  rcases h with ⟨path, hpath, rfl | ⟨t, rfl⟩⟩ | hsize
  · exact startsWith_of_childId hname (by rw [hpath, String.append_empty])
  · exact startsWith_of_childId hname (by rw [hpath, String.append_assoc])
  · exact startsWith_of_field hf hsize.path_eq

theorem isSatisfied_raises {r : Repetition} {index : Nat} {v : Value} {cursor : Int}
    {P : DecodeError → Prop} : (s.isSatisfied r ctx index v cursor).Raises p P := by
  unfold isSatisfied
  split
  · exact raises_bind evaluate_raises fun _ _ _ => raises_pure
  · exact raises_pure

theorem isPresent_raises {P : DecodeError → Prop} : (s.isPresent ctx f).Raises p P := by
  unfold isPresent
  split
  · exact raises_pure
  · exact raises_bind evaluate_raises fun _ _ _ => raises_pure

/-- By induction on the rounds: the first element that fails ends the array. -/
theorem decodeElements_raises {r : Repetition} {count : Option Int} {rounds index : Nat}
    {done : List Node} {cursor : Int} (hcustom : RaisesInside custom)
    (hctx : ctx.Every Field.IsNamed) (hf : f.IsNamed) :
    (s.decodeElements custom ctx f r count rounds index done cursor).Raises p
      (DecodeError.StartsWith (pathLead ctx.path)) := by
  induction rounds generalizing index done cursor p with
  | zero => exact raises_escape
  | succ rounds ih =>
      unfold decodeElements
      split
      · exact raises_pure
      have hmoved : (ctx.moveTo cursor).Every Field.IsNamed := hctx
      have hsingle := @decodeSingle_raises s custom (ctx.moveTo cursor) f (elementName f.id index) p
        hcustom hmoved elementName_ne_empty
      refine raises_bind (hsingle.mono fun e => NamesValue.startsWith elementName_ne_empty hf)
        fun o _ _ => raises_bind isSatisfied_raises fun satisfied _ _ => ?_
      split
      · exact raises_pure
      split
      · exact Yields.raises_bind ((yields_warn (u := ⟨⟩)).2 rfl) raises_pure
      · exact ih

theorem repeatCount_raises {r : Repetition} :
    (s.repeatCount ctx f r).Raises p fun e => e.path = some (ctx.childId f.id) := by
  unfold repeatCount
  split
  · refine raises_bind requireInt_raises fun n _ _ => ?_
    split
    · exact raises_fail rfl
    split
    · exact raises_fail rfl
    · exact raises_pure
  · exact raises_pure

theorem placed_raises :
    (s.placed ctx f).Raises p fun e => e.path = some (ctx.childId f.id) := by
  refine raises_bind evaluate_raises fun n _ _ => ?_
  split
  · exact raises_pure
  · exact raises_bind requireInt_raises fun _ _ _ => raises_pure

/-- Whether alone or in an array, a value has a path that goes on from that of the instance. -/
theorem decodeField_raises (hcustom : RaisesInside custom) (hctx : ctx.Every Field.IsNamed)
    (hf : f.IsNamed) :
    (s.decodeField custom ctx f).Raises p (DecodeError.StartsWith (pathLead ctx.path)) := by
  refine raises_bind (placed_raises.mono fun e => startsWith_of_field hf) fun ctx' _ hplaced => ?_
  obtain ⟨-, ⟨offset, rfl⟩, -⟩ := placed_inv hplaced
  have hmoved : (ctx.moveTo offset).Every Field.IsNamed := hctx
  split
  · refine raises_bind (repeatCount_raises.mono fun e => startsWith_of_field hf) fun _ _ _ => ?_
    exact raises_bind (decodeElements_raises hcustom hmoved hf) fun _ _ _ => raises_pure
  · exact (decodeSingle_raises hcustom hmoved hf).mono fun e => NamesValue.startsWith hf hf

theorem decodeFields_raises {depth : Nat} {seq : List Field} {done : List Node}
    (hcustom : RaisesInside (s.nested depth)) (hctx : ctx.Every Field.IsNamed)
    (hseq : ∀ f ∈ seq, f.IsNamed) :
    (s.decodeFields (s.nested depth) seq ctx done).Raises p
      (DecodeError.StartsWith (pathLead ctx.path)) := by
  induction seq generalizing ctx done p with
  | nil => exact raises_pure
  | cons f rest ih =>
      have hf := hseq f List.mem_cons_self
      have hrest : ∀ g ∈ rest, g.IsNamed := fun g hg => hseq g (List.mem_cons_of_mem _ hg)
      refine raises_bind isPresent_raises fun present _ _ => ?_
      split
      · refine raises_bind (decodeField_raises hcustom hctx hf) fun o _ hdecoded => ?_
        -- A path that is written twice is that of the field.
        have hid := (decodeField_named hdecoded).1
        refine raises_bind (raises_record ?_) fun _ _ _ => ih hctx hrest
        exact startsWith_of_field hf (congrArg some hid)
      · exact ih hctx hrest

/-- The ids of the fields of an instance go on behind its own. -/
theorem pathLead_inside {i : Instance} (hname : i.name ≠ "") :
    pathLead (inside ctx i).path = ctx.childId i.name ++ "." := by
  rw [Place.childId_eq hname]
  exact pathLead_concat hname

/-- The errors of an instance name no path yet, or something in it. -/
def InstanceRaises (s : Setting) (depth : Nat) : Prop :=
  ∀ {ctx : Context} {i : Instance} {p : Progress}, i.Every Field.IsNamed → i.name ≠ "" →
    (s.decodeInstance depth ctx i).Raises p fun e =>
      e.path = none ∨ e.StartsWith (ctx.childId i.name ++ ".")

/-- The decoder of nested instances goes one level down and finds the type first. -/
theorem InstanceRaises.nested {depth : Nat} (h : s.InstanceRaises depth) :
    RaisesInside (s.nested depth) := by
  intro ctx f typeName name p hctx hname
  unfold Setting.nested
  split
  case h_1 hfound => exact h (Instance.every_of_lookup? hctx hfound) hname
  case h_2 => exact raises_fail (.inl rfl)

/-- By induction on the depth: the fields of an instance have paths below its own. -/
theorem decodeInstance_raises (depth : Nat) : s.InstanceRaises depth := by
  induction depth with
  | zero => exact fun _ _ => raises_fail (.inl rfl)
  | succ depth ih =>
      intro ctx i p hi hname
      have hfields := @decodeFields_raises s (inside ctx i) p depth i.definition.seq [] ih.nested
        hi.inside fun g hg => hi.seq hg
      rw [pathLead_inside hname] at hfields
      exact raises_bind (hfields.mono fun e => .inr) fun _ _ _ => raises_pure

end Setting

namespace Schema

open Setting

variable {schema : Schema} {options : Options} {buffer : Buffer}

/-- **The path of an error.** When an element of an array fails with an error, the decode ends with
it, and it names the element or something in it; only if it is that of the size of the elements,
which is no integer, it names the array. -/
theorem names_element_of_reached {depth : Nat} {outer : List Frame} {ctx : Context} {f : Field}
    {r : Repetition} {count : Option Int} {index : Nat} {cursor : Int} {p : Progress}
    (hnamed : ∀ f ∈ schema.fields, f.id ≠ "")
    (hv : schema.Reached options buffer ⟨depth, outer, ctx, .elements f r count index cursor, p⟩)
    (hmore : (schema.setting options buffer).isComplete r count index cursor = false) :
    ∃ enough, ∀ rounds ≥ enough, ∀ e,
      Visit.Fails ⟨depth, outer, ctx.moveTo cursor, .single f (elementName f.id index), p⟩
        (schema.setting { options with maxRounds := rounds } buffer) (.error e) →
      ∃ path warnings, e.path = some path ∧
        schema.decode { options with maxRounds := rounds } buffer = .ok (failed e warnings) ∧
        (IsAtOrBelow (elementName (ctx.childId f.id) index) path ∨
          path = ctx.childId f.id ∧
            (schema.setting options buffer).SizeFails (ctx.moveTo cursor) f p e) := by
  obtain ⟨hahead, hsight⟩ : Visit.Meets Field.IsNamed _ := hv.meets hnamed
  have hf : f.IsNamed := hahead f (List.mem_singleton_self f)
  have hid : (ctx.moveTo cursor).childId (elementName f.id index) =
      elementName (ctx.childId f.id) index := by
    rw [Place.childId_eq elementName_ne_empty, Place.childId_eq hf, elementName_append]
    rfl
  -- The element is a place of its own, and what fails there ends the decode.
  obtain ⟨enough, hrounds⟩ := (hv.step (.element hmore)).exists_rounds
  refine ⟨enough, fun rounds hle e hfails => ?_⟩
  have hends (path : String) (hpath : e.path = some path) : ∃ warnings,
      schema.decode { options with maxRounds := rounds } buffer = .ok (failed e warnings) := by
    refine hrounds rounds hle e ?_ hfails
    obtain ⟨cause, _⟩ := e
    cases hpath
    exact Failure.isPlaced_error
  have hmoved : (ctx.moveTo cursor).Every Field.IsNamed := hsight
  -- The element names itself, or it is the size that fails.
  rcases decodeSingle_raises (InstanceRaises.nested (decodeInstance_raises depth)) hmoved
    elementName_ne_empty e hfails with
    ⟨path, hpath, hbelow⟩ | hsize
  · obtain ⟨warnings, hdecode⟩ := hends path hpath
    rw [hid] at hbelow
    exact ⟨path, warnings, hpath, hdecode, .inl hbelow⟩
  · obtain ⟨warnings, hdecode⟩ := hends _ hsize.path_eq
    exact ⟨_, warnings, hsize.path_eq, hdecode, .inr ⟨rfl, hsize.sized, hsize.fails⟩⟩

/-- Two entries, whose bodies have no size. -/
def entries : Schema where
  seq := some [{ id := "a", type := .named "entry", repetition := some (.count (.int 2)) }]
  types := [("entry", { seq := [{ id := "tag", type := .named "u1" }, { id := "body" }] })]

theorem names_element_of_reached_entries :
    (∀ f ∈ entries.fields, f.id ≠ "") ∧ ∃ depth outer ctx f p,
      entries.Reached {} [1, 2] ⟨depth, outer, ctx, .elements f (.count (.int 2)) (some 2) 0 0, p⟩ ∧
      (entries.setting {} [1, 2]).isComplete (.count (.int 2)) (some 2) 0 0 = false ∧
      ∃ rounds e path warnings,
        Visit.Fails ⟨depth, outer, ctx.moveTo 0, .single f (elementName f.id 0), p⟩
          (entries.setting { maxRounds := rounds } [1, 2]) (.error e) ∧
        e.path = some path ∧
        entries.decode { maxRounds := rounds } [1, 2] = .ok (failed e warnings) ∧
        (IsAtOrBelow (elementName (ctx.childId f.id) 0) path ∨
          path = ctx.childId f.id ∧
            (entries.setting {} [1, 2]).SizeFails (ctx.moveTo 0) f p e) := by
  have hnamed : ∀ f ∈ entries.fields, f.id ≠ "" := by
    simp [entries, fields, fieldsIn, TypeDef.fields]
  have hstart : entries.Reached {} [1, 2] ⟨63, [], _, _, _⟩ := .root rfl rfl
  have harray := hstart.step (.array rfl rfl rfl rfl)
  obtain ⟨enough, hrounds⟩ := names_element_of_reached hnamed harray rfl
  let e : DecodeError := ⟨.sizeRequired "body" "untyped data", some "root.a[0].body"⟩
  obtain ⟨path, warnings, hends⟩ := hrounds enough le_rfl e rfl
  exact ⟨hnamed, _, _, _, _, _, harray, rfl, enough, e, path, warnings, rfl, hends⟩

/-- Two elements whose size has no value. -/
def unsized : Schema where
  seq := some [{ id := "a", size := .str "x", repetition := some (.count (.int 2)) }]

/-- The first element fails, and the error names the array. -/
theorem decode_unsized :
    (unsized.decode {} [65, 66]).toOption.map Result.errors =
        some [⟨"Cannot evaluate size expression 'x'", some "root.a", "ExpressionError"⟩] ∧
      ¬ IsAtOrBelow (elementName "root.a" 0) "root.a" := by
  exact ⟨by decide +kernel, not_isAtOrBelow_element⟩

end Schema

end ByteSchema
