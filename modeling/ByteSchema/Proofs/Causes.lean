import ByteSchema.Proofs.Decoder

/-!
# ByteSchema.Proofs.Causes

The kinds of the errors that end a decode.

Text that is not in its encoding is mended, so no decode ends with an error of that kind, and what is
wrong with a schema is found when it is loaded. `FailsBy C` says of a computation that each error it
ends with has a cause in `C`; an escape is no error and has none. One lemma a function carries this
from the reads up to the root, with the decoding of nested instances as a parameter.
-/

namespace ByteSchema

/-- The error for a cause has this cause. -/
theorem Failure.ofCause_eq_error {c : Cause} {path : Option String} {e : DecodeError}
    (h : Failure.ofCause c path = .error e) : e = ⟨c, path⟩ := by
  unfold ofCause at h
  split at h
  · cases h
  · exact (Failure.error.inj h).symm

/-! ## Loading a schema -/

namespace Loading

variable {C : Cause → Prop} {α β : Type}

/-- Each error of a computation has its cause in `C`. -/
def FailsBy (C : Cause → Prop) (x : Loading α) : Prop :=
  ∀ e, x = .error (.error e) → C e.cause

theorem failsBy_ok {a : α} : FailsBy C (.ok a) := nofun

theorem failsBy_escape {e : Escape} : FailsBy C (.error (.escape e) : Loading α) := nofun

theorem failsBy_ofCause {c : Cause} {path : Option String} (h : C c) :
    FailsBy C (.error (.ofCause c path) : Loading α) := by
  intro e heq
  obtain rfl := Failure.ofCause_eq_error (Except.error.inj heq)
  exact h

theorem failsBy_fail {c : Cause} (h : C c) : FailsBy C (fail c : Loading α) := failsBy_ofCause h

theorem failsBy_bind {x : Loading α} {f : α → Loading β} (hx : FailsBy C x)
    (hf : ∀ a, FailsBy C (f a)) : FailsBy C (x >>= f) := by
  intro e heq
  cases x with
  | ok a => exact hf a e heq
  | error failure =>
      cases heq
      exact hx e rfl

theorem failsBy_mapM {f : α → Loading β} (hf : ∀ a, FailsBy C (f a)) (items : List α) :
    FailsBy C (items.mapM f) := by
  induction items with
  | nil => exact failsBy_ok
  | cons a rest ih =>
      rw [List.mapM_cons]
      exact failsBy_bind (hf a) fun _ => failsBy_bind ih fun _ => failsBy_ok

/-- The fault is with the schema. -/
def IsFault (c : Cause) : Prop := c.kind = .schema

theorem textOf_faults (v : Value) : FailsBy IsFault (textOf v) := by
  unfold textOf
  split
  · exact failsBy_ok
  · split
    · exact failsBy_escape
    · exact failsBy_ok

theorem optionalText_faults (v : Value) : FailsBy IsFault (optionalText v) := by
  unfold optionalText
  split
  · exact failsBy_ok
  · exact failsBy_bind (textOf_faults v) fun _ => failsBy_ok

theorem endian_faults (v : Value) (place : String) : FailsBy IsFault (Endian.ofValue v place) := by
  unfold Endian.ofValue
  split
  case h_3 =>
      split
      · exact failsBy_ok
      · exact failsBy_fail rfl
  case h_4 => exact failsBy_fail rfl
  all_goals exact failsBy_ok

theorem switchCases_faults (id : String) (cases : List (Value × Value)) :
    FailsBy IsFault (switchCases id cases) := by
  induction cases with
  | nil => exact failsBy_ok
  | cons entry rest ih =>
      obtain ⟨key, target⟩ := entry
      cases target with
      | str name => exact failsBy_bind ih fun _ => failsBy_ok
      | _ => exact failsBy_fail rfl

theorem fieldType_faults (id : String) (v : Value) : FailsBy IsFault (FieldType.ofValue id v) := by
  unfold FieldType.ofValue
  split
  case h_3 entries _ =>
      split
      · exact failsBy_fail rfl
      · split
        · exact failsBy_bind (switchCases_faults id _) fun _ => failsBy_ok
        · exact failsBy_fail rfl
  case h_4 => exact failsBy_fail rfl
  all_goals exact failsBy_ok

theorem terminator_faults (id : String) (v : Value) :
    FailsBy IsFault (Terminator.ofValue id v) := by
  unfold Terminator.ofValue
  split
  case h_3 =>
      split
      · exact failsBy_ok
      · exact failsBy_fail rfl
  case h_4 => exact failsBy_fail rfl
  all_goals exact failsBy_ok

theorem repetition_faults (id : String) (entries : List (Value × Value)) :
    FailsBy IsFault (Repetition.ofEntries id entries) := by
  unfold Repetition.ofEntries
  split
  case h_2 | h_3 =>
      split
      · exact failsBy_fail rfl
      · exact failsBy_ok
  case h_5 => exact failsBy_fail rfl
  all_goals exact failsBy_ok

theorem field_faults (raw : Value) : FailsBy IsFault (Field.ofValue raw) := by
  unfold Field.ofValue
  split
  case h_2 => exact failsBy_fail rfl
  case h_1 entries _ =>
      dsimp only
      split
      case h_1 | h_2 => exact failsBy_fail rfl
      case h_3 =>
          refine failsBy_bind (textOf_faults _) fun id => ?_
          refine failsBy_bind (fieldType_faults id _) fun _ => ?_
          refine failsBy_bind (terminator_faults id _) fun _ => ?_
          refine failsBy_bind (optionalText_faults _) fun _ => ?_
          exact failsBy_bind (repetition_faults id _) fun _ => failsBy_ok

theorem fieldsOf_faults (v : Value) (owner : String) : FailsBy IsFault (fieldsOf v owner) := by
  unfold fieldsOf
  split
  · exact failsBy_ok
  · exact failsBy_mapM field_faults _
  · exact failsBy_fail rfl

section Within

variable {left : List Nat} {label : Nat} {v : Value} {name owner : String}

/-- What is neither a mapping nor met again inside itself is nothing, or no type at all. -/
theorem type_last_faults (hmap : ∀ entries, v = .map entries → False)
    (hcycle : ∀ label w, v = .cycle label w → False) :
    FailsBy IsFault (TypeDef.ofValueWithin left v name) := by
  unfold TypeDef.ofValueWithin
  split
  case h_1 => exact failsBy_ok
  case h_2 => exact absurd rfl (hmap _)
  case h_3 => exact absurd rfl (hcycle _ _)
  case h_4 => exact failsBy_fail rfl

theorem table_last_faults (hmap : ∀ entries, v = .map entries → False)
    (hcycle : ∀ label w, v = .cycle label w → False) :
    FailsBy IsFault (Types.ofValueWithin left v owner) := by
  unfold Types.ofValueWithin
  split
  case h_1 => exact failsBy_ok
  case h_2 => exact absurd rfl (hmap _)
  case h_3 => exact absurd rfl (hcycle _ _)
  case h_4 => exact failsBy_fail rfl

/-- When the budget is spent, reading escapes, and that has no cause. -/
theorem type_cycle_faults (h : label ∈ left → FailsBy IsFault
    (TypeDef.ofValueWithin (left.erase label) (Value.cycle label v).unfolded name)) :
    FailsBy IsFault (TypeDef.ofValueWithin left (.cycle label v) name) := by
  unfold TypeDef.ofValueWithin
  split
  case isTrue hlabel => exact h hlabel
  case isFalse => exact failsBy_escape

theorem table_cycle_faults (h : label ∈ left → FailsBy IsFault
    (Types.ofValueWithin (left.erase label) (Value.cycle label v).unfolded owner)) :
    FailsBy IsFault (Types.ofValueWithin left (.cycle label v) owner) := by
  unfold Types.ofValueWithin
  split
  case isTrue hlabel => exact h hlabel
  case isFalse => exact failsBy_escape

end Within

/-- By induction on how types, and the types in them, are read. -/
theorem within_faults :
    (∀ (left : List Nat) (raw : Value) (name : String),
      FailsBy IsFault (TypeDef.ofValueWithin left raw name)) ∧
    (∀ (left : List Nat) (v : Value) (owner : String),
      FailsBy IsFault (Types.ofValueWithin left v owner)) ∧
    (∀ (left : List Nat) (entries : List (Value × Value)) (done : Types),
      FailsBy IsFault (Types.ofEntriesWithin left entries done)) := by
  apply TypeDef.ofValueWithin.mutual_induct
  -- Types: nothing, a mapping, a value that is met again inside itself, and any other value.
  case case1 => exact fun left name => type_last_faults (fun _ => nofun) fun _ _ => nofun
  case case2 =>
      intro left name entries owner htypes
      unfold TypeDef.ofValueWithin
      refine failsBy_bind (fieldsOf_faults _ _) fun _ => failsBy_bind htypes fun _ => ?_
      exact failsBy_bind (endian_faults _ _) fun _ => failsBy_ok
  case case3 => exact fun left name label v _ ih => type_cycle_faults fun _ => ih
  case case4 =>
      exact fun left name label v hlabel => type_cycle_faults fun hmem => absurd hmem hlabel
  case case5 => exact fun left raw name _ hmap hcycle => type_last_faults hmap hcycle
  -- Tables of types: the same four.
  case case6 => exact fun left owner => table_last_faults (fun _ => nofun) fun _ _ => nofun
  case case7 =>
      intro left owner entries ih
      unfold Types.ofValueWithin
      exact ih
  case case8 => exact fun left owner label v _ ih => table_cycle_faults fun _ => ih
  case case9 =>
      exact fun left owner label v hlabel => table_cycle_faults fun hmem => absurd hmem hlabel
  case case10 => exact fun left v owner _ hmap hcycle => table_last_faults hmap hcycle
  -- Entries of a table: none left, and one type put before the rest is read.
  case case11 =>
      intro left done
      unfold Types.ofEntriesWithin
      exact failsBy_ok
  case case12 =>
      intro left done key body rest ihType ihRest
      unfold Types.ofEntriesWithin
      refine failsBy_bind (textOf_faults key) fun name => ?_
      exact failsBy_bind (ihType name) fun d => ihRest name d

theorem meta_faults (v : Value) : FailsBy IsFault (Meta.ofValue v) := by
  have hrest (entries : List (Value × Value)) : FailsBy IsFault (do
      let id ← optionalText (get entries "id")
      let endian ← Endian.ofValue (get entries "endian") "meta"
      let encoding ← optionalText (get entries "encoding")
      return ({ id, endian, encoding } : Meta)) := by
    refine failsBy_bind (optionalText_faults _) fun _ => ?_
    refine failsBy_bind (endian_faults _ _) fun _ => ?_
    exact failsBy_bind (optionalText_faults _) fun _ => failsBy_ok
  unfold Meta.ofValue
  dsimp only
  split
  · exact failsBy_bind failsBy_ok hrest
  · split
    · exact failsBy_fail rfl
    · exact failsBy_bind failsBy_ok hrest

/-- A text that is no document is a fault of the schema, too. -/
theorem yaml_faults (text : String) : FailsBy IsFault (Yaml.read text) := by
  unfold Yaml.read
  dsimp only
  split
  · exact failsBy_ok
  · exact failsBy_escape
  · exact failsBy_ofCause rfl

end Loading

namespace Schema

open Loading

theorem ofEntries_faults (entries : List (Value × Value)) : FailsBy IsFault (ofEntries entries) := by
  unfold ofEntries
  refine failsBy_bind (meta_faults _) fun info => ?_
  have hrest (seq : Option (List Field)) : FailsBy IsFault (do
      let types ← Types.ofValue (get entries "types") "schema"
      return ({ info, seq, types } : Schema)) :=
    failsBy_bind (within_faults.2.1 _ _ _) fun _ => failsBy_ok
  dsimp only
  split
  · exact failsBy_bind failsBy_ok hrest
  · exact failsBy_bind (failsBy_bind (fieldsOf_faults _ _) fun _ => failsBy_ok) hrest

theorem ofText_faults (text : String) : FailsBy IsFault (ofText text) := by
  unfold ofText ofTextBy
  split
  · exact failsBy_fail rfl
  · refine failsBy_bind (yaml_faults text) fun document => ?_
    split
    · exact ofEntries_faults _
    · exact failsBy_fail rfl

/-- An error in loading a schema is an error of the schema. -/
theorem load_faults (source : Value) : FailsBy IsFault (load source) := by
  unfold load
  split
  · exact ofEntries_faults _
  · exact ofText_faults _
  · split
    · exact ofText_faults _
    · exact failsBy_fail rfl
  · exact failsBy_fail rfl

end Schema

/-! ## Decoding a buffer -/

/-- An error of this cause ends a decode, for nothing is made of it. -/
def Cause.IsFinal (c : Cause) : Prop := c.kind ≠ .encoding

namespace Decoder

variable {C : Cause → Prop} {α β : Type}

/-- Each error of a step has its cause in `C`. -/
def FailsBy (C : Cause → Prop) (step : Decoder α) : Prop :=
  ∀ ⦃p e p'⦄, step.run.run p = (.error (.error e), p') → C e.cause

theorem failsBy_pure {a : α} : FailsBy C (pure a) := by
  intro p e p' h
  cases h

theorem failsBy_get : FailsBy C get := by
  intro p e p' h
  cases h

theorem failsBy_modify {f : Progress → Progress} : FailsBy C (modify f) := by
  intro p e p' h
  cases h

/-- A computation without state fails in a decoder as it does alone. -/
theorem failsBy_lift {x : Except Failure α} (h : Loading.FailsBy C x) : FailsBy C (lift x) := by
  intro p e p' hrun
  cases x with
  | ok a => cases hrun
  | error failure =>
      cases hrun
      exact h e rfl

/-- An escape has no cause, so only an error has to be of the sort. -/
theorem failsBy_throw {failure : Failure} (h : ∀ e, failure = .error e → C e.cause) :
    FailsBy C (throw failure : Decoder α) := by
  intro p e p' hrun
  cases hrun
  exact h e rfl

theorem failsBy_fail {c : Cause} {path : Option String} (h : C c) :
    FailsBy C (fail c path : Decoder α) := by
  refine failsBy_throw fun e heq => ?_
  obtain rfl := Failure.ofCause_eq_error heq
  exact h

theorem failsBy_check {x : Except Cause α} (h : ∀ c, x = .error c → C c) :
    FailsBy C (check x) := by
  cases x with
  | ok a => exact failsBy_pure
  | error c => exact failsBy_fail (h c rfl)

theorem failsBy_orEscape {x : Except Escape α} : FailsBy C (orEscape x) := by
  cases x with
  | ok a => exact failsBy_pure
  | error e => exact failsBy_throw nofun

theorem failsBy_bind {step : Decoder α} {f : α → Decoder β} (hstep : FailsBy C step)
    (hf : ∀ a, FailsBy C (f a)) : FailsBy C (step >>= f) := by
  intro p e p' hrun
  rw [run_bind] at hrun
  split at hrun
  case h_1 a _ _ => exact hf a hrun
  case h_2 heq =>
      cases hrun
      exact hstep heq

/-- A path is all that an error is given. -/
theorem failsBy_located {path : String} {step : Decoder α} (h : FailsBy C step) :
    FailsBy C (located path step) := by
  intro p e p' hrun
  rw [run_located] at hrun
  rcases hstep : step.run.run p with ⟨(⟨e'⟩ | ⟨escape⟩) | a, q⟩ <;> rw [hstep] at hrun
  · have hcause : C e'.cause := h hstep
    cases hrun
    exact hcause
  · cases hrun
  · cases hrun

/-- By induction on the items: each round fails for such a cause, or the next one follows. -/
theorem failsBy_forIn {σ : Type} {f : α → σ → Decoder (ForInStep σ)}
    (h : ∀ a b, FailsBy C (f a b)) (items : List α) (b : σ) : FailsBy C (forIn items b f) := by
  induction items generalizing b with
  | nil => exact failsBy_pure
  | cons a rest ih =>
      rw [List.forIn_cons]
      refine failsBy_bind (h a b) fun step => ?_
      cases step with
      | done b => exact failsBy_pure
      | yield b => exact ih b

theorem record_finals (path : String) (v : Value) : FailsBy Cause.IsFinal (record path v) := by
  refine failsBy_bind failsBy_get fun p => ?_
  split
  case h_1 => exact failsBy_modify
  case h_2 e hrecord =>
      refine failsBy_throw fun e' heq => ?_
      cases heq
      unfold ValueTable.record at hrecord
      split at hrecord
      · cases hrecord
        exact nofun
      · cases hrecord

end Decoder

namespace Buffer

variable {b : Buffer} {offset : Int} {c : Cause}

/-- Bytes are not read for one reason only: they lie outside of the buffer. -/
theorem read_final {length : Int} (h : b.read offset length = .error c) : c.IsFinal := by
  unfold read at h
  split at h
  case h_2 => cases h
  case h_1 cause hfault =>
      cases h
      unfold boundsFault? at hfault
      split at hfault
      · cases hfault
        exact nofun
      split at hfault
      · cases hfault
        exact nofun
      split at hfault
      · cases hfault
        exact nofun
      · cases hfault

theorem readSized_final {size : Int} {t : Option UInt8} {keep : Bool}
    (h : b.readSized offset size t keep = .error c) : c.IsFinal := by
  unfold readSized at h
  cases hread : b.read offset size with
  | error cause =>
      rw [hread] at h
      cases h
      exact read_final hread
  | ok bytes =>
      rw [hread] at h
      cases t <;> cases h

theorem readRest_final (h : b.readRest offset = .error c) : c.IsFinal := by
  unfold readRest at h
  cases hread : b.read offset 0 with
  | error cause =>
      rw [hread] at h
      cases h
      exact read_final hread
  | ok bytes =>
      rw [hread] at h
      cases h

/-- A terminator that is missing is no fault of an encoding. -/
theorem readTerminated_final {t : UInt8} {keep skip : Bool}
    (h : b.readTerminated offset t keep skip = .error c) : c.IsFinal := by
  unfold readTerminated at h
  cases hread : b.read offset 0 with
  | error cause =>
      rw [hread] at h
      cases h
      exact read_final hread
  | ok bytes =>
      rw [hread] at h
      dsimp only [bind, Except.bind] at h
      split at h
      · cases h
      · cases h
        exact nofun

end Buffer

/-- What has no integer where it needs one is at fault as an expression. -/
theorem View.requireInt_kind {view : View} {what : String} {expr : Value} {path : Option String} :
    Loading.FailsBy (fun c => c.kind = .expression) (view.requireInt what expr path) := by
  unfold requireInt
  split
  · exact Loading.failsBy_escape
  split
  · exact Loading.failsBy_ok
  · rename_i cause hcause
    refine Loading.failsBy_ofCause ?_
    unfold integerOf at hcause
    split at hcause
    case h_1 =>
        cases hcause
        rfl
    case h_2 | h_3 => cases hcause
    case h_4 =>
        split at hcause
        · cases hcause
          rfl
        · split at hcause
          · cases hcause
            rfl
          · cases hcause

theorem View.requireInt_final {view : View} {what : String} {expr : Value} {path : Option String} :
    Loading.FailsBy Cause.IsFinal (view.requireInt what expr path) := by
  intro e he
  unfold Cause.IsFinal
  rw [requireInt_kind e he]
  exact nofun

namespace Setting

open Decoder

variable {s : Setting} {custom : CustomDecoder} {ctx : Context} {f : Field} {name : String}
  {place : Place}

theorem evaluate_finals {expr : Value} : FailsBy Cause.IsFinal (s.evaluate place expr) :=
  failsBy_bind failsBy_get fun _ => failsBy_orEscape

theorem requireInt_finals {what path : String} {expr : Value} :
    FailsBy Cause.IsFinal (s.requireInt place what expr path) :=
  failsBy_bind failsBy_get fun _ => failsBy_lift View.requireInt_final

/-- The bytes of a field are read in one of four ways; what text they are is not asked yet. -/
theorem readSpan_finals {what : String} {implied : Option UInt8} :
    FailsBy Cause.IsFinal (s.readSpan ctx f what implied) := by
  unfold readSpan
  dsimp only
  split
  · refine failsBy_bind requireInt_finals fun size => ?_
    exact failsBy_check fun _ => Buffer.readSized_final
  split
  · exact failsBy_check fun _ => Buffer.readRest_final
  split
  · exact failsBy_check fun _ => Buffer.readTerminated_final
  · exact failsBy_fail nofun

theorem readInteger_finals {label : String} {width : Nat} {signed : Bool} {endian : Option Endian} :
    FailsBy Cause.IsFinal (s.readInteger ctx f name label width signed endian) := by
  refine failsBy_bind ?_ fun _ => failsBy_pure
  exact failsBy_check fun _ => Buffer.read_final

theorem readFloat_finals {label : String} {width : Nat} {endian : Option Endian} :
    FailsBy Cause.IsFinal (s.readFloat ctx f name label width endian) := by
  refine failsBy_bind ?_ fun _ => failsBy_pure
  exact failsBy_check fun _ => Buffer.read_final

theorem readBytes_finals : FailsBy Cause.IsFinal (s.readBytes ctx f name) :=
  failsBy_bind readSpan_finals fun _ => failsBy_pure

/-- Text that is not in its encoding gives warnings, and no error. -/
theorem readText_finals {terminated : Bool} :
    FailsBy Cause.IsFinal (s.readText ctx f name terminated) := by
  refine failsBy_bind readSpan_finals fun _ => failsBy_bind failsBy_orEscape fun _ => ?_
  refine failsBy_bind (failsBy_forIn (fun _ _ => ?_) _ _) fun _ => failsBy_pure
  exact failsBy_bind failsBy_modify fun _ => failsBy_pure

theorem caseNumber_finals {key : Value} : FailsBy Cause.IsFinal (s.caseNumber place key) := by
  unfold caseNumber
  split
  case h_4 =>
      split
      · exact failsBy_throw nofun
      dsimp only
      split
      · exact failsBy_pure
      · refine failsBy_bind evaluate_finals fun number => ?_
        cases number <;> exact failsBy_pure
  all_goals exact failsBy_pure

/-- By induction on the cases: the key of each is evaluated, at most. -/
theorem selectCase_finals {d : Number} {entries : List (Value × String)} :
    FailsBy Cause.IsFinal (s.selectCase place d entries) := by
  induction entries with
  | nil => exact failsBy_pure
  | cons entry rest ih =>
      obtain ⟨key, typeName⟩ := entry
      unfold selectCase
      split
      · exact ih
      refine failsBy_bind caseNumber_finals fun number => ?_
      split
      · split
        · exact failsBy_pure
        · exact ih
      · exact ih

/-- When no case fits and there is no default, the switch itself fails. -/
theorem selectType_finals {id : String} {sw : Switch} :
    FailsBy Cause.IsFinal (s.selectType place id sw) := by
  refine failsBy_bind evaluate_finals fun discriminant => ?_
  cases discriminant with
  | none =>
      refine failsBy_bind failsBy_pure fun selected => ?_
      dsimp only
      split
      · exact failsBy_pure
      · exact failsBy_fail nofun
  | some n =>
      refine failsBy_bind selectCase_finals fun selected => ?_
      dsimp only
      split
      · exact failsBy_pure
      · exact failsBy_fail nofun

/-- What is asked of the decoder of nested instances. -/
def FinalsCustom (custom : CustomDecoder) : Prop :=
  ∀ ctx f typeName name, FailsBy Cause.IsFinal (custom ctx f typeName name)

/-- The name of a type leads to a primitive, to text or bytes, or to an instance. -/
theorem decodeNamed_finals {typeName : String} (hcustom : FinalsCustom custom) :
    FailsBy Cause.IsFinal (s.decodeNamed custom ctx f name typeName) := by
  unfold decodeNamed
  split
  · exact readInteger_finals
  · exact readFloat_finals
  · exact readBytes_finals
  · exact readText_finals
  · exact hcustom _ _ _ _

theorem decodeSingle_finals (hcustom : FinalsCustom custom) :
    FailsBy Cause.IsFinal (s.decodeSingle custom ctx f name) := by
  refine failsBy_located ?_
  split
  · exact readBytes_finals
  · exact decodeNamed_finals hcustom
  · exact failsBy_bind selectType_finals fun _ => decodeNamed_finals hcustom

theorem isSatisfied_finals {r : Repetition} {index : Nat} {v : Value} {cursor : Int} :
    FailsBy Cause.IsFinal (s.isSatisfied r ctx index v cursor) := by
  unfold isSatisfied
  split
  · exact failsBy_bind evaluate_finals fun _ => failsBy_pure
  · exact failsBy_pure

theorem decodeElements_finals {r : Repetition} {count : Option Int} {rounds index : Nat}
    {done : List Node} {cursor : Int} (hcustom : FinalsCustom custom) :
    FailsBy Cause.IsFinal
      (s.decodeElements custom ctx f r count rounds index done cursor) := by
  induction rounds generalizing index done cursor with
  | zero => exact failsBy_throw nofun
  | succ rounds ih =>
      unfold decodeElements
      split
      · exact failsBy_pure
      refine failsBy_bind (decodeSingle_finals hcustom) fun o => ?_
      refine failsBy_bind isSatisfied_finals fun satisfied => ?_
      split
      · exact failsBy_pure
      split
      · exact failsBy_bind failsBy_modify fun _ => failsBy_pure
      · exact ih

theorem repeatCount_finals {r : Repetition} : FailsBy Cause.IsFinal (s.repeatCount ctx f r) := by
  unfold repeatCount
  split
  · refine failsBy_bind requireInt_finals fun n => ?_
    split
    · exact failsBy_fail nofun
    split
    · exact failsBy_fail nofun
    · exact failsBy_pure
  · exact failsBy_pure

theorem placed_finals : FailsBy Cause.IsFinal (s.placed ctx f) := by
  refine failsBy_bind evaluate_finals fun n => ?_
  split
  · exact failsBy_pure
  · exact failsBy_bind requireInt_finals fun _ => failsBy_pure

theorem decodeField_finals (hcustom : FinalsCustom custom) :
    FailsBy Cause.IsFinal (s.decodeField custom ctx f) := by
  refine failsBy_bind placed_finals fun ctx => ?_
  split
  · refine failsBy_bind repeatCount_finals fun _ => ?_
    exact failsBy_bind (decodeElements_finals hcustom) fun _ => failsBy_pure
  · exact decodeSingle_finals hcustom

theorem isPresent_finals : FailsBy Cause.IsFinal (s.isPresent ctx f) := by
  unfold isPresent
  split
  · exact failsBy_pure
  · exact failsBy_bind evaluate_finals fun _ => failsBy_pure

theorem decodeFields_finals {seq : List Field} {done : List Node} (hcustom : FinalsCustom custom) :
    FailsBy Cause.IsFinal (s.decodeFields custom seq ctx done) := by
  induction seq generalizing ctx done with
  | nil => exact failsBy_pure
  | cons f rest ih =>
      refine failsBy_bind isPresent_finals fun present => ?_
      split
      · refine failsBy_bind (decodeField_finals hcustom) fun o => ?_
        exact failsBy_bind (record_finals _ _) fun _ => ih
      · exact ih

/-- By induction on the depth; that instances are nested too deep is final, too. -/
theorem decodeInstance_finals {depth : Nat} {i : Instance} :
    FailsBy Cause.IsFinal (s.decodeInstance depth ctx i) := by
  induction depth generalizing ctx i with
  | zero => exact failsBy_fail nofun
  | succ depth ih =>
      refine failsBy_bind (decodeFields_finals ?_) fun _ => failsBy_pure
      intro ctx f typeName name
      dsimp only
      split
      · exact ih
      · exact failsBy_fail nofun

end Setting

/-- A decode without a tree gives one error, and that is not about text. -/
theorem Schema.decode_failed {schema : Schema} {options : Options} {buffer : Buffer}
    {result : Result} (h : schema.decode options buffer = .ok result) (hroot : result.root = none) :
    ∃ e warnings, result = failed e warnings ∧ e.cause.IsFinal := by
  unfold decode at h
  split at h
  case h_1 =>
      cases h
      exact ⟨_, _, rfl, nofun⟩
  case h_2 definition _ =>
      split at h
      case h_1 =>
          cases h
          cases hroot
      case h_2 e p hrun =>
          cases h
          exact ⟨e, p.warnings, rfl, Setting.decodeInstance_finals hrun⟩
      case h_3 => cases h

end ByteSchema
