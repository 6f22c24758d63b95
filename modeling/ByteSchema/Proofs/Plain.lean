import ByteSchema.Proofs.Causes
import ByteSchema.Proofs.Ending

/-!
# ByteSchema.Proofs.Plain

Documents that are loaded or refused in words.

Loading ends otherwise in two ways: types hold themselves without end, or the words of an error or
an id need an integer that is too long to be written. In a plain document no collection holds itself
and no integer is that long, so there is a schema or an error of one (`Schema.load_plain`). One
lemma a function carries this up to the document.
-/

namespace ByteSchema

/-! ## Plain values -/

namespace Value

/-- No collection in the value holds itself, and each integer in it can be written. -/
structure IsPlain (v : Value) : Prop where
  labels : v.labels = []
  short : v.hasOverlong = false

namespace IsPlain

variable {k v : Value} {vs : List Value} {es : List (Value × Value)}

/-- A plain value holds no cycle, so there is nothing to unfold. -/
theorem unfolded_eq (h : v.IsPlain) : v.unfolded = v := by
  cases v with
  | cycle n v => cases h.labels
  | _ => rfl

theorem item (h : (list vs).IsPlain) (hmem : v ∈ vs) : v.IsPlain := by
  have hlabels := h.labels
  have hshort := h.short
  simp only [Value.labels, labelsOfItems_eq, List.flatMap_eq_nil_iff] at hlabels
  simp only [hasOverlong, hasOverlongItem_eq, List.any_eq_false] at hshort
  exact ⟨hlabels v hmem, by simpa using hshort v hmem⟩

theorem key (h : (map es).IsPlain) (hmem : (k, v) ∈ es) : k.hasOverlong = false := by
  have hshort := h.short
  simp only [hasOverlong, hasOverlongEntry_eq, List.any_eq_false, Bool.or_eq_true, not_or] at hshort
  simpa using (hshort _ hmem).1

theorem value (h : (map es).IsPlain) (hmem : (k, v) ∈ es) : v.IsPlain := by
  have hlabels := h.labels
  have hshort := h.short
  simp only [Value.labels, labelsOfEntries_eq, List.flatMap_eq_nil_iff] at hlabels
  simp only [hasOverlong, hasOverlongEntry_eq, List.any_eq_false, Bool.or_eq_true, not_or] at hshort
  exact ⟨hlabels _ hmem, by simpa using (hshort _ hmem).2⟩

/-- What a mapping has under a name is plain, as is null where it has nothing. -/
theorem get (h : (map es).IsPlain) (key : String) : (Loading.get es key).IsPlain :=
  Loading.get_induction ⟨rfl, rfl⟩ (fun hmem => h.value hmem) key

end IsPlain

end Value

/-! ## Loading in words -/

namespace Loading

variable {α β : Type}

/-- A result or an error that can be reported. -/
def Reports (x : Loading α) : Prop := ∀ e, x ≠ .error (.escape e)

theorem reports_ok {a : α} : Reports (.ok a) := nofun

theorem reports_fail {c : Cause} (h : c.hasOverlong = false) : Reports (fail c : Loading α) := by
  intro e heq
  rw [fail, Failure.ofCause, h] at heq
  cases heq

/-- Failures are reported if those of the first step and of what follows are. -/
theorem reports_bind {x : Loading α} {f : α → Loading β} (hx : Reports x)
    (hf : ∀ a, Reports (f a)) : Reports (x >>= f) := by
  intro e heq
  cases x with
  | ok a => exact hf a e heq
  | error failure =>
      cases heq
      exact hx e rfl

theorem reports_mapM {f : α → Loading β} {items : List α} (h : ∀ a ∈ items, Reports (f a)) :
    Reports (items.mapM f) := by
  induction items with
  | nil => exact reports_ok
  | cons a rest ih =>
      rw [List.forall_mem_cons] at h
      rw [List.mapM_cons]
      exact reports_bind h.1 fun _ => reports_bind (ih h.2) fun _ => reports_ok

/-- A value without overlong integers has a text. -/
theorem textOf_reports {v : Value} (h : v.hasOverlong = false) : Reports (textOf v) := by
  unfold textOf
  split
  · exact reports_ok
  · rw [h]
    exact reports_ok

theorem optionalText_reports {v : Value} (h : v.hasOverlong = false) :
    Reports (optionalText v) := by
  unfold optionalText
  split
  · exact reports_ok
  · exact reports_bind (textOf_reports h) fun _ => reports_ok

theorem endian_reports {v : Value} (h : v.hasOverlong = false) (place : String) :
    Reports (Endian.ofValue v place) := by
  unfold Endian.ofValue
  split
  case h_3 =>
      split
      · exact reports_ok
      · exact reports_fail h
  case h_4 => exact reports_fail h
  all_goals exact reports_ok

/-- The names of the cases are wording; the keys alone could be overlong. -/
theorem switchCases_reports {cases : List (Value × Value)}
    (h : ∀ entry ∈ cases, entry.1.hasOverlong = false) (id : String) :
    Reports (switchCases id cases) := by
  induction cases with
  | nil => exact reports_ok
  | cons entry rest ih =>
      rw [List.forall_mem_cons] at h
      obtain ⟨key, target⟩ := entry
      cases target with
      | str name => exact reports_bind (ih h.2) fun _ => reports_ok
      | _ => exact reports_fail h.1

/-- A switch is the one type of a field that is read from a mapping. -/
theorem fieldType_reports {v : Value} (h : v.IsPlain) (id : String) :
    Reports (FieldType.ofValue id v) := by
  unfold FieldType.ofValue
  rw [h.unfolded_eq]
  split
  case h_3 entries =>
      have hcases := h.get "cases"
      split
      · exact reports_fail rfl
      · rw [hcases.unfolded_eq]
        split
        case h_1 cases heq =>
            rw [heq] at hcases
            exact reports_bind (switchCases_reports (fun _ hmem => hcases.key hmem) id)
              fun _ => reports_ok
        case h_2 => exact reports_fail rfl
  case h_4 => exact reports_fail rfl
  all_goals exact reports_ok

theorem terminator_reports (id : String) (v : Value) : Reports (Terminator.ofValue id v) := by
  unfold Terminator.ofValue
  split
  case h_3 =>
      split
      · exact reports_ok
      · exact reports_fail rfl
  case h_4 => exact reports_fail rfl
  all_goals exact reports_ok

theorem repetition_reports {entries : List (Value × Value)} (h : (Value.map entries).IsPlain)
    (id : String) : Reports (Repetition.ofEntries id entries) := by
  unfold Repetition.ofEntries
  split
  case h_2 | h_3 =>
      split
      · exact reports_fail rfl
      · exact reports_ok
  case h_5 => exact reports_fail (h.get "repeat").short
  all_goals exact reports_ok

theorem field_reports {raw : Value} (h : raw.IsPlain) : Reports (Field.ofValue raw) := by
  unfold Field.ofValue
  rw [h.unfolded_eq]
  split
  case h_2 => exact reports_fail rfl
  case h_1 entries =>
      dsimp only
      split
      case h_1 | h_2 => exact reports_fail rfl
      case h_3 =>
          refine reports_bind (textOf_reports (h.get "id").short) fun id => ?_
          refine reports_bind (fieldType_reports (h.get "type") id) fun _ => ?_
          refine reports_bind (terminator_reports id _) fun _ => ?_
          refine reports_bind (optionalText_reports (h.get "encoding").short) fun _ => ?_
          exact reports_bind (repetition_reports h id) fun _ => reports_ok

theorem fieldsOf_reports {v : Value} (h : v.IsPlain) (owner : String) :
    Reports (fieldsOf v owner) := by
  unfold fieldsOf
  rw [h.unfolded_eq]
  split
  · exact reports_ok
  · exact reports_mapM fun _ hmem => field_reports (h.item hmem)
  · exact reports_fail rfl

/-- The byte order stands in the description or else in its meta data, and both are plain. -/
theorem typeEndian_short {entries : List (Value × Value)} (h : (Value.map entries).IsPlain) :
    (typeEndian entries).hasOverlong = false := by
  have hmeta := h.get "meta"
  unfold typeEndian
  rw [hmeta.unfolded_eq]
  split
  case h_1 v hv => exact (h.value (mem_of_lookupKey hv)).short
  case h_2 =>
      split
      case h_1 info heq =>
          rw [heq] at hmeta
          exact (hmeta.get "endian").short
      case h_2 => rfl

/-- A plain type is read if the types in it are. -/
theorem typeOf_reports {entries : List (Value × Value)} (h : (Value.map entries).IsPlain)
    {tables : String → Loading Types} (htables : ∀ owner, Reports (tables owner)) (name : String) :
    Reports (typeOf entries tables name) :=
  reports_bind (fieldsOf_reports (h.get "seq") _) fun _ => reports_bind (htables _) fun _ =>
    reports_bind (endian_reports (typeEndian_short h) _) fun _ => reports_ok

theorem entries_reports {left : List Nat} {entries : List (Value × Value)}
    (hkeys : ∀ entry ∈ entries, entry.1.hasOverlong = false)
    (htypes : ∀ entry ∈ entries, ∀ name, Reports (TypeDef.ofValueWithin left entry.2 name))
    (done : Types) : Reports (Types.ofEntriesWithin left entries done) := by
  induction entries generalizing done with
  | nil =>
      rw [Types.ofEntriesWithin]
      exact reports_ok
  | cons entry rest ih =>
      rw [List.forall_mem_cons] at hkeys htypes
      rw [entries_cons]
      exact reports_bind (textOf_reports hkeys.1) fun name =>
        reports_bind (htypes.1 name) fun d => ih hkeys.2 htypes.2 _

/-- At the end of a document there is nothing more to unfold, and the words of the error are
fixed. -/
theorem last_reports {v : Value} (h : IsEnd v) (left : List Nat) :
    (∀ name, Reports (TypeDef.ofValueWithin left v name)) ∧
      ∀ owner, Reports (Types.ofValueWithin left v owner) := by
  refine ⟨fun name => ?_, fun owner => ?_⟩
  · unfold TypeDef.ofValueWithin
    split
    case h_1 => exact reports_ok
    case h_2 | h_3 => exact False.elim h
    case h_4 => exact reports_fail rfl
  · unfold Types.ofValueWithin
    split
    case h_1 => exact reports_ok
    case h_2 | h_3 => exact False.elim h
    case h_4 => exact reports_fail rfl

/-- By induction on the value, which holds no value that is met again inside itself. -/
theorem within_reports (left : List Nat) (v : Value) : v.IsPlain →
    (∀ name, Reports (TypeDef.ofValueWithin left v name)) ∧
      ∀ owner, Reports (Types.ofValueWithin left v owner) := by
  induction v using Value.collection_induction with
  | atom v hv =>
      intro h
      exact last_reports (by cases v <;> trivial) left
  | list vs | tuple vs | record fs => exact fun _ => last_reports (by exact trivial) left
  | cycle n v | back n isMap =>
      intro h
      cases h.labels
  | map es ih =>
      intro h
      refine ⟨fun name => ?_, fun owner => ?_⟩
      · rw [type_map]
        refine typeOf_reports h (get_induction
          (P := fun v => ∀ owner, Reports (Types.ofValueWithin left v owner)) ?_ ?_ "types") name
        · exact (last_reports (v := .null) trivial left).2
        · exact fun hmem => (ih _ _ hmem (h.value hmem)).2
      · rw [table_map]
        exact entries_reports (fun _ hmem => h.key hmem)
          (fun _ hmem => (ih _ _ hmem (h.value hmem)).1) []

theorem meta_reports {v : Value} (h : v.IsPlain) : Reports (Meta.ofValue v) := by
  have hrest {entries : List (Value × Value)} (hentries : (Value.map entries).IsPlain) :
      Reports (do
        let id ← optionalText (get entries "id")
        let endian ← Endian.ofValue (get entries "endian") "meta"
        let encoding ← optionalText (get entries "encoding")
        return ({ id, endian, encoding } : Meta)) := by
    refine reports_bind (optionalText_reports (hentries.get "id").short) fun _ => ?_
    refine reports_bind (endian_reports (hentries.get "endian").short _) fun _ => ?_
    exact reports_bind (optionalText_reports (hentries.get "encoding").short) fun _ => reports_ok
  unfold Meta.ofValue
  rw [h.unfolded_eq]
  dsimp only
  split
  · exact hrest h
  · split
    · exact reports_fail rfl
    · exact hrest (show (Value.map []).IsPlain from ⟨rfl, rfl⟩)

end Loading

namespace Schema

open Loading

theorem ofEntries_reports {entries : List (Value × Value)} (h : (Value.map entries).IsPlain) :
    Reports (ofEntries entries) := by
  unfold ofEntries
  refine reports_bind (meta_reports (h.get "meta")) fun info => ?_
  have hrest (seq : Option (List Field)) : Reports (do
      let types ← Types.ofValue (get entries "types") "schema"
      return ({ info, seq, types } : Schema)) :=
    reports_bind ((within_reports _ _ (h.get "types")).2 _) fun _ => reports_ok
  dsimp only
  split
  · exact reports_bind reports_ok hrest
  · exact reports_bind (reports_bind (fieldsOf_reports (h.get "seq") _) fun _ => reports_ok) hrest

/-- A plain mapping gives a schema or an error of one. -/
theorem load_plain {d : Value} (hmap : d.isMap = true) (h : d.IsPlain) :
    (∃ schema, load d = .ok schema) ∨ ∃ e, load d = .error (.error e) ∧ e.kind = .schema := by
  have hreports : Reports (load d) := by
    cases d with
    | map entries => exact ofEntries_reports h
    | cycle n v | back n isMap => cases h.labels
    | _ => cases hmap
  cases hload : load d with
  | ok schema => exact .inl ⟨schema, rfl⟩
  | error failure =>
      cases failure with
      | error e => exact .inr ⟨e, rfl, load_faults d e hload⟩
      | escape e => exact absurd hload (hreports e)

end Schema

end ByteSchema
