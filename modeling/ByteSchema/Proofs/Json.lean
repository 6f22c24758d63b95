import ByteSchema.Proofs.Lines
import ByteSchema.Proofs.Portable
import ByteSchema.Report.Json
import ByteSchema.Report.Outline

/-!
# ByteSchema.Proofs.Json

Which reports can be written in JSON.

A value is written when it has a portable form and this holds nothing but nulls, truth values, numbers
of few digits, texts, lists and records (`Json.exists_ofValue_iff`). Decoded data are of that sort, so
in the outline of a node only two things can stand in the way: the numbers of its range and its
attributes, which come from the schema (`Node.hasJson_outline_iff`).
-/

namespace ByteSchema

/-! ## Values -/

namespace Value

/-- What JSON has a form for. -/
inductive IsWritable : Value → Prop
  | null : IsWritable null
  | bool {b : Bool} : IsWritable (bool b)
  | int {n : Int} (short : isOverlong n = false) : IsWritable (int n)
  | float {x : Float} : IsWritable (float x)
  | str {s : String} : IsWritable (str s)
  | list {vs : List Value} (items : ∀ v ∈ vs, IsWritable v) : IsWritable (list vs)
  | record {fs : Fields} (values : ∀ k v, (k, v) ∈ fs → IsWritable v) : IsWritable (record fs)

theorem isWritable_int {n : Int} : (int n).IsWritable ↔ isOverlong n = false := by
  refine ⟨fun h => ?_, .int⟩
  cases h with
  | int short => exact short

theorem isWritable_list {vs : List Value} : (list vs).IsWritable ↔ ∀ v ∈ vs, v.IsWritable := by
  refine ⟨fun h => ?_, .list⟩
  cases h with
  | list items => exact items

theorem isWritable_record {fs : Fields} :
    (record fs).IsWritable ↔ ∀ field ∈ fs, field.2.IsWritable := by
  refine ⟨fun h => ?_, fun h => .record fun k v hv => h (k, v) hv⟩
  cases h with
  | record values => exact fun field hfield => values field.1 field.2 hfield

/-- The portable form of the value can be written. -/
def HasJson (v : Value) : Prop := ∃ w, v.portable? = .ok w ∧ w.IsWritable

theorem hasJson_iff {v : Value} : v.HasJson ↔ v.obstacle = none ∧ v.portable.IsWritable := by
  unfold HasJson portable?
  cases v.obstacle <;> simp

end Value

namespace Json

/-- Items are written one by one, and the first that cannot be ends the writing. -/
theorem renderItems_eq (depth : Nat) (vs : List Value) :
    renderItems depth vs = vs.mapM (render depth) := by
  induction vs with
  | nil => rfl
  | cons v rest ih => rw [renderItems, ih, List.mapM_cons]

theorem renderFields_eq (depth : Nat) (fs : Fields) :
    renderFields depth fs =
      fs.mapM fun field => do return quote field.1 ++ ": " ++ (← render depth field.2) := by
  induction fs with
  | nil => rfl
  | cons field rest ih => rw [renderFields, ih, List.mapM_cons]; simp only [bind_assoc, pure_bind]

/-- No text is written where the rules give none. -/
theorem not_exists_render {v : Value} {depth : Nat} {e : Escape} (h : render depth v = .error e) :
    ¬ ∃ text, render depth v = .ok text := by
  rintro ⟨text, htext⟩
  rw [h] at htext
  cases htext

theorem exists_render_int_iff {n : Int} {depth : Nat} :
    (∃ text, render depth (.int n) = .ok text) ↔ Value.isOverlong n = false := by
  rw [render]
  cases Value.isOverlong n <;> simp [pure, Except.pure]

theorem exists_render_atom_iff {v : Value} (hv : v.IsAtom) (depth : Nat) :
    (∃ text, render depth v = .ok text) ↔ v.IsWritable := by
  cases v with
  | null => exact ⟨fun _ => .null, fun _ => ⟨_, rfl⟩⟩
  | bool b => exact ⟨fun _ => .bool, fun _ => ⟨_, rfl⟩⟩
  | float x => exact ⟨fun _ => .float, fun _ => ⟨_, rfl⟩⟩
  | str s => exact ⟨fun _ => .str, fun _ => ⟨_, rfl⟩⟩
  | int n => exact exists_render_int_iff.trans Value.isWritable_int.symm
  | bytes | set | date | moment | endian => exact ⟨fun h => absurd h (not_exists_render rfl), nofun⟩
  | list | tuple | map | record | cycle | back => cases hv

/-- The induction is on collections, for all depths at once, since what they hold is written one
deeper. -/
theorem exists_render_iff (v : Value) :
    ∀ depth, (∃ text, render depth v = .ok text) ↔ v.IsWritable := by
  induction v using Value.collection_induction with
  | atom v hv => exact exists_render_atom_iff hv
  | list vs ih =>
      intro depth
      rw [render, exists_bind_pure_iff, renderItems_eq, exists_mapM_iff, Value.isWritable_list]
      exact forall₂_congr fun v hv => ih v hv _
  | record fs ih =>
      intro depth
      rw [render, exists_bind_pure_iff, renderFields_eq, exists_mapM_iff, Value.isWritable_record]
      simp only [exists_bind_pure_iff]
      exact forall₂_congr fun field hfield => ih field.1 field.2 hfield _
  | tuple vs | map es | cycle n v | back n isMap =>
      exact fun depth => ⟨fun h => absurd h (not_exists_render rfl), nofun⟩

theorem exists_ofValue_iff {v : Value} : (∃ text, ofValue v = .ok text) ↔ v.HasJson := by
  unfold ofValue Value.HasJson
  cases h : v.portable? with
  | error e =>
      constructor
      · rintro ⟨text, htext⟩
        cases htext
      · rintro ⟨w, hw, -⟩
        cases hw
  | ok w =>
      have hrender : (do render 0 (← Except.ok w)) = render 0 w := rfl
      rw [hrender, exists_render_iff]
      constructor
      · exact fun hw => ⟨w, rfl, hw⟩
      · rintro ⟨_, hw, hwritable⟩
        cases hw
        exact hwritable

end Json

/-! ## Collections -/

namespace Value

@[simp] theorem hasJson_null : null.HasJson := hasJson_iff.2 ⟨rfl, .null⟩

@[simp] theorem hasJson_str (s : String) : (str s).HasJson := hasJson_iff.2 ⟨rfl, .str⟩

@[simp] theorem hasJson_int {n : Int} : (int n).HasJson ↔ isOverlong n = false := by
  rw [hasJson_iff, ← isWritable_int]
  exact and_iff_right rfl

@[simp] theorem hasJson_list {vs : List Value} : (list vs).HasJson ↔ ∀ v ∈ vs, v.HasJson := by
  rw [hasJson_iff, portable_list, isWritable_list, List.forall_mem_map, obstacle,
    obstacleInItems_eq, List.findSome?_eq_none_iff, ← forall₂_and]
  exact forall₂_congr fun v _ => hasJson_iff.symm

/-- The values of a record with distinct names are written one by one. -/
theorem hasJson_record {fs : Fields} (h : (fs.map Prod.fst).Nodup) :
    (record fs).HasJson ↔ ∀ field ∈ fs, field.2.HasJson := by
  have hput : Fields.putAll [] (fs.map fun field => (field.1, field.2.portable)) =
      fs.map fun field => (field.1, field.2.portable) :=
    Fields.putAll_of_nodup (by simpa [Function.comp_def] using h)
  rw [hasJson_iff, portable_record, hput, isWritable_record, List.forall_mem_map, obstacle,
    obstacleInFields_eq, List.findSome?_eq_none_iff, ← forall₂_and]
  exact forall₂_congr fun field _ => hasJson_iff.symm

/-- Decoded data have a JSON form: their integers are those of at most eight bytes. -/
theorem IsData.hasJson {v : Value} (h : v.IsData) : v.HasJson := by
  rw [hasJson_iff]
  induction h with
  | int short => exact ⟨rfl, .int short⟩
  | float => exact ⟨rfl, .float⟩
  | str => exact ⟨rfl, .str⟩
  -- Bytes become a list of numbers below 256.
  | @bytes bs =>
      refine ⟨rfl, ?_⟩
      rw [portable_bytes, isWritable_list, List.forall_mem_map]
      intro b _
      exact .int (not_isOverlong_of_lt (show 1 ≤ 8 by decide) b.toNat_lt)
  | tuple _ ih =>
      rw [portable_tuple, isWritable_list, List.forall_mem_map, obstacle, obstacleInItems_eq,
        List.findSome?_eq_none_iff]
      exact ⟨fun v hv => (ih v hv).1, fun v hv => (ih v hv).2⟩
  | record _ ih =>
      rw [portable_record, isWritable_record, obstacle, obstacleInFields_eq,
        List.findSome?_eq_none_iff]
      refine ⟨fun field hfield => (ih field.1 field.2 hfield).1, fun field hfield => ?_⟩
      rcases Fields.mem_putAll hfield with hfield | hfield
      · cases hfield
      · obtain ⟨source, hsource, rfl⟩ := List.mem_map.1 hfield
        exact (ih source.1 source.2 hsource).2

end Value

/-! ## Nodes and results -/

theorem Diagnostic.hasJson_outline (d : Diagnostic) : d.outline.HasJson := by
  unfold outline optionalField
  cases d.path <;> rw [Value.hasJson_record (by simp)] <;> simp

theorem Span.hasJson_outline_iff {s : Span} : s.outline.HasJson ↔
    Value.isOverlong s.start = false ∧ Value.isOverlong s.length = false := by
  unfold outline
  rw [Value.hasJson_record (by simp)]
  simp

/-- A node whose own numbers and attributes can be written. -/
structure Node.HasJson (n : Node) : Prop where
  start : Value.isOverlong n.range.start = false
  length : Value.isOverlong n.range.length = false
  attributes : (Value.record n.attributes).HasJson

theorem hasJson_optionalField (name : String) (text : Option String) :
    ∀ field ∈ optionalField name text, field.2.HasJson := by
  cases text <;> simp [optionalField]

theorem forall_mem_unless {α : Type} {c : Bool} {a : α} {P : α → Prop} :
    (∀ b ∈ if c then [] else [a], P b) ↔ (c = false → P a) := by
  cases c <;> simp

/-- What a node says of itself is apart from what the nodes below it say. -/
theorem Node.hasJson_outline {n : Node} (hvalue : n.value.HasJson) :
    n.outline.HasJson ↔ n.HasJson ∧ ∀ v ∈ outlineAll n.children, v.HasJson := by
  obtain ⟨id, name, label, range, endian, value, children, attributes, problems⟩ := n
  have hshown : (if children.isEmpty then ("value", value)
      else ("children", Value.list (outlineAll children))).2.HasJson ↔
        ∀ v ∈ outlineAll children, v.HasJson := by
    cases children with
    | nil => simpa [outlineAll] using hvalue
    | cons c rest => simp
  have hattributes : (attributes.isEmpty = false → (Value.record attributes).HasJson) ↔
      (Value.record attributes).HasJson := by
    cases attributes with
    | nil => simp [Value.hasJson_record]
    | cons field rest => simp
  -- The names are distinct whichever parts there are.
  rw [Node.outline, Value.hasJson_record (by
    cases endian <;> cases children <;> cases attributes <;> cases problems <;>
      simp [optionalField])]
  simp only [List.forall_mem_append, List.forall_mem_singleton, forall_mem_unless, hshown,
    hattributes, List.forall_mem_cons, Value.hasJson_str, Span.hasJson_outline_iff]
  constructor
  · rintro ⟨⟨⟨⟨⟨-, -, -, hstart, hlength⟩, -⟩, hbelow⟩, hattributes⟩, -⟩
    exact ⟨⟨hstart, hlength, hattributes⟩, hbelow⟩
  · rintro ⟨⟨hstart, hlength, hattributes⟩, hbelow⟩
    refine ⟨⟨⟨⟨⟨trivial, trivial, trivial, hstart, hlength⟩, hasJson_optionalField _ _⟩, hbelow⟩,
      hattributes⟩, ?_⟩
    simp [Diagnostic.hasJson_outline]

mutual

/-- The outline of a tree of data can be written when its nodes can, one by one. -/
theorem Node.hasJson_outline_iff : ∀ n : Node, (∀ m ∈ n.flatten, m.value.IsData) →
    (n.outline.HasJson ↔ ∀ m ∈ n.flatten, m.HasJson)
  | ⟨id, name, label, range, endian, value, children, attributes, problems⟩, h => by
      obtain ⟨hvalue, hbelow⟩ := Node.forall_flatten.1 h
      rw [Node.forall_flatten, Node.hasJson_outline hvalue.hasJson]
      exact and_congr_right' (hasJson_outlineAll_iff children hbelow)

theorem hasJson_outlineAll_iff : ∀ ns : List Node,
    (∀ m ∈ ns.flatMap Node.flatten, m.value.IsData) →
      ((∀ v ∈ outlineAll ns, v.HasJson) ↔ ∀ m ∈ ns.flatMap Node.flatten, m.HasJson)
  | [], _ => by simp [outlineAll]
  | n :: rest, h => by
      obtain ⟨hn, hrest⟩ := forall_flatten_cons.1 h
      rw [outlineAll, List.forall_mem_cons, forall_flatten_cons, n.hasJson_outline_iff hn,
        hasJson_outlineAll_iff rest hrest]

end

/-- The rest of a result are texts and data: its tree alone decides. -/
theorem Result.hasJson_outline {r : Result} (hdata : (Value.record r.data).HasJson) :
    r.outline.HasJson ↔ ∀ n, r.root = some n → n.outline.HasJson := by
  unfold outline
  rw [Value.hasJson_record (by simp)]
  cases r.root with
  | none => simp [hdata, Diagnostic.hasJson_outline]
  | some n => simp [hdata, Diagnostic.hasJson_outline]

theorem Summary.hasJson_outline (s : Summary) : s.outline.HasJson := by
  unfold outline
  rw [Value.hasJson_record (by simp)]
  cases s.encoding <;> simp

end ByteSchema
