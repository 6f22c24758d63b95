import ByteSchema.Proofs.Causes
import ByteSchema.Proofs.Distinct
import ByteSchema.Proofs.Guards

/-!
# ByteSchema.Proofs.Warnings

The warnings of a decode are those that its tree tells of.

Warnings are given on the way: for a text that is not in its encoding, and where a repetition is
stopped because an element took up no bytes. Both leave their marks in the tree: the node of the text
has the problems, and the last element of the array has an empty range. `Node.warnings` reads them
off, and a run adds just what its nodes tell of, in this order (`Progress.Warns`). Only whether the
condition of an `until` repetition held behind the last element is not in the tree. An array ends at
one place (`Schema.closes_unique`), so its path tells for which arrays it did.
-/

namespace ByteSchema

/-! ## What a tree tells of -/

/-- The warning that the array `id` was stopped behind the element `index`. -/
def stopWarning (id : String) (index : Nat) : String :=
  id ++ ": element " ++ toString index ++ " consumed no bytes, repetition stopped"

namespace Node

/-- The problems of a node as warnings. -/
def reports (n : Node) : List String :=
  n.problems.map fun problem => problem.path.getD "" ++ ": " ++ problem.message

/-- Is the last of some elements one without bytes? -/
def endsIdle (items : List Node) : Bool :=
  items.getLast?.any fun last => decide (last.range.length ≤ 0)

/-- Might there be more elements behind the last one? Not if they were counted, and not if the
condition of the repetition is met behind it. -/
def isOpen (met : String → Bool) (n : Node) : Bool :=
  match n.repetition? with
  | some "eos" => true
  | some "until" => !met n.id
  | _ => false

/-- The warning of an array that was stopped. -/
def stops (met : String → Bool) (n : Node) : List String :=
  if endsIdle n.children && n.isOpen met then [stopWarning n.id (n.children.length - 1)] else []

end Node

mutual

/-- The warnings that a tree tells of. `met` says for which arrays the condition of the repetition is
met behind the last element. -/
def Node.warnings (met : String → Bool) : Node → List String
  | ⟨id, name, label, range, endian, value, children, attributes, problems⟩ =>
    match value with
    | .record _ => warningsAll met children
    | .tuple _ => warningsAll met children ++
        Node.stops met ⟨id, name, label, range, endian, value, children, attributes, problems⟩
    | _ => Node.reports ⟨id, name, label, range, endian, value, children, attributes, problems⟩

/-- The warnings that several trees tell of. -/
def warningsAll (met : String → Bool) : List Node → List String
  | [] => []
  | n :: rest => n.warnings met ++ warningsAll met rest

end

variable {met : String → Bool}

theorem warningsAll_singleton (n : Node) : warningsAll met [n] = n.warnings met :=
  List.append_nil _

theorem Node.warnings_of_leaf {n : Node} (h : n.value.isComposite = false) :
    n.warnings met = n.reports := by
  obtain ⟨id, name, label, range, endian, value, children, attributes, problems⟩ := n
  cases value with
  | record | tuple => cases h
  | _ => rfl

namespace Setting

variable {ctx : Context} {f : Field}

/-- Might there be more elements in a repetition, when its condition is met or not? -/
def mayGoOn (met : Bool) : Repetition → Bool
  | .count _ => false
  | .toEnd => true
  | .untilTrue _ => !met

/-- The repetition can be told from the node of an array. -/
theorem isOpen_arrayNode {r : Repetition} {items : List Node} {stop : Int} :
    (arrayNode ctx f r items stop).isOpen met = mayGoOn (met (ctx.childId f.id)) r := by
  unfold Node.isOpen
  rw [repetition?_arrayNode]
  cases r <;> rfl

/-- The warning at the end of an array with these elements from `index` on: that it was stopped, if it
was. -/
def endWarnings (met : Bool) (id : String) (r : Repetition) (index : Nat) (items : List Node) :
    List String :=
  if Node.endsIdle items && mayGoOn met r then [stopWarning id (index + items.length - 1)] else []

/-- An array has no problems of its own: it tells those of its elements, and how it ended. -/
theorem warnings_arrayNode {r : Repetition} {items : List Node} {stop : Int} :
    (arrayNode ctx f r items stop).warnings met =
      warningsAll met items ++ endWarnings (met (ctx.childId f.id)) (ctx.childId f.id) r 0 items := by
  unfold endWarnings
  rw [Nat.zero_add, ← isOpen_arrayNode]
  rfl

/-- An element in front does not change how an array ends, be it an only one that takes up bytes. -/
theorem endWarnings_next {b : Bool} {id : String} {r : Repetition} {index : Nat} {n : Node}
    {items : List Node} (h : mayGoOn false r = true → ¬ n.range.length ≤ 0) :
    endWarnings b id r index (n :: items) = endWarnings b id r (index + 1) items := by
  have hfalse : mayGoOn b r = true → mayGoOn false r = true := by
    cases r <;> cases b <;> simp [mayGoOn]
  unfold endWarnings
  cases items with
  | nil =>
      by_cases hopen : mayGoOn b r = true
      · simp [Node.endsIdle, h (hfalse hopen)]
      · simp [hopen]
  | cons m rest =>
      have hidle : Node.endsIdle (n :: m :: rest) = Node.endsIdle (m :: rest) := rfl
      have hindex : index + (n :: m :: rest).length - 1 = index + 1 + (m :: rest).length - 1 := by
        simp only [List.length_cons]
        omega
      rw [hidle, hindex]

end Setting

/-! ## What a run adds -/

/-- The run has added the warnings. -/
def Progress.Warns (p p' : Progress) (lines : List String) : Prop :=
  p'.warnings = p.warnings ++ lines

theorem Progress.Warns.refl (p : Progress) : p.Warns p [] := (List.append_nil _).symm

theorem Progress.Warns.trans {p p₁ p' : Progress} {first second : List String}
    (h : p.Warns p₁ first) (h' : p₁.Warns p' second) : p.Warns p' (first ++ second) := by
  unfold Progress.Warns at h h' ⊢
  rw [h', h, List.append_assoc]

namespace Setting

variable {s : Setting} {R : Visit → Prop} {custom : CustomDecoder} {depth : Nat}
  {outer : List Frame} {ctx : Context} {f : Field} {name : String} {p p' : Progress} {o : Outcome}

theorem readInteger_warns {label : String} {width : Nat} {signed : Bool} {endian : Option Endian}
    (h : (s.readInteger ctx f name label width signed endian).Yields p o p') :
    p.Warns p' o.node.reports := by
  simp only [readInteger, Decoder.yields_bind, Decoder.yields_check, Decoder.yields_pure] at h
  obtain ⟨_, _, ⟨-, rfl⟩, rfl, rfl⟩ := h
  exact .refl _

theorem readFloat_warns {label : String} {width : Nat} {endian : Option Endian}
    (h : (s.readFloat ctx f name label width endian).Yields p o p') :
    p.Warns p' o.node.reports := by
  simp only [readFloat, Decoder.yields_bind, Decoder.yields_check, Decoder.yields_pure] at h
  obtain ⟨_, _, ⟨-, rfl⟩, rfl, rfl⟩ := h
  exact .refl _

theorem readBytes_warns (h : (s.readBytes ctx f name).Yields p o p') :
    p.Warns p' o.node.reports := by
  simp only [readBytes, Decoder.yields_bind, Decoder.yields_pure] at h
  obtain ⟨_, _, hspan, rfl, rfl⟩ := h
  obtain ⟨-, rfl⟩ := readSpan_inv hspan
  exact .refl _

/-- The warnings of a text are the problems of its node, each with the path of the node. -/
theorem readText_warns {terminated : Bool} (h : (s.readText ctx f name terminated).Yields p o p') :
    p.Warns p' o.node.reports := by
  simp only [readText, Decoder.yields_bind, Decoder.yields_orEscape, Decoder.yields_pure,
    Decoder.yields_forIn_warn] at h
  obtain ⟨_, _, hspan, ⟨value, problem⟩, _, ⟨-, rfl⟩, _, _, rfl, rfl, rfl⟩ := h
  obtain ⟨-, rfl⟩ := readSpan_inv hspan
  unfold Progress.Warns Node.reports leaf
  cases problem <;> rfl

/-- A leaf tells its own problems; an instance is told by its fields. -/
theorem decodeNamed_warns {typeName : String}
    (h : (s.decodeNamed custom ctx f name typeName).Yields p o p') :
    (s.IsLeaf ctx name o ∧ p.Warns p' o.node.reports) ∨
      (Primitive.ofName? typeName = none ∧ (custom ctx f typeName name).Yields p o p') := by
  unfold decodeNamed at h
  split at h
  case h_1 => exact .inl ⟨(readInteger_inv h).1, readInteger_warns h⟩
  case h_2 => exact .inl ⟨(readFloat_inv h).1, readFloat_warns h⟩
  case h_3 => exact .inl ⟨(readBytes_inv h).1, readBytes_warns h⟩
  case h_4 => exact .inl ⟨(readText_inv h).1, readText_warns h⟩
  case h_5 hname => exact .inr ⟨hname, h⟩

/-- A single value reports its problems, or is left to the decoder of instances. -/
theorem decodeSingle_warns (h : (s.decodeSingle custom ctx f name).Yields p o p') :
    (s.IsLeaf ctx name o ∧ p.Warns p' o.node.reports) ∨
      ∃ typeName, s.Selects ctx f p typeName ∧ Primitive.ofName? typeName = none ∧
        (custom ctx f typeName name).Yields p o p' := by
  rcases decodeSingle_named h with hbytes | ⟨typeName, hselected, hnamed⟩
  · exact .inl ⟨(readBytes_inv hbytes).1, readBytes_warns hbytes⟩
  · rcases decodeNamed_warns hnamed with hleaf | ⟨hname, hcustom⟩
    · exact .inl hleaf
    · exact .inr ⟨typeName, hselected, hname, hcustom⟩

/-- A value ends at or before its start when its range is empty. -/
theorem next_le_iff (h : (s.decodeSingle (s.nested depth) ctx f name).Yields p o p') :
    o.next ≤ ctx.offset ↔ o.node.range.length ≤ 0 := by
  rcases decodeSingle_inv h with ⟨hleaf, -⟩ | ⟨typeName, -, -, hnested⟩
  · rw [hleaf.next_eq, Span.stop, hleaf.start_eq]
    omega
  · obtain ⟨definition, chain, -, hinstance⟩ := nested_inv hnested
    obtain ⟨_, _, _, stop, -, -, rfl⟩ := decodeInstance_inv hinstance
    show stop ≤ ctx.offset ↔ max 0 (stop - ctx.offset) ≤ 0
    omega

/-- Only a condition is ever met. -/
theorem isSatisfied_true {r : Repetition} {index : Nat} {v : Value} {cursor : Int}
    (h : (s.isSatisfied r ctx index v cursor).Yields p true p') :
    ∃ condition, r = .untilTrue condition := by
  cases r with
  | untilTrue condition => exact ⟨condition, rfl⟩
  | count | toEnd => cases (Decoder.yields_pure.1 h).1

/-- The repetitions that are not counted may go on for all that is known beforehand. -/
theorem repeatCount_isNone {r : Repetition} {count : Option Int}
    (h : (s.repeatCount ctx f r).Yields p count p') : count.isNone = mayGoOn false r := by
  cases r with
  | count expr =>
      obtain ⟨n, rfl, -⟩ := repeatCount_count h
      rfl
  | toEnd | untilTrue =>
      obtain ⟨rfl, -⟩ := Decoder.yields_pure.1 h
      rfl

/-! ## Along the places of a decode -/

/-- What is needed of the places: the decode stays among them, and for each array that ends there
`met` says how. -/
structure Tells (s : Setting) (R : Visit → Prop) (met : String → Bool) : Prop where
  keeps : s.Keeps R
  closes : ∀ {v : Visit} {id : String} {b : Bool}, R v → v.Closes s id b → met id = b

/-- What is asked of the fields of an instance in which `depth` more may be nested. -/
def WarnsFields (s : Setting) (R : Visit → Prop) (met : String → Bool) (depth : Nat) : Prop :=
  ∀ {outer : List Frame} {ctx : Context} {seq : List Field} {p p' : Progress} {nodes : List Node}
    {fields : Fields} {stop : Int}, R ⟨depth, outer, ctx, .fields seq, p⟩ →
      Sequence s (s.nested depth) seq ctx p nodes fields stop p' →
        p.Warns p' (warningsAll met nodes)

namespace Tells

theorem single (h : s.Tells R met) (hfields : ∀ left, depth = left + 1 → s.WarnsFields R met left)
    (hv : R ⟨depth, outer, ctx, .single f name, p⟩)
    (hrun : (s.decodeSingle (s.nested depth) ctx f name).Yields p o p') :
    p.Warns p' (o.node.warnings met) := by
  rcases decodeSingle_warns hrun with ⟨hleaf, hwarns⟩ | ⟨typeName, hselected, hcustom, hnested⟩
  · rwa [Node.warnings_of_leaf hleaf.scalar]
  · obtain ⟨definition, chain, hfound, hinstance⟩ := nested_inv hnested
    obtain ⟨left, children, fields, stop, rfl, hseq, rfl⟩ := decodeInstance_inv hinstance
    exact hfields left rfl (h.keeps hv (.enter hselected hcustom hfound)) hseq

/-- The elements from `index` on, and the end of the array. -/
theorem elements {r : Repetition} {count : Option Int} {index : Nat} {cursor stop : Int}
    {items : List Node} (h : s.Tells R met)
    (hfields : ∀ left, depth = left + 1 → s.WarnsFields R met left)
    (hcount : count.isNone = mayGoOn false r)
    (hv : R ⟨depth, outer, ctx, .elements f r count index cursor, p⟩)
    (hrun : Elements s (s.nested depth) ctx f r count index cursor p items stop p') :
    p.Warns p' (warningsAll met items ++
      endWarnings (met (ctx.childId f.id)) (ctx.childId f.id) r index items) := by
  induction hrun with
  | complete => exact .refl _
  -- The condition is met behind the last element, so the array is not open.
  | satisfied more single holds =>
      have hone := h.single hfields (h.keeps hv (.element more)) single
      rw [h.closes hv (.last rfl more single holds (.inl rfl))]
      obtain ⟨condition, rfl⟩ := isSatisfied_true holds
      have hend {id : String} {n : Node} {index : Nat} :
          endWarnings true id (.untilTrue condition) index [n] = [] := by
        simp [endWarnings, mayGoOn]
      rw [hend, warningsAll_singleton, List.append_nil]
      exact hone
  -- The last element has no bytes, and the condition is not met: the array was stopped.
  | @stuck index cursor p p₁ o more single fails idle =>
      have hone := h.single hfields (h.keeps hv (.element more)) single
      rw [h.closes hv (.last rfl more single fails (.inr idle))]
      have hend : endWarnings false (ctx.childId f.id) r index [o.node] =
          [stopWarning (ctx.childId f.id) index] := by
        have hopen : mayGoOn false r = true := hcount ▸ idle.1
        have hidle : o.node.range.length ≤ 0 := (next_le_iff single).1 idle.2
        simp [endWarnings, Node.endsIdle, hopen, hidle]
      rw [hend, warningsAll_singleton]
      exact hone.trans rfl
  | @next index cursor stop p p₁ p' o items more single fails moves rest ih =>
      have hone := h.single hfields (h.keeps hv (.element more)) single
      have hrest := ih (h.keeps hv (.next more single fails moves))
      have hend : endWarnings (met (ctx.childId f.id)) (ctx.childId f.id) r index (o.node :: items) =
          endWarnings (met (ctx.childId f.id)) (ctx.childId f.id) r (index + 1) items :=
        endWarnings_next fun hopen hidle =>
          moves ⟨hcount.trans hopen, (next_le_iff single).2 hidle⟩
      rw [hend]
      show p.Warns p' (_ ++ _ ++ _)
      rw [List.append_assoc]
      exact hone.trans hrest

/-- A field is a single value, or an array that ends in one of three ways. -/
theorem field (h : s.Tells R met) (hfields : ∀ left, depth = left + 1 → s.WarnsFields R met left)
    {rest : List Field} (hv : R ⟨depth, outer, ctx, .fields (f :: rest), p⟩)
    (present : (s.isPresent ctx f).Yields p true p)
    (hrun : (s.decodeField (s.nested depth) ctx f).Yields p o p') :
    p.Warns p' (o.node.warnings met) := by
  obtain ⟨ctx', hplaced, hrun⟩ := decodeField_inv hrun
  rcases hrun with ⟨honce, hsingle⟩ | ⟨r, count, items, stop, hr, hcount, helements, rfl⟩
  · exact h.single hfields (h.keeps hv (.value present hplaced honce)) hsingle
  · rw [warnings_arrayNode]
    exact h.elements hfields (repeatCount_isNone hcount)
      (h.keeps hv (.array present hplaced hr hcount)) helements

theorem fields (h : s.Tells R met) : s.WarnsFields R met depth := by
  refine @forall_depth (s.WarnsFields R met) ?_ depth
  intro depth hfields outer ctx seq p p' nodes fields stop hv hrun
  induction hrun with
  | nil => exact .refl _
  | skip absent _ ih => exact ih (h.keeps hv (.skip absent))
  | field present decoded new _ ih =>
      have hone := h.field hfields hv present decoded
      exact hone.trans (ih (h.keeps hv (.past present decoded new)))

end Tells

end Setting

/-! ## Whole decodes -/

namespace Schema

variable {schema : Schema} {options : Options} {buffer : Buffer} {result : Result} {root : Node}

/-- The condition of the repetition is met behind the last element of the array `id`. -/
def ConditionMet (schema : Schema) (options : Options) (buffer : Buffer) (id : String) : Prop :=
  ∃ v, schema.Reached options buffer v ∧ v.Closes (schema.setting options buffer) id true

/-- A decode starts without warnings, so those at its end are those of the tree. -/
theorem warnings_of_decode (h : schema.decode options buffer = .ok result)
    (hroot : result.root = some root)
    (hmet : ∀ id, met id = true ↔ schema.ConditionMet options buffer id) :
    result.warnings = root.warnings met := by
  have htells : (schema.setting options buffer).Tells (schema.Reached options buffer) met := by
    refine ⟨fun _ _ => .step, fun {v id b} hv hcloses => ?_⟩
    cases b with
    | true => exact (hmet id).2 ⟨v, hv, hcloses⟩
    | false =>
        refine Bool.eq_false_iff.2 fun htrue => ?_
        obtain ⟨w, hw, hwcloses⟩ := (hmet id).1 htrue
        cases closes_unique h hroot hv hw hcloses hwcloses
  obtain ⟨definition, o, p, hdefinition, hrun, rfl⟩ := decode_inv h hroot
  cases hroot
  obtain ⟨depth, children, fields, stop, hdepth, hseq, rfl⟩ := Setting.decodeInstance_inv hrun
  exact htells.fields (.root hdefinition hdepth) hseq

end Schema

/-- An error of loading, like one of decoding, is not about text. -/
theorem Source.load_final {source : Source} {e : DecodeError}
    (h : source.load = .error (.error e)) : e.cause.IsFinal := by
  cases source with
  | schema s => cases h
  | document v =>
      have hkind : e.cause.kind = .schema := Schema.load_faults v e h
      unfold Cause.IsFinal
      rw [hkind]
      exact nofun

theorem ErrorKind.name_ne {kind : ErrorKind} (h : kind ≠ .encoding) : kind.name ≠ "EncodingError" := by
  cases kind with
  | encoding => exact absurd rfl h
  | _ => simp [ErrorKind.name]

/-- **Conservation of diagnostics.** A decode that returns gives a tree and no error, and its warnings
are those that the tree tells of; or it gives no tree and one error, which is not about text. -/
theorem decode_reports {source : Source} {options : Options} {buffer : Buffer} {result : Result}
    (h : decode source options buffer = .ok result) :
    (∃ schema root met, source.load = .ok schema ∧ result.root = some root ∧ result.errors = [] ∧
      PreOrder [root] result.nodes ∧
      (∀ id, met id = true ↔ schema.ConditionMet options buffer id) ∧
      result.warnings = root.warnings met) ∨
    (result.root = none ∧ result.nodes = [] ∧ result.data = [] ∧ result.consumed = 0 ∧
      ∃ e, result.errors = [e] ∧ e.kind ≠ "EncodingError") := by
  have hfailed {e : DecodeError} {warnings : List String} (he : e.cause.IsFinal)
      (hresult : result = Schema.failed e warnings) :
      result.root = none ∧ result.nodes = [] ∧ result.data = [] ∧ result.consumed = 0 ∧
        ∃ e, result.errors = [e] ∧ e.kind ≠ "EncodingError" := by
    subst hresult
    exact ⟨rfl, rfl, rfl, rfl, _, rfl, ErrorKind.name_ne he⟩
  rcases decode_source_inv h with ⟨schema, hload, hschema⟩ | ⟨e, hload, hresult⟩
  · cases hroot : result.root with
    | none =>
        obtain ⟨e, warnings, hresult, he⟩ := Schema.decode_failed hschema hroot
        exact .inr (hroot ▸ hfailed he hresult)
    | some root =>
        -- Which conditions are met cannot be computed: it is a question about the whole run.
        classical
        refine .inl ⟨schema, root, fun id => decide (schema.ConditionMet options buffer id), hload,
          rfl, ?_, ?_, fun id => decide_eq_true_iff, ?_⟩
        · obtain ⟨_, _, _, _, _, rfl⟩ := Schema.decode_inv hschema hroot
          rfl
        · obtain ⟨_, o, _, _, _, rfl⟩ := Schema.decode_inv hschema hroot
          cases hroot
          have hlisting := preOrder_flattenAll [o.node]
          rwa [flattenAll, flattenAll, List.append_nil] at hlisting
        · exact Schema.warnings_of_decode hschema hroot fun id => decide_eq_true_iff
  · exact .inr (hfailed (Source.load_final hload) hresult)

/-- A title, an array of instances without fields up to the end of the buffer, flags up to the first
that is set, and another array of empty instances, of which there should be two. -/
def Schema.memo : Schema where
  info := { id := some "memo" }
  seq := some [
    { id := "title", type := .named "str", size := .int 1, encoding := some "ascii" },
    { id := "gaps", type := .named "gap", repetition := some .toEnd },
    { id := "flags", type := .named "u1", repetition := some (.untilTrue (.str "_ == 1")) },
    { id := "rests", type := .named "gap", repetition := some (.untilTrue (.str "_index == 1")) }]
  types := [("gap", {})]

/-- The title is not in its encoding, and two of the arrays stand still. -/
theorem decode_reports_memo :
    ∃ result root met, decode (.schema .memo) {} [255, 0, 1] = .ok result ∧
      result.warnings = [
        "memo.title: Invalid ascii data (ordinal not in range(128)), replacement characters used",
        "memo.gaps: element 0 consumed no bytes, repetition stopped",
        "memo.rests: element 0 consumed no bytes, repetition stopped"] ∧
      result.root = some root ∧ result.errors = [] ∧ PreOrder [root] result.nodes ∧
      (∀ id, met id = true ↔ Schema.memo.ConditionMet {} [255, 0, 1] id) ∧
      result.warnings = root.warnings met := by
  have hrun : Schema.memo.succeeds {} [255, 0, 1] = true := by decide +kernel
  have hwarnings : (Schema.memo.decode {} [255, 0, 1]).toOption.map Result.warnings = some [
      "memo.title: Invalid ascii data (ordinal not in range(128)), replacement characters used",
      "memo.gaps: element 0 consumed no bytes, repetition stopped",
      "memo.rests: element 0 consumed no bytes, repetition stopped"] := by decide +kernel
  obtain ⟨result, h, hsuccess⟩ := Schema.exists_of_succeeds hrun
  rw [h] at hwarnings
  rw [← decode_schema] at h
  rcases decode_reports h with ⟨_, root, met, hload, hroot, herrors, hnodes, hmet, htold⟩ | hfailed
  · cases hload
    exact ⟨result, root, met, h, Option.some.inj hwarnings, hroot, herrors, hnodes, hmet, htold⟩
  · obtain ⟨root, hroot⟩ := Result.exists_root hsuccess
    rw [hfailed.1] at hroot
    cases hroot

end ByteSchema
