import ByteSchema.Proofs.IntegerBytes
import ByteSchema.Proofs.Tree
import ByteSchema.Proofs.Visit

/-!
# ByteSchema.Proofs.Faithful

Integers of a tree are those of the buffer.

An integer node says everything that it takes to write it back: its width is the length of its range,
and its byte order is stated. What is written is what the buffer holds there (`Node.IsInteger`). The
byte order comes from the type name, or else from the nearest instance around, whose own order is
that of its type or else of the instance around it; the walk through a tree that shows it goes from
each instance to its parts (`Node.parts`).
-/

namespace ByteSchema

/-- The node holds the integer that the buffer holds in its range: written back, it gives the bytes. -/
structure Node.IsInteger (n : Node) (buffer : Buffer) (width : Nat) (signed : Bool)
    (endian : Endian) : Prop where
  start : 0 ≤ n.range.start
  stop : n.range.start + width ≤ buffer.length
  length : n.range.length = width
  endian_eq : n.endian = some endian
  written : ∃ z, n.value = .int z ∧
    bytesOfInteger? endian signed width z = some (buffer.slice n.range.start.toNat width)

/-- What a type name that is selected in a context says of the node. An integer type has its own
byte order or that of the context, and so has a type of the schema. -/
structure Node.FollowsType (n : Node) (buffer : Buffer) (ctx : Context) (typeName : String) :
    Prop where
  integer : ∀ width signed suffix,
    Primitive.ofName? typeName = some (.integer width signed suffix) →
      n.IsInteger buffer width signed (suffix.getD ctx.endian)
  custom : Primitive.ofName? typeName = none →
    ∃ definition chain, ctx.chain.lookup? typeName = some (definition, chain) ∧
      n.value.isRecord = true ∧ n.endian = some (definition.endian.getD ctx.endian)

theorem Value.isTuple_of_not_isComposite {v : Value} (h : v.isComposite = false) :
    v.isTuple = false := by
  cases v with
  | tuple items => cases h
  | _ => rfl

namespace Setting

variable {s : Setting} {R : Visit → Prop} {custom : CustomDecoder} {depth : Nat}
  {outer : List Frame} {ctx : Context} {f : Field} {name typeName : String} {p p' : Progress}
  {o : Outcome}

/-! ## One value -/

theorem readInteger_faithful {label : String} {width : Nat} {signed : Bool}
    {endian : Option Endian}
    (h : (s.readInteger ctx f name label width signed endian).Yields p o p') :
    o.node.IsInteger s.buffer width signed (endian.getD ctx.endian) := by
  simp only [readInteger, Decoder.yields_bind, Decoder.yields_check, Decoder.yields_pure] at h
  obtain ⟨bytes, _, ⟨hread, rfl⟩, rfl, rfl⟩ := h
  obtain ⟨⟨hstart, -, hstop⟩, rfl⟩ := Buffer.read_eq_ok_iff.1 hread
  have hlength : (s.buffer.slice ctx.offset.toNat width).length = width :=
    Buffer.length_slice (by omega)
  refine ⟨hstart, hstop, rfl, rfl, _, rfl, ?_⟩
  have hround := bytesOfInteger?_integerOfBytes (endian.getD ctx.endian) signed
    (s.buffer.slice ctx.offset.toNat width)
  rwa [hlength] at hround

/-- The byte order of a nested instance is that of its type, or else the one around it. -/
theorem nested_faithful (h : (s.nested depth ctx f typeName name).Yields p o p') :
    ∃ definition chain, ctx.chain.lookup? typeName = some (definition, chain) ∧
      o.node.value.isRecord = true ∧ o.node.endian = some (definition.endian.getD ctx.endian) := by
  obtain ⟨definition, chain, hfound, hrun⟩ := nested_inv h
  obtain ⟨left, children, fields, stop, -, -, rfl⟩ := decodeInstance_inv hrun
  exact ⟨definition, chain, hfound, rfl, rfl⟩

/-- A type name that is neither an integer's nor one of the schema's promises nothing. -/
theorem decodeNamed_faithful
    (h : (s.decodeNamed (s.nested depth) ctx f name typeName).Yields p o p') :
    o.node.FollowsType s.buffer ctx typeName := by
  unfold decodeNamed at h
  constructor
  · intro width signed suffix hname
    rw [hname] at h
    exact readInteger_faithful h
  · intro hname
    rw [hname] at h
    exact nested_faithful h

/-- The node of a single value follows the type that is selected for it. -/
theorem decodeSingle_faithful (hselected : s.Selects ctx f p typeName)
    (h : (s.decodeSingle (s.nested depth) ctx f name).Yields p o p') :
    o.node.FollowsType s.buffer ctx typeName := by
  simp only [decodeSingle, Decoder.yields_located] at h
  unfold Selects at hselected
  split at h
  case h_1 htype => simp [htype] at hselected
  case h_2 named htype =>
      simp only [htype] at hselected
      obtain rfl := hselected
      exact decodeNamed_faithful h
  case h_3 sw htype =>
      simp only [htype] at hselected
      obtain ⟨_, _, hselect, hrun⟩ := Decoder.yields_bind.1 h
      obtain ⟨rfl, rfl⟩ := hselected.unique hselect
      exact decodeNamed_faithful hrun

/-! ## The parts of an instance -/

/-- The node is decoded as a single value, at a place of `R` in an instance of this byte order. -/
def SingleAt (s : Setting) (R : Visit → Prop) (endian : Endian) (n : Node) : Prop :=
  ∃ v f name o p, R v ∧ v.station = .single f name ∧ v.ctx.endian = endian ∧
    (s.decodeSingle (s.nested v.depth) v.ctx f name).Yields v.progress o p ∧ o.node = n

/-- What there is to a node by its value: an array holds no arrays, and the parts of an instance that
are none are decoded in its byte order. -/
inductive PartsAt (s : Setting) (R : Visit → Prop) (n : Node) : Prop
  | leaf (scalar : n.value.isComposite = false) (children : n.children = [])
  | array (isArray : n.value.isTuple = true) (singles : ∀ c ∈ n.children, c.value.isTuple = false)
  | record (isRecord : n.value.isRecord = true)
      (parts : ∃ endian, n.endian = some endian ∧
        ∀ c ∈ n.parts, c.value.isTuple = false → s.SingleAt R endian c)

namespace PartsAt

variable {n : Node}

theorem children_of_scalar (h : s.PartsAt R n) (hn : n.value.isComposite = false) :
    n.children = [] := by
  cases h with
  | leaf _ children => exact children
  | array isArray => cases hvalue : n.value <;> simp_all [Value.isTuple, Value.isComposite]
  | record isRecord => cases hvalue : n.value <;> simp_all [Value.isRecord, Value.isComposite]

theorem singles_of_isTuple (h : s.PartsAt R n) (hn : n.value.isTuple = true) :
    ∀ c ∈ n.children, c.value.isTuple = false := by
  cases h with
  | leaf scalar =>
      rw [Value.isTuple_of_not_isComposite scalar] at hn
      cases hn
  | array _ singles => exact singles
  | record isRecord => cases hvalue : n.value <;> simp_all [Value.isRecord, Value.isTuple]

/-- The parts of an instance are its children and the elements of those that are arrays. -/
theorem parts_of_isRecord (h : s.PartsAt R n) (hn : n.value.isRecord = true) :
    ∃ endian, n.endian = some endian ∧
      ∀ c ∈ n.parts, c.value.isTuple = false → s.SingleAt R endian c := by
  cases h with
  | leaf scalar => cases hvalue : n.value <;> simp_all [Value.isRecord, Value.isComposite]
  | array isArray => cases hvalue : n.value <;> simp_all [Value.isRecord, Value.isTuple]
  | record _ parts => exact parts

end PartsAt

/-- Only a repetition makes an array. -/
theorem not_isTuple_of_single (h : (s.decodeSingle (s.nested depth) ctx f name).Yields p o p') :
    o.node.value.isTuple = false := by
  rcases decodeSingle_inv h with ⟨hleaf, -⟩ | ⟨typeName, -, -, hnested⟩
  · exact Value.isTuple_of_not_isComposite hleaf.scalar
  · obtain ⟨definition, chain, -, hrun⟩ := nested_inv hnested
    obtain ⟨left, children, fields, stop, -, -, rfl⟩ := decodeInstance_inv hrun
    rfl

/-- By induction on the elements, each of which is a place of the decode. -/
theorem elements_singles {r : Repetition} {count : Option Int} {index : Nat} {cursor stop : Int}
    {items : List Node} (hR : s.Keeps R)
    (hv : R ⟨depth, outer, ctx, .elements f r count index cursor, p⟩)
    (h : Elements s (s.nested depth) ctx f r count index cursor p items stop p') :
    ∀ c ∈ items, c.value.isTuple = false ∧ s.SingleAt R ctx.endian c := by
  have hone {index : Nat} {cursor : Int} {p p₁ : Progress} {o : Outcome}
      (hv : R ⟨depth, outer, ctx, .elements f r count index cursor, p⟩)
      (more : s.isComplete r count index cursor = false)
      (single : (s.decodeSingle (s.nested depth) (ctx.moveTo cursor) f
        (elementName f.id index)).Yields p o p₁) :
      o.node.value.isTuple = false ∧ s.SingleAt R ctx.endian o.node :=
    ⟨not_isTuple_of_single single, _, _, _, _, _, hR hv (.element more), rfl, rfl, single, rfl⟩
  induction h with
  | complete => exact fun _ hc => absurd hc List.not_mem_nil
  | satisfied more single | stuck more single =>
      exact List.forall_mem_singleton.2 (hone hv more single)
  | next more single fails moves _ ih =>
      exact List.forall_mem_cons.2
        ⟨hone hv more single, ih (hR hv (.next more single fails moves))⟩

/-- The fields of an instance and their elements are decoded in its byte order. -/
theorem sequence_singles {seq : List Field} {nodes : List Node} {fields : Fields} {stop : Int}
    (hR : s.Keeps R) (hv : R ⟨depth, outer, ctx, .fields seq, p⟩)
    (h : Sequence s (s.nested depth) seq ctx p nodes fields stop p') :
    ∀ c ∈ nodes.flatMap Node.withElements, c.value.isTuple = false → s.SingleAt R ctx.endian c := by
  induction h with
  | nil => exact fun _ hc => absurd hc List.not_mem_nil
  | skip absent _ ih => exact ih (hR hv (.skip absent))
  | @field f rest ctx p p₁ p' o _ _ _ present decoded new _ ih =>
      rw [List.flatMap_cons]
      refine List.forall_mem_append.2 ⟨?_, ih (hR hv (.past present decoded new))⟩
      obtain ⟨ctx', hplaced, hrun⟩ := decodeField_inv decoded
      obtain ⟨-, ⟨offset, rfl⟩, -⟩ := placed_inv hplaced
      rcases hrun with ⟨honce, hsingle⟩ | ⟨r, count, items, stop, hr, hcount, helements, rfl⟩
      · rw [Node.withElements, not_isTuple_of_single hsingle]
        refine List.forall_mem_singleton.2 fun _ => ?_
        exact ⟨_, _, _, _, _, hR hv (.value present hplaced honce), rfl, rfl, hsingle, rfl⟩
      · show ∀ c ∈ arrayNode (ctx.moveTo offset) f r items stop :: items, _
        refine List.forall_mem_cons.2 ⟨fun htuple => Bool.noConfusion htuple, fun c hc _ => ?_⟩
        exact (elements_singles hR (hR hv (.array present hplaced hr hcount)) helements c hc).2

theorem single_partsAt (hR : s.Keeps R) (hv : R ⟨depth, outer, ctx, .single f name, p⟩)
    (h : (s.decodeSingle (s.nested depth) ctx f name).Yields p o p') : s.PartsAt R o.node := by
  rcases decodeSingle_inv h with ⟨hleaf, -⟩ | ⟨typeName, hselected, hcustom, hnested⟩
  · exact .leaf hleaf.scalar hleaf.children_eq
  · obtain ⟨definition, chain, hfound, hrun⟩ := nested_inv hnested
    obtain ⟨left, children, fields, stop, rfl, hseq, rfl⟩ := decodeInstance_inv hrun
    exact .record rfl ⟨_, rfl, sequence_singles hR (hR hv (.enter hselected hcustom hfound)) hseq⟩

/-- Each node comes from a place of the decode, which says what its parts are. -/
theorem explores_partsAt (hR : s.Keeps R) : s.Explores R (s.PartsAt R) where
  keeps := hR
  field hv present decoded := by
    obtain ⟨ctx', hplaced, hrun⟩ := decodeField_inv decoded
    rcases hrun with ⟨honce, hsingle⟩ | ⟨r, count, items, stop, hr, hcount, helements, rfl⟩
    · exact single_partsAt hR (hR hv (.value present hplaced honce)) hsingle
    · have hsingles := elements_singles hR (hR hv (.array present hplaced hr hcount)) helements
      exact .array rfl fun c hc => (hsingles c hc).1
  element hv hmore hrun := single_partsAt hR (hR hv (.element hmore)) hrun

end Setting

/-! ## Whole trees -/

namespace Schema

variable {schema : Schema} {options : Options} {buffer : Buffer} {result : Result} {root : Node}

/-- The byte order that the type of the root has of its own, if the root is one of the types. -/
def rootOverride? (schema : Schema) : Option Endian :=
  match schema.seq with
  | some _ => none
  | none => schema.namesake?.bind TypeDef.endian

theorem endian_of_rootType {definition : TypeDef} (h : schema.rootType? = some definition) :
    definition.endian.getD schema.endian =
      (schema.rootOverride?.or schema.info.endian).getD .big := by
  cases hseq : schema.seq with
  | some own =>
      simp only [rootType?, hseq] at h
      obtain rfl := Option.some.inj h
      simp only [rootOverride?, endian, hseq]
      cases schema.info.endian <;> rfl
  | none =>
      simp only [rootType?, hseq] at h
      obtain ⟨d, hd, rfl⟩ := Option.map_eq_some_iff.1 h
      simp only [rootOverride?, endian, hseq, hd]
      cases hown : d.endian <;> cases schema.info.endian <;> simp [hown]

/-- All places of a decode are reached, so what holds of them holds throughout the tree. -/
theorem partsAt_of_decode (h : schema.decode options buffer = .ok result)
    (hroot : result.root = some root) :
    result.nodes = root.flatten ∧ root.value.isRecord = true ∧
      root.endian = some ((schema.rootOverride?.or schema.info.endian).getD .big) ∧
      ∀ m ∈ root.flatten, (schema.setting options buffer).PartsAt (schema.Reached options buffer) m := by
  have hkeeps : (schema.setting options buffer).Keeps (schema.Reached options buffer) :=
    fun _ _ => .step
  have hbelow := forall_nodes (Setting.explores_partsAt hkeeps) h hroot
  obtain ⟨definition, o, p, hdefinition, hrun, rfl⟩ := decode_inv h hroot
  cases hroot
  obtain ⟨depth, children, fields, stop, hdepth, hseq, rfl⟩ := Setting.decodeInstance_inv hrun
  refine ⟨rfl, rfl, congrArg some (endian_of_rootType hdefinition), ?_⟩
  have hsingles := Setting.sequence_singles hkeeps (.root hdefinition hdepth) hseq
  exact Node.forall_flatten.2 ⟨.record rfl ⟨_, rfl, hsingles⟩, hbelow⟩

/-- The tree says of its integers what the buffer holds. -/
structure IsFaithful (schema : Schema) (options : Options) (buffer : Buffer) (root : Node)
    (nodes : List Node) : Prop where
  /-- The byte order of the root is that of its type, or else of the schema, or else big endian. -/
  endian_eq : root.endian = some ((schema.rootOverride?.or schema.info.endian).getD .big)
  /-- Every other node is a part of an instance. -/
  covered : ∀ n ∈ root.children.flatMap Node.flatten,
    ∃ m ∈ nodes, m.value.isRecord = true ∧ n ∈ m.parts
  /-- A part that is no array is decoded somewhere as a single value, in the byte order of the
  instance, and it follows the type that is selected for it there. -/
  follows : ∀ m ∈ nodes, m.value.isRecord = true → ∀ n ∈ m.parts, n.value.isTuple = false →
    ∃ v f name o p, schema.Reached options buffer v ∧ v.station = .single f name ∧
      m.endian = some v.ctx.endian ∧
      ((schema.setting options buffer).decodeSingle
        ((schema.setting options buffer).nested v.depth) v.ctx f name).Yields v.progress o p ∧
      o.node = n ∧
      ∀ typeName, (schema.setting options buffer).Selects v.ctx f v.progress typeName →
        n.FollowsType buffer v.ctx typeName

/-- **Faithful integers.** In the tree of a decode an integer is the one that the buffer holds, in the
byte order of its type or else of the nearest instance around. -/
theorem decode_faithful (h : schema.decode options buffer = .ok result)
    (hroot : result.root = some root) :
    schema.IsFaithful options buffer root result.nodes := by
  obtain ⟨hnodes, hrecord, hendian, hparts⟩ := partsAt_of_decode h hroot
  rw [hnodes]
  refine ⟨hendian, fun n hn => Node.exists_instance hrecord ?_ ?_ hn, ?_⟩
  · intro q hq hscalar
    exact (hparts q hq).children_of_scalar hscalar
  · intro q hq htuple
    exact (hparts q hq).singles_of_isTuple htuple
  · intro m hm hrecord n hn hnot
    obtain ⟨endian, hendian, hsingles⟩ := (hparts m hm).parts_of_isRecord hrecord
    obtain ⟨v, f, name, o, p, hv, hstation, rfl, hrun, rfl⟩ := hsingles n hn hnot
    exact ⟨v, f, name, o, p, hv, hstation, hendian, hrun, rfl,
      fun typeName hselected => Setting.decodeSingle_faithful hselected hrun⟩

/-- Integers in the byte order of the schema, of their type name, and of the type around. -/
def orders : Schema where
  info := { endian := some .little }
  seq := some [
    { id := "a", type := .named "u2" },
    { id := "b", type := .named "s2be" },
    { id := "boxes", type := .named "box", repetition := some (.count (.int 2)) }]
  types := [
    ("box", {
      seq := [{ id := "x", type := .named "s2" }, { id := "y", type := .named "u2le" }]
      endian := some .big })]

theorem decode_faithful_orders :
    ∃ result root, orders.decode {} [1, 0, 255, 254, 0, 1, 2, 0, 255, 253, 4, 0] = .ok result ∧
      result.root = some root ∧
      orders.IsFaithful {} [1, 0, 255, 254, 0, 1, 2, 0, 255, 253, 4, 0] root result.nodes := by
  have hrun : orders.succeeds {} [1, 0, 255, 254, 0, 1, 2, 0, 255, 253, 4, 0] = true := by
    decide +kernel
  obtain ⟨result, h, hsuccess⟩ := exists_of_succeeds hrun
  obtain ⟨root, hroot⟩ := Result.exists_root hsuccess
  exact ⟨result, root, h, hroot, decode_faithful h hroot⟩

/-- The values, in pre-order below the root. -/
example : (orders.decode {} [1, 0, 255, 254, 0, 1, 2, 0, 255, 253, 4, 0]).toOption.map
      (fun result => result.nodes.filterMap fun n => match n.value with
        | .int z => some (n.name, n.endian, z)
        | _ => none) =
    some [("a", some .little, 1), ("b", some .big, -2), ("x", some .big, 1),
      ("y", some .little, 2), ("x", some .big, -3), ("y", some .little, 4)] := by
  decide +kernel

end Schema

end ByteSchema
