import ByteSchema.Proofs.Declared
import ByteSchema.Proofs.Fields
import ByteSchema.Proofs.Path

/-!
# ByteSchema.Proofs.Coherence

Ids, names, values and children of a tree fit together.

Ids come from the path of the context, names from the fields and their indices, values from the scope
of an instance or the elements of an array. That they agree is the packaged invariant
`Outcome.Coheres` of one value, `Siblings` of the fields of an instance and `Items` of the elements
of an array.

Beside the nodes these describe the table of values exactly: a decode adds the values of all fields
below a node in the order in which they are completed (`Node.written`), and nothing else. That no two
fields of an instance have the same name follows from it, for the table takes each path once.
-/

namespace ByteSchema

/-! ## Coherent nodes -/

/-- A node fits its children, as far as its value says what they are:

* an instance holds their values by name, their names are distinct, and their ids are their names
  behind its own id and a dot;
* an array holds their values in order, and their names and ids are its own with the index behind;
* any other node has none. -/
def Node.Coherent (n : Node) : Prop :=
  match n.value with
  | .record fields =>
      (∀ c ∈ n.children, c.id = n.id ++ "." ++ c.name) ∧
        (n.children.map Node.name).Nodup ∧
        fields = n.children.map fun c => (c.name, c.value)
  | .tuple items =>
      (∀ (i : Nat) (c : Node), n.children[i]? = some c →
        c.name = n.name ++ "[" ++ toString i ++ "]" ∧ c.id = n.id ++ "[" ++ toString i ++ "]") ∧
        items = n.children.map Node.value ∧
        ∀ c ∈ n.children.head?, n.label = c.label ++ "[]"
  | _ => n.children = []

/-- The listing of some trees in which each node stands before those below it, and these before the
trees behind. -/
inductive PreOrder : List Node → List Node → Prop
  | nil : PreOrder [] []
  | cons {n : Node} {rest below behind : List Node} (hbelow : PreOrder n.children below)
      (hbehind : PreOrder rest behind) : PreOrder (n :: rest) (n :: (below ++ behind))

mutual

theorem Node.preOrder_children : ∀ n : Node, PreOrder n.children (flattenAll n.children)
  | ⟨_, _, _, _, _, _, children, _, _⟩ => preOrder_flattenAll children

theorem preOrder_flattenAll : ∀ ns : List Node, PreOrder ns (flattenAll ns)
  | [] => .nil
  | n :: rest => by
      rw [flattenAll, n.flatten_eq, List.cons_append, ← flattenAll_eq_flatMap]
      exact .cons n.preOrder_children (preOrder_flattenAll rest)

end

/-! ## What a node leaves in the table -/

/-- Is the value that of an instance? -/
def Value.isRecord : Value → Bool
  | .record _ => true
  | _ => false

mutual

/-- The entries that decoding a node adds to the table: one for each field of each instance in it,
behind the entries from below the field. The entry of the node itself is not among them. -/
def Node.written : Node → Fields
  | ⟨_, _, _, _, _, value, children, _, _⟩ => writtenAll value.isRecord children

/-- The same for the children of an instance, whose own entries are added, or of an array. -/
def writtenAll (recorded : Bool) : List Node → Fields
  | [] => []
  | c :: rest => c.written ++ (if recorded then [(c.id, c.value)] else []) ++ writtenAll recorded rest

end

theorem Node.written_eq (n : Node) : n.written = writtenAll n.value.isRecord n.children := by
  obtain ⟨id, name, label, range, endian, value, children, attributes, problems⟩ := n
  rfl

/-- The table has got the entries. -/
def Progress.Grows (p p' : Progress) (entries : Fields) : Prop :=
  p'.values.entries = entries.reverse ++ p.values.entries

theorem Progress.Grows.of_values_eq {p p' : Progress} (h : p'.values = p.values) :
    p.Grows p' [] := by
  show p'.values.entries = p.values.entries
  rw [h]

theorem Progress.Grows.trans {p p₁ p' : Progress} {first second : Fields}
    (h₁ : p.Grows p₁ first) (h₂ : p₁.Grows p' second) : p.Grows p' (first ++ second) := by
  unfold Progress.Grows at h₁ h₂ ⊢
  rw [h₂, h₁, List.reverse_append, List.append_assoc]

theorem Progress.Grows.write {p p₁ : Progress} {entries : Fields} (h : p.Grows p₁ entries)
    (path : String) (v : Value) : p.Grows (p₁.write path v) (entries ++ [(path, v)]) :=
  h.trans rfl

/-- A path that is new behind some entries was new before. -/
theorem Progress.Grows.get?_eq_none {p p' : Progress} {entries : Fields} {path : String}
    (h : p.Grows p' entries) (hnew : p'.values.get? path = none) : p.values.get? path = none := by
  unfold ValueTable.get? at hnew ⊢
  rw [h, List.lookup_append] at hnew
  exact (Option.or_eq_none_iff.1 hnew).2

/-- The table is as before at a path that is not among the entries. -/
theorem Progress.Grows.get?_eq {p p' : Progress} {entries : Fields} {path : String}
    (h : p.Grows p' entries) (hnot : ∀ entry ∈ entries, entry.1 ≠ path) :
    p'.values.get? path = p.values.get? path := by
  have hnone : entries.reverse.lookup path = none := by
    rw [List.lookup_eq_none_iff]
    intro entry hentry
    simpa using (hnot entry (List.mem_reverse.1 hentry)).symm
  unfold ValueTable.get?
  rw [h, List.lookup_append, hnone, Option.none_or]

/-- A path of the table is that of an entry, or was there before. -/
theorem Progress.Grows.get?_ne_none {p p' : Progress} {entries : Fields} {path : String}
    (h : p.Grows p' entries) (hsome : p'.values.get? path ≠ none) :
    (∃ entry ∈ entries, entry.1 = path) ∨ p.values.get? path ≠ none := by
  by_cases hentry : ∃ entry ∈ entries, entry.1 = path
  · exact .inl hentry
  · refine .inr ?_
    rwa [← h.get?_eq fun entry hmem heq => hentry ⟨entry, hmem, heq⟩]

/-! ## The invariants -/

/-- What decoding one value under a name gives. -/
structure Outcome.Coheres (ctx : Context) (name : String) (p : Progress) (o : Outcome)
    (p' : Progress) : Prop where
  id_eq : o.node.id = ctx.childId name
  name_eq : o.node.name = name
  coherent : ∀ n ∈ o.node.flatten, n.Coherent
  grows : p.Grows p' o.node.written

/-- What decoding fields of an instance gives: the nodes behind those that are decoded already. -/
structure Siblings (ctx : Context) (p : Progress) (nodes : List Node) (fields : Fields)
    (p' : Progress) : Prop where
  /-- All are named, and named by where they stand. -/
  named : ∀ c ∈ nodes, c.name ≠ "" ∧ c.id = ctx.childId c.name
  /-- Their paths were not in the table before … -/
  new : ∀ c ∈ nodes, p.values.get? c.id = none
  /-- … and are distinct. -/
  distinct : (nodes.map Node.id).Nodup
  /-- The values by name are those of the scope and of the nodes. -/
  fields_eq : fields = nodes.foldl (fun scope c => Fields.put scope c.name c.value) ctx.scope
  coherent : ∀ n ∈ nodes.flatMap Node.flatten, n.Coherent
  grows : p.Grows p' (writtenAll true nodes)

/-- What decoding elements of an array gives, from the element `index` on. -/
structure Items (ctx : Context) (f : Field) (index : Nat) (p : Progress) (items : List Node)
    (p' : Progress) : Prop where
  named : ∀ (i : Nat) (c : Node), items[i]? = some c →
    c.name = Setting.elementName f.id (index + i) ∧ c.id = ctx.childId c.name
  coherent : ∀ n ∈ items.flatMap Node.flatten, n.Coherent
  grows : p.Grows p' (writtenAll false items)

theorem Siblings.nil {ctx : Context} {p : Progress} : Siblings ctx p [] ctx.scope p where
  named := by simp
  new := by simp
  distinct := List.nodup_nil
  fields_eq := rfl
  coherent := by simp
  grows := rfl

/-- A field and those behind it. Its path is not met again: it is in the table by then. -/
theorem Siblings.cons {ctx : Context} {f : Field} {p p₁ p' : Progress} {o : Outcome}
    {nodes : List Node} {fields : Fields} (hf : f.IsNamed) (ho : o.Coheres ctx f.id p p₁)
    (hnew : p₁.values.get? o.node.id = none)
    (h : Siblings (ctx.past f o) (p₁.write o.node.id o.node.value) nodes fields p') :
    Siblings ctx p (o.node :: nodes) fields p' where
  named c hc := by
    rcases List.mem_cons.1 hc with rfl | hc
    · rw [ho.name_eq]
      exact ⟨hf, ho.id_eq⟩
    · exact h.named c hc
  new c hc := by
    rcases List.mem_cons.1 hc with rfl | hc
    · exact ho.grows.get?_eq_none hnew
    · exact (ho.grows.write _ _).get?_eq_none (h.new c hc)
  distinct := by
    rw [List.map_cons, List.nodup_cons]
    refine ⟨?_, h.distinct⟩
    intro hmem
    -- When a later field is written, the table has the path of this one already.
    obtain ⟨c, hc, hid⟩ := List.mem_map.1 hmem
    have hnone := h.new c hc
    rw [hid] at hnone
    simp [ValueTable.get?] at hnone
  fields_eq := by
    rw [List.foldl_cons, ho.name_eq]
    exact h.fields_eq
  coherent := forall_flatten_cons.2 ⟨ho.coherent, h.coherent⟩
  grows := by
    have hgrows := (ho.grows.write o.node.id o.node.value).trans h.grows
    simpa [writtenAll] using hgrows

theorem Items.nil {ctx : Context} {f : Field} {index : Nat} {p p' : Progress}
    (h : p'.values = p.values) : Items ctx f index p [] p' where
  named := by simp
  coherent := by simp
  grows := .of_values_eq h

theorem Items.cons {ctx : Context} {f : Field} {index : Nat} {cursor : Int} {p p₁ p' : Progress}
    {o : Outcome} {items : List Node}
    (ho : o.Coheres (ctx.moveTo cursor) (Setting.elementName f.id index) p p₁)
    (h : Items ctx f (index + 1) p₁ items p') : Items ctx f index p (o.node :: items) p' where
  named i c hc := by
    cases i with
    | zero =>
        cases hc
        exact ⟨ho.name_eq, ho.name_eq ▸ ho.id_eq⟩
    | succ i =>
        obtain ⟨hname, hid⟩ := h.named i c hc
        exact ⟨by rw [hname]; congr 1; omega, hid⟩
  coherent := forall_flatten_cons.2 ⟨ho.coherent, h.coherent⟩
  grows := by simpa [writtenAll] using ho.grows.trans h.grows

/-! ## Ids below a node -/

theorem Node.Coherent.child_below {n c : Node} (h : n.Coherent) (hc : c ∈ n.children) :
    ∃ t, GoesOn t ∧ c.id = n.id ++ t := by
  unfold Node.Coherent at h
  split at h
  case h_1 =>
      refine ⟨"." ++ c.name, goesOn_dot _, ?_⟩
      rw [h.1 c hc, String.append_assoc]
  case h_2 =>
      obtain ⟨i, hi⟩ := List.mem_iff_getElem?.1 hc
      refine ⟨"[" ++ (toString i ++ "]"), goesOn_bracket _, ?_⟩
      rw [(h.1 i c hi).2]
      simp only [String.append_assoc]
  case h_3 =>
      rw [h] at hc
      cases hc

mutual

/-- What a coherent tree adds to the table stands below its root. -/
theorem Node.written_below : ∀ n : Node, (∀ m ∈ n.flatten, m.Coherent) →
    ∀ entry ∈ n.written, ∃ t, GoesOn t ∧ entry.1 = n.id ++ t
  | ⟨id, name, label, range, endian, value, children, attributes, problems⟩, h => by
      refine writtenAll_below value.isRecord children id ?_ ?_
      · exact fun c hc => (h _ (Node.mem_flatten_self _)).child_below hc
      · exact fun m hm => h m (by rw [Node.flatten]; exact List.mem_cons_of_mem _ hm)

theorem writtenAll_below (recorded : Bool) : ∀ (ns : List Node) (lead : String),
    (∀ c ∈ ns, ∃ t, GoesOn t ∧ c.id = lead ++ t) → (∀ m ∈ flattenAll ns, m.Coherent) →
      ∀ entry ∈ writtenAll recorded ns, ∃ t, GoesOn t ∧ entry.1 = lead ++ t
  | [], _, _, _, _, hentry => by cases hentry
  | c :: rest, lead, hids, h, entry, hentry => by
      obtain ⟨t, ht, hid⟩ := hids c List.mem_cons_self
      rw [writtenAll] at hentry
      rcases List.mem_append.1 hentry with hentry | hentry
      · rcases List.mem_append.1 hentry with hentry | hentry
        · have hbelow := c.written_below fun m hm => h m (List.mem_append_left _ hm)
          obtain ⟨u, -, hu⟩ := hbelow entry hentry
          exact ⟨t ++ u, ht.append u, by rw [hu, hid, String.append_assoc]⟩
        · cases recorded with
          | false => cases hentry
          | true =>
              obtain rfl := List.mem_singleton.1 hentry
              exact ⟨t, ht, hid⟩
      · exact writtenAll_below recorded rest lead
          (fun c hc => hids c (List.mem_cons_of_mem _ hc))
          (fun m hm => h m (List.mem_append_right _ hm)) entry hentry

end

/-- What decoding a value adds to the table stands below its node. -/
theorem Outcome.Coheres.below {ctx : Context} {name : String} {p p' : Progress} {o : Outcome}
    (h : o.Coheres ctx name p p') (hname : name ≠ "") :
    ∀ entry ∈ o.node.written, ∃ t, GoesOn t ∧ entry.1 = pathLead ctx.path ++ (name ++ t) := by
  intro entry hentry
  obtain ⟨t, ht, heq⟩ := o.node.written_below h.coherent entry hentry
  refine ⟨t, ht, ?_⟩
  rw [heq, h.id_eq, Place.childId_eq hname, String.append_assoc]

/-- With the value of the node itself, what is added stands at its path or below. -/
theorem Outcome.Coheres.at_or_below {ctx : Context} {name : String} {p p' : Progress} {o : Outcome}
    (h : o.Coheres ctx name p p') (hname : name ≠ "") :
    ∀ entry ∈ o.node.written ++ [(o.node.id, o.node.value)],
      ∃ t, IsTail t ∧ entry.1 = pathLead ctx.path ++ (name ++ t) := by
  intro entry hentry
  rcases List.mem_append.1 hentry with hentry | hentry
  · obtain ⟨t, ht, heq⟩ := h.below hname entry hentry
    exact ⟨t, .inr ht, heq⟩
  · obtain rfl := List.mem_singleton.1 hentry
    refine ⟨"", .inl rfl, ?_⟩
    rw [String.append_empty]
    exact h.id_eq.trans (Place.childId_eq hname)

/-! ## Instances and arrays -/

/-- Values with distinct names are put one behind the other. -/
theorem foldl_put_of_nodup {nodes : List Node} {scope : Fields}
    (h : (scope.map Prod.fst ++ nodes.map Node.name).Nodup) :
    nodes.foldl (fun scope c => Fields.put scope c.name c.value) scope =
      scope ++ nodes.map fun c => (c.name, c.value) := by
  have hnames : (nodes.map fun c => (c.name, c.value)).map Prod.fst = nodes.map Node.name :=
    List.map_map
  rw [← Fields.putAll_of_nodup (hnames ▸ h), Fields.putAll, List.foldl_map]

theorem Node.coherent_of_scalar {n : Node} (hvalue : n.value.isComposite = false)
    (hchildren : n.children = []) : n.Coherent := by
  unfold Node.Coherent
  split
  case h_1 hrecord =>
      rw [hrecord] at hvalue
      cases hvalue
  case h_2 htuple =>
      rw [htuple] at hvalue
      cases hvalue
  case h_3 => exact hchildren

namespace Setting

variable {s : Setting} {custom : CustomDecoder} {ctx : Context} {f : Field} {name : String}
  {p p' : Progress} {o : Outcome}

/-- The array node around all elements. -/
theorem coheres_arrayNode {r : Repetition} {items : List Node} {stop : Int} (hf : f.IsNamed)
    (h : Items ctx f 0 p items p') :
    (⟨arrayNode ctx f r items stop, stop⟩ : Outcome).Coheres ctx f.id p p' where
  id_eq := rfl
  name_eq := rfl
  coherent := by
    refine Node.forall_flatten.2 ⟨⟨?_, rfl, ?_⟩, h.coherent⟩
    · intro i c hc
      obtain ⟨hname, hid⟩ := h.named i c hc
      rw [Nat.zero_add] at hname
      refine ⟨hname, ?_⟩
      rw [hid, hname, Place.childId_eq elementName_ne_empty, elementName_append,
        ← Place.childId_eq hf]
      rfl
    · intro c hc
      obtain ⟨rest, rfl⟩ := List.head?_eq_some_iff.1 hc
      rfl
  grows := h.grows

/-- The node of an instance around all its fields. The names are distinct because the ids are. -/
theorem coheres_instanceNode {i : Instance} {children : List Node} {fields : Fields} {stop : Int}
    (hi : i.name ≠ "") (h : Siblings (inside ctx i) p children fields p') :
    (⟨s.instanceNode ctx i children fields stop, stop⟩ : Outcome).Coheres ctx i.name p p' where
  id_eq := rfl
  name_eq := rfl
  coherent := by
    -- The id of a field is a function of its name, so two of one name would share an id.
    have hids : children.map Node.id =
        (children.map Node.name).map (inside ctx i).childId := by
      rw [List.map_map]
      exact List.map_congr_left fun c hc => (h.named c hc).2
    have hnames : (children.map Node.name).Nodup := List.Nodup.of_map _ (hids ▸ h.distinct)
    refine Node.forall_flatten.2 ⟨⟨?_, hnames, ?_⟩, h.coherent⟩
    · intro c hc
      obtain ⟨hname, hid⟩ := h.named c hc
      rw [hid]
      exact childId_inside hi hname
    · rw [h.fields_eq]
      exact foldl_put_of_nodup hnames
  grows := h.grows

/-! ## The decoders -/

theorem IsLeaf.coheres (h : s.IsLeaf ctx name o) (hp : p'.values = p.values) :
    o.Coheres ctx name p p' where
  id_eq := h.id_eq
  name_eq := h.name_eq
  coherent := (Node.forall_flatten_of_leaf h.children_eq).2
    (Node.coherent_of_scalar h.scalar h.children_eq)
  grows := by
    rw [Node.written_eq, h.children_eq]
    exact .of_values_eq hp

/-- What is asked of the decoder of nested instances. -/
def CoheresCustom (custom : CustomDecoder) : Prop :=
  ∀ {ctx : Context} {f : Field} {typeName name : String} {p p' : Progress} {o : Outcome},
    ctx.Every Field.IsNamed → name ≠ "" → (custom ctx f typeName name).Yields p o p' →
      o.Coheres ctx name p p'

theorem decodeSingle_coheres (h : (s.decodeSingle custom ctx f name).Yields p o p')
    (hcustom : CoheresCustom custom) (hctx : ctx.Every Field.IsNamed) (hname : name ≠ "") :
    o.Coheres ctx name p p' := by
  rcases decodeSingle_inv h with ⟨hleaf, hp⟩ | ⟨typeName, -, -, hrun⟩
  · exact hleaf.coheres hp
  · exact hcustom hctx hname hrun

theorem elements_items {r : Repetition} {count : Option Int} {index : Nat} {cursor stop : Int}
    {items : List Node} (h : Elements s custom ctx f r count index cursor p items stop p')
    (hcustom : CoheresCustom custom) (hctx : ctx.Every Field.IsNamed) :
    Items ctx f index p items p' := by
  induction h with
  | complete => exact .nil rfl
  | satisfied _ single =>
      exact .cons (decodeSingle_coheres single hcustom hctx elementName_ne_empty) (.nil rfl)
  | stuck _ single =>
      exact .cons (decodeSingle_coheres single hcustom hctx elementName_ne_empty) (.nil rfl)
  | next _ single _ _ _ ih =>
      exact .cons (decodeSingle_coheres single hcustom hctx elementName_ne_empty) ih

theorem decodeField_coheres (h : (s.decodeField custom ctx f).Yields p o p')
    (hcustom : CoheresCustom custom) (hctx : ctx.Every Field.IsNamed) (hf : f.IsNamed) :
    o.Coheres ctx f.id p p' := by
  obtain ⟨ctx', hplaced, hrun⟩ := decodeField_inv h
  obtain ⟨-, ⟨offset, rfl⟩, -⟩ := placed_inv hplaced
  have hmoved : (ctx.moveTo offset).Every Field.IsNamed := hctx
  rcases hrun with ⟨-, hsingle⟩ | ⟨r, count, items, stop, -, -, helements, rfl⟩
  · have ho := decodeSingle_coheres hsingle hcustom hmoved hf
    exact ⟨ho.id_eq, ho.name_eq, ho.coherent, ho.grows⟩
  · have hitems := elements_items helements hcustom hmoved
    have ho : (⟨arrayNode (ctx.moveTo offset) f r items stop, stop⟩ : Outcome).Coheres
        (ctx.moveTo offset) f.id p p' := coheres_arrayNode hf hitems
    exact ⟨ho.id_eq, ho.name_eq, ho.coherent, ho.grows⟩

theorem sequence_siblings {seq : List Field} {nodes : List Node} {fields : Fields} {stop : Int}
    (h : Sequence s custom seq ctx p nodes fields stop p') (hcustom : CoheresCustom custom)
    (hctx : ctx.Every Field.IsNamed) (hseq : ∀ f ∈ seq, f.IsNamed) :
    Siblings ctx p nodes fields p' := by
  induction h with
  | nil => exact .nil
  | skip _ _ ih => exact ih hctx fun f hf => hseq f (List.mem_cons_of_mem _ hf)
  | field _ decoded new _ ih =>
      have hf := hseq _ List.mem_cons_self
      exact .cons hf (decodeField_coheres decoded hcustom hctx hf) new
        (ih hctx fun f hf => hseq f (List.mem_cons_of_mem _ hf))

theorem decodeInstance_coheres {depth : Nat} {i : Instance}
    (h : (s.decodeInstance depth ctx i).Yields p o p') (hi : i.Every Field.IsNamed)
    (hname : i.name ≠ "") : o.Coheres ctx i.name p p' := by
  induction depth generalizing ctx i p o p' with
  | zero => exact absurd h Decoder.not_yields_fail
  | succ depth ih =>
      obtain ⟨left, children, fields, stop, hleft, hrun, rfl⟩ := decodeInstance_inv h
      cases hleft
      have hcustom : CoheresCustom (s.nested depth) := by
        intro ctx f typeName name p p' o hctx hname h
        obtain ⟨i, rfl, hi, hrun⟩ := nested_every hctx h
        exact ih hrun hi hname
      have hsiblings := sequence_siblings hrun hcustom hi.inside fun f hf => hi.seq hf
      exact coheres_instanceNode hname hsiblings

theorem coheresCustom_nested {depth : Nat} : CoheresCustom (s.nested depth) := by
  intro ctx f typeName name p p' o hctx hname h
  obtain ⟨i, rfl, hi, hrun⟩ := nested_every hctx h
  exact decodeInstance_coheres hrun hi hname

end Setting

/-! ## Whole trees -/

theorem Schema.rootId_ne_empty (schema : Schema) : schema.rootId ≠ "" := by
  unfold rootId
  split
  · split
    · decide
    · assumption
  · decide

/-- **Coherence.** In the tree of a decode every node fits its children, the id of the root is that of
the schema, and the nodes are listed in pre-order. That every field has an id is checked when a
schema is loaded (`Schema.isNamed_of_load`). -/
theorem Schema.decode_coherent {schema : Schema} {options : Options} {buffer : Buffer}
    {result : Result} {root : Node} (hid : ∀ f ∈ schema.fields, f.id ≠ "")
    (h : schema.decode options buffer = .ok result) (hroot : result.root = some root) :
    root.id = schema.rootId ∧ PreOrder [root] result.nodes ∧ ∀ n ∈ result.nodes, n.Coherent := by
  obtain ⟨definition, o, p, hdefinition, hrun, rfl⟩ := decode_inv h hroot
  cases hroot
  have ho : o.Coheres { endian := schema.endian } schema.rootId {} p :=
    Setting.decodeInstance_coheres hrun (rootInstance_every hdefinition hid)
      schema.rootId_ne_empty
  refine ⟨?_, ?_, ho.coherent⟩
  · rw [ho.id_eq, Place.childId_eq schema.rootId_ne_empty]
    exact String.empty_append
  · have hlisting := preOrder_flattenAll [o.node]
    rwa [flattenAll, flattenAll, List.append_nil] at hlisting

/-- As many points as the first byte says, each behind its kind, and a mark at the end of them. -/
def Schema.scene : Schema where
  info := { id := some "scene" }
  seq := some [
    { id := "count", type := .named "u1" },
    { id := "shapes", type := .named "shape", repetition := some (.count (.str "count")) },
    { id := "mark", size := .int 1, position := .str "3 * count + 1" }]
  types := [
    ("shape", {
      seq := [
        { id := "kind", type := .named "u1" },
        { id := "at", type := .named "point" }]
      types := [
        ("point", { seq := [
          { id := "x", type := .named "u1" },
          { id := "y", type := .named "u1" }] })] })]

theorem Schema.decode_coherent_scene :
    (∀ f ∈ scene.fields, f.id ≠ "") ∧
      ∃ result root, scene.decode {} [2, 0, 1, 2, 9, 3, 4, 255] = .ok result ∧
        result.root = some root ∧ root.id = scene.rootId ∧ PreOrder [root] result.nodes ∧
        ∀ n ∈ result.nodes, n.Coherent := by
  have hid : ∀ f ∈ scene.fields, f.id ≠ "" := by decide +kernel
  have hrun : scene.succeeds {} [2, 0, 1, 2, 9, 3, 4, 255] = true := by decide +kernel
  obtain ⟨result, h, hsuccess⟩ := exists_of_succeeds hrun
  obtain ⟨root, hroot⟩ := Result.exists_root hsuccess
  exact ⟨hid, result, root, h, hroot, decode_coherent hid h hroot⟩

end ByteSchema
