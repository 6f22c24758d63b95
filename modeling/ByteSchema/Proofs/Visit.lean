import ByteSchema.Proofs.Declared
import ByteSchema.Proofs.Growth

/-!
# ByteSchema.Proofs.Visit

The places that a decode comes to, whether it succeeds in the end or not.

A `Visit` is a place in the walk through a schema with all that is known there: the instance that is
being decoded with its scope, the instances around it, each at the field that holds the next one, and
the table of values. `Leads` says from which place the decode comes to which: on to the next field,
into a field, to its elements, into an instance. A field or element is passed only if it is decoded,
so the relation goes no further than the decode; and it goes as far, for every node below the root is
decoded at such a place (`Schema.reached_of_mem_nodes`).
-/

namespace ByteSchema

/-- An instance around another: its context, and the field that holds the other one. -/
structure Frame where
  ctx : Context
  field : Field

/-- What is to be decoded next in an instance. -/
inductive Station where
  /-- These fields are left. -/
  | fields (seq : List Field)
  /-- The elements of an array from `index` on, the first of them at `cursor`. -/
  | elements (f : Field) (r : Repetition) (count : Option Int) (index : Nat) (cursor : Int)
  /-- One value, of a field that is not repeated or of an element. -/
  | single (f : Field) (name : String)

/-- The fields that are at hand. -/
def Station.fieldsAhead : Station → List Field
  | .fields seq => seq
  | .elements f _ _ _ _ => [f]
  | .single f _ => [f]

/-- A place that a decode comes to. -/
structure Visit where
  /-- How many instances more may be nested. -/
  depth : Nat
  /-- The instances around, the innermost first. -/
  outer : List Frame
  /-- The context in the instance that is being decoded. -/
  ctx : Context
  station : Station
  progress : Progress

/-- What expressions see at a visit, when the next bytes are those at `offset`. -/
def Visit.view (v : Visit) (s : Setting) (offset : Int) : View :=
  s.view (v.ctx.moveTo offset).toPlace v.progress.values

/-- The decode comes from the first place to the second. -/
inductive Setting.Leads (s : Setting) : Visit → Visit → Prop
  /-- A field whose condition does not hold is passed. -/
  | skip {depth : Nat} {outer : List Frame} {ctx : Context} {f : Field} {rest : List Field}
      {p : Progress} (absent : (s.isPresent ctx f).Yields p false p) :
      Leads s ⟨depth, outer, ctx, .fields (f :: rest), p⟩ ⟨depth, outer, ctx, .fields rest, p⟩
  /-- A field is passed when it is decoded and its path is new. -/
  | past {depth : Nat} {outer : List Frame} {ctx : Context} {f : Field} {rest : List Field}
      {p p₁ : Progress} {o : Outcome} (present : (s.isPresent ctx f).Yields p true p)
      (decoded : (s.decodeField (s.nested depth) ctx f).Yields p o p₁)
      (new : p₁.values.get? o.node.id = none) :
      Leads s ⟨depth, outer, ctx, .fields (f :: rest), p⟩
        ⟨depth, outer, ctx.past f o, .fields rest, p₁.write o.node.id o.node.value⟩
  /-- The value of a field that is not repeated. -/
  | value {depth : Nat} {outer : List Frame} {ctx ctx' : Context} {f : Field} {rest : List Field}
      {p : Progress} (present : (s.isPresent ctx f).Yields p true p)
      (placed : (s.placed ctx f).Yields p ctx' p) (once : f.repetition = none) :
      Leads s ⟨depth, outer, ctx, .fields (f :: rest), p⟩ ⟨depth, outer, ctx', .single f f.id, p⟩
  /-- The first element of an array. -/
  | array {depth : Nat} {outer : List Frame} {ctx ctx' : Context} {f : Field} {rest : List Field}
      {p : Progress} {r : Repetition} {count : Option Int}
      (present : (s.isPresent ctx f).Yields p true p)
      (placed : (s.placed ctx f).Yields p ctx' p) (repeated : f.repetition = some r)
      (counted : (s.repeatCount ctx' f r).Yields p count p) :
      Leads s ⟨depth, outer, ctx, .fields (f :: rest), p⟩
        ⟨depth, outer, ctx', .elements f r count 0 ctx'.offset, p⟩
  /-- The value of an element. -/
  | element {depth : Nat} {outer : List Frame} {ctx : Context} {f : Field} {r : Repetition}
      {count : Option Int} {index : Nat} {cursor : Int} {p : Progress}
      (more : s.isComplete r count index cursor = false) :
      Leads s ⟨depth, outer, ctx, .elements f r count index cursor, p⟩
        ⟨depth, outer, ctx.moveTo cursor, .single f (elementName f.id index), p⟩
  /-- The next element, when the one before does not end the array. -/
  | next {depth : Nat} {outer : List Frame} {ctx : Context} {f : Field} {r : Repetition}
      {count : Option Int} {index : Nat} {cursor : Int} {p p₁ : Progress} {o : Outcome}
      (more : s.isComplete r count index cursor = false)
      (decoded : (s.decodeSingle (s.nested depth) (ctx.moveTo cursor) f
        (elementName f.id index)).Yields p o p₁)
      (fails : (s.isSatisfied r ctx index o.node.value o.next).Yields p₁ false p₁)
      (moves : ¬ (count.isNone ∧ o.next ≤ cursor)) :
      Leads s ⟨depth, outer, ctx, .elements f r count index cursor, p⟩
        ⟨depth, outer, ctx, .elements f r count (index + 1) o.next, p₁⟩
  /-- The fields of an instance, when the type that is selected is one of the schema. -/
  | enter {depth : Nat} {outer : List Frame} {ctx : Context} {f : Field} {name typeName : String}
      {definition : TypeDef} {chain : TypeChain} {p : Progress}
      (selected : s.Selects ctx f p typeName) (custom : Primitive.ofName? typeName = none)
      (found : ctx.chain.lookup? typeName = some (definition, chain)) :
      Leads s ⟨depth + 1, outer, ctx, .single f name, p⟩
        ⟨depth, ⟨ctx, f⟩ :: outer,
          inside ctx { name, typeName, definition, chain, attributes := f.remarks },
          .fields definition.seq, p⟩

/-- The places that decoding a buffer comes to, from the first field of the root on. -/
inductive Schema.Reached (schema : Schema) (options : Options) (buffer : Buffer) : Visit → Prop
  | root {definition : TypeDef} {depth : Nat} (isRoot : schema.rootType? = some definition)
      (allowed : options.maxDepth.toNat = depth + 1) :
      Reached schema options buffer
        ⟨depth, [], Setting.inside { endian := schema.endian } (schema.rootInstance definition),
          .fields definition.seq, {}⟩
  | step {v v' : Visit} (reached : Reached schema options buffer v)
      (leads : (schema.setting options buffer).Leads v v') : Reached schema options buffer v'

/-! ## The fields that are met -/

/-- What holds of all fields at hand and in sight. -/
structure Visit.Meets (P : Field → Prop) (v : Visit) : Prop where
  ahead : ∀ f ∈ v.station.fieldsAhead, P f
  inSight : v.ctx.Every P

theorem Setting.Leads.meets {P : Field → Prop} {s : Setting} {v v' : Visit} (h : v.Meets P)
    (leads : s.Leads v v') : v'.Meets P := by
  obtain ⟨hahead, hsight⟩ := h
  cases leads with
  | skip | past => exact ⟨fun f hf => hahead f (List.mem_cons_of_mem _ hf), hsight⟩
  | @value _ _ _ _ f _ _ _ placed _ | @array _ _ _ _ f _ _ _ _ _ placed _ _ =>
      obtain ⟨-, ⟨offset, rfl⟩, -⟩ := placed_inv placed
      exact ⟨List.forall_mem_singleton.2 (hahead f List.mem_cons_self), hsight⟩
  | element | next => exact ⟨hahead, hsight⟩
  | @enter _ _ _ f name typeName definition chain _ _ _ found =>
      have hevery : Instance.Every P { name, typeName, definition, chain, attributes := f.remarks } :=
        Instance.every_of_lookup? hsight found
      exact ⟨fun f hf => hevery.seq hf, hevery.inside⟩

/-- A decode meets no fields but those of the schema. -/
theorem Schema.Reached.meets {P : Field → Prop} {schema : Schema} {options : Options}
    {buffer : Buffer} {v : Visit} (h : schema.Reached options buffer v)
    (hP : ∀ f ∈ schema.fields, P f) : v.Meets P := by
  induction h with
  | root isRoot allowed =>
      have hevery := rootInstance_every isRoot hP
      exact ⟨fun f hf => hevery.seq hf, hevery.inside⟩
  | step _ leads ih => exact leads.meets ih

/-! ## All nodes are decoded at such places -/

/-- What is decoded at a visit: the first field that is left, or the single value. -/
def Visit.Gives (v : Visit) (s : Setting) (o : Outcome) : Prop :=
  match v.station with
  | .fields (f :: _) => ∃ p, (s.decodeField (s.nested v.depth) v.ctx f).Yields v.progress o p
  | .single f name => ∃ p, (s.decodeSingle (s.nested v.depth) v.ctx f name).Yields v.progress o p
  | _ => False

namespace Setting

variable {s : Setting} {R : Visit → Prop} {depth : Nat} {outer : List Frame} {ctx : Context}
  {f : Field} {p p' : Progress} {o : Outcome}

/-- Instances in which `depth` more may be nested hold instances in which one less may. -/
theorem forall_depth {P : Nat → Prop} (h : ∀ depth, (∀ left, depth = left + 1 → P left) → P depth)
    (depth : Nat) : P depth := by
  induction depth with
  | zero => exact h 0 fun left hleft => by cases hleft
  | succ depth ih =>
      refine h (depth + 1) fun left hleft => ?_
      cases hleft
      exact ih

/-- Wherever the decode comes to from a place of `R` is a place of `R`. -/
def Keeps (s : Setting) (R : Visit → Prop) : Prop := ∀ ⦃v v'⦄, R v → s.Leads v v' → R v'

/-- What is to be shown of the fields and elements that are decoded at places of `R`, to know `P` of
all nodes. -/
structure Explores (s : Setting) (R : Visit → Prop) (P : Node → Prop) : Prop where
  keeps : s.Keeps R
  field : ∀ {depth : Nat} {outer : List Frame} {ctx : Context} {f : Field} {rest : List Field}
    {p p' : Progress} {o : Outcome}, R ⟨depth, outer, ctx, .fields (f :: rest), p⟩ →
      (s.isPresent ctx f).Yields p true p →
        (s.decodeField (s.nested depth) ctx f).Yields p o p' → P o.node
  element : ∀ {depth : Nat} {outer : List Frame} {ctx : Context} {f : Field} {r : Repetition}
    {count : Option Int} {index : Nat} {cursor : Int} {p p' : Progress} {o : Outcome},
      R ⟨depth, outer, ctx, .elements f r count index cursor, p⟩ →
        s.isComplete r count index cursor = false →
          (s.decodeSingle (s.nested depth) (ctx.moveTo cursor) f
            (elementName f.id index)).Yields p o p' → P o.node

/-- What is asked of the fields of an instance in which `depth` more may be nested. -/
def ExploresFields (s : Setting) (R : Visit → Prop) (P : Node → Prop) (depth : Nat) : Prop :=
  ∀ {outer : List Frame} {ctx : Context} {seq : List Field} {p p' : Progress} {nodes : List Node}
    {fields : Fields} {stop : Int}, R ⟨depth, outer, ctx, .fields seq, p⟩ →
      Sequence s (s.nested depth) seq ctx p nodes fields stop p' →
        ∀ n ∈ nodes.flatMap Node.flatten, P n

namespace Explores

variable {P : Node → Prop}

theorem single {name : String} (h : s.Explores R P)
    (hfields : ∀ left, depth = left + 1 → s.ExploresFields R P left)
    (hv : R ⟨depth, outer, ctx, .single f name, p⟩)
    (hrun : (s.decodeSingle (s.nested depth) ctx f name).Yields p o p') :
    ∀ n ∈ o.node.children.flatMap Node.flatten, P n := by
  rcases decodeSingle_inv hrun with ⟨hleaf, -⟩ | ⟨typeName, hselected, hcustom, hnested⟩
  · rw [hleaf.children_eq]
    exact fun _ hn => absurd hn List.not_mem_nil
  · obtain ⟨definition, chain, hfound, hinstance⟩ := nested_inv hnested
    obtain ⟨left, children, fields, stop, rfl, hseq, rfl⟩ := decodeInstance_inv hinstance
    exact hfields left rfl (h.keeps hv (.enter hselected hcustom hfound)) hseq

theorem one {r : Repetition} {count : Option Int} {index : Nat} {cursor : Int} {rest : List Node}
    (h : s.Explores R P) (hfields : ∀ left, depth = left + 1 → s.ExploresFields R P left)
    (hv : R ⟨depth, outer, ctx, .elements f r count index cursor, p⟩)
    (hmore : s.isComplete r count index cursor = false)
    (hrun : (s.decodeSingle (s.nested depth) (ctx.moveTo cursor) f
      (elementName f.id index)).Yields p o p')
    (hrest : ∀ n ∈ rest.flatMap Node.flatten, P n) :
    ∀ n ∈ (o.node :: rest).flatMap Node.flatten, P n := by
  have hself := h.element hv hmore hrun
  have hbelow := h.single hfields (h.keeps hv (.element hmore)) hrun
  exact forall_flatten_cons.2 ⟨Node.forall_flatten.2 ⟨hself, hbelow⟩, hrest⟩

theorem elements {r : Repetition} {count : Option Int} {index : Nat} {cursor stop : Int}
    {items : List Node} (h : s.Explores R P)
    (hfields : ∀ left, depth = left + 1 → s.ExploresFields R P left)
    (hv : R ⟨depth, outer, ctx, .elements f r count index cursor, p⟩)
    (hrun : Elements s (s.nested depth) ctx f r count index cursor p items stop p') :
    ∀ n ∈ items.flatMap Node.flatten, P n := by
  induction hrun with
  | complete => exact fun _ hn => absurd hn List.not_mem_nil
  | satisfied more single | stuck more single =>
      exact h.one hfields hv more single fun _ hn => absurd hn List.not_mem_nil
  | next more single fails moves _ ih =>
      exact h.one hfields hv more single (ih (h.keeps hv (.next more single fails moves)))

theorem sequence {seq : List Field} {nodes : List Node} {fields : Fields} {stop : Int}
    (h : s.Explores R P) (hfields : ∀ left, depth = left + 1 → s.ExploresFields R P left)
    (hv : R ⟨depth, outer, ctx, .fields seq, p⟩)
    (hrun : Sequence s (s.nested depth) seq ctx p nodes fields stop p') :
    ∀ n ∈ nodes.flatMap Node.flatten, P n := by
  induction hrun with
  | nil => exact fun _ hn => absurd hn List.not_mem_nil
  | skip absent _ ih => exact ih (h.keeps hv (.skip absent))
  | field present decoded new _ ih =>
      have hrest := ih (h.keeps hv (.past present decoded new))
      refine forall_flatten_cons.2 ⟨Node.forall_flatten.2 ⟨h.field hv present decoded, ?_⟩, hrest⟩
      obtain ⟨ctx', hplaced, hrun⟩ := decodeField_inv decoded
      rcases hrun with ⟨honce, hsingle⟩ | ⟨r, count, items, stop, hr, hcount, helements, rfl⟩
      · exact h.single hfields (h.keeps hv (.value present hplaced honce)) hsingle
      · exact h.elements hfields (h.keeps hv (.array present hplaced hr hcount)) helements

theorem fields (h : s.Explores R P) : s.ExploresFields R P depth := by
  refine @forall_depth (s.ExploresFields R P) ?_ depth
  intro depth hfields outer ctx seq p p' nodes fields stop hv hrun
  exact h.sequence hfields hv hrun

end Explores

end Setting

/-- What holds of all fields and elements that are decoded where the decode comes to holds of all nodes
of its tree but the root. -/
theorem Schema.forall_nodes {P : Node → Prop} {schema : Schema} {options : Options}
    {buffer : Buffer} {result : Result} {root : Node}
    (hP : (schema.setting options buffer).Explores (schema.Reached options buffer) P)
    (h : schema.decode options buffer = .ok result) (hroot : result.root = some root) :
    ∀ n ∈ root.children.flatMap Node.flatten, P n := by
  obtain ⟨definition, o, p, hdefinition, hrun, rfl⟩ := decode_inv h hroot
  cases hroot
  obtain ⟨depth, children, fields, stop, hdepth, hseq, rfl⟩ := Setting.decodeInstance_inv hrun
  exact hP.fields (.root hdefinition hdepth) hseq

/-- Every node of a tree but the root is decoded at a place that the decode comes to. -/
theorem Schema.reached_of_mem_nodes {schema : Schema} {options : Options} {buffer : Buffer}
    {result : Result} {root n : Node} (h : schema.decode options buffer = .ok result)
    (hroot : result.root = some root) (hn : n ∈ root.children.flatMap Node.flatten) :
    ∃ v o, schema.Reached options buffer v ∧ v.Gives (schema.setting options buffer) o ∧
      o.node = n := by
  have hgiven : (schema.setting options buffer).Explores (schema.Reached options buffer)
      fun n => ∃ v o, schema.Reached options buffer v ∧ v.Gives (schema.setting options buffer) o ∧
        o.node = n :=
    ⟨fun _ _ => .step, fun hv _ decoded => ⟨_, _, hv, ⟨_, decoded⟩, rfl⟩,
      fun hv hmore hrun => ⟨_, _, hv.step (.element hmore), ⟨_, hrun⟩, rfl⟩⟩
  exact forall_nodes hgiven h hroot n hn

/-! ## A decode that succeeds goes on from all places that it comes to -/

/-- The decode goes on from the place to the end of what is at hand: it gives the nodes, and leaves
the progress. -/
def Visit.Runs (v : Visit) (s : Setting) (nodes : List Node) (p' : Progress) : Prop :=
  match v.station with
  | .fields seq => ∃ fields stop,
      s.Sequence (s.nested v.depth) seq v.ctx v.progress nodes fields stop p'
  | .elements f r count index cursor => ∃ stop,
      s.Elements (s.nested v.depth) v.ctx f r count index cursor v.progress nodes stop p'
  | .single f name => ∃ o,
      (s.decodeSingle (s.nested v.depth) v.ctx f name).Yields v.progress o p' ∧ nodes = [o.node]

theorem Visit.Runs.extends {s : Setting} {v : Visit} {nodes : List Node} {p' : Progress}
    (h : v.Runs s nodes p') : p'.Extends v.progress := by
  unfold Visit.Runs at h
  split at h
  · obtain ⟨fields, stop, hrun⟩ := h
    exact Setting.sequence_extends Setting.extendsCustom_nested hrun
  · obtain ⟨stop, hrun⟩ := h
    exact Setting.elements_extends Setting.extendsCustom_nested hrun
  · obtain ⟨o, hrun, -⟩ := h
    exact Setting.decodeSingle_extends Setting.extendsCustom_nested hrun

/-- A run comes through all places that it leads to. From there it goes on to some of its nodes and
some of what it leaves. -/
theorem Setting.Leads.runs {s : Setting} {v v' : Visit} {nodes : List Node} {p' : Progress}
    (h : v.Runs s nodes p') (leads : s.Leads v v') :
    ∃ within q, v'.Runs s within q ∧ p'.Extends q ∧
      within.flatMap Node.flatten ⊆ nodes.flatMap Node.flatten := by
  cases leads with
  | skip absent =>
      obtain ⟨fields, stop, hrun⟩ := h
      cases hrun with
      | skip _ tail => exact ⟨nodes, p', ⟨fields, stop, tail⟩, .refl _, List.Subset.refl _⟩
      | field present => cases (absent.unique present).1
  | past present decoded =>
      obtain ⟨fields, stop, hrun⟩ := h
      obtain ⟨o, p₁, later, decoded', -, tail, rfl⟩ := hrun.of_present present
      obtain ⟨rfl, rfl⟩ := decoded.unique decoded'
      exact ⟨later, p', ⟨fields, stop, tail⟩, .refl _, List.subset_append_right _ _⟩
  -- What the field decodes to comes first; its path and the fields behind it are written later.
  | value present placed once =>
      obtain ⟨fields, stop, hrun⟩ := h
      obtain ⟨o, p₁, later, decoded, new, tail, rfl⟩ := hrun.of_present present
      have hlater := (sequence_extends extendsCustom_nested tail).trans (.write new)
      exact ⟨_, _, ⟨_, decodeField_of_once decoded placed once, rfl⟩, hlater, by simp⟩
  | array present placed repeated counted =>
      obtain ⟨fields, stop, hrun⟩ := h
      obtain ⟨o, p₁, later, decoded, new, tail, rfl⟩ := hrun.of_present present
      have hlater := (sequence_extends extendsCustom_nested tail).trans (.write new)
      obtain ⟨items, stop, helements, rfl⟩ := decodeField_of_repeated decoded placed repeated counted
      refine ⟨items, _, ⟨stop, helements⟩, hlater, ?_⟩
      rw [List.flatMap_cons, Node.flatten_eq]
      exact fun n hn => List.mem_append_left _ (List.mem_cons_of_mem _ hn)
  -- However the array goes on, the element at hand is decoded.
  | element more =>
      obtain ⟨stop, hrun⟩ := h
      obtain ⟨o, p₁, later, single, hlater, rfl⟩ := hrun.exists_first extendsCustom_nested more
      exact ⟨_, _, ⟨_, single, rfl⟩, hlater, by simp⟩
  | next more decoded fails moves =>
      obtain ⟨stop, hrun⟩ := h
      obtain ⟨later, hrest, rfl⟩ := hrun.of_next more decoded fails moves
      exact ⟨_, p', ⟨stop, hrest⟩, .refl _, List.subset_append_right _ _⟩
  -- A single value of this type is an instance, and its fields are the run inside it.
  | enter selected custom found =>
      obtain ⟨o, hsingle, rfl⟩ := h
      have hnested := decodeSingle_custom selected custom hsingle
      obtain ⟨definition, chain, hfound, hrun⟩ := nested_inv hnested
      rw [found] at hfound
      cases hfound
      obtain ⟨left, children, fields, stop, hleft, hseq, rfl⟩ := decodeInstance_inv hrun
      cases hleft
      refine ⟨children, p', ⟨fields, stop, hseq⟩, .refl _, ?_⟩
      rw [List.flatMap_singleton, Node.flatten_eq]
      exact List.subset_cons_self _ _

/-- The decode goes on from the place to the end of what is at hand, with nodes for which `N` holds. -/
def Visit.Completes (s : Setting) (N : Node → Prop) (v : Visit) : Prop :=
  match v.station with
  | .fields seq => ∃ nodes fields stop p,
      s.Sequence (s.nested v.depth) seq v.ctx v.progress nodes fields stop p ∧
        ∀ n ∈ nodes.flatMap Node.flatten, N n
  | .elements f r count index cursor => ∃ items stop p,
      s.Elements (s.nested v.depth) v.ctx f r count index cursor v.progress items stop p ∧
        ∀ n ∈ items.flatMap Node.flatten, N n
  | .single f name => ∃ o p,
      (s.decodeSingle (s.nested v.depth) v.ctx f name).Yields v.progress o p ∧
        ∀ n ∈ o.node.flatten, N n

theorem Visit.completes_iff {s : Setting} {N : Node → Prop} {v : Visit} :
    v.Completes s N ↔ ∃ nodes p, v.Runs s nodes p ∧ ∀ n ∈ nodes.flatMap Node.flatten, N n := by
  unfold Completes Runs
  split
  · constructor
    · rintro ⟨nodes, fields, stop, p, hrun, hN⟩
      exact ⟨nodes, p, ⟨fields, stop, hrun⟩, hN⟩
    · rintro ⟨nodes, p, ⟨fields, stop, hrun⟩, hN⟩
      exact ⟨nodes, fields, stop, p, hrun, hN⟩
  · constructor
    · rintro ⟨items, stop, p, hrun, hN⟩
      exact ⟨items, p, ⟨stop, hrun⟩, hN⟩
    · rintro ⟨items, p, ⟨stop, hrun⟩, hN⟩
      exact ⟨items, stop, p, hrun, hN⟩
  · constructor
    · rintro ⟨o, p, hrun, hN⟩
      exact ⟨[o.node], p, ⟨o, hrun, rfl⟩, by simpa using hN⟩
    · rintro ⟨_, p, ⟨o, hrun, rfl⟩, hN⟩
      exact ⟨o, p, hrun, by simpa using hN⟩

theorem Setting.Leads.completes {s : Setting} {N : Node → Prop} {v v' : Visit}
    (h : v.Completes s N) (leads : s.Leads v v') : v'.Completes s N := by
  obtain ⟨nodes, p, hrun, hN⟩ := Visit.completes_iff.1 h
  obtain ⟨within, q, hwithin, -, hsubset⟩ := leads.runs hrun
  exact Visit.completes_iff.2 ⟨within, q, hwithin, fun n hn => hN n (hsubset hn)⟩

/-- What a decode that succeeds comes to, it decodes, to nodes of its tree. -/
theorem Schema.Reached.completes {schema : Schema} {options : Options} {buffer : Buffer}
    {result : Result} {root : Node} {v : Visit} (h : schema.decode options buffer = .ok result)
    (hroot : result.root = some root) (hv : schema.Reached options buffer v) :
    v.Completes (schema.setting options buffer) (· ∈ root.flatten) := by
  obtain ⟨definition, o, p, hdefinition, hrun, rfl⟩ := decode_inv h hroot
  cases hroot
  obtain ⟨depth, children, fields, stop, hdepth, hseq, rfl⟩ := Setting.decodeInstance_inv hrun
  induction hv with
  | root isRoot allowed =>
      rw [hdefinition] at isRoot
      cases isRoot
      rw [hdepth] at allowed
      cases allowed
      exact ⟨children, fields, stop, p, hseq, fun n hn => by
        rw [Node.flatten_eq]
        exact List.mem_cons_of_mem _ hn⟩
  | step _ leads ih => exact leads.completes ih

end ByteSchema
