import ByteSchema.Proofs.Visit

/-!
# ByteSchema.Proofs.Composition

What holds of nodes because of the way in which they are put together.

A decode reads a primitive, puts a node behind others that were read before it, puts an instance or
an array around what was read inside, and begins a field where its position says. A property of rows
of nodes that each of these steps keeps (`Setting.Composes`) holds of every row that a decode comes
to, and so of its whole tree (`Schema.composed`). The induction over the decoders is made here, once.
-/

namespace ByteSchema

namespace Setting

/-- `Q start nodes next`, said of nodes that are read from `start` on and behind which the cursor is
`next`, is kept by every step that puts nodes together at the places of `R`. -/
structure Composes (s : Setting) (R : Visit → Prop) (Q : Int → List Node → Int → Prop) : Prop where
  keeps : s.Keeps R
  nil : ∀ {start : Int}, Q start [] start
  cons : ∀ {start next stop : Int} {n : Node} {rest : List Node},
    Q start [n] next → Q next rest stop → Q start (n :: rest) stop
  leaf : ∀ {ctx : Context} {name : String} {o : Outcome},
    s.IsLeaf ctx name o → Q ctx.offset [o.node] o.next
  /-- An instance or an array is put around what is read from its start on. -/
  around : ∀ (n : Node) {stop : Int}, Q n.range.start n.children stop →
    n.range.length = max 0 (stop - n.range.start) → Q n.range.start [n] stop
  /-- The node of a field is read where its position says. -/
  placed : ∀ {depth : Nat} {outer : List Frame} {ctx ctx' : Context} {f : Field} {rest : List Field}
    {p : Progress} {n : Node} {next : Int}, R ⟨depth, outer, ctx, .fields (f :: rest), p⟩ →
      (s.isPresent ctx f).Yields p true p → (s.placed ctx f).Yields p ctx' p →
        Q ctx'.offset [n] next → Q ctx.offset [n] next

/-- What is asked of the fields of an instance in which `depth` more may be nested. -/
def FieldsCompose (s : Setting) (R : Visit → Prop) (Q : Int → List Node → Int → Prop)
    (depth : Nat) : Prop :=
  ∀ {outer : List Frame} {ctx : Context} {seq : List Field} {p p' : Progress} {nodes : List Node}
    {fields : Fields} {stop : Int}, R ⟨depth, outer, ctx, .fields seq, p⟩ →
      Sequence s (s.nested depth) seq ctx p nodes fields stop p' → Q ctx.offset nodes stop

namespace Composes

variable {s : Setting} {R : Visit → Prop} {Q : Int → List Node → Int → Prop} {depth : Nat}
  {outer : List Frame} {ctx : Context} {f : Field} {p p' : Progress} {o : Outcome}

theorem single {name : String} (h : s.Composes R Q)
    (hfields : ∀ left, depth = left + 1 → s.FieldsCompose R Q left)
    (hv : R ⟨depth, outer, ctx, .single f name, p⟩)
    (hrun : (s.decodeSingle (s.nested depth) ctx f name).Yields p o p') :
    Q ctx.offset [o.node] o.next := by
  rcases decodeSingle_inv hrun with ⟨hleaf, -⟩ | ⟨typeName, hselected, hcustom, hnested⟩
  · exact h.leaf hleaf
  · obtain ⟨definition, chain, hfound, hinstance⟩ := nested_inv hnested
    obtain ⟨left, children, fields, stop, rfl, hseq, rfl⟩ := decodeInstance_inv hinstance
    have hinside := hfields left rfl (h.keeps hv (.enter hselected hcustom hfound)) hseq
    exact h.around (s.instanceNode ..) hinside rfl

/-- The elements of a repetition follow one another, each behind the one before. -/
theorem elements {r : Repetition} {count : Option Int} {index : Nat} {cursor stop : Int}
    {items : List Node} (h : s.Composes R Q)
    (hfields : ∀ left, depth = left + 1 → s.FieldsCompose R Q left)
    (hv : R ⟨depth, outer, ctx, .elements f r count index cursor, p⟩)
    (hrun : Elements s (s.nested depth) ctx f r count index cursor p items stop p') :
    Q cursor items stop := by
  induction hrun with
  | complete => exact h.nil
  | satisfied more single | stuck more single =>
      exact h.cons (h.single hfields (h.keeps hv (.element more)) single) h.nil
  | next more single fails moves _ ih =>
      have hself := h.single hfields (h.keeps hv (.element more)) single
      exact h.cons hself (ih (h.keeps hv (.next more single fails moves)))

theorem field {rest : List Field} (h : s.Composes R Q)
    (hfields : ∀ left, depth = left + 1 → s.FieldsCompose R Q left)
    (hv : R ⟨depth, outer, ctx, .fields (f :: rest), p⟩)
    (hpresent : (s.isPresent ctx f).Yields p true p)
    (hrun : (s.decodeField (s.nested depth) ctx f).Yields p o p') :
    Q ctx.offset [o.node] o.next := by
  obtain ⟨ctx', hplaced, hrun⟩ := decodeField_inv hrun
  refine h.placed hv hpresent hplaced ?_
  rcases hrun with ⟨honce, hsingle⟩ | ⟨r, count, items, stop, hr, hcount, helements, rfl⟩
  · exact h.single hfields (h.keeps hv (.value hpresent hplaced honce)) hsingle
  · have hitems := h.elements hfields (h.keeps hv (.array hpresent hplaced hr hcount)) helements
    exact h.around (arrayNode ..) hitems rfl

/-- A sequence is its first field, if that is present, and the rest behind it. -/
theorem sequence {seq : List Field} {nodes : List Node} {fields : Fields} {stop : Int}
    (h : s.Composes R Q) (hfields : ∀ left, depth = left + 1 → s.FieldsCompose R Q left)
    (hv : R ⟨depth, outer, ctx, .fields seq, p⟩)
    (hrun : Sequence s (s.nested depth) seq ctx p nodes fields stop p') :
    Q ctx.offset nodes stop := by
  induction hrun with
  | nil => exact h.nil
  | skip absent _ ih => exact ih (h.keeps hv (.skip absent))
  | field present decoded new _ ih =>
      have hself := h.field hfields hv present decoded
      exact h.cons hself (ih (h.keeps hv (.past present decoded new)))

/-- By induction on the depth, which bounds how far instances are nested. -/
theorem fields (h : s.Composes R Q) : s.FieldsCompose R Q depth := by
  refine @forall_depth (s.FieldsCompose R Q) ?_ depth
  intro depth hfields outer ctx seq p p' nodes fields stop hv hrun
  exact h.sequence hfields hv hrun

end Composes

end Setting

/-- What is kept where nodes are put together holds of the root of a tree. -/
theorem Schema.composed {schema : Schema} {options : Options} {buffer : Buffer} {result : Result}
    {root : Node} {Q : Int → List Node → Int → Prop}
    (hQ : (schema.setting options buffer).Composes (schema.Reached options buffer) Q)
    (h : schema.decode options buffer = .ok result) (hroot : result.root = some root) :
    result.nodes = root.flatten ∧ ∃ next, Q root.range.start [root] next := by
  obtain ⟨definition, o, p, hdefinition, hrun, rfl⟩ := decode_inv h hroot
  cases hroot
  obtain ⟨depth, children, fields, stop, hdepth, hseq, rfl⟩ := Setting.decodeInstance_inv hrun
  have hv : schema.Reached options buffer _ := .root hdefinition hdepth
  exact ⟨rfl, stop, hQ.around (Setting.instanceNode ..) (hQ.fields hv hseq) rfl⟩

end ByteSchema
