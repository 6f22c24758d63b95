import ByteSchema.Proofs.Composition
import ByteSchema.Proofs.Offsets

/-!
# ByteSchema.Proofs.Extent

What the range of an instance or an array says of the nodes in it.

The range goes from where the node is read to where its last child leaves off, and it is empty if
that is before its start. It is not put together from the ranges of the children: a position can
lead far ahead and the next one back, and then the child read ahead is not in the range
(`Node.Measured` is all that holds of every node). But the children are in it whenever each of them
starts no earlier than the one before leaves off, and leaves off no earlier than it starts
(`StepsOn`). Nothing but a position that leads back can break that.

`Leaves` is the invariant: all of this about nodes read one behind the other. What needs positions
that lead forward is asked of it only under that condition, so it is kept wherever nodes are put
together (`Setting.leaves_composes`).
-/

namespace ByteSchema

mutual

/-- Where a node leaves off: where its last child does, or behind its own bytes if it has none. -/
def Node.cursor : Node → Int
  | ⟨_, _, _, range, _, _, children, _, _⟩ => cursorBehind range.stop children

/-- Where the last of the nodes leaves off; `start`, if there is none. -/
def cursorBehind (start : Int) : List Node → Int
  | [] => start
  | n :: rest => cursorBehind n.cursor rest

end

theorem Node.cursor_eq (n : Node) : n.cursor = cursorBehind n.range.stop n.children := by
  obtain ⟨id, name, label, range, endian, value, children, attributes, problems⟩ := n
  rw [Node.cursor]

theorem cursorBehind_of_ne_nil {nodes : List Node} (h : nodes ≠ []) (start other : Int) :
    cursorBehind start nodes = cursorBehind other nodes := by
  cases nodes with
  | nil => exact absurd rfl h
  | cons n rest => rw [cursorBehind, cursorBehind]

/-- A tree holds the children of its nodes. -/
theorem Node.mem_flatten_child {root n c : Node} (hn : n ∈ root.flatten) (hc : c ∈ n.children) :
    c ∈ root.flatten := by
  refine Node.flatten_subset root hn ?_
  rw [n.flatten_eq]
  exact List.mem_cons_of_mem _ (List.mem_flatMap.2 ⟨c, hc, c.mem_flatten_self⟩)

/-- The range of a node with children ends where they leave off, but not before it starts. -/
def Node.Measured (n : Node) : Prop :=
  n.children ≠ [] → n.range.stop = max n.range.start (cursorBehind n.range.start n.children)

/-- A node that does not leave off before it starts ends where it leaves off. -/
theorem Node.Measured.stop_eq_cursor {n : Node} (h : n.Measured)
    (onward : n.range.start ≤ n.cursor) : n.range.stop = n.cursor := by
  rw [n.cursor_eq] at onward ⊢
  by_cases hchildren : n.children = []
  · rw [hchildren, cursorBehind]
  · rw [cursorBehind_of_ne_nil hchildren n.range.stop n.range.start] at onward ⊢
    rw [h hchildren]
    exact Int.max_eq_right onward

/-- Each of the nodes starts no earlier than the one before leaves off, the first no earlier than
`start`, and leaves off no earlier than it starts. -/
inductive StepsOn : Int → List Node → Prop
  | nil {start : Int} : StepsOn start []
  | cons {start : Int} {n : Node} {rest : List Node} (ahead : start ≤ n.range.start)
      (onward : n.range.start ≤ n.cursor) (tail : StepsOn n.cursor rest) : StepsOn start (n :: rest)

/-- The children of the node step on from its start. -/
def Node.Advances (n : Node) : Prop := StepsOn n.range.start n.children

namespace StepsOn

variable {start : Int} {nodes : List Node}

theorem le_cursorBehind (h : StepsOn start nodes) : start ≤ cursorBehind start nodes := by
  induction h with
  | nil => exact Int.le_refl _
  | cons ahead onward _ ih =>
      rw [cursorBehind]
      omega

/-- Nodes that step on lie between the start and the place where the last one leaves off. -/
theorem between (h : StepsOn start nodes) (hnodes : ∀ n ∈ nodes, n.Measured) :
    ∀ n ∈ nodes, start ≤ n.range.start ∧ n.range.stop ≤ cursorBehind start nodes := by
  induction h with
  | nil => exact fun _ hn => absurd hn List.not_mem_nil
  | @cons start n rest ahead onward tail ih =>
      obtain ⟨hn, hrest⟩ := List.forall_mem_cons.1 hnodes
      rw [cursorBehind]
      refine List.forall_mem_cons.2 ⟨⟨ahead, ?_⟩, fun m hm => ?_⟩
      · rw [hn.stop_eq_cursor onward]
        exact tail.le_cursorBehind
      · obtain ⟨hstart, hstop⟩ := ih hrest m hm
        exact ⟨by omega, hstop⟩

end StepsOn

/-- A node whose children step on has them in its range. -/
theorem Node.Advances.spans {n : Node} (h : n.Advances) (hn : n.Measured)
    (hchildren : ∀ c ∈ n.children, c.Measured) :
    ∀ c ∈ n.children, n.range.start ≤ c.range.start ∧ c.range.stop ≤ n.range.stop := by
  intro c hc
  obtain ⟨hstart, hstop⟩ := h.between hchildren c hc
  have hle := h.le_cursorBehind
  have hend := hn (List.ne_nil_of_mem hc)
  exact ⟨hstart, by omega⟩

/-! ## Nodes one behind the other -/

theorem forall_flatten_singleton {P : Node → Prop} {n : Node} :
    (∀ m ∈ [n].flatMap Node.flatten, P m) ↔ ∀ m ∈ n.flatten, P m := by
  rw [List.flatMap_singleton]

/-- Nodes that are read from `start` on, the first of them there or where its position says, and
after which the next field is read at `next`. If all positions lead `forward`, they step on, and so
do the children of every node below. -/
structure Leaves (forward : Prop) (start : Int) (nodes : List Node) (next : Int) : Prop where
  next_eq : next = cursorBehind start nodes
  measured : ∀ n ∈ nodes.flatMap Node.flatten, n.Measured
  steps : forward → StepsOn start nodes
  advances : forward → ∀ n ∈ nodes.flatMap Node.flatten, n.Advances

namespace Leaves

variable {forward : Prop} {start next stop : Int} {n : Node} {nodes : List Node}

theorem nil : Leaves forward start [] start :=
  ⟨rfl, by simp, fun _ => .nil, by simp⟩

theorem cons (hn : Leaves forward start [n] next) (hrest : Leaves forward next nodes stop) :
    Leaves forward start (n :: nodes) stop := by
  obtain rfl : next = n.cursor := hn.next_eq
  refine ⟨hrest.next_eq, ?_, fun hforward => ?_, fun hforward => ?_⟩
  · exact forall_flatten_cons.2 ⟨forall_flatten_singleton.1 hn.measured, hrest.measured⟩
  · obtain - | ⟨ahead, onward, -⟩ := hn.steps hforward
    exact .cons ahead onward (hrest.steps hforward)
  · exact forall_flatten_cons.2
      ⟨forall_flatten_singleton.1 (hn.advances hforward), hrest.advances hforward⟩

/-- A single node can be read further on as well. -/
theorem moved {offset : Int} (h : Leaves forward offset [n] next) (hle : forward → start ≤ offset) :
    Leaves forward start [n] next := by
  refine ⟨h.next_eq, h.measured, fun hforward => ?_, h.advances⟩
  obtain - | ⟨ahead, onward, tail⟩ := h.steps hforward
  exact .cons (Int.le_trans (hle hforward) ahead) onward tail

/-- A node that is put around others, from its start to where they leave off. -/
theorem around (n : Node) (h : Leaves forward n.range.start n.children stop)
    (hlength : n.range.length = max 0 (stop - n.range.start)) :
    Leaves forward n.range.start [n] stop := by
  have hstop : n.range.stop = max n.range.start stop := by
    unfold Span.stop
    omega
  -- Without children the node is empty, and the cursor stays at its start.
  have hnext : stop = n.cursor := by
    rw [n.cursor_eq]
    by_cases hchildren : n.children = []
    · have hempty : stop = n.range.start := by rw [h.next_eq, hchildren, cursorBehind]
      rw [hchildren, cursorBehind, hstop, hempty, Int.max_self]
    · rw [h.next_eq, cursorBehind_of_ne_nil hchildren]
  have hmeasured : n.Measured := by
    intro _
    rw [hstop, h.next_eq]
  refine ⟨hnext, ?_, fun hforward => ?_, fun hforward => ?_⟩
  · exact forall_flatten_singleton.2 (Node.forall_flatten.2 ⟨hmeasured, h.measured⟩)
  · have hle : n.range.start ≤ stop := by
      rw [h.next_eq]
      exact (h.steps hforward).le_cursorBehind
    exact .cons (Int.le_refl _) (hnext ▸ hle) .nil
  · have hself : n.Advances := h.steps hforward
    exact forall_flatten_singleton.2 (Node.forall_flatten.2 ⟨hself, h.advances hforward⟩)

end Leaves

namespace Setting

variable {s : Setting} {R : Visit → Prop} {ctx : Context} {name : String} {o : Outcome}

theorem IsLeaf.leaves (h : s.IsLeaf ctx name o) (forward : Prop) :
    Leaves forward ctx.offset [o.node] o.next := by
  have hcursor : o.node.cursor = o.node.range.stop := by
    rw [o.node.cursor_eq, h.children_eq, cursorBehind]
  have hlength := h.holds.2.1
  have hmeasured : o.node.Measured := fun hne => absurd h.children_eq hne
  have hadvances : o.node.Advances := by
    unfold Node.Advances
    rw [h.children_eq]
    exact .nil
  refine ⟨by rw [h.next_eq]; exact hcursor.symm, ?_, fun _ => ?_, fun _ => ?_⟩
  · exact forall_flatten_singleton.2 ((Node.forall_flatten_of_leaf h.children_eq).2 hmeasured)
  · refine .cons (Int.le_of_eq h.start_eq.symm) ?_ .nil
    rw [hcursor]
    unfold Span.stop
    omega
  · exact forall_flatten_singleton.2 ((Node.forall_flatten_of_leaf h.children_eq).2 hadvances)

/-- At the places of `R`, no position of a field that is decoded leads back behind where the field
is reached. -/
def PlacesForward (s : Setting) (R : Visit → Prop) : Prop :=
  ∀ {depth : Nat} {outer : List Frame} {ctx : Context} {f : Field} {rest : List Field}
    {p : Progress} {offset : Int}, R ⟨depth, outer, ctx, .fields (f :: rest), p⟩ →
      (s.isPresent ctx f).Yields p true p → s.Places ctx f p offset → ctx.offset ≤ offset

/-- A position is all that can lead back. -/
theorem leaves_composes (hR : s.Keeps R) : s.Composes R (Leaves (s.PlacesForward R)) where
  keeps := hR
  nil := .nil
  cons := .cons
  leaf h := h.leaves _
  around n := .around n
  placed := by
    intro depth outer ctx ctx' f rest p n next hv hpresent hplaced h
    refine h.moved fun hforward => ?_
    rcases placed_cases hplaced with rfl | ⟨offset, hplaces, rfl⟩
    · exact Int.le_refl _
    · exact hforward hv hpresent hplaces

end Setting

namespace Schema

variable {schema : Schema} {options : Options} {buffer : Buffer} {result : Result} {root : Node}

/-- No position that the decode goes to leads back. -/
def PlacesForward (schema : Schema) (options : Options) (buffer : Buffer) : Prop :=
  (schema.setting options buffer).PlacesForward (schema.Reached options buffer)

/-- **Ranges and children.** The range of a node with children ends where they leave off, or is
empty if they leave off before its start. It spans the children if they step on, and where no
position leads back they do. -/
theorem range_of_children (h : schema.decode options buffer = .ok result)
    (hroot : result.root = some root) :
    ∀ n ∈ result.nodes, n.children ≠ [] →
      n.range.stop = max n.range.start (cursorBehind n.range.start n.children) ∧
      (n.Advances → ∀ c ∈ n.children,
        n.range.start ≤ c.range.start ∧ c.range.stop ≤ n.range.stop) ∧
      (schema.PlacesForward options buffer → n.Advances) := by
  obtain ⟨hnodes, next, hleaves⟩ :=
    composed (Setting.leaves_composes fun _ _ => .step) h hroot
  have hmeasured := forall_flatten_singleton.1 hleaves.measured
  intro n hn hne
  rw [hnodes] at hn
  refine ⟨hmeasured n hn hne, fun hadvances => ?_, fun hforward => ?_⟩
  · have hchildren : ∀ c ∈ n.children, c.Measured := fun c hc =>
      hmeasured c (Node.mem_flatten_child hn hc)
    exact hadvances.spans (hmeasured n hn) hchildren
  · exact forall_flatten_singleton.1 (hleaves.advances hforward) n hn

/-- The position of the last byte leads forward, so the root spans both. -/
theorem range_of_children_footer :
    ∃ result root, footer.decode {} [7, 8, 9] = .ok result ∧ result.root = some root ∧
      root ∈ result.nodes ∧ root.children ≠ [] ∧ root.Advances ∧ root.range = ⟨0, 3⟩ ∧
      root.range.stop = max root.range.start (cursorBehind root.range.start root.children) ∧
      (root.Advances → ∀ c ∈ root.children,
        root.range.start ≤ c.range.start ∧ c.range.stop ≤ root.range.stop) ∧
      (footer.PlacesForward {} [7, 8, 9] → root.Advances) := by
  refine ⟨_, _, rfl, rfl, List.mem_cons_self, List.cons_ne_nil _ _, ?_, rfl,
    range_of_children rfl rfl _ List.mem_cons_self (List.cons_ne_nil _ _)⟩
  exact .cons (by decide) (by decide) (.cons (by decide) (by decide) .nil)

/-- Two bytes, the second of which is read before the first. -/
def crossing : Schema where
  seq := some [
    { id := "a", type := .named "u1", position := .int 3 },
    { id := "b", type := .named "u1", position := .int 0 }]

/-- The range of the root ends behind the second byte, and the first is not in it. -/
theorem decode_crossing :
    ∃ result root c, crossing.decode {} [1, 2, 3, 4] = .ok result ∧ result.root = some root ∧
      c ∈ root.children ∧ root.range = ⟨0, 1⟩ ∧ c.range = ⟨3, 1⟩ ∧
      ¬ (root.range.start ≤ c.range.start ∧ c.range.stop ≤ root.range.stop) := by
  refine ⟨_, _, _, rfl, rfl, List.mem_cons_self, rfl, rfl, ?_⟩
  decide

end Schema

end ByteSchema
