import ByteSchema.Proofs.Tightest
import ByteSchema.Proofs.Tiling

/-!
# ByteSchema.Proofs.Attribution

In a tree that tiles what it consumes, each consumed byte is attributed to the leaf that holds it.

A leaf owns a byte among some nodes when no other leaf holds it and a search finds it (`Owns`). On
the way up the tree a leaf keeps its bytes: the node above it is no tighter and is listed in front
(`Owns.below`), and the nodes beside it do not hold them (`Owns.append`, `Owns.prepend`), since
every node lies between the ends of the row that it is in (`bounds_flattenAll`).
-/

namespace ByteSchema

theorem Span.contains_eq_false {s : Span} {offset : Int} :
    s.contains offset = false ↔ offset < s.start ∨ s.stop ≤ offset := by
  rw [Bool.eq_false_iff, Ne, contains_iff]
  omega

/-- The nodes without children that hold the byte at `offset`. -/
def leavesAt (offset : Int) (nodes : List Node) : List Node :=
  nodes.filter fun n => n.children.isEmpty && n.range.contains offset

theorem leavesAt_append (offset : Int) (ns ms : List Node) :
    leavesAt offset (ns ++ ms) = leavesAt offset ns ++ leavesAt offset ms := by
  simp [leavesAt]

theorem leavesAt_eq_nil {offset : Int} {nodes : List Node}
    (h : ∀ n ∈ nodes, n.range.contains offset = false) : leavesAt offset nodes = [] := by
  refine List.filter_eq_nil_iff.2 fun n hn => ?_
  simp [h n hn]

/-! ## Every node lies between the ends of its row -/

mutual

theorem Node.bounds_flatten (b : Buffer) :
    ∀ n : Node, (∀ m ∈ n.flatten, m.Tiled b) →
      ∀ m ∈ n.flatten, n.range.start ≤ m.range.start ∧ m.range.stop ≤ n.range.stop
  | ⟨id, name, label, range, endian, value, children, attributes, problems⟩, h, m, hm => by
      have hself := h _ (Node.mem_flatten_self _)
      rw [Node.flatten] at hm h
      rcases List.mem_cons.1 hm with rfl | hm
      · exact ⟨le_rfl, le_rfl⟩
      · have hne : children ≠ [] := by
          rintro rfl
          simp [flattenAll] at hm
        exact bounds_flattenAll b children (hself.children (.inl hne))
          (fun k hk => h k (List.mem_cons_of_mem _ hk)) m hm

theorem bounds_flattenAll (b : Buffer) :
    ∀ (ns : List Node) {start stop : Int}, Tiles start ns stop → (∀ m ∈ flattenAll ns, m.Tiled b) →
      ∀ m ∈ flattenAll ns, start ≤ m.range.start ∧ m.range.stop ≤ stop
  | [], _, _, .nil, _, m, hm => by simp [flattenAll] at hm
  | n :: rest, start, stop, .cons hstart hrest, h, m, hm => by
      obtain ⟨hn, hns⟩ := forall_flattenAll_cons.1 h
      have hlength := (hn n n.mem_flatten_self).holds.2.1
      have hle : n.range.stop ≤ stop := hrest.le_of_flattenAll hns
      have hstop : n.range.stop = n.range.start + n.range.length := rfl
      rw [flattenAll] at hm
      rcases List.mem_append.1 hm with hm | hm
      · obtain ⟨hfrom, hto⟩ := n.bounds_flatten b hn m hm
        omega
      · obtain ⟨hfrom, hto⟩ := bounds_flattenAll b rest hrest hns m hm
        omega

end

/-! ## A leaf keeps its bytes on the way up -/

/-- Among `nodes` the byte at `offset` belongs to `leaf`: no other node without children holds it,
and a search for it finds `leaf`. -/
structure Owns (offset : Int) (nodes : List Node) (leaf : Node) : Prop where
  leaves_eq : leavesAt offset nodes = [leaf]
  found : Finds offset nodes (some leaf)

namespace Owns

variable {offset : Int} {nodes others : List Node} {n leaf : Node}

theorem self (hleaf : n.children = []) (hcontains : n.range.contains offset = true) :
    Owns offset [n] n where
  leaves_eq := by simp [leavesAt, hleaf, hcontains]
  found := Finds.some_iff.2 ⟨[], [], rfl, hcontains, by simp, by simp⟩

/-- A node with children does not take the byte from a leaf that lies in it. -/
theorem below (h : Owns offset nodes leaf) (hn : n.children ≠ [])
    (hstart : n.range.start ≤ leaf.range.start) (hstop : leaf.range.stop ≤ n.range.stop) :
    Owns offset (n :: nodes) leaf where
  leaves_eq := by simpa [leavesAt, hn] using h.leaves_eq
  found := by
    obtain ⟨front, back, rfl, hcontains, hfront, hback⟩ := Finds.some_iff.1 h.found
    have hle : leaf.range.rank ≤ n.range.rank := by
      unfold Span.stop at hstop
      exact Span.rank_le_iff.2 (by omega)
    exact Finds.some_iff.2
      ⟨n :: front, back, rfl, hcontains, List.forall_mem_cons.2 ⟨fun _ => hle, hfront⟩, hback⟩

/-- Nodes behind that do not hold the byte do not take it. -/
theorem append (h : Owns offset nodes leaf)
    (hothers : ∀ m ∈ others, m.range.contains offset = false) :
    Owns offset (nodes ++ others) leaf where
  leaves_eq := by rw [leavesAt_append, h.leaves_eq, leavesAt_eq_nil hothers, List.append_nil]
  found := by
    obtain ⟨front, back, rfl, hcontains, hfront, hback⟩ := Finds.some_iff.1 h.found
    rw [List.append_assoc, List.cons_append]
    refine .at hcontains hfront (List.forall_mem_append.2 ⟨hback, fun m hm hmo => ?_⟩)
    rw [hothers m hm] at hmo
    cases hmo

/-- Nor do nodes in front. -/
theorem prepend (h : Owns offset nodes leaf)
    (hothers : ∀ m ∈ others, m.range.contains offset = false) :
    Owns offset (others ++ nodes) leaf where
  leaves_eq := by rw [leavesAt_append, h.leaves_eq, leavesAt_eq_nil hothers, List.nil_append]
  found := by
    obtain ⟨front, back, rfl, hcontains, hfront, hback⟩ := Finds.some_iff.1 h.found
    rw [← List.append_assoc]
    refine .at hcontains (List.forall_mem_append.2 ⟨fun m hm hmo => ?_, hfront⟩) hback
    rw [hothers m hm] at hmo
    cases hmo

end Owns

mutual

/-- A byte in a tiled tree belongs to one of its leaves. -/
theorem Node.exists_owns (b : Buffer) (offset : Int) :
    ∀ n : Node, (∀ m ∈ n.flatten, m.Tiled b) → n.range.contains offset = true →
      ∃ leaf, Owns offset n.flatten leaf
  | ⟨id, name, label, range, endian, value, children, attributes, problems⟩, h, hoffset => by
      have hself := h _ (Node.mem_flatten_self _)
      rw [Node.flatten] at h ⊢
      cases children with
      | nil => exact ⟨_, .self rfl hoffset⟩
      | cons c rest =>
          have htiles := hself.children (.inl (List.cons_ne_nil c rest))
          have hbelow : ∀ m ∈ flattenAll (c :: rest), m.Tiled b :=
            fun m hm => h m (List.mem_cons_of_mem _ hm)
          obtain ⟨hfrom, hto⟩ := Span.contains_iff.1 hoffset
          obtain ⟨leaf, howns⟩ := exists_owns_flattenAll b offset _ htiles hbelow hfrom hto
          obtain ⟨hstart, hstop⟩ := bounds_flattenAll b _ htiles hbelow leaf howns.found.mem
          exact ⟨leaf, howns.below (List.cons_ne_nil c rest) hstart hstop⟩

/-- A byte between the ends of a row of tiled trees belongs to one of their leaves. -/
theorem exists_owns_flattenAll (b : Buffer) (offset : Int) :
    ∀ (ns : List Node) {start stop : Int}, Tiles start ns stop → (∀ m ∈ flattenAll ns, m.Tiled b) →
      start ≤ offset → offset < stop → ∃ leaf, Owns offset (flattenAll ns) leaf
  | [], _, _, .nil, _, hfrom, hto => by omega
  | n :: rest, start, stop, .cons hstart hrest, h, hfrom, hto => by
      obtain ⟨hn, hns⟩ := forall_flattenAll_cons.1 h
      rw [flattenAll]
      by_cases hin : offset < n.range.stop
      · -- The byte is in the first tree, and the other trees lie behind it.
        have hcontains := Span.contains_iff.2 ⟨hstart ▸ hfrom, hin⟩
        obtain ⟨leaf, howns⟩ := n.exists_owns b offset hn hcontains
        refine ⟨leaf, howns.append fun m hm => ?_⟩
        obtain ⟨hbound, -⟩ := bounds_flattenAll b rest hrest hns m hm
        exact Span.contains_eq_false.2 (.inl (by omega))
      · have hfrom : n.range.stop ≤ offset := by omega
        obtain ⟨leaf, howns⟩ := exists_owns_flattenAll b offset rest hrest hns hfrom hto
        refine ⟨leaf, howns.prepend fun m hm => ?_⟩
        obtain ⟨-, hbound⟩ := n.bounds_flatten b hn m hm
        exact Span.contains_eq_false.2 (.inr (by omega))

end

/-- A byte that a tiled tree does not hold is held by none of its nodes. -/
theorem Node.not_contains_flatten {b : Buffer} {n : Node} {offset : Int}
    (h : ∀ m ∈ n.flatten, m.Tiled b) (hn : n.range.contains offset = false) :
    ∀ m ∈ n.flatten, m.range.contains offset = false := by
  intro m hm
  obtain ⟨hstart, hstop⟩ := n.bounds_flatten b h m hm
  rw [Span.contains_eq_false] at hn ⊢
  omega

/-- **Attribution.** When no field has a position and the decode succeeds, a search finds a node for
exactly the bytes that are consumed, and what it finds is the only node without children that holds
the byte. -/
theorem Schema.decode_attributes {schema : Schema} {options : Options} {buffer : Buffer}
    {result : Result} (hpos : ∀ f ∈ schema.fields, f.position = .null)
    (h : schema.decode options buffer = .ok result) (hsuccess : result.success = true)
    (offset : Int) :
    (nodeAt result.nodes offset = none ↔ offset < 0 ∨ result.consumed ≤ offset) ∧
      ∀ n, nodeAt result.nodes offset = some n →
        (result.nodes.filter fun m => m.children.isEmpty && m.range.contains offset) = [n] := by
  obtain ⟨root, hroot⟩ := Result.exists_root hsuccess
  obtain ⟨definition, o, p, hdefinition, hrun, rfl⟩ := decode_inv h hroot
  cases hroot
  have hfits : o.Fits buffer 0 :=
    Setting.decodeInstance_fits hrun (rootInstance_every hdefinition hpos)
      ⟨Int.le_refl _, Int.natCast_nonneg _⟩
  have hstart := hfits.start_eq
  cases hoffset : o.node.range.contains offset with
  | false =>
      have hnone := nodeAt_eq_none_iff.2 (Node.not_contains_flatten hfits.tiled hoffset)
      rw [Span.contains_eq_false, hstart] at hoffset
      refine ⟨?_, by simp [hnone]⟩
      simp only [Result.consumed, hnone, true_iff]
      omega
  | true =>
      obtain ⟨leaf, howns⟩ := o.node.exists_owns buffer offset hfits.tiled hoffset
      have hfound := nodeAt_eq_some_iff.2 howns.found
      rw [Span.contains_iff, hstart] at hoffset
      refine ⟨?_, ?_⟩
      · simp only [Result.consumed, hfound, reduceCtorEq, false_iff]
        omega
      · intro n hn
        obtain rfl := Option.some.inj (hfound.symm.trans hn)
        exact howns.leaves_eq

/-- A box in a box of the same bytes: nothing, and two rows of two cells. -/
def Schema.boxes : Schema where
  info := { id := some "boxes" }
  seq := some [{ id := "box", type := .named "box" }]
  types := [
    ("box", { seq := [
      { id := "lid", size := .int 0 },
      { id := "rows", type := .named "row", repetition := some (.count (.int 2)) }] }),
    ("row", { seq := [
      { id := "cells", type := .named "u1", repetition := some (.count (.int 2)) }] })]

theorem Schema.decode_attributes_boxes :
    (∀ f ∈ boxes.fields, f.position = .null) ∧
      ∃ result, boxes.decode {} [1, 2, 3, 4, 5] = .ok result ∧ result.success = true ∧
        ∀ offset : Int,
          (nodeAt result.nodes offset = none ↔ offset < 0 ∨ result.consumed ≤ offset) ∧
          ∀ n, nodeAt result.nodes offset = some n →
            (result.nodes.filter fun m => m.children.isEmpty && m.range.contains offset) = [n] := by
  have hpos : ∀ f ∈ boxes.fields, f.position = .null := by
    simp [boxes, fields, fieldsIn, TypeDef.fields]
  have hrun : boxes.succeeds {} [1, 2, 3, 4, 5] = true := by decide +kernel
  obtain ⟨result, h, hsuccess⟩ := exists_of_succeeds hrun
  exact ⟨hpos, result, h, hsuccess, decode_attributes hpos h hsuccess⟩

end ByteSchema
