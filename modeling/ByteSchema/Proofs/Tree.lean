import ByteSchema.Proofs.Coherence

/-!
# ByteSchema.Proofs.Tree

The nodes of a tree by what they stand in: the fields of instances and the elements of arrays.

All nodes but the root are one or the other (`Node.perm_flatten`), and the values of the fields are
what the tree leaves in the table (`Node.written_perm`). The parts of an instance are the nodes that
have it as the nearest instance around.
-/

namespace ByteSchema

/-- Is the value that of an array? -/
def Value.isTuple : Value → Bool
  | .tuple _ => true
  | _ => false

namespace Node

/-- The nodes of a tree that stand right below one whose value is as asked for. -/
def childrenWhere (asked : Value → Bool) (n : Node) : List Node :=
  (n.flatten.filter fun m => asked m.value).flatMap children

/-- The fields of the instances in a tree. -/
def fieldNodes (n : Node) : List Node := n.childrenWhere Value.isRecord

/-- The elements of the arrays in a tree. -/
def elementNodes (n : Node) : List Node := n.childrenWhere Value.isTuple

/-- How the elements of an array are repeated, as its node says. -/
def repetition? (n : Node) : Option String :=
  match n.attributes.lookup "repeat" with
  | some (.str kind) => some kind
  | _ => none

theorem childrenWhere_eq (asked : Value → Bool) (n : Node) :
    n.childrenWhere asked = (if asked n.value then n.children else []) ++
      n.children.flatMap (childrenWhere asked) := by
  have hbelow : ((n.children.flatMap flatten).filter fun m => asked m.value).flatMap children =
      n.children.flatMap (childrenWhere asked) := by
    rw [List.filter_flatMap, List.flatMap_assoc]
    rfl
  rw [childrenWhere, flatten_eq, List.filter_cons]
  split
  · rw [List.flatMap_cons, hbelow]
  · rw [hbelow, List.nil_append]

end Node

theorem Setting.repetition?_arrayNode (ctx : Context) (f : Field) (r : Repetition)
    (items : List Node) (stop : Int) :
    (arrayNode ctx f r items stop).repetition? = some r.name := by
  have hlookup :
      (f.remarks ++ [("repeat", Value.str r.name)]).lookup "repeat" = some (.str r.name) := by
    unfold Field.remarks
    split <;> rfl
  change (arrayNode ctx f r items stop).attributes.lookup "repeat" = some (.str r.name) at hlookup
  unfold Node.repetition?
  rw [hlookup]

mutual

/-- Below a node there are its children, and the children of the nodes below. -/
theorem Node.perm_below : ∀ n : Node,
    (flattenAll n.children).Perm (n.flatten.flatMap Node.children)
  | ⟨id, name, label, range, endian, value, children, attributes, problems⟩ => by
      rw [Node.flatten, List.flatMap_cons]
      exact perm_flattenAll children

theorem perm_flattenAll : ∀ ns : List Node,
    (flattenAll ns).Perm (ns ++ (flattenAll ns).flatMap Node.children)
  | [] => .refl _
  | c :: rest => by
      have hbelow := (c.perm_below.append (perm_flattenAll rest)).trans
        (List.perm_append_comm_assoc _ _ _)
      have hflatten : c.flatten = c :: flattenAll c.children := by
        rw [c.flatten_eq, flattenAll_eq_flatMap]
      rw [flattenAll, List.flatMap_append, List.cons_append]
      refine List.Perm.trans ?_ (hbelow.cons c)
      rw [hflatten, List.cons_append]

end

/-- A tree consists of its root, fields and elements. -/
theorem Node.perm_flatten {n : Node} (h : ∀ m ∈ n.flatten, m.Coherent) :
    n.flatten.Perm (n :: (n.fieldNodes ++ n.elementNodes)) := by
  have hflatten : n.flatten = n :: flattenAll n.children := by
    rw [n.flatten_eq, flattenAll_eq_flatMap]
  -- A node that is neither an instance nor an array has no children.
  have hothers : ∀ ms : List Node, (∀ m ∈ ms, m.Coherent) →
      (ms.filter fun m => !m.value.isRecord).flatMap children =
        (ms.filter fun m => m.value.isTuple).flatMap children := by
    intro ms hms
    induction ms with
    | nil => rfl
    | cons m rest ih =>
        have hm := hms m List.mem_cons_self
        have hrest := ih fun k hk => hms k (List.mem_cons_of_mem m hk)
        unfold Coherent at hm
        split at hm
        case h_1 hvalue => simpa [List.filter_cons, hvalue, Value.isRecord, Value.isTuple] using hrest
        case h_2 hvalue => simpa [List.filter_cons, hvalue, Value.isRecord, Value.isTuple] using hrest
        case h_3 hrecord htuple =>
            have hnone : m.value.isRecord = false ∧ m.value.isTuple = false := by
              cases hvalue : m.value <;> simp_all [Value.isRecord, Value.isTuple]
            simpa [List.filter_cons, hnone, hm] using hrest
  have hsplit := (List.filter_append_perm (fun m : Node => m.value.isRecord) n.flatten).flatMap_right
    children
  rw [List.flatMap_append, hothers n.flatten h] at hsplit
  rw [hflatten]
  exact (n.perm_below.trans hsplit.symm).cons n

mutual

/-- What a tree writes is the values of its fields. -/
theorem Node.written_perm : ∀ n : Node,
    n.written.Perm (n.fieldNodes.map fun m => (m.id, m.value))
  | ⟨id, name, label, range, endian, value, children, attributes, problems⟩ => by
      rw [Node.fieldNodes, Node.childrenWhere_eq]
      exact writtenAll_perm value.isRecord children

theorem writtenAll_perm (recorded : Bool) : ∀ ns : List Node,
    (writtenAll recorded ns).Perm
      (((if recorded then ns else []) ++ ns.flatMap Node.fieldNodes).map fun m => (m.id, m.value))
  | [] => by cases recorded <;> exact .refl _
  | c :: rest => by
      have hboth := c.written_perm.append (writtenAll_perm recorded rest)
      rw [writtenAll]
      cases recorded with
      | false => simpa using hboth
      | true =>
          rw [List.map_append] at hboth
          have hentry := (List.perm_middle.trans
            ((hboth.trans (List.perm_append_comm_assoc _ _ _)).cons (c.id, c.value)))
          simpa using hentry

end

/-! ## The parts of an instance -/

namespace Node

/-- A field, and if it is an array its elements. -/
def withElements (c : Node) : List Node := if c.value.isTuple then c :: c.children else [c]

/-- The fields of an instance, and the elements of those that are arrays. -/
def parts (m : Node) : List Node := m.children.flatMap withElements

theorem mem_withElements_self (c : Node) : c ∈ c.withElements := by
  unfold withElements
  split <;> exact List.mem_cons_self

/-- Every node below the root stands right below another one. -/
theorem exists_parent {root n : Node} (h : n ∈ root.children.flatMap flatten) :
    ∃ q ∈ root.flatten, n ∈ q.children := by
  rw [← flattenAll_eq_flatMap] at h
  exact List.mem_flatMap.1 (root.perm_below.mem_iff.1 h)

/-- In a tree whose arrays hold no arrays, every node below the root is a part of an instance. -/
theorem exists_instance {root n : Node} (hroot : root.value.isRecord = true)
    (hleaf : ∀ q ∈ root.flatten, q.value.isComposite = false → q.children = [])
    (harray : ∀ q ∈ root.flatten, q.value.isTuple = true →
      ∀ c ∈ q.children, c.value.isTuple = false)
    (h : n ∈ root.children.flatMap flatten) :
    ∃ m ∈ root.flatten, m.value.isRecord = true ∧ n ∈ m.parts := by
  have hcases (v : Value) :
      v.isRecord = true ∨ v.isTuple = true ∨ v.isComposite = false := by
    cases v <;> simp [Value.isRecord, Value.isTuple, Value.isComposite]
  obtain ⟨q, hq, hn⟩ := exists_parent h
  rcases hcases q.value with hrecord | htuple | hscalar
  · exact ⟨q, hq, hrecord, List.mem_flatMap.2 ⟨n, hn, n.mem_withElements_self⟩⟩
  · -- The array itself is a field of an instance.
    rw [flatten_eq] at hq
    rcases List.mem_cons.1 hq with rfl | hq
    · cases hvalue : q.value <;> simp_all [Value.isRecord, Value.isTuple]
    obtain ⟨m, hm, hqm⟩ := exists_parent hq
    rcases hcases m.value with hrecord | hmtuple | hscalar
    · have hmem : n ∈ q.withElements := by
        rw [withElements, if_pos htuple]
        exact List.mem_cons_of_mem q hn
      exact ⟨m, hm, hrecord, List.mem_flatMap.2 ⟨q, hqm, hmem⟩⟩
    · rw [harray m hm hmtuple q hqm] at htuple
      cases htuple
    · rw [hleaf m hm hscalar] at hqm
      cases hqm
  · rw [hleaf q hq hscalar] at hn
    cases hn

end Node

end ByteSchema
