import ByteSchema.Fault

/-!
# ByteSchema.Node

The output of decoding: a tree of nodes, each with the range of bytes that produced its value.
-/

namespace ByteSchema

/-- A range of bytes. -/
structure Span where
  start : Int
  length : Int
  deriving DecidableEq, Repr, Inhabited

namespace Span

/-- The offset behind the range. -/
def stop (s : Span) : Int := s.start + s.length

/-- Does the range hold the byte at `offset`? -/
def contains (s : Span) (offset : Int) : Bool := s.start ≤ offset && offset < s.stop

theorem contains_iff {s : Span} {offset : Int} :
    s.contains offset = true ↔ s.start ≤ offset ∧ offset < s.stop := by
  simp [contains]

end Span

/-- A decoded field, element or instance. -/
structure Node where
  /-- Dotted path from the root. -/
  id : String
  /-- Last part of the path. -/
  name : String
  /-- The type as reports show it. -/
  label : String
  range : Span
  endian : Option Endian := none
  value : Value
  children : List Node := []
  /-- Remarks, the encoding of a text, the kind of a repetition. -/
  attributes : Fields := []
  /-- Problems that were mended. -/
  problems : List Diagnostic := []
  deriving Inhabited

mutual

/-- A node and all nodes below it, each before those below it. -/
def Node.flatten : Node → List Node
  | ⟨id, name, label, range, endian, value, children, attributes, problems⟩ =>
      ⟨id, name, label, range, endian, value, children, attributes, problems⟩ :: flattenAll children

/-- Several nodes with all nodes below them. -/
def flattenAll : List Node → List Node
  | [] => []
  | n :: rest => n.flatten ++ flattenAll rest

end

theorem flattenAll_eq_flatMap (ns : List Node) : flattenAll ns = ns.flatMap Node.flatten := by
  induction ns with
  | nil => simp [flattenAll]
  | cons n rest ih => simp [flattenAll, ih]

theorem Node.flatten_eq (n : Node) : n.flatten = n :: n.children.flatMap Node.flatten := by
  obtain ⟨id, name, label, range, endian, value, children, attributes, problems⟩ := n
  simp [Node.flatten, flattenAll_eq_flatMap]

theorem Node.mem_flatten_self (n : Node) : n ∈ n.flatten := by simp [n.flatten_eq]

mutual

/-- A tree holds the trees of its nodes. -/
theorem Node.flatten_subset {n : Node} :
    ∀ root : Node, n ∈ root.flatten → n.flatten ⊆ root.flatten
  | ⟨id, name, label, range, endian, value, children, attributes, problems⟩, hn => by
      rw [Node.flatten] at hn
      rcases List.mem_cons.1 hn with rfl | hn
      · exact fun m hm => hm
      · rw [Node.flatten]
        exact fun m hm => List.mem_cons_of_mem _ (flattenAll_subset children hn hm)

theorem flattenAll_subset {n : Node} :
    ∀ ns : List Node, n ∈ flattenAll ns → n.flatten ⊆ flattenAll ns
  | [], hn => by
      rw [flattenAll] at hn
      exact absurd hn List.not_mem_nil
  | first :: rest, hn => by
      rw [flattenAll] at hn ⊢
      rcases List.mem_append.1 hn with hn | hn
      · exact fun m hm => List.mem_append_left _ (Node.flatten_subset first hn hm)
      · exact fun m hm => List.mem_append_right _ (flattenAll_subset rest hn hm)

end

/-- What decoding a buffer gives. -/
structure Result where
  /-- The root of the tree; none when decoding failed. -/
  root : Option Node := none
  /-- All nodes of the tree in pre-order. -/
  nodes : List Node := []
  warnings : List String := []
  errors : List Diagnostic := []
  deriving Inhabited

namespace Result

/-- Is there a tree and no error? -/
def success (r : Result) : Bool := r.root.isSome && r.errors.isEmpty

/-- The fields of the root. -/
def data (r : Result) : Fields :=
  match r.root with
  | some n => match n.value with
    | .record fields => fields
    | _ => []
  | none => []

/-- The offset behind the root. -/
def consumed (r : Result) : Int :=
  match r.root with
  | some n => n.range.stop
  | none => 0

end Result

end ByteSchema
