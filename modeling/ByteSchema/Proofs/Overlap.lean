import ByteSchema.Lookup
import Mathlib.Order.MinMax

/-!
# ByteSchema.Proofs.Overlap

The nodes that overlap a range of bytes.

A query compares the ends of ranges only. If the range that is asked for has bytes, this finds the
nodes that hold one of them, for the larger of two starts is a common byte if there is any
(`Span.meets_iff`). A range without bytes has none in common with anything; there the comparison
finds the nodes that go on from the byte in front of it to the byte behind it
(`Span.answers_of_empty`).

Either way a range may be asked for in two parts (`Span.answers_add`).
-/

namespace ByteSchema

namespace Span

variable {s : Span} {start stop length more : Int}

/-- The range holds a byte between two offsets. -/
def Meets (s : Span) (start stop : Int) : Prop :=
  ∃ offset, start ≤ offset ∧ offset < stop ∧ s.contains offset = true

theorem meets_iff : s.Meets start stop ↔ max start s.start < min stop s.stop := by
  constructor
  · rintro ⟨offset, hstart, hstop, hcontains⟩
    obtain ⟨hfirst, hlast⟩ := contains_iff.1 hcontains
    exact lt_of_le_of_lt (max_le hstart hfirst) (lt_min hstop hlast)
  · intro h
    obtain ⟨hstop, hlast⟩ := lt_min_iff.1 h
    exact ⟨max start s.start, le_max_left _ _, hstop, contains_iff.2 ⟨le_max_right _ _, hlast⟩⟩

instance : Decidable (s.Meets start stop) := decidable_of_iff _ meets_iff.symm

/-- What a query for the `length` bytes from `start` on asks of a range: that it is not empty, and
starts before the other one stops. -/
def Answers (s : Span) (start length : Int) : Prop :=
  0 < s.length ∧ s.start < start + length ∧ start < s.stop

/-- Where there are bytes to ask for, the range has to hold one of them. -/
theorem answers_of_pos (h : 0 < length) :
    s.Answers start length ↔ s.Meets start (start + length) := by
  rw [meets_iff, max_lt_iff, lt_min_iff, lt_min_iff]
  unfold Answers stop
  omega

/-- Where there are none, it has to hold the byte in front and the byte behind. -/
theorem answers_of_empty (h : length ≤ 0) : s.Answers start length ↔
    s.contains (start + length - 1) = true ∧ s.contains start = true := by
  rw [contains_iff, contains_iff]
  unfold Answers stop
  omega

/-- The bytes may be asked for in two parts, of which one or both may be empty. -/
theorem answers_add (hlength : 0 ≤ length) (hmore : 0 ≤ more) :
    s.Answers start (length + more) ↔
      s.Answers start length ∨ s.Answers (start + length) more := by
  unfold Answers stop
  omega

end Span

variable {nodes : List Node} {n : Node} {start length more : Int}

theorem nodesInRange_eq_filter {p : Node → Prop} [DecidablePred p]
    (h : ∀ n : Node, n.range.Answers start length ↔ p n) :
    nodesInRange nodes start length = nodes.filter p := by
  refine List.filter_congr fun n _ => ?_
  rw [Bool.eq_iff_iff, decide_eq_true_iff, ← h n, Span.Answers]
  simp [and_assoc]

theorem mem_nodesInRange :
    n ∈ nodesInRange nodes start length ↔ n ∈ nodes ∧ n.range.Answers start length := by
  simp [nodesInRange, Span.Answers, and_assoc]

/-- **The nodes of a range.** A query for at least one byte gives the nodes that hold one of the
bytes, in their order. A query for none gives the nodes that hold the byte in front of the place and
the byte behind it. Asked for in two parts, the same nodes are found. -/
theorem nodesInRange_meets (nodes : List Node) (start length : Int) :
    (0 < length → nodesInRange nodes start length =
      nodes.filter fun n => n.range.Meets start (start + length)) ∧
    (length ≤ 0 → nodesInRange nodes start length =
      nodes.filter fun n => n.range.contains (start + length - 1) ∧ n.range.contains start) ∧
    ∀ more n, 0 ≤ length → 0 ≤ more → (n ∈ nodesInRange nodes start (length + more) ↔
      n ∈ nodesInRange nodes start length ∨ n ∈ nodesInRange nodes (start + length) more) := by
  refine ⟨fun hpos => ?_, fun hempty => ?_, fun more n hlength hmore => ?_⟩
  · exact nodesInRange_eq_filter fun n => Span.answers_of_pos hpos
  · exact nodesInRange_eq_filter fun n => Span.answers_of_empty hempty
  · rw [mem_nodesInRange, mem_nodesInRange, mem_nodesInRange, Span.answers_add hlength hmore,
      and_or_left]

/-- A header of two bytes, and a body of two bytes behind it. -/
def headerAndBody : List Node := [
  { id := "r.h", name := "h", label := "u2", range := ⟨0, 2⟩, value := .int 1 },
  { id := "r.b", name := "b", label := "u2", range := ⟨2, 2⟩, value := .int 2 }]

theorem nodesInRange_meets_header :
    (0 : Int) < 2 ∧ (0 : Int) ≤ 0 ∧ (0 : Int) ≤ 2 ∧
      nodesInRange headerAndBody 1 2 =
        (headerAndBody.filter fun n => n.range.Meets 1 (1 + 2)) ∧
      nodesInRange headerAndBody 2 0 =
        (headerAndBody.filter fun n => n.range.contains (2 + 0 - 1) ∧ n.range.contains 2) ∧
      ∀ n, n ∈ nodesInRange headerAndBody 1 (2 + 2) ↔
        n ∈ nodesInRange headerAndBody 1 2 ∨ n ∈ nodesInRange headerAndBody (1 + 2) 2 :=
  ⟨by decide, by decide, by decide, (nodesInRange_meets headerAndBody 1 2).1 (by decide),
    (nodesInRange_meets headerAndBody 2 0).2.1 (by decide),
    fun n => (nodesInRange_meets headerAndBody 1 2).2.2 2 n (by decide) (by decide)⟩

/-- A query for no bytes finds a node that goes on across the place, although the node has no byte
in common with what was asked for. -/
theorem nodesInRange_across :
    (nodesInRange headerAndBody 1 0).map Node.id = ["r.h"] ∧
      ∀ n ∈ headerAndBody, 0 ≤ n.range.length ∧
        ¬ ∃ offset, 1 ≤ offset ∧ offset < 1 + 0 ∧ n.range.contains offset = true := by
  refine ⟨by decide, fun n hn => ⟨?_, ?_⟩⟩
  · revert n
    decide
  · rintro ⟨offset, hstart, hstop, -⟩
    omega

end ByteSchema
