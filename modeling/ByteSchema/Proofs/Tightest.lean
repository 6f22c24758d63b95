import ByteSchema.Lookup
import Mathlib.Data.Prod.Lex

/-!
# ByteSchema.Proofs.Tightest

The node of a byte is the least of the nodes that hold it.

Nodes are ranked by the length of their range and then by its start (`Span.rank`). Which node a
search has to find is said without the search, by a cut of the list at that node (`Finds`): nodes in
front may share its rank, nodes behind it may not. One more node at the end of the list keeps this
(`Finds.snoc`), so the search keeps it over the whole list (`finds_tightest`).
-/

namespace ByteSchema

/-- The rank of a range among those that hold a byte: by length, and of equal lengths by start. -/
def Span.rank (s : Span) : ℤ ×ₗ ℤ := toLex (s.length, s.start)

theorem Span.rank_le_iff {s t : Span} :
    s.rank ≤ t.rank ↔ s.length < t.length ∨ s.length = t.length ∧ s.start ≤ t.start := by
  simp only [Span.rank, Prod.Lex.toLex_le_toLex]

theorem isTighter_iff {n best : Node} :
    isTighter n best = true ↔ n.range.rank ≤ best.range.rank := by
  simp [isTighter, Span.rank_le_iff]

/-- What a search for the byte at `offset` finds in a list of nodes: nothing if none of them holds
the byte, else the node of least rank that does, and of several the last one. -/
inductive Finds (offset : Int) : List Node → Option Node → Prop
  | nowhere {nodes : List Node} (hnone : ∀ n ∈ nodes, n.range.contains offset = false) :
      Finds offset nodes none
  | at {front back : List Node} {n : Node} (hcontains : n.range.contains offset = true)
      (hfront : ∀ m ∈ front, m.range.contains offset = true → n.range.rank ≤ m.range.rank)
      (hback : ∀ m ∈ back, m.range.contains offset = true → n.range.rank < m.range.rank) :
      Finds offset (front ++ n :: back) (some n)

namespace Finds

variable {offset : Int} {nodes : List Node} {n : Node} {best : Option Node}

theorem none_iff : Finds offset nodes none ↔ ∀ n ∈ nodes, n.range.contains offset = false :=
  ⟨fun | nowhere hnone => hnone, nowhere⟩

theorem some_iff : Finds offset nodes (some n) ↔ ∃ front back, nodes = front ++ n :: back ∧
    n.range.contains offset = true ∧
    (∀ m ∈ front, m.range.contains offset = true → n.range.rank ≤ m.range.rank) ∧
    ∀ m ∈ back, m.range.contains offset = true → n.range.rank < m.range.rank :=
  ⟨fun | «at» hcontains hfront hback => ⟨_, _, rfl, hcontains, hfront, hback⟩,
    fun ⟨_, _, heq, hcontains, hfront, hback⟩ => heq ▸ «at» hcontains hfront hback⟩

theorem contains (h : Finds offset nodes (some n)) : n.range.contains offset = true := by
  obtain ⟨_, _, -, hcontains, -, -⟩ := some_iff.1 h
  exact hcontains

theorem mem (h : Finds offset nodes (some n)) : n ∈ nodes := by
  obtain ⟨front, back, rfl, -⟩ := some_iff.1 h
  simp

/-- Two cuts of a list at what a search finds are the same cut: of two different ones, the earlier
node would have to rank both not above and above the later one. -/
theorem unique {m : Node} (hn : Finds offset nodes (some n)) (hm : Finds offset nodes (some m)) :
    n = m := by
  obtain ⟨front, back, rfl, hno, hnfront, hnback⟩ := some_iff.1 hn
  obtain ⟨front', back', heq, hmo, hmfront, hmback⟩ := some_iff.1 hm
  obtain ⟨between, rfl, hrest⟩ | ⟨between, rfl, hrest⟩ := List.append_eq_append_iff.1 heq
  · obtain ⟨-, hcut⟩ | ⟨rest, rfl, rfl⟩ := List.cons_eq_append_iff.1 hrest
    · exact (List.cons.inj hcut).1.symm
    · exact absurd (hmfront n (by simp) hno) (not_le_of_gt (hnback m (by simp) hmo))
  · obtain ⟨-, hcut⟩ | ⟨rest, rfl, rfl⟩ := List.cons_eq_append_iff.1 hrest
    · exact (List.cons.inj hcut).1
    · exact absurd (hnfront m (by simp) hmo) (not_le_of_gt (hmback n (by simp) hno))

/-- A node that does not hold the byte changes nothing, wherever it is listed last. -/
theorem snoc_outside (h : Finds offset nodes best) (hn : n.range.contains offset = false) :
    Finds offset (nodes ++ [n]) best := by
  cases h with
  | nowhere hnone =>
      refine nowhere fun m hm => ?_
      rcases List.mem_append.1 hm with hm | hm
      · exact hnone m hm
      · rwa [List.mem_singleton.1 hm]
  | «at» hcontains hfront hback =>
      rw [List.append_assoc, List.cons_append]
      refine «at» hcontains hfront fun m hm hmo => ?_
      rcases List.mem_append.1 hm with hm | hm
      · exact hback m hm hmo
      · rw [List.mem_singleton.1 hm, hn] at hmo
        cases hmo

/-- A node that holds the byte is found behind a list in which none holds it. -/
theorem snoc_first (h : Finds offset nodes none) (hn : n.range.contains offset = true) :
    Finds offset (nodes ++ [n]) (some n) := by
  refine «at» hn (fun m hm hmo => ?_) (by simp)
  rw [none_iff.1 h m hm] at hmo
  cases hmo

/-- A node that ranks no higher than what was found takes its place. -/
theorem snoc_tighter {m : Node} (h : Finds offset nodes (some m))
    (hn : n.range.contains offset = true) (hle : n.range.rank ≤ m.range.rank) :
    Finds offset (nodes ++ [n]) (some n) := by
  obtain ⟨front, back, rfl, -, hfront, hback⟩ := some_iff.1 h
  refine «at» hn (fun k hk hko => hle.trans ?_) (by simp)
  rcases List.mem_append.1 hk with hk | hk
  · exact hfront k hk hko
  · rcases List.mem_cons.1 hk with rfl | hk
    · exact le_rfl
    · exact (hback k hk hko).le

/-- A node that ranks higher does not. -/
theorem snoc_wider {m : Node} (h : Finds offset nodes (some m))
    (hlt : m.range.rank < n.range.rank) : Finds offset (nodes ++ [n]) (some m) := by
  obtain ⟨front, back, rfl, hcontains, hfront, hback⟩ := some_iff.1 h
  rw [List.append_assoc, List.cons_append]
  refine «at» hcontains hfront fun k hk hko => ?_
  rcases List.mem_append.1 hk with hk | hk
  · exact hback k hk hko
  · rwa [List.mem_singleton.1 hk]

/-- Searching on in more nodes from what was found so far: each node is one more at the end. -/
theorem tightest {rest : List Node} (h : Finds offset nodes best) :
    Finds offset (nodes ++ rest) (tightest offset best rest) := by
  induction rest generalizing nodes best with
  | nil => simpa [ByteSchema.tightest] using h
  | cons n rest ih =>
      rw [List.append_cons]
      cases hn : n.range.contains offset with
      | false => simpa [ByteSchema.tightest, hn] using ih (h.snoc_outside hn)
      | true =>
          cases best with
          | none => simpa [ByteSchema.tightest, hn] using ih (h.snoc_first hn)
          | some m =>
              by_cases hle : n.range.rank ≤ m.range.rank
              · simpa [ByteSchema.tightest, hn, isTighter_iff.2 hle] using
                  ih (h.snoc_tighter hn hle)
              · have hwider : ¬ isTighter n m = true := mt isTighter_iff.1 hle
                simpa [ByteSchema.tightest, hn, hwider] using ih (h.snoc_wider (lt_of_not_ge hle))

end Finds

theorem finds_nodeAt (nodes : List Node) (offset : Int) :
    Finds offset nodes (nodeAt nodes offset) := by
  have hnil : Finds offset [] none := .nowhere (by simp)
  exact hnil.tightest

/-- What a search has to find is what it finds. -/
theorem nodeAt_eq_some_iff {nodes : List Node} {offset : Int} {n : Node} :
    nodeAt nodes offset = some n ↔ Finds offset nodes (some n) := by
  have hfinds := finds_nodeAt nodes offset
  constructor
  · intro h
    rwa [h] at hfinds
  · intro h
    cases hat : nodeAt nodes offset with
    | none =>
        rw [hat] at hfinds
        exact absurd h.contains (by simp [Finds.none_iff.1 hfinds n h.mem])
    | some m =>
        rw [hat] at hfinds
        rw [hfinds.unique h]

theorem nodeAt_eq_none_iff {nodes : List Node} {offset : Int} :
    nodeAt nodes offset = none ↔ ∀ n ∈ nodes, n.range.contains offset = false := by
  rw [← Finds.none_iff]
  have hfinds := finds_nodeAt nodes offset
  constructor
  · intro h
    rwa [h] at hfinds
  · intro h
    cases hat : nodeAt nodes offset with
    | none => rfl
    | some m =>
        rw [hat] at hfinds
        exact absurd hfinds.contains (by simp [Finds.none_iff.1 h m hfinds.mem])

/-- **The node of a byte.** A search finds no node exactly when none holds the byte. It finds the
node that holds it, has the least length and of equal lengths the least start, and is the last of
the nodes that share both: nodes listed before it rank no lower, nodes listed behind it rank
higher. -/
theorem nodeAt_isArgMin (nodes : List Node) (offset : Int) :
    (nodeAt nodes offset = none ↔ ∀ n ∈ nodes, n.range.contains offset = false) ∧
      ∀ n, nodeAt nodes offset = some n ↔ ∃ front back, nodes = front ++ n :: back ∧
        n.range.contains offset = true ∧
        (∀ m ∈ front, m.range.contains offset = true → n.range.rank ≤ m.range.rank) ∧
        ∀ m ∈ back, m.range.contains offset = true → n.range.rank < m.range.rank :=
  ⟨nodeAt_eq_none_iff, fun _ => nodeAt_eq_some_iff.trans Finds.some_iff⟩

/-- Of the two nodes of one byte the later one is found, whatever is listed behind them. -/
example : (nodeAt
    [⟨"a", "a", "u1", ⟨0, 1⟩, none, .int 7, [], [], []⟩,
      ⟨"b", "b", "u1", ⟨0, 1⟩, none, .int 7, [], [], []⟩,
      ⟨"c", "c", "u2", ⟨0, 2⟩, none, .int 7, [], [], []⟩] 0).map Node.id = some "b" := by
  decide

end ByteSchema
