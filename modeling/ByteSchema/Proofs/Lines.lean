import ByteSchema.Proofs.Coherence
import ByteSchema.Proofs.Data
import ByteSchema.Report.Tree

/-!
# ByteSchema.Proofs.Lines

The lines of a tree, one for each node.

The walk that writes lines and the one that lists nodes are two recursions over the same trees, the
first of them with a growing indent. `Levels` lists the nodes of a tree with their depths; the nodes
are those of the flat list (`Levels.nodes_eq`), and the lines are those of the single nodes, each at
the indent of its depth (`Levels.linesOfAll?_eq`). What is left is a fact about one line: it starts
with the name, the label and the range of its node. There is none when the length of the range is
overlong; then there are no lines at all.
-/

namespace ByteSchema

variable {α β ε : Type}

theorem exists_bind_pure_iff {x : Except ε α} {f : α → β} :
    (∃ b, (do return f (← x)) = Except.ok b) ↔ ∃ a, x = .ok a := by
  cases x with
  | error e => exact ⟨nofun, nofun⟩
  | ok a => exact ⟨fun _ => ⟨a, rfl⟩, fun _ => ⟨f a, rfl⟩⟩

/-- When each item gives a result there are the results of all. -/
theorem exists_mapM {f : α → Except ε β} {R : α → β → Prop} {items : List α}
    (h : ∀ a ∈ items, ∃ b, f a = .ok b ∧ R a b) :
    ∃ results, items.mapM f = .ok results ∧ List.Forall₂ R items results := by
  induction items with
  | nil => exact ⟨[], rfl, .nil⟩
  | cons a rest ih =>
      obtain ⟨b, hb, hR⟩ := h a List.mem_cons_self
      obtain ⟨results, hrest, hall⟩ := ih fun c hc => h c (List.mem_cons_of_mem a hc)
      refine ⟨b :: results, ?_, .cons hR hall⟩
      rw [List.mapM_cons, hb, hrest]
      rfl

theorem exists_mapM_iff {f : α → Except ε β} {items : List α} :
    (∃ results, items.mapM f = .ok results) ↔ ∀ a ∈ items, ∃ b, f a = .ok b := by
  constructor
  · rintro ⟨results, h⟩
    induction items generalizing results with
    | nil => exact fun a ha => absurd ha List.not_mem_nil
    | cons c rest ih =>
        rw [List.mapM_cons] at h
        obtain ⟨b, hb, h⟩ := bind_eq_ok h
        obtain ⟨later, hlater, -⟩ := bind_eq_ok h
        exact List.forall_mem_cons.2 ⟨⟨b, hb⟩, ih later hlater⟩
  · intro h
    obtain ⟨results, hresults, -⟩ := exists_mapM (R := fun _ _ => True) fun a ha =>
      (h a ha).imp fun b hb => ⟨hb, trivial⟩
    exact ⟨results, hresults⟩

/-- When an item fails, and all that fail fail alike, then so do all together. -/
theorem mapM_error {f : α → Except ε β} {items : List α} {a : α} {e : ε}
    (halike : ∀ c ∈ items, ∀ e', f c = .error e' → e' = e) (ha : a ∈ items)
    (h : f a = .error e) : items.mapM f = .error e := by
  induction items with
  | nil => cases ha
  | cons c rest ih =>
      rw [List.mapM_cons]
      cases hc : f c with
      | error e' =>
          cases halike c List.mem_cons_self e' hc
          rfl
      | ok b =>
          rcases List.mem_cons.1 ha with rfl | ha
          · rw [h] at hc
            cases hc
          · rw [ih (fun d hd => halike d (List.mem_cons_of_mem c hd)) ha]
            rfl

theorem mapM_append_eq (f : α → Except ε β) (front back : List α) :
    (front ++ back).mapM f = do return (← front.mapM f) ++ (← back.mapM f) :=
  List.mapM_append

/-! ## Depths -/

/-- The nodes of some trees with their depths, from `depth` on: each node before those below it, which
are one level deeper, and these before the trees behind. -/
inductive Levels : Nat → List Node → List (Nat × Node) → Prop
  | nil {depth : Nat} : Levels depth [] []
  | cons {depth : Nat} {n : Node} {rest : List Node} {below behind : List (Nat × Node)}
      (hbelow : Levels (depth + 1) n.children below) (hbehind : Levels depth rest behind) :
      Levels depth (n :: rest) ((depth, n) :: (below ++ behind))

mutual

theorem Node.exists_levels_children : ∀ (n : Node) (depth : Nat), ∃ levels,
    Levels depth n.children levels
  | ⟨_, _, _, _, _, _, children, _, _⟩, depth => exists_levels children depth

/-- Every tree has levels, as it has a depth. -/
theorem exists_levels : ∀ (ns : List Node) (depth : Nat), ∃ levels, Levels depth ns levels
  | [], _ => ⟨[], .nil⟩
  | n :: rest, depth => by
      obtain ⟨below, hbelow⟩ := n.exists_levels_children (depth + 1)
      obtain ⟨behind, hbehind⟩ := exists_levels rest depth
      exact ⟨_, .cons hbelow hbehind⟩

end

namespace Levels

variable {depth : Nat} {ns : List Node} {levels : List (Nat × Node)}

/-- The levels list the nodes in the order of the tree. -/
theorem nodes_eq (h : Levels depth ns levels) :
    levels.map Prod.snd = ns.flatMap Node.flatten := by
  induction h with
  | nil => rfl
  | @cons _ n _ _ _ _ _ hbelow hbehind =>
      rw [List.map_cons, List.map_append, hbelow, hbehind, List.flatMap_cons, n.flatten_eq,
        List.cons_append]

/-- The lines are those of the single nodes. -/
theorem linesOfAll?_eq (indent : Int) (h : Levels depth ns levels) :
    linesOfAll? (indent + depth) ns =
      levels.mapM fun level => level.2.treeLine? (indent + level.1) := by
  induction h with
  | nil => rfl
  | @cons depth n rest below behind _ _ hbelow hbehind =>
      have hdeeper : indent + depth + 1 = indent + (depth + 1 : Nat) := by omega
      rw [linesOfAll?, Node.lines?_eq, hdeeper, hbelow, hbehind, List.mapM_cons, mapM_append_eq]
      simp only [bind_assoc, pure_bind, List.cons_append]

theorem lines?_eq {n : Node} (indent : Int) (h : Levels 0 [n] levels) :
    n.lines? indent = levels.mapM fun level => level.2.treeLine? (indent + level.1) := by
  rw [← h.linesOfAll?_eq indent]
  simp [linesOfAll?]

end Levels

/-! ## One line -/

theorem exists_decimal?_iff {n : Int} :
    (∃ text, decimal? n = .ok text) ↔ Value.isOverlong n = false := by
  unfold decimal?
  cases Value.isOverlong n <;> simp

/-- What a line starts with: two blanks a level, the name of the node, its label, and where it starts and
how long it is. -/
def Node.StartsLine (n : Node) (level : Int) (line : String) : Prop :=
  ∃ rest, line = String.ofList (List.replicate (2 * level.toNat) ' ') ++ n.name ++ ": " ++ n.label ++
    " [" ++ hexNumber 6 n.range.start ++ " +" ++ toString n.range.length ++ "]" ++ rest

namespace Node

variable {n : Node} {indent : Int}

theorem heading?_eq (hshort : Value.isOverlong n.range.length = false) :
    n.heading? = .ok (n.name ++ ": " ++ n.label ++ " " ++ ("[" ++ hexNumber 6 n.range.start ++ " +" ++
      toString n.range.length ++ "]")) := by
  unfold heading? Span.shown? decimal?
  rw [hshort]
  rfl

theorem heading?_overlong (hlong : Value.isOverlong n.range.length = true) :
    n.heading? = .error .longInteger := by
  unfold heading? Span.shown? decimal?
  rw [hlong]
  rfl

theorem treeLine?_overlong (hlong : Value.isOverlong n.range.length = true) :
    n.treeLine? indent = .error .longInteger := by
  unfold treeLine?
  rw [heading?_overlong hlong]
  rfl

theorem exists_treeLine? (hshort : Value.isOverlong n.range.length = false)
    (hvalue : n.value.hasOverlong = false) :
    ∃ line, n.treeLine? indent = .ok line ∧ n.StartsLine indent line := by
  obtain ⟨remark, hremark⟩ : ∃ remark, n.remark? = .ok remark := by
    unfold remark? Value.shown?
    split
    · rw [hvalue]
      exact ⟨_, rfl⟩
    · exact ⟨"", rfl⟩
  unfold treeLine?
  rw [heading?_eq hshort, hremark]
  refine ⟨_, rfl, remark, ?_⟩
  simp only [indentation, String.append_assoc]
  rfl

end Node

/-- There is no line only where the length of the range is overlong. -/
theorem Node.treeLine?_eq_error {n : Node} {indent : Int} {e : Escape}
    (hvalue : n.value.hasOverlong = false) (h : n.treeLine? indent = .error e) :
    e = .longInteger := by
  cases hlong : Value.isOverlong n.range.length with
  | true =>
      rw [treeLine?_overlong hlong] at h
      cases h
      rfl
  | false =>
      obtain ⟨line, hline, -⟩ : ∃ line, n.treeLine? indent = .ok line ∧ _ :=
        exists_treeLine? hlong hvalue
      rw [hline] at h
      cases h

/-! ## The lines of a tree -/

namespace Node

variable {n : Node}

/-- When the value can be told, only the length decides. -/
theorem exists_treeLine?_iff {indent : Int} (hvalue : n.value.hasOverlong = false) :
    (∃ line, n.treeLine? indent = .ok line) ↔ Value.isOverlong n.range.length = false := by
  constructor
  · rintro ⟨line, h⟩
    refine Bool.eq_false_iff.2 fun hlong => ?_
    rw [treeLine?_overlong hlong] at h
    cases h
  · intro hshort
    obtain ⟨line, h, -⟩ := exists_treeLine? hshort hvalue
    exact ⟨line, h⟩

theorem exists_lines?_iff {indent : Int} (hvalues : ∀ m ∈ n.flatten, m.value.hasOverlong = false) :
    (∃ lines, n.lines? indent = .ok lines) ↔
      ∀ m ∈ n.flatten, Value.isOverlong m.range.length = false := by
  obtain ⟨levels, hlevels⟩ := exists_levels [n] 0
  have hnodes : levels.map Prod.snd = n.flatten := by
    rw [hlevels.nodes_eq, List.flatMap_singleton]
  rw [hlevels.lines?_eq indent, exists_mapM_iff, ← hnodes, List.forall_mem_map]
  exact forall₂_congr fun level hlevel =>
    exists_treeLine?_iff (hvalues _ (hnodes ▸ List.mem_map_of_mem hlevel))

/-- In the flat form a node is told without its value. -/
theorem exists_flatLine?_iff :
    (∃ line, n.flatLine? = .ok line) ↔ Value.isOverlong n.range.length = false := by
  unfold flatLine?
  rw [exists_bind_pure_iff, exists_decimal?_iff]

end Node

/-- **Lines of a tree.** When the length of a range in the tree of a decode is overlong, there are no
lines. Otherwise there is one line for each node of the flat list, in the same order, and it starts
with two blanks a level, the name of the node, its label and its range. -/
theorem Schema.lines?_of_decode {schema : Schema} {options : Options} {buffer : Buffer}
    {result : Result} {root : Node} (h : schema.decode options buffer = .ok result)
    (hroot : result.root = some root) (indent : Int) :
    ((∃ n ∈ root.flatten, Value.isOverlong n.range.length = true) ∧
        root.lines? indent = .error .longInteger) ∨
      (∀ n ∈ root.flatten, Value.isOverlong n.range.length = false) ∧
        ∃ lines levels, root.lines? indent = .ok lines ∧
          Levels 0 [root] levels ∧ levels.map Prod.snd = root.flatten ∧
          List.Forall₂ (fun level line => level.2.StartsLine (indent + level.1) line) levels lines := by
  obtain ⟨levels, hlevels⟩ := exists_levels [root] 0
  have hnodes : levels.map Prod.snd = root.flatten := by
    rw [hlevels.nodes_eq, List.flatMap_singleton]
  have hmem {level : Nat × Node} (hlevel : level ∈ levels) : level.2 ∈ root.flatten :=
    hnodes ▸ List.mem_map_of_mem hlevel
  have hlines := hlevels.lines?_eq indent
  have hvalue {level : Nat × Node} (hlevel : level ∈ levels) : level.2.value.hasOverlong = false :=
    (isData_of_decode h hroot _ (hmem hlevel)).hasOverlong_eq
  by_cases hlong : ∃ n ∈ root.flatten, Value.isOverlong n.range.length = true
  · refine .inl ⟨hlong, ?_⟩
    obtain ⟨n, hn, hlong⟩ := hlong
    obtain ⟨level, hlevel, rfl⟩ := List.mem_map.1 (hnodes ▸ hn)
    rw [hlines]
    exact mapM_error (fun c hc e => Node.treeLine?_eq_error (hvalue hc)) hlevel
      (Node.treeLine?_overlong hlong)
  · have hshort : ∀ n ∈ root.flatten, Value.isOverlong n.range.length = false := by
      intro n hn
      exact Bool.eq_false_iff.2 fun h => hlong ⟨n, hn, h⟩
    have hline : ∀ level ∈ levels, ∃ line, level.2.treeLine? (indent + level.1) = .ok line ∧
        level.2.StartsLine (indent + level.1) line := fun level hlevel =>
      Node.exists_treeLine? (hshort _ (hmem hlevel)) (hvalue hlevel)
    obtain ⟨lines, hok, hall⟩ := exists_mapM hline
    exact .inr ⟨hshort, lines, levels, by rw [hlines, hok], hlevels, hnodes, hall⟩

theorem Schema.lines?_of_decode_scene :
    ∃ result root lines levels, scene.decode {} [2, 0, 1, 2, 9, 3, 4, 255] = .ok result ∧
      result.root = some root ∧ root.lines? 1 = .ok lines ∧ Levels 0 [root] levels ∧
      levels.map Prod.snd = root.flatten ∧
      List.Forall₂ (fun level line => level.2.StartsLine (1 + level.1) line) levels lines := by
  have hrun : scene.succeeds {} [2, 0, 1, 2, 9, 3, 4, 255] = true := by decide +kernel
  obtain ⟨result, h, hsuccess⟩ := exists_of_succeeds hrun
  obtain ⟨root, hroot⟩ := Result.exists_root hsuccess
  have hshown : ((scene.decode {} [2, 0, 1, 2, 9, 3, 4, 255]).toOption.any fun result =>
      result.root.any fun root => (root.lines? 1).isOk) = true := by decide +kernel
  rcases lines?_of_decode h hroot 1 with ⟨-, hfailed⟩ | ⟨-, lines, levels, hlines, hrest⟩
  · simp [h, hroot, hfailed, Except.toOption, Except.isOk, Except.toBool] at hshown
  · exact ⟨result, root, lines, levels, h, hroot, hlines, hrest⟩

/-- An instance without fields, at a position. -/
def Schema.distant (position : Int) : Schema where
  seq := some [{ id := "a", type := .named "e", position := .int position }]
  types := [("e", {})]

/-- The root reaches up to the instance, which may be too far away to be told. -/
theorem Schema.decode_distant :
    ∃ position result root, (distant position).decode {} [] = .ok result ∧
      result.root = some root ∧ ∀ lines, root.lines? 0 ≠ .ok lines := by
  obtain ⟨n, hlong⟩ : ∃ n : Nat, Value.isOverlong n = true := ⟨_, Value.isOverlong_pow⟩
  obtain ⟨result, root, h, hroot, hlength⟩ : ∃ result root, (distant n).decode {} [] = .ok result ∧
      result.root = some root ∧ root.range.length = max 0 ((n : Int) - 0) := ⟨_, _, rfl, rfl, rfl⟩
  have hroom : root.range.length = n := by omega
  refine ⟨n, result, root, h, hroot, ?_⟩
  intro lines hlines
  rw [Node.lines?_eq, Node.treeLine?_overlong (hroom ▸ hlong)] at hlines
  cases hlines

end ByteSchema
