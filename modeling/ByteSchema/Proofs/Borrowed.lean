import ByteSchema.Proofs.Lexical

/-!
# ByteSchema.Proofs.Borrowed

What type names stand for in a schema whose root is one of its types.

Every chain of a decode ends with the root type. When the root is borrowed, its types are those of
the schema with the ones nested in the borrowed type put over them, and so each name that this type
nests is in scope everywhere: it hides the type that the schema has under the name, also in types
that have nothing to do with the borrowed one. A root with fields of its own leaves the names alone
(`Schema.definition?_of_seq`).

`TypeChain.definition?` is the answer of a lookup without its chain. It depends on the types of the
chain only through what they declare (`definition?_eq`), so the root can be exchanged for the bare
types of the schema wherever it does not decide.
-/

namespace ByteSchema

theorem Types.lookup_putAll (types more : Types) (name : String) :
    (Types.putAll types more).lookup name = (more.reverse.lookup name).or (types.lookup name) := by
  induction more generalizing types with
  | nil => rfl
  | cons entry more ih =>
      obtain ⟨n, d⟩ := entry
      have hput : (Types.putAll types ((n, d) :: more)).lookup name =
          (more.reverse.lookup name).or ((Types.put types n d).lookup name) := ih _
      rw [hput, List.reverse_cons, List.lookup_append, Option.or_assoc]
      by_cases hn : name = n
      · rw [hn, Types.lookup_put_self, List.lookup_cons_self, Option.some_or]
      · have hb : (name == n) = false := by simpa using hn
        rw [Types.lookup_put_of_ne types d hn, List.lookup_cons, hb, List.lookup_nil,
          Option.none_or]

/-- The type of the given names, each declared in the one before, from `d` on. -/
def TypeDef.nested? (d : TypeDef) (names : List String) : Option TypeDef :=
  names.foldlM (fun e name => e.types.lookup name) d

namespace TypeChain

/-- The type that a name stands for, seen from a chain. -/
def definition? (chain : TypeChain) (name : String) : Option TypeDef :=
  (chain.lookup? name).map Prod.fst

variable {chain inner : TypeChain} {d root : TypeDef} {name first : String} {rest : List String}

theorem findFirst?_fst : (findFirst? first chain).map Prod.fst =
    chain.findSome? fun d => d.types.lookup first := by
  induction chain with
  | nil => rfl
  | cons own chain ih =>
      unfold findFirst?
      rw [List.findSome?_cons]
      split
      case h_1 found hfound => rw [hfound]; rfl
      case h_2 hnone => rw [hnone]; exact ih

theorem descend?_fst : (descend? d chain rest).map Prod.fst = d.nested? rest := by
  induction rest generalizing d chain with
  | nil => rfl
  | cons name rest ih =>
      unfold descend? TypeDef.nested?
      rw [List.foldlM_cons]
      split
      case h_1 found hfound => rw [hfound]; exact ih
      case h_2 hnone => rw [hnone]; rfl

/-- The first part of a name is looked for in the types of the chain, the others below it. -/
theorem definition?_eq (hparts : nameParts name = first :: rest) : chain.definition? name =
    (chain.findSome? fun d => d.types.lookup first).bind fun e => e.nested? rest := by
  rw [definition?, ← findFirst?_fst]
  unfold lookup?
  rw [hparts]
  dsimp only
  split
  case h_1 found around hfound =>
      rw [hfound]
      exact descend?_fst
  case h_2 hnone =>
      rw [hnone]
      rfl

theorem DeclaredAt.exists_append {path : List String} (h : chain.DeclaredAt root path) :
    ∃ inner, chain = inner ++ [root] := by
  induction h with
  | root => exact ⟨[], rfl⟩
  | inner _ _ ih =>
      obtain ⟨inner, hinner⟩ := ih
      rw [hinner]
      exact ⟨_ :: inner, rfl⟩

end TypeChain

namespace Schema

variable {schema : Schema} {options : Options} {buffer : Buffer} {d root : TypeDef}
  {inner : TypeChain} {name first : String} {rest : List String}

/-- The types that a schema declares itself, without those of a borrowed root. -/
def topLevel (schema : Schema) : TypeDef := { types := schema.types }

/-- The root takes over a name if it is borrowed from a type that nests the first part, and none of
the types inside the root declares it. -/
structure TakesOver (inner : TypeChain) (first : String) (d : TypeDef) : Prop where
  undeclared : ∀ e ∈ inner, e.types.lookup first = none
  nests : d.types.lookup first ≠ none

/-- A borrowed root puts what the borrowed type nests over the types of the schema. -/
theorem lookup_of_borrowed (hseq : schema.seq = none) (hborrowed : schema.namesake? = some d)
    (hroot : schema.rootType? = some root) :
    root.types.lookup first = (d.types.reverse.lookup first).or (schema.types.lookup first) := by
  unfold rootType? at hroot
  simp only [hseq, hborrowed] at hroot
  cases hroot
  exact Types.lookup_putAll schema.types d.types first

theorem lookup_reverse_eq_none {types : Types} :
    types.reverse.lookup first = none ↔ types.lookup first = none := by
  simp only [List.lookup_eq_none_iff, List.mem_reverse]

/-- A root with fields of its own brings no types along. -/
theorem definition?_of_seq {seq : List Field} (hseq : schema.seq = some seq)
    (hroot : schema.rootType? = some root) :
    TypeChain.definition? (inner ++ [root]) name =
      TypeChain.definition? (inner ++ [schema.topLevel]) name := by
  unfold rootType? at hroot
  simp only [hseq] at hroot
  cases hroot
  cases hparts : TypeChain.nameParts name with
  | nil => exact absurd hparts (TypeChain.nameParts_ne_nil name)
  | cons first rest =>
      rw [TypeChain.definition?_eq hparts, TypeChain.definition?_eq hparts,
        List.findSome?_append, List.findSome?_append]
      rfl

/-- A name that the root does not take over stands for what it would without the borrowed types. -/
theorem definition?_of_not_takesOver (hseq : schema.seq = none)
    (hborrowed : schema.namesake? = some d) (hroot : schema.rootType? = some root)
    (hparts : TypeChain.nameParts name = first :: rest) (h : ¬ TakesOver inner first d) :
    TypeChain.definition? (inner ++ [root]) name =
      TypeChain.definition? (inner ++ [schema.topLevel]) name := by
  rw [TypeChain.definition?_eq hparts, TypeChain.definition?_eq hparts, List.findSome?_append,
    List.findSome?_append]
  cases hfound : inner.findSome? fun d => d.types.lookup first with
  | some e => rfl
  | none =>
      have hnone : d.types.lookup first = none := by
        by_contra hnests
        exact h ⟨List.findSome?_eq_none_iff.1 hfound, hnests⟩
      have hroot : root.types.lookup first = schema.topLevel.types.lookup first := by
        rw [lookup_of_borrowed hseq hborrowed hroot, lookup_reverse_eq_none.2 hnone,
          Option.none_or]
        rfl
      rw [List.findSome?_singleton, List.findSome?_singleton, hroot]

/-- A name that the root takes over stands for a type inside the borrowed one. -/
theorem definition?_of_takesOver (hseq : schema.seq = none)
    (hborrowed : schema.namesake? = some d) (hroot : schema.rootType? = some root)
    (hparts : TypeChain.nameParts name = first :: rest) (h : TakesOver inner first d) :
    ∃ e, (first, e) ∈ d.types ∧
      TypeChain.definition? (inner ++ [root]) name = e.nested? rest := by
  obtain ⟨e, he⟩ := Option.ne_none_iff_exists'.1 fun hnone =>
    h.nests (lookup_reverse_eq_none.1 hnone)
  have hroot : root.types.lookup first = some e := by
    rw [lookup_of_borrowed hseq hborrowed hroot, he, Option.some_or]
  refine ⟨e, List.mem_reverse.1 (mem_of_lookup he), ?_⟩
  rw [TypeChain.definition?_eq hparts, List.findSome?_append,
    List.findSome?_eq_none_iff.2 h.undeclared, List.findSome?_singleton, hroot]
  rfl

/-- **A borrowed root.** Wherever a decode with a borrowed root comes to a value whose type is one
of the schema, the name of the type is looked up in the types around the field up to those of the
schema, unless none of them but the root declares its first part and the borrowed type nests one
under it: then it stands for that nested type, or one inside it. For a field of a type of the schema
`inner` is this type alone. -/
theorem resolves_of_borrowed {depth : Nat} {outer : List Frame} {ctx : Context} {f : Field}
    {typeName : String} {p : Progress} (hseq : schema.seq = none)
    (hborrowed : schema.namesake? = some d)
    (hv : schema.Reached options buffer ⟨depth, outer, ctx, .single f name, p⟩)
    (selected : (schema.setting options buffer).Selects ctx f p typeName)
    (custom : Primitive.ofName? typeName = none)
    (hparts : TypeChain.nameParts typeName = first :: rest) :
    ∃ inner root, schema.rootType? = some root ∧ ctx.chain = inner ++ [root] ∧
      (¬ TakesOver inner first d → ctx.chain.definition? typeName =
        TypeChain.definition? (inner ++ [schema.topLevel]) typeName) ∧
      (TakesOver inner first d → ∃ e, (first, e) ∈ d.types ∧
        ctx.chain.definition? typeName = e.nested? rest) ∧
      ∀ left e, depth = left + 1 → ctx.chain.definition? typeName = some e →
        ∃ w, (schema.setting options buffer).Leads ⟨depth, outer, ctx, .single f name, p⟩ w ∧
          w.station = .fields e.seq := by
  obtain ⟨root, hroot, ⟨path, hpath⟩, -⟩ := hv.declared
  obtain ⟨inner, hinner⟩ := hpath.exists_append
  refine ⟨inner, root, hroot, hinner, ?_, ?_, ?_⟩
  · rw [hinner]
    exact definition?_of_not_takesOver hseq hborrowed hroot hparts
  · rw [hinner]
    exact definition?_of_takesOver hseq hborrowed hroot hparts
  · rintro left e rfl he
    obtain ⟨⟨_, chain⟩, hfound, rfl⟩ := Option.map_eq_some_iff.1 he
    exact ⟨_, .enter selected custom hfound, rfl⟩

/-- The fields of the root are those of the type `m`, which nests a type `x` of its own. The type
`y` uses the `x` of the schema. -/
def lodger : Schema where
  info := { id := some "m" }
  types := [
    ("m", {
      seq := [{ id := "a", type := .named "y" }]
      types := [("x", { seq := [{ id := "q", type := .named "u2" }] })] }),
    ("y", { seq := [{ id := "b", type := .named "x" }] }),
    ("x", { seq := [{ id := "p", type := .named "u1" }] })]

theorem resolves_of_borrowed_lodger :
    lodger.seq = none ∧ ∃ d depth outer ctx p, lodger.namesake? = some d ∧
      lodger.Reached {} [1, 2]
        ⟨depth, outer, ctx, .single { id := "b", type := .named "x" } "b", p⟩ ∧
      (lodger.setting {} [1, 2]).Selects ctx { id := "b", type := .named "x" } p "x" ∧
      Primitive.ofName? "x" = none ∧ TypeChain.nameParts "x" = ["x"] ∧
      ∃ inner root, lodger.rootType? = some root ∧ ctx.chain = inner ++ [root] ∧
        (¬ TakesOver inner "x" d → ctx.chain.definition? "x" =
          TypeChain.definition? (inner ++ [lodger.topLevel]) "x") ∧
        (TakesOver inner "x" d → ∃ e, ("x", e) ∈ d.types ∧
          ctx.chain.definition? "x" = e.nested? []) ∧
        ∀ left e, depth = left + 1 → ctx.chain.definition? "x" = some e →
          ∃ w, (lodger.setting {} [1, 2]).Leads
            ⟨depth, outer, ctx, .single { id := "b", type := .named "x" } "b", p⟩ w ∧
              w.station = .fields e.seq := by
  have hstart : lodger.Reached {} [1, 2] ⟨63, [], _, _, _⟩ := .root rfl rfl
  have hinside := (hstart.step (.value rfl rfl rfl)).step (.enter rfl rfl rfl)
  have hvalue := hinside.step (.value rfl rfl rfl)
  exact ⟨rfl, _, _, _, _, _, rfl, hvalue, rfl, rfl, rfl,
    resolves_of_borrowed rfl rfl hvalue rfl rfl rfl⟩

/-- From `y`, which declares no types, the `x` of the schema is in scope; the decode takes the one
that is nested in `m`. -/
theorem decode_lodger :
    lodger.seq = none ∧ lodger.namesake?.isSome = true ∧
      ((lodger.types.lookup "y").bind fun y =>
        TypeChain.definition? [y, lodger.topLevel] "x").map (fun x => x.seq.map Field.id) =
          some ["p"] ∧
      (lodger.decode {} [1, 2]).toOption.map (fun result => result.nodes.map Node.id) =
        some ["m", "m.a", "m.a.b", "m.a.b.q"] := by
  decide +kernel

end Schema

end ByteSchema
