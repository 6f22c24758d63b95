import ByteSchema.Proofs.Failing

/-!
# ByteSchema.Proofs.Lexical

Scoping is lexical: what a type name stands for depends on where it is written, not on the calls
that lead there.

Two relations say what a lookup does. `TypeChain.Means` is the rule by which a qualified name is
read from a chain, and `TypeChain.Misses` how it can fail; `lookup?` decides both.
`TypeChain.DeclaredAt` says where a chain comes from: it is that of the type which the root declares
under some names, one in the other. The decode of an instance goes on with the chain of the type
that was found and drops the one of the caller. So this holds wherever a decode comes to
(`Schema.Reached.declared`), through calls, switches and recursion, and two places whose chains are
declared at one path have one chain.
-/

namespace ByteSchema

theorem Text.splitListOn_ne_nil {mark piece rest : List Char} {fuel : Nat} :
    splitListOn mark fuel piece rest ≠ [] := by
  induction fuel generalizing piece rest with
  | zero => exact List.cons_ne_nil _ _
  | succ fuel ih =>
      cases rest with
      | nil => exact List.cons_ne_nil _ _
      | cons c rest =>
          unfold splitListOn
          split
          · exact List.cons_ne_nil _ _
          · exact ih

/-! ## What a name means -/

/-- `d` declares the types `below` under the names, each in the one before. -/
inductive TypeDef.Declares : TypeDef → List String → List TypeDef → Prop
  | nil {d : TypeDef} : Declares d [] []
  | cons {d e : TypeDef} {name : String} {names : List String} {below : List TypeDef}
      (declared : d.types.lookup name = some e) (rest : Declares e names below) :
      Declares d (name :: names) (e :: below)

/-- One of the names is missing in the type that the names before lead to. -/
inductive TypeDef.Lacks : TypeDef → List String → Prop
  | here {d : TypeDef} {name : String} {names : List String}
      (missing : d.types.lookup name = none) : Lacks d (name :: names)
  | deeper {d e : TypeDef} {name : String} {names : List String}
      (declared : d.types.lookup name = some e) (rest : Lacks e names) : Lacks d (name :: names)

namespace TypeChain

/-- `d` is the innermost type of the chain that declares `name`; `outer` are those around it. -/
def Innermost (chain : TypeChain) (name : String) (d : TypeDef) (outer : TypeChain) : Prop :=
  ∃ hidden, chain = hidden ++ d :: outer ∧ (∀ e ∈ hidden, e.types.lookup name = none) ∧
    d.types.lookup name ≠ none

/-- Seen from `chain`, a name in these parts means the type that `around` starts with. The innermost
type that declares the first part decides, and the other parts are looked for below it. -/
inductive Means (chain : TypeChain) : List String → TypeChain → Prop
  | intro {first : String} {rest : List String} {d : TypeDef} {outer below : TypeChain}
      (innermost : chain.Innermost first d outer) (declares : d.Declares (first :: rest) below) :
      Means chain (first :: rest) (below.reverse ++ d :: outer)

/-- Seen from `chain`, a name in these parts means nothing. -/
inductive Misses (chain : TypeChain) : List String → Prop
  /-- No type of the chain declares the first part. -/
  | nowhere {first : String} {rest : List String} (h : ∀ d ∈ chain, d.types.lookup first = none) :
      Misses chain (first :: rest)
  /-- A later part is missing; no other type of the chain is tried. -/
  | inside {first : String} {rest : List String} {d e : TypeDef} {outer : TypeChain}
      (innermost : chain.Innermost first d outer) (declared : d.types.lookup first = some e)
      (lacks : e.Lacks rest) : Misses chain (first :: rest)

theorem nameParts_ne_nil (name : String) : nameParts name ≠ [] :=
  fun h => Text.splitListOn_ne_nil (List.map_eq_nil_iff.1 h)

/-! ## Looking a name up -/

variable {chain around outer : TypeChain} {d e : TypeDef} {name first : String}
  {names parts rest : List String}

theorem innermost_cons {own : TypeDef} : Innermost (own :: chain) name d outer ↔
    (own.types.lookup name ≠ none ∧ d = own ∧ outer = chain) ∨
      (own.types.lookup name = none ∧ chain.Innermost name d outer) := by
  constructor
  · rintro ⟨hidden, hsplit, hhidden, hd⟩
    cases hidden with
    | nil =>
        cases hsplit
        exact .inl ⟨hd, rfl, rfl⟩
    | cons x hidden =>
        cases hsplit
        obtain ⟨hown, hhidden⟩ := List.forall_mem_cons.1 hhidden
        exact .inr ⟨hown, hidden, rfl, hhidden, hd⟩
  · rintro (⟨hown, rfl, rfl⟩ | ⟨hown, hidden, rfl, hhidden, hd⟩)
    · exact ⟨[], rfl, List.forall_mem_nil _, hown⟩
    · exact ⟨own :: hidden, rfl, List.forall_mem_cons.2 ⟨hown, hhidden⟩, hd⟩

theorem findFirst?_eq_some : findFirst? first chain = some (e, around) ↔
    ∃ d outer, chain.Innermost first d outer ∧ d.types.lookup first = some e ∧
      around = e :: d :: outer := by
  induction chain with
  | nil =>
      refine ⟨nofun, ?_⟩
      rintro ⟨d, outer, ⟨hidden, hsplit, -⟩, -⟩
      exact absurd hsplit.symm (List.append_ne_nil_of_right_ne_nil _ (List.cons_ne_nil _ _))
  | cons own chain ih =>
      simp only [innermost_cons]
      unfold findFirst?
      split
      case h_1 found hfound =>
          constructor
          · intro h
            cases h
            have hsome : own.types.lookup first ≠ none := by
              rw [hfound]
              exact Option.some_ne_none _
            exact ⟨own, chain, .inl ⟨hsome, rfl, rfl⟩, hfound, rfl⟩
          · rintro ⟨d, outer, ⟨-, rfl, rfl⟩ | ⟨hown, -⟩, he, rfl⟩
            · rw [hfound] at he
              cases he
              rfl
            · rw [hfound] at hown
              cases hown
      case h_2 hnone =>
          rw [ih]
          constructor
          · rintro ⟨d, outer, hinnermost, he, rfl⟩
            exact ⟨d, outer, .inr ⟨hnone, hinnermost⟩, he, rfl⟩
          · rintro ⟨d, outer, ⟨hown, -⟩ | ⟨-, hinnermost⟩, he, rfl⟩
            · exact absurd hnone hown
            · exact ⟨d, outer, hinnermost, he, rfl⟩

theorem findFirst?_eq_none : findFirst? first chain = none ↔
    ∀ d ∈ chain, d.types.lookup first = none := by
  induction chain with
  | nil => simp [findFirst?]
  | cons own chain ih =>
      rw [List.forall_mem_cons]
      unfold findFirst?
      split
      case h_1 found hfound =>
          constructor
          · intro h
            cases h
          · intro h
            rw [hfound] at h
            cases h.1
      case h_2 hnone =>
          rw [ih]
          constructor
          · intro h
            exact ⟨hnone, h⟩
          · intro h
            exact h.2

theorem descend?_eq_some : descend? d (d :: outer) names = some (e, around) ↔
    ∃ below, d.Declares names below ∧ around = below.reverse ++ d :: outer ∧
      around.head? = some e := by
  induction names generalizing d outer with
  | nil =>
      constructor
      · intro h
        cases h
        exact ⟨[], .nil, rfl, rfl⟩
      · rintro ⟨_, ⟨⟩, rfl, he⟩
        cases he
        rfl
  | cons name rest ih =>
      unfold descend?
      split
      case h_1 inner hinner =>
          rw [ih]
          constructor
          · rintro ⟨below, hbelow, rfl, he⟩
            exact ⟨inner :: below, .cons hinner hbelow, by simp, he⟩
          · rintro ⟨_, hdeclares, rfl, he⟩
            obtain - | ⟨hdeclared, hbelow⟩ := hdeclares
            rw [hinner] at hdeclared
            cases hdeclared
            exact ⟨_, hbelow, by simp, he⟩
      case h_2 hnone =>
          refine ⟨nofun, ?_⟩
          rintro ⟨_, hdeclares, -⟩
          obtain - | ⟨hdeclared, -⟩ := hdeclares
          rw [hnone] at hdeclared
          cases hdeclared

theorem descend?_eq_none : descend? d chain names = none ↔ d.Lacks names := by
  induction names generalizing d chain with
  | nil => exact ⟨nofun, nofun⟩
  | cons name rest ih =>
      unfold descend?
      split
      case h_1 inner hinner =>
          rw [ih]
          refine ⟨fun h => .deeper hinner h, ?_⟩
          rintro (hmissing | ⟨hdeclared, hrest⟩)
          · rw [hinner] at hmissing
            cases hmissing
          · rw [hinner] at hdeclared
            cases hdeclared
            exact hrest
      case h_2 hnone => exact ⟨fun _ => .here hnone, fun _ => rfl⟩

/-- A lookup finds the type that the name means, with the chain of that type. -/
theorem lookup?_eq_some : chain.lookup? name = some (e, around) ↔
    chain.Means (nameParts name) around ∧ around.head? = some e := by
  unfold lookup?
  cases hparts : nameParts name with
  | nil => exact absurd hparts (nameParts_ne_nil name)
  | cons first rest =>
      dsimp only
      split
      case h_1 found around' hfound =>
          obtain ⟨d, outer, hinnermost, hdeclared, rfl⟩ := findFirst?_eq_some.1 hfound
          rw [descend?_eq_some]
          constructor
          · rintro ⟨below, hbelow, rfl, he⟩
            have hmeans := Means.intro hinnermost (.cons hdeclared hbelow)
            rw [List.reverse_cons, List.append_assoc] at hmeans
            exact ⟨hmeans, he⟩
          · rintro ⟨⟨hother, hdeclares⟩, he⟩
            obtain - | ⟨hdeclared', hbelow⟩ := hdeclares
            -- There is one innermost type that declares the first name, so both searches start from
            -- it.
            have hsame := findFirst?_eq_some.2 ⟨_, _, hother, hdeclared', rfl⟩
            rw [hfound] at hsame
            cases hsame
            exact ⟨_, hbelow, by simp, he⟩
      case h_2 hnone =>
          refine ⟨nofun, ?_⟩
          rintro ⟨⟨⟨hidden, rfl, -, hd⟩, -⟩, -⟩
          exact absurd (findFirst?_eq_none.1 hnone _ (by simp)) hd

/-- A lookup finds nothing just when the name means nothing. -/
theorem lookup?_eq_none : chain.lookup? name = none ↔ chain.Misses (nameParts name) := by
  unfold lookup?
  cases hparts : nameParts name with
  | nil => exact absurd hparts (nameParts_ne_nil name)
  | cons first rest =>
      dsimp only
      split
      case h_1 found around' hfound =>
          obtain ⟨d, outer, hinnermost, hdeclared, rfl⟩ := findFirst?_eq_some.1 hfound
          rw [descend?_eq_none]
          refine ⟨fun h => .inside hinnermost hdeclared h, ?_⟩
          rintro (hnowhere | ⟨hother, hdeclared', hlacks⟩)
          · rw [findFirst?_eq_none.2 hnowhere] at hfound
            cases hfound
          · have hsame := findFirst?_eq_some.2 ⟨_, _, hother, hdeclared', rfl⟩
            rw [hfound] at hsame
            cases hsame
            exact hlacks
      case h_2 hnone => exact ⟨fun _ => .nowhere (findFirst?_eq_none.1 hnone), fun _ => rfl⟩

/-! ## Where a chain is declared -/

/-- The chain is that of the type which `root` declares under the names of the path, the innermost
first. -/
inductive DeclaredAt (root : TypeDef) : List String → TypeChain → Prop
  | root : DeclaredAt root [] [root]
  | inner {path : List String} {name : String} {d e : TypeDef} {outer : TypeChain}
      (around : DeclaredAt root path (d :: outer)) (declared : d.types.lookup name = some e) :
      DeclaredAt root (name :: path) (e :: d :: outer)

namespace DeclaredAt

variable {root : TypeDef} {path : List String}

/-- A path has one chain. -/
theorem unique {other : TypeChain} (h : chain.DeclaredAt root path)
    (h' : other.DeclaredAt root path) : other = chain := by
  induction h generalizing other with
  | root =>
      cases h'
      rfl
  | inner _ declared ih =>
      obtain - | ⟨around', declared'⟩ := h'
      cases ih around'
      rw [declared] at declared'
      cases declared'
      rfl

/-- The types around one are those of a path outward of its own. -/
theorem outward {hidden : TypeChain} (h : DeclaredAt root path (hidden ++ d :: outer)) :
    ∃ out, out <:+ path ∧ DeclaredAt root out (d :: outer) := by
  induction hidden generalizing path with
  | nil => exact ⟨path, List.suffix_refl path, h⟩
  | cons own hidden ih =>
      rw [List.cons_append] at h
      generalize hchain : hidden ++ d :: outer = chain at h
      cases h with
      | root => exact absurd hchain (List.append_ne_nil_of_right_ne_nil _ (List.cons_ne_nil _ _))
      | @inner inward name _ _ _ around declared =>
          rw [← hchain] at around
          obtain ⟨out, hout, hdeclared⟩ := ih around
          exact ⟨out, hout.trans (List.suffix_cons name inward), hdeclared⟩

/-- What a type declares has its path below that of the type. -/
theorem declares {below : List TypeDef} (h : DeclaredAt root path (d :: outer))
    (hbelow : d.Declares names below) :
    DeclaredAt root (names.reverse ++ path) (below.reverse ++ d :: outer) := by
  induction hbelow generalizing path outer with
  | nil => exact h
  | cons declared _ ih =>
      have hinner := ih (h.inner declared)
      rwa [List.reverse_cons, List.reverse_cons, List.append_assoc, List.append_assoc]

/-- What a name means is declared at the parts of the name, below a path outward of the place where
the name is used. -/
theorem means (h : chain.DeclaredAt root path) (hmeans : chain.Means parts around) :
    ∃ out, out <:+ path ∧ around.DeclaredAt root (parts.reverse ++ out) := by
  obtain ⟨⟨hidden, rfl, -, -⟩, hdeclares⟩ := hmeans
  obtain ⟨out, hout, hdeclared⟩ := h.outward
  exact ⟨out, hout, hdeclared.declares hdeclares⟩

end DeclaredAt

/-- In a schema with the root type `root`, scoping is lexical for a name at a place whose chain is
declared at `path`. -/
structure IsLexical (chain : TypeChain) (root : TypeDef) (path : List String) (name : String) :
    Prop where
  /-- The chain follows the declarations, from the root down to the type of the place. -/
  declared : chain.DeclaredAt root path
  /-- The type that is found is the one that the name means. -/
  found : ∀ e around, chain.lookup? name = some (e, around) ↔
    chain.Means (nameParts name) around ∧ around.head? = some e
  /-- It comes with a chain that follows the declarations again. -/
  around : ∀ e around, chain.lookup? name = some (e, around) →
    ∃ out, out <:+ path ∧ around.DeclaredAt root ((nameParts name).reverse ++ out)
  /-- Nothing is found just when the first part is declared nowhere around, or a later one
  is missing. -/
  missing : chain.lookup? name = none ↔ chain.Misses (nameParts name)

theorem DeclaredAt.isLexical {root : TypeDef} {path : List String}
    (h : chain.DeclaredAt root path) (name : String) : chain.IsLexical root path name where
  declared := h
  found _ _ := lookup?_eq_some
  around _ _ hfound := h.means (lookup?_eq_some.1 hfound).1
  missing := lookup?_eq_none

end TypeChain

/-! ## Along a decode -/

/-- The chain of the place is declared somewhere in `root`, and the fields at hand are fields of the
type that it starts with. -/
structure Visit.Declared (root : TypeDef) (v : Visit) : Prop where
  chain : ∃ path, v.ctx.chain.DeclaredAt root path
  ahead : ∃ d, v.ctx.chain.head? = some d ∧ ∀ f ∈ v.station.fieldsAhead, f ∈ d.seq

/-- Only an instance that is entered changes the chain, and it takes the one of its type. -/
theorem Setting.Leads.declared {root : TypeDef} {s : Setting} {v w : Visit} (h : v.Declared root)
    (leads : s.Leads v w) : w.Declared root := by
  obtain ⟨hchain, d, hd, hahead⟩ := h
  cases leads with
  | skip | past => exact ⟨hchain, d, hd, fun f hf => hahead f (List.mem_cons_of_mem _ hf)⟩
  | value _ placed | array _ placed =>
      obtain ⟨-, ⟨offset, rfl⟩, -⟩ := placed_inv placed
      exact ⟨hchain, d, hd, List.forall_mem_singleton.2 (hahead _ List.mem_cons_self)⟩
  | element | next => exact ⟨hchain, d, hd, hahead⟩
  | enter _ _ found =>
      obtain ⟨path, hpath⟩ := hchain
      obtain ⟨hmeans, hhead⟩ := TypeChain.lookup?_eq_some.1 found
      obtain ⟨out, -, haround⟩ := hpath.means hmeans
      exact ⟨⟨_, haround⟩, _, hhead, fun f hf => hf⟩

namespace Schema

variable {schema : Schema} {options : Options} {buffer : Buffer} {v : Visit}

theorem Reached.declared (h : schema.Reached options buffer v) :
    ∃ root, schema.rootType? = some root ∧ v.Declared root := by
  induction h with
  | root isRoot allowed => exact ⟨_, isRoot, ⟨[], .root⟩, _, rfl, fun f hf => hf⟩
  | step _ leads ih =>
      obtain ⟨root, hroot, hdeclared⟩ := ih
      exact ⟨root, hroot, leads.declared hdeclared⟩

/-- A reference to a type that is not found ends the decode, with an error at the path of the field.
Rounds enough stand for a decode without bound on them. -/
theorem Reached.fails_unknown {depth : Nat} {outer : List Frame} {ctx : Context} {f : Field}
    {name typeName : String} {p : Progress}
    (hv : schema.Reached options buffer ⟨depth, outer, ctx, .single f name, p⟩)
    (selected : (schema.setting options buffer).Selects ctx f p typeName)
    (custom : Primitive.ofName? typeName = none) (hnone : ctx.chain.lookup? typeName = none) :
    ∃ enough, ∀ rounds ≥ enough, ∃ result,
      schema.decode { options with maxRounds := rounds } buffer = .ok result ∧
        result.root = none ∧ result.errors = [{
          message := "Unknown type: " ++ typeName
          path := some (ctx.childId name)
          kind := "TypeResolutionError" }] := by
  have hplaced : (Failure.error ⟨.unknownType typeName, some (ctx.childId name)⟩).IsPlaced :=
    Failure.isPlaced_error
  obtain ⟨enough, hfails⟩ := hv.fails hplaced
  refine ⟨enough, fun rounds hrounds => ?_⟩
  have hnested : ((schema.setting { options with maxRounds := rounds } buffer).nested depth
      ctx f typeName name).Fails p (.error ⟨.unknownType typeName, none⟩) := by
    unfold Setting.nested
    rw [hnone]
    rfl
  obtain ⟨warnings, hdecode⟩ := hfails rounds hrounds
    (Setting.decodeSingle_fails (Setting.selects_under.2 selected) custom hnested)
  exact ⟨_, hdecode, rfl, rfl⟩

/-- What lexical scoping says of a value of the field `f`, called `name`, whose type is one of the
schema with the name `typeName`. -/
structure ResolvesLexically (schema : Schema) (options : Options) (buffer : Buffer) (root : TypeDef)
    (ctx : Context) (f : Field) (name typeName : String) : Prop where
  /-- The chain starts with the type that the field is declared in. -/
  own : ∃ d, ctx.chain.head? = some d ∧ f ∈ d.seq
  /-- It follows the declarations down from the root type, and the name is looked up along it. -/
  lexical : ∃ path, ctx.chain.IsLexical root path typeName
  /-- A name that means nothing ends the decode, with an error at the path of the value. Rounds
  enough stand for a decode without bound on them. -/
  unknown : ctx.chain.Misses (TypeChain.nameParts typeName) →
    ∃ enough, ∀ rounds ≥ enough, ∃ result,
      schema.decode { options with maxRounds := rounds } buffer = .ok result ∧
        result.root = none ∧ result.errors = [{
          message := "Unknown type: " ++ typeName
          path := some (ctx.childId name)
          kind := "TypeResolutionError" }]
  /-- At all places whose chains are declared at one path the name stands for one type, whatever is
  decoded and through whatever calls they are reached. -/
  stable : ∀ options' buffer' w path, schema.Reached options' buffer' w →
    ctx.chain.DeclaredAt root path → w.ctx.chain.DeclaredAt root path →
      w.ctx.chain.lookup? typeName = ctx.chain.lookup? typeName

/-- **Lexical scoping.** Wherever a decode comes to a value whose type is one of the schema, the
name of the type is looked up along the declarations around the field, and the calls that lead there
do not matter. -/
theorem resolvesLexically_of_reached {depth : Nat} {outer : List Frame} {ctx : Context} {f : Field}
    {name typeName : String} {p : Progress}
    (hv : schema.Reached options buffer ⟨depth, outer, ctx, .single f name, p⟩)
    (selected : (schema.setting options buffer).Selects ctx f p typeName)
    (custom : Primitive.ofName? typeName = none) :
    ∃ root, schema.rootType? = some root ∧
      schema.ResolvesLexically options buffer root ctx f name typeName := by
  obtain ⟨root, hroot, ⟨path, hpath⟩, d, hd, hahead⟩ := hv.declared
  refine ⟨root, hroot, ⟨d, hd, hahead f List.mem_cons_self⟩, ⟨path, hpath.isLexical typeName⟩,
    ?_, ?_⟩
  · intro hmisses
    exact hv.fails_unknown selected custom (TypeChain.lookup?_eq_none.2 hmisses)
  · intro options' buffer' w path _ hctx hw
    rw [hctx.unique hw]

/-- A box with a tag. The box declares a type with the name of the one that the tag uses. -/
def courier : Schema where
  info := { id := some "courier" }
  seq := some [{ id := "box", type := .named "box" }]
  types := [
    ("box", {
      seq := [{ id := "tag", type := .named "tag" }]
      types := [("code", { seq := [{ id := "wide", type := .named "u2" }] })] }),
    ("tag", { seq := [{ id := "code", type := .named "code" }] }),
    ("code", { seq := [{ id := "narrow", type := .named "u1" }] })]

/-- In the tag of the box the code is the one of the schema. -/
theorem resolvesLexically_courier :
    ∃ depth outer ctx p,
      courier.Reached {} [7]
        ⟨depth, outer, ctx, .single { id := "code", type := .named "code" } "code", p⟩ ∧
      ctx.path = ["courier", "box", "tag"] ∧
      (courier.setting {} [7]).Selects ctx { id := "code", type := .named "code" } p "code" ∧
      Primitive.ofName? "code" = none ∧
      (ctx.chain.lookup? "code").map (fun found => found.1.seq) =
        some [{ id := "narrow", type := .named "u1" }] ∧
      ∃ root, courier.rootType? = some root ∧
        courier.ResolvesLexically {} [7] root ctx { id := "code", type := .named "code" }
          "code" "code" := by
  have hstart : courier.Reached {} [7] ⟨63, [], _, _, _⟩ := .root rfl rfl
  have hbox := (hstart.step (.value rfl rfl rfl)).step (.enter rfl rfl rfl)
  have htag := (hbox.step (.value rfl rfl rfl)).step (.enter rfl rfl rfl)
  have hcode := htag.step (.value rfl rfl rfl)
  exact ⟨_, _, _, _, hcode, rfl, rfl, rfl, rfl, resolvesLexically_of_reached hcode rfl rfl⟩

end Schema

end ByteSchema
