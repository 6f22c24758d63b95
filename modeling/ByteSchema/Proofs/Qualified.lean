import ByteSchema.Proofs.Lexical
import ByteSchema.Proofs.Loading
import ByteSchema.Schema.Describe
import Mathlib.Data.List.Nodup

/-!
# ByteSchema.Proofs.Qualified

The qualified names of a schema's types are what they can be looked up by.

A type is declared at a path of names, each declared in the type before (`placesIn`). Its qualified
name joins the names of the path, and a lookup splits it again. Where the names are not empty and
have no colon, the two undo each other (`nameParts_qualifiedName`, `qualifiedName_nameParts`), so
paths and qualified names are as good as each other. What is left is to compare two ways down the
declarations: the one that lists them in order, and the one that follows a path.
-/

namespace ByteSchema

/-! ## Joining and splitting -/

namespace Text

variable {mark piece cs rest : List Char} {fuel : Nat} {c : Char}

/-- What is split can be joined again. -/
theorem intercalate_splitListOn :
    mark.intercalate (splitListOn mark fuel piece rest) = piece.reverse ++ rest := by
  induction fuel generalizing piece rest with
  | zero => simp [splitListOn]
  | succ fuel ih =>
      cases rest with
      | nil => simp [splitListOn]
      | cons c rest =>
          unfold splitListOn
          split
          case isTrue hmark =>
              obtain ⟨behind, hbehind⟩ := List.isPrefixOf_iff_prefix.1 hmark
              rw [List.intercalate_cons_of_ne_nil splitListOn_ne_nil, ih, ← hbehind]
              simp
          case isFalse =>
              rw [ih]
              simp

theorem intercalate_splitOn (mark s : String) : mark.intercalate (splitOn mark s) = s := by
  have hid : String.toList ∘ String.ofList = id := funext fun cs => String.toList_ofList
  rw [← String.toList_inj, String.toList_intercalate, splitOn, List.map_map, hid, List.map_id,
    intercalate_splitListOn]
  rfl

/-- The text in front of the mark is passed over. -/
theorem splitListOn_pass (h : c ∉ cs) :
    splitListOn (c :: mark) (cs.length + fuel) piece (cs ++ rest) =
      splitListOn (c :: mark) fuel (cs.reverse ++ piece) rest := by
  induction cs generalizing piece with
  | nil => simp
  | cons d cs ih =>
      obtain ⟨hd, hcs⟩ := not_or.1 (mt List.mem_cons.2 h)
      rw [List.length_cons, Nat.add_right_comm, List.cons_append, splitListOn,
        if_neg (by simp [hd]), ih hcs]
      simp

/-- What is joined can be split again, if no piece has the first character of the mark. -/
theorem splitListOn_intercalate {pieces : List (List Char)} (hcs : c ∉ cs)
    (hpieces : ∀ p ∈ pieces, c ∉ p)
    (hfuel : ((c :: mark).intercalate (cs :: pieces)).length ≤ fuel) :
    splitListOn (c :: mark) fuel piece ((c :: mark).intercalate (cs :: pieces)) =
      (piece.reverse ++ cs) :: pieces := by
  induction pieces generalizing cs fuel piece with
  | nil =>
      obtain ⟨more, rfl⟩ := Nat.exists_eq_add_of_le hfuel
      rw [List.intercalate_singleton, ← List.append_nil cs, List.length_append, List.length_nil,
        Nat.add_zero, splitListOn_pass hcs]
      cases more <;> simp [splitListOn]
  | cons next pieces ih =>
      obtain ⟨hnext, hpieces⟩ := List.forall_mem_cons.1 hpieces
      rw [List.intercalate_cons_cons] at hfuel ⊢
      simp only [List.length_append, List.length_cons] at hfuel
      obtain ⟨more, rfl⟩ : ∃ more, fuel = cs.length + (more + 1) :=
        ⟨fuel - cs.length - 1, by omega⟩
      rw [List.append_assoc, splitListOn_pass hcs, List.cons_append, splitListOn,
        if_pos (by simp), List.length_cons, List.drop_succ_cons, List.drop_left,
        ih hnext hpieces (by omega)]
      simp

end Text

/-- The qualified name of the type that is declared at a path. -/
def qualifiedName (path : List String) : String := String.intercalate "::" path

/-- Names that a qualified name can be put together from. -/
def ArePlainNames (names : List String) : Prop := ∀ name ∈ names, name ≠ "" ∧ ':' ∉ name.toList

section

variable {path : List String} {name : String}

theorem qualifiedName_nameParts (name : String) :
    qualifiedName (TypeChain.nameParts name) = name := Text.intercalate_splitOn "::" name

theorem nameParts_qualifiedName (hne : path ≠ []) (h : ArePlainNames path) :
    TypeChain.nameParts (qualifiedName path) = path := by
  obtain ⟨first, rest, rfl⟩ := List.exists_cons_of_ne_nil hne
  obtain ⟨hfirst, hrest⟩ := List.forall_mem_cons.1 h
  have hmark : "::".toList = [':', ':'] := rfl
  have hid : String.ofList ∘ String.toList = id := funext fun s => String.ofList_toList
  unfold TypeChain.nameParts Text.splitOn qualifiedName
  rw [← String.length_toList, String.toList_intercalate, hmark, List.map_cons,
    Text.splitListOn_intercalate hfirst.2 (by simpa using fun s hs => (hrest s hs).2) le_rfl]
  simp [hid]

theorem qualifiedName_cons (hne : path ≠ []) :
    qualifiedName (name :: path) = name ++ "::" ++ qualifiedName path :=
  String.intercalate_cons_of_ne_nil hne

end

/-! ## The places of a schema's types -/

mutual

/-- The paths to the types inside a type. -/
def TypeDef.places : TypeDef → List (List String)
  | ⟨_, types, _⟩ => placesIn types

/-- The paths to some types and to the types inside them, each type before those inside it. -/
def placesIn : List (String × TypeDef) → List (List String)
  | [] => []
  | (name, d) :: rest => [name] :: d.places.map (name :: ·) ++ placesIn rest

end

/-- What holds of the names of some types, and of the names of the types inside each of them, at any
depth. -/
inductive Types.Every (P : List String → Prop) : Types → Prop
  | intro {types : Types} (here : P (types.map Prod.fst))
      (inside : ∀ name d, (name, d) ∈ types → Every P d.types) : Every P types

section

variable {types : Types} {d e last : TypeDef} {name lead : String} {path names : List String}
  {below : List TypeDef} {P : List String → Prop}

theorem Types.every_of_forall (here : P (types.map Prod.fst))
    (inside : ∀ entry ∈ types, Types.Every P entry.2.types) : types.Every P :=
  .intro here fun name d hd => inside (name, d) hd

theorem Types.Every.here (h : types.Every P) : P (types.map Prod.fst) := by
  cases h with
  | intro here _ => exact here

theorem Types.Every.inside (h : types.Every P) (hd : (name, d) ∈ types) :
    Types.Every P d.types := by
  cases h with
  | intro _ inside => exact inside name d hd

theorem placesIn_eq_flatMap : placesIn types =
    types.flatMap fun entry => [entry.1] :: (placesIn entry.2.types).map (entry.1 :: ·) := by
  induction types with
  | nil => rfl
  | cons entry rest ih =>
      obtain ⟨name, seq, types, endian⟩ := entry
      rw [placesIn, ih]
      rfl

theorem mem_placesIn_iff : path ∈ placesIn types ↔
    ∃ name d, (name, d) ∈ types ∧
      (path = [name] ∨ ∃ inner ∈ placesIn d.types, name :: inner = path) := by
  rw [placesIn_eq_flatMap, List.mem_flatMap]
  simp

theorem ne_nil_of_mem_placesIn (h : path ∈ placesIn types) : path ≠ [] := by
  obtain ⟨name, d, -, rfl | ⟨inner, -, rfl⟩⟩ := mem_placesIn_iff.1 h
  · exact List.cons_ne_nil _ _
  · exact List.cons_ne_nil _ _

/-- The names on the way to a type are plain if all names are. -/
theorem plain_of_mem_placesIn (hplain : types.Every ArePlainNames) (h : path ∈ placesIn types) :
    ArePlainNames path := by
  induction hplain generalizing path with
  | @intro types here inside ih =>
      obtain ⟨name, d, hd, hpath⟩ := mem_placesIn_iff.1 h
      have hname := here name (List.mem_map.2 ⟨(name, d), hd, rfl⟩)
      rcases hpath with rfl | ⟨inner, hinner, rfl⟩
      · exact List.forall_mem_singleton.2 hname
      · exact List.forall_mem_cons.2 ⟨hname, ih name d hd hinner⟩

/-- Each place is listed once. -/
theorem nodup_placesIn (h : types.Every List.Nodup) : (placesIn types).Nodup := by
  induction h with
  | @intro types here inside ih =>
      rw [placesIn_eq_flatMap, List.nodup_flatMap]
      refine ⟨fun entry hentry => ?_, ?_⟩
      · refine List.nodup_cons.2 ⟨fun hmem => ?_, ?_⟩
        · obtain ⟨inner, hinner, heq⟩ := List.mem_map.1 hmem
          exact ne_nil_of_mem_placesIn hinner (List.cons.inj heq).2
        · exact (ih entry.1 entry.2 hentry).map fun _ _ heq => (List.cons.inj heq).2
      · -- Places of two types start with their names.
        refine (List.pairwise_map.1 here).imp fun {a b} hne => ?_
        have hhead (entry : String × TypeDef) : ∀ path ∈ [entry.1] ::
            (placesIn entry.2.types).map (entry.1 :: ·), path.head? = some entry.1 := by simp
        intro path ha hb
        exact hne (Option.some.inj ((hhead a path ha).symm.trans (hhead b path hb)))

/-! ## Two ways down the declarations -/

/-- The list of qualified names is that of the places. -/
theorem namesIn_eq (hplain : types.Every ArePlainNames) :
    namesIn lead types = (placesIn types).map fun path => lead ++ qualifiedName path := by
  induction hplain generalizing lead with
  | @intro types here inside ih =>
      -- The names of each entry come one after the other, its own before those inside it.
      have hflat (types : Types) : namesIn lead types = types.flatMap fun entry =>
          entry.2.namesBelow lead entry.1 := by
        induction types with
        | nil => rfl
        | cons entry rest ih => rw [namesIn, ih, List.flatMap_cons]
      rw [hflat, placesIn_eq_flatMap, List.map_flatMap]
      refine List.flatMap_congr fun entry hentry => ?_
      obtain ⟨name, d⟩ := entry
      have hname := (here name (List.mem_map.2 ⟨(name, d), hentry, rfl⟩)).1
      have hne : lead ++ name ≠ "" := Value.append_ne_empty hname
      have hbelow : d.namesBelow lead name =
          (lead ++ name) :: namesIn (lead ++ name ++ "::") d.types := by
        obtain ⟨seq, types, endian⟩ := d
        rw [TypeDef.namesBelow, if_neg hne]
      rw [hbelow, ih name d hentry, List.map_cons, List.map_map]
      refine congrArg₂ List.cons (by simp [qualifiedName]) ?_
      refine List.map_congr_left fun path hpath => ?_
      rw [Function.comp_apply, qualifiedName_cons (ne_nil_of_mem_placesIn hpath)]
      simp only [String.append_assoc]

theorem lookup_of_mem (hdistinct : (types.map Prod.fst).Nodup) (h : (name, d) ∈ types) :
    types.lookup name = some d := by
  induction types with
  | nil => cases h
  | cons entry rest ih =>
      obtain ⟨hfirst, hrest⟩ := List.nodup_cons.1 hdistinct
      rcases List.mem_cons.1 h with rfl | h
      · exact List.lookup_cons_self
      · have hne : name ≠ entry.1 := fun heq => hfirst (heq ▸ List.mem_map.2 ⟨(name, d), h, rfl⟩)
        rw [List.lookup_cons, beq_false_of_ne hne]
        exact ih hrest h

/-- The places are the paths along which types are declared. -/
theorem mem_placesIn (h : Types.Every List.Nodup d.types) :
    path ∈ placesIn d.types ↔ path ≠ [] ∧ ∃ below, d.Declares path below := by
  generalize htypes : d.types = types at h
  induction h generalizing d path with
  | @intro types here inside ih =>
      rw [mem_placesIn_iff]
      constructor
      · rintro ⟨name, e, he, hpath⟩
        have hdeclared : d.types.lookup name = some e := htypes ▸ lookup_of_mem here he
        rcases hpath with rfl | ⟨inner, hinner, rfl⟩
        · exact ⟨List.cons_ne_nil _ _, [e], .cons hdeclared .nil⟩
        · obtain ⟨-, below, hbelow⟩ := (ih name e he rfl).1 hinner
          exact ⟨List.cons_ne_nil _ _, e :: below, .cons hdeclared hbelow⟩
      · rintro ⟨hne, below, hbelow⟩
        cases hbelow with
        | nil => exact absurd rfl hne
        | @cons _ e name names below declared rest =>
            have he : (name, e) ∈ types := mem_of_lookup (htypes ▸ declared)
            refine ⟨name, e, he, ?_⟩
            by_cases hnames : names = []
            · exact .inl (by rw [hnames])
            · exact .inr ⟨names, (ih name e he rfl).2 ⟨hnames, below, rest⟩, rfl⟩

/-- One more name at the end of a path. -/
theorem TypeDef.Declares.snoc (h : d.Declares names below)
    (hlast : (d :: below).getLast? = some last) (hdeclared : last.types.lookup name = some e) :
    d.Declares (names ++ [name]) (below ++ [e]) := by
  induction h with
  | nil =>
      cases hlast
      exact .cons hdeclared .nil
  | cons declared _ ih => exact .cons declared (ih (by simpa using hlast))

end

namespace TypeChain

variable {root e : TypeDef} {chain around : TypeChain} {path parts : List String} {name : String}

/-- Chains are declared along the same paths, from the innermost type outward. -/
theorem declaredAt_iff : DeclaredAt root path.reverse chain ↔
    ∃ below, root.Declares path below ∧ chain = below.reverse ++ [root] := by
  constructor
  · intro h
    generalize hinward : path.reverse = inward at h
    induction h generalizing path with
    | root =>
        rw [List.reverse_eq_nil_iff] at hinward
        exact ⟨[], hinward ▸ .nil, rfl⟩
    -- The path is read from the other end, so the innermost type is the last one below.
    | @inner inward name d e outer _ declared ih =>
        obtain rfl : path = inward.reverse ++ [name] := by
          rw [← List.reverse_reverse path, hinward, List.reverse_cons]
        obtain ⟨below, hbelow, hchain⟩ := ih (List.reverse_reverse inward)
        have hlast : (root :: below).getLast? = some d := by
          rw [← List.head?_reverse, List.reverse_cons, ← hchain]
          rfl
        refine ⟨below ++ [e], hbelow.snoc hlast declared, ?_⟩
        rw [hchain, List.reverse_append]
        rfl
  · rintro ⟨below, hbelow, rfl⟩
    have hdeclared := DeclaredAt.root.declares hbelow
    rwa [List.append_nil] at hdeclared

theorem DeclaredAt.exists_cons (h : DeclaredAt root path chain) :
    ∃ e outer, chain = e :: outer := by
  cases h with
  | root => exact ⟨_, _, rfl⟩
  | inner => exact ⟨_, _, rfl⟩

/-- From the root alone, a name means what is declared at its parts. -/
theorem means_root :
    Means [root] parts around ↔ parts ≠ [] ∧ DeclaredAt root parts.reverse around := by
  rw [declaredAt_iff]
  constructor
  · rintro ⟨⟨hidden, hsplit, -, -⟩, declares⟩
    obtain ⟨rfl, hcons⟩ : hidden = [] ∧ _ := by
      cases hidden with
      | nil => exact ⟨rfl, hsplit⟩
      | cons own hidden => cases hidden <;> simp at hsplit
    cases hcons
    exact ⟨List.cons_ne_nil _ _, _, declares, rfl⟩
  · rintro ⟨hne, below, declares, rfl⟩
    cases declares with
    | nil => exact absurd rfl hne
    | cons declared rest =>
        have hsome : root.types.lookup _ ≠ none := declared ▸ Option.some_ne_none _
        exact .intro ⟨[], rfl, List.forall_mem_nil _, hsome⟩ (.cons declared rest)

/-- A name is looked up from the root by following its parts. -/
theorem lookup?_root : lookup? [root] name = some (e, around) ↔
    DeclaredAt root (nameParts name).reverse around ∧ around.head? = some e := by
  rw [lookup?_eq_some, means_root]
  simp [nameParts_ne_nil]

end TypeChain

/-! ## Mappings have distinct names -/

theorem Types.names_put (types : Types) (name : String) (d : TypeDef) :
    (Types.put types name d).map Prod.fst =
      if name ∈ types.map Prod.fst then types.map Prod.fst else types.map Prod.fst ++ [name] := by
  induction types with
  | nil => rfl
  | cons entry rest ih =>
      obtain ⟨n, e⟩ := entry
      unfold Types.put
      by_cases hn : n = name
      · simp [hn]
      · have hne : name ≠ n := fun h => hn h.symm
        rw [if_neg hn, List.map_cons, ih, List.map_cons]
        split <;> simp_all

theorem Types.Every.put {types : Types} {name : String} {d : TypeDef}
    (htypes : types.Every List.Nodup) (hd : Types.Every List.Nodup d.types) :
    (Types.put types name d).Every List.Nodup := by
  refine .intro ?_ fun n e he => ?_
  · rw [Types.names_put]
    split
    case isTrue => exact htypes.here
    case isFalse hnew =>
        rw [← List.concat_eq_append]
        exact htypes.here.concat hnew
  · rcases Types.mem_of_mem_put he with he | he
    · exact htypes.inside he
    · cases he
      exact hd

/-- The types of a schema that is loaded have distinct names, wherever they stand together. -/
theorem Schema.distinct_of_load {source : Value} {schema : Schema} (h : load source = .ok schema) :
    schema.types.Every List.Nodup := by
  obtain ⟨entries, hentries⟩ := exists_entries_of_load h
  have hnil : Types.Every List.Nodup [] := .intro List.nodup_nil nofun
  exact (Loading.within_induction (P := fun d => Types.Every List.Nodup d.types) hnil hnil
    (fun _ htypes => htypes) Types.Every.put).2.1 _ _ _ _ (ofEntries_inv hentries).2

/-! ## Listed and found -/

namespace Schema

/-- **The names of types.** Let the types of a schema with fields of its own have distinct names,
which are not empty and have no colon, at any depth. Then its list of type names is that of the
qualified names of all places of types, each before those inside it, and no name is in it twice.
Seen from the root, each of them is the name of the type that is declared there, which comes with
the chain of the types around it; and no other text is the name of a type. -/
theorem typeNames_resolve {schema : Schema} {seq : List Field} (hseq : schema.seq = some seq)
    (hdistinct : schema.types.Every List.Nodup) (hplain : schema.types.Every ArePlainNames) :
    schema.typeNames = (placesIn schema.types).map qualifiedName ∧ schema.typeNames.Nodup ∧
      ∃ root, schema.rootType? = some root ∧
        (∀ path, path ∈ placesIn schema.types ↔
          path ≠ [] ∧ ∃ chain, TypeChain.DeclaredAt root path.reverse chain) ∧
        (∀ path ∈ placesIn schema.types, ∃ e outer,
          TypeChain.DeclaredAt root path.reverse (e :: outer) ∧
            TypeChain.lookup? [root] (qualifiedName path) = some (e, e :: outer)) ∧
        ∀ name, name ∉ schema.typeNames → TypeChain.lookup? [root] name = none := by
  obtain ⟨root, hroot, htypes⟩ : ∃ root, schema.rootType? = some root ∧
      schema.types = root.types := by
    unfold rootType?
    rw [hseq]
    exact ⟨_, rfl, rfl⟩
  have hnames : schema.typeNames = (placesIn schema.types).map qualifiedName := by
    rw [typeNames, namesIn_eq hplain]
    simp
  have hparts : ∀ path ∈ placesIn schema.types,
      TypeChain.nameParts (qualifiedName path) = path := fun path hpath =>
    nameParts_qualifiedName (ne_nil_of_mem_placesIn hpath) (plain_of_mem_placesIn hplain hpath)
  have hplaces (path : List String) : path ∈ placesIn schema.types ↔
      path ≠ [] ∧ ∃ chain, TypeChain.DeclaredAt root path.reverse chain := by
    rw [htypes, mem_placesIn (htypes ▸ hdistinct)]
    simp [TypeChain.declaredAt_iff]
  refine ⟨hnames, ?_, root, hroot, hplaces, fun path hpath => ?_, fun name hname => ?_⟩
  · rw [hnames]
    -- Distinct places have distinct names, for a name gives back its path.
    refine List.Nodup.map_on (fun path hpath other hother heq => ?_) (nodup_placesIn hdistinct)
    rw [← hparts path hpath, ← hparts other hother, heq]
  · obtain ⟨-, chain, hchain⟩ := (hplaces path).1 hpath
    obtain ⟨e, outer, rfl⟩ := hchain.exists_cons
    exact ⟨e, outer, hchain, TypeChain.lookup?_root.2 ⟨(hparts path hpath).symm ▸ hchain, rfl⟩⟩
  · cases hfound : TypeChain.lookup? [root] name with
    | none => rfl
    | some found =>
        have hdeclared := (TypeChain.lookup?_root.1 hfound).1
        have hplace := (hplaces _).2 ⟨TypeChain.nameParts_ne_nil name, _, hdeclared⟩
        refine absurd ?_ hname
        rw [hnames, ← qualifiedName_nameParts name]
        exact List.mem_map_of_mem hplace

/-- The type `a` is declared at three places. -/
def nests : Schema where
  seq := some []
  types := [
    ("a", { types := [("b", { types := [("a", {})] }), ("c", {})] }),
    ("b", { types := [("a", { endian := some .little })] })]

theorem typeNames_resolve_nests : nests.seq = some [] ∧
    nests.types.Every List.Nodup ∧ nests.types.Every ArePlainNames ∧
    nests.typeNames = ["a", "a::b", "a::b::a", "a::c", "b", "b::a"] ∧
    nests.typeNames = (placesIn nests.types).map qualifiedName ∧ nests.typeNames.Nodup ∧
    ∃ root, nests.rootType? = some root ∧
      (∀ path, path ∈ placesIn nests.types ↔
        path ≠ [] ∧ ∃ chain, TypeChain.DeclaredAt root path.reverse chain) ∧
      (∀ path ∈ placesIn nests.types, ∃ e outer,
        TypeChain.DeclaredAt root path.reverse (e :: outer) ∧
          TypeChain.lookup? [root] (qualifiedName path) = some (e, e :: outer)) ∧
      ∀ name, name ∉ nests.typeNames → TypeChain.lookup? [root] name = none := by
  have hevery {P : List String → Prop} (hroot : P ["a", "b"]) (hinner : P ["b", "c"])
      (hone : P ["a"]) (hnil : P []) : nests.types.Every P := by
    have hempty : Types.Every P [] := Types.every_of_forall hnil nofun
    have hlast {endian : Option Endian} : Types.Every P [("a", { endian })] :=
      Types.every_of_forall hone (List.forall_mem_singleton.2 hempty)
    have hfirst : Types.Every P [("b", { types := [("a", {})] }), ("c", {})] :=
      Types.every_of_forall hinner
        (List.forall_mem_cons.2 ⟨hlast, List.forall_mem_singleton.2 hempty⟩)
    exact Types.every_of_forall hroot
      (List.forall_mem_cons.2 ⟨hfirst, List.forall_mem_singleton.2 hlast⟩)
  have hdistinct : nests.types.Every List.Nodup :=
    hevery (by decide) (by decide) (by decide) (by decide)
  have hplain : nests.types.Every ArePlainNames := by
    refine hevery ?_ ?_ ?_ ?_ <;> unfold ArePlainNames <;> decide +kernel
  exact ⟨rfl, hdistinct, hplain, by decide, typeNames_resolve rfl hdistinct hplain⟩

end Schema

end ByteSchema
