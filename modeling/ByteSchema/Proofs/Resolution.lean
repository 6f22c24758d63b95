import ByteSchema.Proofs.Mirror
import ByteSchema.Proofs.Sign

/-!
# ByteSchema.Proofs.Resolution

What a name means at a place that a decode comes to.

A name is looked for under up to three texts, each in the table of values and then, cut at its dots,
in the scope. The table mirrors the scopes (`Visit.Sound`), so the first text gives the field of the
instance itself, the second that of the instance around it, and the last one only what the scope gives
anyway. That no text is taken for another comes from the root: texts of paths start with its id and a
dot, and no field has this id.
-/

namespace ByteSchema

open Expression Text

/-! ## Identifiers -/

theorem dropWhile_of_forall {α : Type} {P : α → Bool} {items : List α}
    (h : ∀ a ∈ items, P a = false) : items.dropWhile P = items := by
  cases items with
  | nil => rfl
  | cons a rest => rw [List.dropWhile_cons, h a List.mem_cons_self, if_neg Bool.false_ne_true]

theorem strip_of_no_blanks {s : String} (h : ∀ c ∈ s.toList, isBlank c = false) : strip s = s := by
  have hreverse : ∀ c ∈ s.toList.reverse, isBlank c = false :=
    fun c hc => h c (List.mem_reverse.1 hc)
  rw [strip, dropWhile_of_forall h, dropWhile_of_forall hreverse, List.reverse_reverse,
    String.ofList_toList]

theorem IsIdentifier.ne_empty {x : String} (h : IsIdentifier x) : x ≠ "" := by
  obtain ⟨c, rest, hx, -, -⟩ := h
  rintro rfl
  cases hx

theorem IsIdentifier.continues {x : String} (h : IsIdentifier x) :
    ∀ c ∈ x.toList, continuesIdentifier c = true := by
  obtain ⟨c, rest, hx, -, hall⟩ := h
  rwa [hx]

theorem IsIdentifier.no_blanks {x : String} (h : IsIdentifier x) :
    ∀ c ∈ x.toList, isBlank c = false :=
  fun c hc => isBlank_of_continuesIdentifier (h.continues c hc)

theorem IsIdentifier.isPlain {x : String} (h : IsIdentifier x) (hdot : '.' ∉ x.toList) :
    IsPlain x :=
  ⟨hdot, fun hbracket => absurd (h.continues '[' hbracket) (by decide +kernel)⟩

/-! ## Where a name is looked for -/

theorem dropLead?_of_not_mem {lead s : String} {c : Char} (hlead : c ∈ lead.toList)
    (hs : c ∉ s.toList) : dropLead? lead s = none := by
  unfold dropLead?
  rw [if_neg]
  intro hprefix
  exact hs ((List.isPrefixOf_iff_prefix.1 hprefix).mem hlead)

theorem dropLead?_append (lead s : String) : dropLead? lead (lead ++ s) = some s := by
  unfold dropLead?
  rw [String.toList_append, if_pos (List.isPrefixOf_iff_prefix.2 (List.prefix_append _ _)),
    ← String.length_toList, List.drop_left, String.ofList_toList]

namespace View

variable {view : View} {x : String}

/-- A name without a dot speaks of no root. -/
theorem behindRootMark?_of_not_mem (h : '.' ∉ x.toList) : behindRootMark? x = none := by
  have hroot : dropLead? "$root." x = none := dropLead?_of_not_mem (by decide) h
  have hmark : dropLead? "_root." x = none := dropLead?_of_not_mem (by decide) h
  simp [behindRootMark?, rootMarks, hroot, hmark]

theorem behindRootMark?_mark {mark : String} (h : mark ∈ rootMarks) (x : String) :
    behindRootMark? (mark ++ x) = some x := by
  have hdollar : dropLead? "$root." ("_root." ++ x) = none := by
    simp [dropLead?]
  rcases List.mem_cons.1 h with rfl | h
  · simp [behindRootMark?, rootMarks, dropLead?_append]
  · obtain rfl := List.mem_singleton.1 h
    simp [behindRootMark?, rootMarks, hdollar, dropLead?_append]

/-- A marked name speaks of the root, not of the buffer. -/
theorem mark_append_ne {mark : String} (h : mark ∈ rootMarks) (x rest : String) :
    mark ++ x ≠ "_io." ++ rest := by
  intro heq
  have hlist := congrArg String.toList heq
  rcases List.mem_cons.1 h with rfl | h
  · simp at hlist
  · obtain rfl := List.mem_singleton.1 h
    simp at hlist

/-- A name without root mark is looked for in the instance, in the one around it, and as it stands. -/
theorem candidates_of_unmarked {path : List String} {last : String}
    (hmark : behindRootMark? x = none) (hpath : view.place.path = path ++ [last]) :
    view.candidates x = nodeIdOf (path ++ [last] ++ [x]) ::
      ((if path = [] then [] else [nodeIdOf (path ++ [x])]) ++ [x]) := by
  have hlength : (path ++ [last]).length ≤ 1 ↔ path = [] := by
    rw [List.length_append, List.length_singleton, ← List.length_eq_zero_iff]
    omega
  simp only [candidates, hmark, hpath, hlength, List.dropLast_concat]
  rw [if_neg (by simp)]
  rfl

/-- A name that is not one of the three special ones stands for the first number found. -/
theorem resolve_eq (hblank : ∀ c ∈ x.toList, isBlank c = false) (hne : x ≠ "")
    (hspecial : ∀ rest, x ≠ "_io." ++ rest) :
    view.resolve x = (view.candidates x).findSome? view.numberAt? := by
  have hsize : x ≠ "_io.size" := hspecial "size"
  have hpos : x ≠ "_io.pos" := hspecial "pos"
  have heof : x ≠ "_io.eof" := hspecial "eof"
  unfold resolve
  rw [strip_of_no_blanks hblank]
  simp only [hne, hsize, hpos, heof, if_false]

/-- A name without root mark stands for the number in the instance, in the one around it if there is
one, or at the name as it stands. -/
theorem resolve_of_unmarked {path : List String} {last : String} (hx : IsIdentifier x)
    (hdot : '.' ∉ x.toList) (hpath : view.place.path = path ++ [last]) :
    view.resolve x = (view.numberAt? (nodeIdOf (path ++ [last] ++ [x]))).or
      ((if path = [] then none else view.numberAt? (nodeIdOf (path ++ [x]))).or
        (view.numberAt? x)) := by
  have hspecial : ∀ rest, x ≠ "_io." ++ rest := by
    rintro rest rfl
    exact hdot (by simp)
  rw [resolve_eq hx.no_blanks hx.ne_empty hspecial,
    candidates_of_unmarked (behindRootMark?_of_not_mem hdot) hpath, List.findSome?_cons]
  cases view.numberAt? (nodeIdOf (path ++ [last] ++ [x])) with
  | some n => rfl
  | none =>
      by_cases hnil : path = []
      · rw [if_pos hnil, if_pos hnil, List.nil_append, List.findSome?_cons]
        cases view.numberAt? x <;> rfl
      · rw [if_neg hnil, if_neg hnil, List.singleton_append, List.findSome?_cons,
          List.findSome?_cons]
        cases view.numberAt? (nodeIdOf (path ++ [x])) <;> cases view.numberAt? x <;> rfl

/-- At a text without dots only the scope has a number. -/
theorem numberAt?_of_not_mem (hdot : '.' ∉ x.toList) (hne : x ≠ "")
    (hvalues : view.values.get? x = none) :
    view.numberAt? x = (view.place.scope.lookup x).bind Value.number? := by
  have hpath : (Value.record view.place.scope).atPath? x = view.place.scope.lookup x := by
    have hparts : (splitOn "." x).filter (· ≠ "") = [x] := by
      rw [splitOn_of_not_mem hdot]
      simp [hne]
    rw [Value.atPath?, hparts, Value.follow_cons]
    show (view.place.scope.lookup x).bind some = _
    exact Option.bind_fun_some _
  rw [numberAt?, hvalues, hpath]
  rfl

/-- At a text that starts with the id of the root only the table has a number. -/
theorem numberAt?_root {rootId r : String} (hdot : '.' ∉ rootId.toList) (hne : rootId ≠ "")
    (hscope : view.place.scope.lookup rootId = none) :
    view.numberAt? (rootId ++ "." ++ r) =
      (view.values.get? (rootId ++ "." ++ r)).bind Value.number? := by
  have hpath : (Value.record view.place.scope).atPath? (rootId ++ "." ++ r) = none := by
    obtain ⟨more, hmore⟩ := splitOn_first r hdot
    have hget : (Value.record view.place.scope).get? rootId = none := hscope
    rw [Value.atPath?, hmore, List.filter_cons, if_pos (by simpa using hne), Value.follow_cons, hget]
    rfl
  rw [numberAt?, hpath]
  exact Option.or_none

end View

/-! ## At a visit -/

/-- The number that a field of the instance has, if it is decoded and a number. -/
def Context.number? (ctx : Context) (x : String) : Option Number :=
  (ctx.scope.lookup x).bind Value.number?

/-- The context in the root instance. -/
def rootContext : Context → List Frame → Context
  | ctx, [] => ctx
  | _, fr :: outer => rootContext fr.ctx outer

theorem Enclosed.root {rootId : String} {values : ValueTable} {ctx : Context} {outer : List Frame}
    (h : Enclosed rootId values ctx.path outer) (hmirrors : Fresh outer → ctx.Mirrors values) :
    (rootContext ctx outer).path = [rootId] ∧ (rootContext ctx outer).Mirrors values := by
  induction outer generalizing ctx with
  | nil => exact ⟨h, hmirrors (by simp [Fresh])⟩
  | cons fr outer ih =>
      obtain ⟨-, hframe, houter⟩ := h
      exact ih houter hframe

/-- Paths start with the id of the root. -/
theorem Enclosed.lead {rootId : String} {values : ValueTable} {path : List String}
    {outer : List Frame} (h : Enclosed rootId values path outer) (hroot : rootId ≠ "") :
    path.head? = some rootId ∧ ∃ r, pathLead path = rootId ++ "." ++ r := by
  induction outer generalizing path with
  | nil =>
      obtain rfl : path = [rootId] := h
      exact ⟨rfl, "", by simp [pathLead, hroot]⟩
  | cons fr outer ih =>
      obtain ⟨⟨name, hname, rfl⟩, -, houter⟩ := h
      obtain ⟨hhead, r, hr⟩ := ih houter
      refine ⟨?_, r ++ (name ++ "."), ?_⟩
      · rw [List.head?_append, hhead]
        rfl
      · rw [pathLead_concat hname, hr]
        simp only [String.append_assoc]

/-- Under the path of an instance that is mirrored a name stands for its field. -/
theorem View.numberAt?_instance {view : View} {rootId x : String} {ctx : Context}
    {outer : List Frame} (hdot : '.' ∉ rootId.toList) (hne : rootId ≠ "")
    (hscope : view.place.scope.lookup rootId = none)
    (henclosed : Enclosed rootId view.values ctx.path outer) (hmirrors : ctx.Mirrors view.values)
    (hx : IsPlain x) : view.numberAt? (pathLead ctx.path ++ x) = ctx.number? x := by
  obtain ⟨-, r, hr⟩ := henclosed.lead hne
  have hlead : pathLead ctx.path ++ x = rootId ++ "." ++ (r ++ x) := by
    rw [hr]
    simp only [String.append_assoc]
  have hget : view.values.get? (rootId ++ "." ++ (r ++ x)) = ctx.scope.lookup x := by
    rw [← hlead]
    exact hmirrors x hx
  rw [hlead, View.numberAt?_root hdot hne hscope]
  exact congrArg (Option.bind · Value.number?) hget

namespace Visit.Sound

variable {rootId x : String} {s : Setting} {v : Visit} {offset : Int}

/-- As it stands a name without dots means a field of the instance itself. -/
theorem numberAt?_self (h : v.Sound rootId) (hdot : '.' ∉ x.toList) (hne : x ≠ "") :
    (v.view s offset).numberAt? x = v.ctx.number? x := by
  have hvalues : v.progress.values.get? x = none := by
    by_contra hsome
    exact hdot (h.dotted x hsome)
  exact View.numberAt?_of_not_mem hdot hne hvalues

/-- Whatever the scope holds, a name stands for the field of the instance, else for that of the
instance around, else for what it means as it stands. -/
theorem resolve_in (h : v.Sound rootId) (hroot : '.' ∉ rootId.toList) (hne : rootId ≠ "")
    {view : View} (hplace : view.place.path = v.ctx.path) (hvalues : view.values = v.progress.values)
    (hscope : view.place.scope.lookup rootId = none) (hx : IsIdentifier x) (hdot : '.' ∉ x.toList)
    (hfresh : Fresh v.outer) :
    view.resolve x = (v.ctx.number? x).or
      ((v.outer.head?.bind fun fr => fr.ctx.number? x).or (view.numberAt? x)) := by
  have hplain := hx.isPlain hdot
  have henclosed : Enclosed rootId view.values v.ctx.path v.outer := hvalues ▸ h.enclosed
  have hown : view.numberAt? (nodeIdOf (v.ctx.path ++ [x])) = v.ctx.number? x := by
    rw [nodeIdOf_concat hx.ne_empty]
    exact View.numberAt?_instance hroot hne hscope henclosed (hvalues ▸ h.mirrors hfresh) hplain
  cases houter : v.outer with
  -- In the root there is no instance around, and the second text is left out.
  | nil =>
      rw [houter] at henclosed
      have hpath : v.ctx.path = [] ++ [rootId] := henclosed
      rw [hpath] at hown
      rw [View.resolve_of_unmarked hx hdot (hplace.trans hpath), hown, if_pos rfl]
      rfl
  -- Elsewhere the table mirrors the instance around as well.
  | cons fr outer =>
      rw [houter] at henclosed hfresh
      obtain ⟨⟨last, -, hpath⟩, hframe, haround⟩ := henclosed
      have hmirrors := hframe (fresh_cons.1 hfresh).2
      have hparent : fr.ctx.path ≠ [] := by
        intro hnil
        have hhead := (haround.lead hne).1
        rw [hnil] at hhead
        cases hhead
      have hencl : view.numberAt? (nodeIdOf (fr.ctx.path ++ [x])) = fr.ctx.number? x := by
        rw [nodeIdOf_concat hx.ne_empty]
        exact View.numberAt?_instance hroot hne hscope haround hmirrors hplain
      rw [hpath] at hown
      rw [View.resolve_of_unmarked hx hdot (hplace.trans hpath), hown, if_neg hparent, hencl]
      rfl

/-- A name stands for the field of the instance, else for that of the instance around. -/
theorem resolve_identifier (h : v.Sound rootId) (hroot : '.' ∉ rootId.toList) (hne : rootId ≠ "")
    (hx : IsIdentifier x) (hdot : '.' ∉ x.toList) (hfresh : Fresh v.outer) :
    (v.view s offset).resolve x =
      (v.ctx.number? x).or (v.outer.head?.bind fun fr => fr.ctx.number? x) := by
  have hself : (v.view s offset).numberAt? x = v.ctx.number? x :=
    h.numberAt?_self hdot hx.ne_empty
  rw [h.resolve_in hroot hne rfl rfl h.noRoot hx hdot hfresh, hself]
  -- As it stands, the name means the first of the two again.
  cases v.ctx.number? x with
  | some n => rfl
  | none => exact Option.or_none

/-- Behind a root mark a name stands for the field of the root, from any depth. -/
theorem resolve_mark (h : v.Sound rootId) (hroot : '.' ∉ rootId.toList) (hne : rootId ≠ "")
    (hx : IsIdentifier x) (hdot : '.' ∉ x.toList) {mark : String} (hmark : mark ∈ View.rootMarks)
    {n : Number} (hn : (rootContext v.ctx v.outer).number? x = some n) :
    (v.view s offset).resolve (mark ++ x) = some n := by
  obtain ⟨hpath, hmirrors⟩ := h.enclosed.root h.mirrors
  have hmarks : ∀ m ∈ View.rootMarks, m.toList.any isBlank = false ∧ m ≠ "" := by
    decide +kernel
  obtain ⟨hblank, hempty⟩ := hmarks mark hmark
  have hblanks : ∀ c ∈ (mark ++ x).toList, isBlank c = false := by
    intro c hc
    rw [String.toList_append] at hc
    rcases List.mem_append.1 hc with hc | hc
    · exact Bool.eq_false_iff.2 (List.any_eq_false.1 hblank c hc)
    · exact hx.no_blanks c hc
  -- From any depth the path starts with the name of the root.
  have hname : (v.view s offset).rootName = rootId := by
    have hhead : (v.view s offset).place.rootName? = some rootId := (h.enclosed.lead hne).1
    rw [View.rootName, hhead]
    exact if_neg hne
  have hnumber : (v.view s offset).numberAt? (rootId ++ "." ++ x) = some n := by
    have hlead : pathLead (rootContext v.ctx v.outer).path ++ x = rootId ++ "." ++ x := by
      rw [hpath]
      simp [pathLead, hne]
    have henclosed : Enclosed rootId v.progress.values (rootContext v.ctx v.outer).path [] := hpath
    rw [← hlead, View.numberAt?_instance hroot hne h.noRoot henclosed hmirrors (hx.isPlain hdot)]
    exact hn
  rw [View.resolve_eq hblanks (by simp [hempty])
    (View.mark_append_ne hmark x), View.candidates,
    View.behindRootMark?_mark hmark]
  dsimp only
  rw [if_neg hx.ne_empty, hname, List.findSome?_cons, hnumber]

end Visit.Sound

/-- **Name resolution.** Where a decode comes to with no field entered twice, a name without dots
stands for the field of the instance that is being decoded, if that is decoded already and a number,
else for the field of the instance around it, and for nothing else. Behind a root mark it stands for
the field of the root, from any depth and without this condition. The ids are not empty when the
schema is loaded (`Schema.isNamed_of_load`). -/
theorem Schema.resolve_of_reached {schema : Schema} {options : Options} {buffer : Buffer} {v : Visit}
    (hroot : '.' ∉ schema.rootId.toList)
    (hids : ∀ f ∈ schema.fields, f.id ≠ "" ∧ '.' ∉ f.id.toList ∧ '[' ∉ f.id.toList ∧
      f.id ≠ schema.rootId)
    (h : schema.Reached options buffer v) {x : String} (hx : IsIdentifier x)
    (hdot : '.' ∉ x.toList) (offset : Int) :
    (Fresh v.outer → (v.view (schema.setting options buffer) offset).resolve x =
      (v.ctx.number? x).or (v.outer.head?.bind fun fr => fr.ctx.number? x)) ∧
    ∀ n, (rootContext v.ctx v.outer).number? x = some n →
      (v.view (schema.setting options buffer) offset).resolve ("_root." ++ x) = some n ∧
      (v.view (schema.setting options buffer) offset).resolve ("$root." ++ x) = some n := by
  have hsound : v.Sound schema.rootId := h.sound fun f hf => by
    obtain ⟨hne, hfdot, hbracket, hfroot⟩ := hids f hf
    exact ⟨hne, ⟨hfdot, hbracket⟩, hfroot⟩
  refine ⟨hsound.resolve_identifier hroot schema.rootId_ne_empty hx hdot, fun n hn => ⟨?_, ?_⟩⟩
  · exact hsound.resolve_mark hroot schema.rootId_ne_empty hx hdot (by simp [View.rootMarks]) hn
  · exact hsound.resolve_mark hroot schema.rootId_ne_empty hx hdot (by simp [View.rootMarks]) hn

/-- In the first shape of the scene, before its first field, the count is that of the scene. -/
theorem Schema.resolve_of_reached_scene :
    '.' ∉ scene.rootId.toList ∧
      (∀ f ∈ scene.fields, f.id ≠ "" ∧ '.' ∉ f.id.toList ∧ '[' ∉ f.id.toList ∧
        f.id ≠ scene.rootId) ∧
      IsIdentifier "count" ∧ '.' ∉ "count".toList ∧
      ∃ v, scene.Reached {} [2, 0, 1, 2, 9, 3, 4, 255] v ∧ v.ctx.path = ["scene", "shapes[0]"] ∧
        Fresh v.outer ∧ (rootContext v.ctx v.outer).number? "count" = some (.int 2) ∧
        (v.view (scene.setting {} [2, 0, 1, 2, 9, 3, 4, 255]) 1).resolve "count" = some (.int 2) ∧
        (v.view (scene.setting {} [2, 0, 1, 2, 9, 3, 4, 255]) 1).resolve ("_root." ++ "count") =
          some (.int 2) ∧
        (v.view (scene.setting {} [2, 0, 1, 2, 9, 3, 4, 255]) 1).resolve ("$root." ++ "count") =
          some (.int 2) := by
  have hroot : '.' ∉ scene.rootId.toList := by decide
  have hids : ∀ f ∈ scene.fields, f.id ≠ "" ∧ '.' ∉ f.id.toList ∧ '[' ∉ f.id.toList ∧
      f.id ≠ scene.rootId := by decide +kernel
  have hx : IsIdentifier "count" :=
    ⟨'c', ['o', 'u', 'n', 't'], rfl, by decide +kernel, List.all_eq_true.1 (by decide +kernel)⟩
  have hdot : '.' ∉ "count".toList := by decide
  let bytes : Buffer := [2, 0, 1, 2, 9, 3, 4, 255]
  let count : Node := {
    id := "scene.count", name := "count", label := "u1", range := ⟨0, 1⟩, endian := some .big
    value := .int 2 }
  have hstart : scene.Reached {} bytes ⟨63, [], _, _, _⟩ := .root rfl rfl
  have hpast := hstart.step (.past (o := ⟨count, 1⟩) rfl rfl rfl)
  have harray := hpast.step (.array rfl rfl rfl rfl)
  have helement := harray.step (.element rfl)
  have henter := helement.step (.enter rfl rfl rfl)
  obtain ⟨hplain, hmarked⟩ := resolve_of_reached hroot hids henter hx hdot 1
  obtain ⟨hunderscore, hdollar⟩ := hmarked (.int 2) rfl
  refine ⟨hroot, hids, hx, hdot, _, henter, rfl, ?_, rfl, ?_, hunderscore, hdollar⟩
  · intro fr hfr
    obtain rfl := List.mem_singleton.1 hfr
    rfl
  · refine (hplain fun fr hfr => ?_).trans rfl
    obtain rfl := List.mem_singleton.1 hfr
    rfl

/-- Two fields with one id, of which the second reads as many bytes as a field in the first says. -/
def Schema.twice : Schema where
  seq := some [{ id := "a", type := .named "t" }, { id := "a", type := .named "u" }]
  types := [
    ("t", { seq := [{ id := "x", type := .named "u1" }] }),
    ("u", { seq := [{ id := "y", size := .str "x" }] })]

/-- A field that is entered twice sees what was decoded in it before: the decode fails only when the
value of the second one is written. -/
theorem Schema.resolve_twice :
    '.' ∉ twice.rootId.toList ∧
      (∀ f ∈ twice.fields, f.id ≠ "" ∧ '.' ∉ f.id.toList ∧ '[' ∉ f.id.toList ∧
        f.id ≠ twice.rootId) ∧
      IsIdentifier "x" ∧ '.' ∉ "x".toList ∧
      ∃ v, twice.Reached {} [1, 65] v ∧ v.station = .fields [{ id := "y", size := .str "x" }] ∧
        v.ctx.number? "x" = none ∧ (v.outer.head?.bind fun fr => fr.ctx.number? "x") = none ∧
        (v.view (twice.setting {} [1, 65]) 1).resolve "x" = some (.int 1) := by
  have hx : IsIdentifier "x" := ⟨'x', [], rfl, by decide +kernel, List.all_eq_true.1 (by decide +kernel)⟩
  refine ⟨by decide, by decide +kernel, hx, by decide, ?_⟩
  let inner : Node := {
    id := "root.a.x", name := "x", label := "u1", range := ⟨0, 1⟩, endian := some .big
    value := .int 1 }
  let first : Node := {
    id := "root.a", name := "a", label := "t", range := ⟨0, 1⟩, endian := some .big
    value := .record [("x", .int 1)], children := [inner] }
  have hstart : twice.Reached {} [1, 65] ⟨63, [], _, _, _⟩ := .root rfl rfl
  have hpast := hstart.step (.past (o := ⟨first, 1⟩) rfl rfl rfl)
  have hvalue := hpast.step (.value rfl rfl rfl)
  have henter := hvalue.step (.enter rfl rfl rfl)
  exact ⟨_, henter, rfl, rfl, rfl, rfl⟩

end ByteSchema
