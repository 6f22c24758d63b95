import ByteSchema.Proofs.Failing
import ByteSchema.Proofs.Mirror
import ByteSchema.Proofs.Tree

/-!
# ByteSchema.Proofs.WriteOnce

The table of values is written once.

Four facts make it up (`Schema.WritesOnce`). In the order of time the table only grows. Each scope is
part of it, under the path of its instance. Behind a decode that succeeds it lists the fields of the
tree, each once; the root and the elements of arrays are not in it. And a decode that comes to write
a path again ends there.
-/

namespace ByteSchema

/-! ## Scopes in the table -/

/-- What is kept from place to place: what the scope holds stands in the table, under the path of the
instance, which ends in a name. -/
structure Visit.Scoped (v : Visit) : Prop where
  named : v.station.IsNamed
  inside : ∃ around name, v.ctx.path = around ++ [name] ∧ name ≠ ""
  written : ∀ entry ∈ v.ctx.scope, entry.1 ≠ "" ∧
    v.progress.values.get? (v.ctx.childId entry.1) = some entry.2

theorem Setting.Leads.scoped {s : Setting} {v v' : Visit} (h : v.Scoped)
    (hmeets : v.Meets Field.IsNamed) (leads : s.Leads v v') : v'.Scoped := by
  have hextends := leads.extends
  cases leads with
  | skip => exact ⟨trivial, h.inside, h.written⟩
  | @past _ _ ctx f _ _ _ o _ decoded _ =>
      have hf : f.IsNamed := hmeets.ahead f List.mem_cons_self
      have ho : o.node.id = ctx.childId f.id :=
        (decodeField_coheres decoded coheresCustom_nested hmeets.inSight hf).id_eq
      refine ⟨trivial, h.inside, fun entry hentry => ?_⟩
      -- The new entry is written with the value; the others were there before.
      rcases Fields.mem_put hentry with rfl | hentry
      · have hchild : (ctx.past f o).childId f.id = o.node.id := ho.symm
        exact ⟨hf, by rw [hchild, Progress.get?_write]⟩
      · obtain ⟨hname, hvalue⟩ := h.written entry hentry
        exact ⟨hname, hextends.kept _ _ hvalue⟩
  | value _ placed =>
      obtain ⟨-, ⟨offset, rfl⟩, -⟩ := placed_inv placed
      exact ⟨hmeets.ahead _ List.mem_cons_self, h.inside, h.written⟩
  | array _ placed =>
      obtain ⟨-, ⟨offset, rfl⟩, -⟩ := placed_inv placed
      exact ⟨trivial, h.inside, h.written⟩
  | element => exact ⟨elementName_ne_empty, h.inside, h.written⟩
  | next =>
      refine ⟨trivial, h.inside, fun entry hentry => ?_⟩
      obtain ⟨hname, hvalue⟩ := h.written entry hentry
      exact ⟨hname, hextends.kept _ _ hvalue⟩
  | enter => exact ⟨trivial, ⟨_, _, rfl, h.named⟩, fun _ hentry => by cases hentry⟩

theorem Schema.Reached.scoped {schema : Schema} {options : Options} {buffer : Buffer} {v : Visit}
    (hid : ∀ f ∈ schema.fields, f.id ≠ "") (h : schema.Reached options buffer v) : v.Scoped := by
  induction h with
  | root => exact ⟨trivial, ⟨[], _, rfl, schema.rootId_ne_empty⟩, fun _ hentry => by cases hentry⟩
  | step reached leads ih => exact leads.scoped ih (reached.meets hid)

/-- An entry of the scope stands in the table under the id of the instance, a dot and its name. -/
theorem Visit.Scoped.get?_eq {v : Visit} (h : v.Scoped) {entry : String × Value}
    (hentry : entry ∈ v.ctx.scope) :
    v.progress.values.get? (v.ctx.id ++ "." ++ entry.1) = some entry.2 := by
  obtain ⟨around, name, hpath, hname⟩ := h.inside
  obtain ⟨hentryName, hvalue⟩ := h.written entry hentry
  have hid : v.ctx.childId entry.1 = v.ctx.id ++ "." ++ entry.1 := by
    unfold Place.childId Place.id
    rw [hpath, childId_inside hname hentryName]
  rwa [hid] at hvalue

/-! ## Behind the decode -/

namespace Schema

variable {schema : Schema} {options : Options} {buffer : Buffer}

/-- The table that a decode leaves. -/
def valuesAfter (schema : Schema) (options : Options) (buffer : Buffer) : ValueTable :=
  match schema.rootType? with
  | some definition => ((schema.decodeRoot options definition buffer).run.run {}).2.values
  | none => .empty

/-- What the table is behind a decode that gives a tree: it lists the fields, each under its id. -/
structure IsListed (root : Node) (nodes : List Node) (values : ValueTable) : Prop where
  nodes : nodes.Perm (root :: (root.fieldNodes ++ root.elementNodes))
  values : values.toList.Perm (root.fieldNodes.map fun n => (n.id, n.value))
  distinct : (root.fieldNodes.map Node.id).Nodup

theorem isListed_of_decode {result : Result} {root : Node} (hid : ∀ f ∈ schema.fields, f.id ≠ "")
    (h : schema.decode options buffer = .ok result) (hroot : result.root = some root) :
    IsListed root result.nodes (schema.valuesAfter options buffer) := by
  obtain ⟨definition, o, p, hdefinition, hrun, rfl⟩ := decode_inv h hroot
  cases hroot
  have ho : o.Coheres { endian := schema.endian } schema.rootId {} p :=
    Setting.decodeInstance_coheres hrun (rootInstance_every hdefinition hid) schema.rootId_ne_empty
  have hafter : schema.valuesAfter options buffer = p.values := by
    unfold valuesAfter
    rw [hdefinition]
    exact congrArg (fun r => r.2.values) hrun
  -- The table starts empty, so it holds what the tree writes.
  have hlist : p.values.toList = o.node.written := by
    have hentries : p.values.entries = o.node.written.reverse ++ [] := ho.grows
    rw [ValueTable.toList, hentries, List.append_nil, List.reverse_reverse]
  have hperm := o.node.written_perm
  refine ⟨Node.perm_flatten ho.coherent, ?_, ?_⟩
  · rw [hafter, hlist]
    exact hperm
  · have hdistinct : p.values.IsDistinct :=
      (Setting.decodeInstance_extends hrun).distinct List.nodup_nil
    have hkeys : (p.values.toList.map Prod.fst).Nodup := by
      rw [ValueTable.toList, List.map_reverse]
      exact List.nodup_reverse.2 hdistinct
    rw [hlist] at hkeys
    have hids := (hperm.map Prod.fst).nodup hkeys
    rwa [List.map_map] at hids

/-- What the table holds at a place of a decode that succeeds it holds in the end. -/
theorem Reached.kept {result : Result} {root : Node} {v : Visit}
    (h : schema.decode options buffer = .ok result) (hroot : result.root = some root)
    (hv : schema.Reached options buffer v) {path : String} {x : Value}
    (hx : v.progress.values.get? path = some x) :
    (schema.valuesAfter options buffer).get? path = some x := by
  obtain ⟨definition, o, p, hdefinition, hrun, rfl⟩ := decode_inv h hroot
  obtain ⟨depth, children, fields, stop, hdepth, hseq, rfl⟩ := Setting.decodeInstance_inv hrun
  have hafter : schema.valuesAfter options buffer = p.values := by
    unfold valuesAfter
    rw [hdefinition]
    exact congrArg (fun r => r.2.values) hrun
  rw [hafter]
  have hgoes := hv.goes hdefinition hdepth
  have hruns : Visit.Runs ⟨depth, [], Setting.inside { endian := schema.endian }
      (schema.rootInstance definition), .fields definition.seq, {}⟩
      (schema.setting options buffer) children p := ⟨fields, stop, hseq⟩
  exact (Setting.extends_of_runs hruns hgoes).kept path x hx

/-! ## All together -/

/-- The table of values of a decode is written once. -/
structure WritesOnce (schema : Schema) (options : Options) (buffer : Buffer) : Prop where
  /-- Of any two places the decode comes to one before the other … -/
  ordered : ∀ v w, schema.Reached options buffer v → schema.Reached options buffer w →
    v = w ∨ (schema.setting options buffer).Before v w ∨
      (schema.setting options buffer).Before w v
  /-- … and what the table holds at the one before it holds at the other, unchanged. -/
  grows : ∀ v w, (schema.setting options buffer).Before v w →
    ∀ path x, v.progress.values.get? path = some x → w.progress.values.get? path = some x
  /-- What the scope of an instance holds stands in the table under the id of the instance. -/
  inScope : ∀ v, schema.Reached options buffer v → ∀ id x, (id, x) ∈ v.ctx.scope →
    v.progress.values.get? (v.ctx.id ++ "." ++ id) = some x
  /-- Behind a decode that succeeds the table lists the fields of the tree, and has kept what it
  held on the way. -/
  listed : ∀ result root, schema.decode options buffer = .ok result → result.root = some root →
    IsListed root result.nodes (schema.valuesAfter options buffer) ∧
      ∀ v, schema.Reached options buffer v →
        ∀ path x, v.progress.values.get? path = some x →
          (schema.valuesAfter options buffer).get? path = some x
  /-- A second write ends the decode: when a field is decoded whose path has a value, there is no
  tree and one error, at that path. Rounds enough stand for a decode without bound on them. -/
  twice : ∀ v f rest o p, schema.Reached options buffer v → v.station = .fields (f :: rest) →
    ((schema.setting options buffer).isPresent v.ctx f).Yields v.progress true v.progress →
    ((schema.setting options buffer).decodeField ((schema.setting options buffer).nested v.depth)
      v.ctx f).Yields v.progress o p →
    p.values.get? (v.ctx.childId f.id) ≠ none →
      ∃ enough, ∀ rounds ≥ enough, ∃ result,
        schema.decode { options with maxRounds := rounds } buffer = .ok result ∧
          result.root = none ∧ result.errors = [{
            message := "Field '" ++ v.ctx.childId f.id ++ "' decoded twice"
            path := some (v.ctx.childId f.id)
            kind := "SchemaError" }]

/-- A value whose path is in the table already fails. -/
theorem fails_of_written {s : Setting} {v : Visit} {f : Field} {rest : List Field} {o : Outcome}
    {p : Progress} (hstation : v.station = .fields (f :: rest))
    (present : (s.isPresent v.ctx f).Yields v.progress true v.progress)
    (decoded : (s.decodeField (s.nested v.depth) v.ctx f).Yields v.progress o p)
    (hwritten : p.values.get? o.node.id ≠ none) :
    v.Fails s (.error ⟨.decodedTwice o.node.id, some o.node.id⟩) := by
  unfold Visit.Fails
  rw [hstation]
  intro done
  exact present.bind_fails (decoded.bind_fails ((Decoder.record_fails hwritten).bind_left _))

/-- **Write-once.** The table of values of a decode is written once. That every field has an id is
checked when a schema is loaded (`Schema.isNamed_of_load`). -/
theorem decode_writesOnce (hid : ∀ f ∈ schema.fields, f.id ≠ "") (options : Options)
    (buffer : Buffer) : schema.WritesOnce options buffer := by
  refine ⟨fun v w hv hw => hv.ordered hw, fun v w hbefore => hbefore.extends.kept,
    fun v hv id x hentry => (hv.scoped hid).get?_eq hentry,
    fun result root h hroot => ⟨isListed_of_decode hid h hroot, fun v hv path x hx =>
      hv.kept h hroot hx⟩, ?_⟩
  intro v f rest o p hv hstation present decoded hwritten
  have hmeets : v.Meets Field.IsNamed := hv.meets hid
  have hf : f.IsNamed := hmeets.ahead f (by rw [hstation]; exact List.mem_cons_self)
  have ho : o.node.id = v.ctx.childId f.id :=
    (Setting.decodeField_coheres decoded Setting.coheresCustom_nested hmeets.inSight hf).id_eq
  rw [← ho] at hwritten ⊢
  have hplaced : (Failure.error ⟨.decodedTwice o.node.id, some o.node.id⟩).IsPlaced :=
    Failure.isPlaced_error
  obtain ⟨enough, hfails⟩ := hv.fails hplaced
  refine ⟨max enough options.maxRounds, fun rounds hrounds => ?_⟩
  -- With more rounds the field is decoded as before, and the value is written a second time.
  have hlimits : options.AtMost { options with maxRounds := rounds } :=
    Options.atMost_withRounds (by omega)
  have hdecoded := (Setting.decodeField_loosens hlimits
    (Setting.loosensCustom_nested hlimits)).yields decoded
  obtain ⟨warnings, hdecode⟩ := hfails rounds (by omega)
    (fails_of_written hstation present hdecoded hwritten)
  exact ⟨_, hdecode, rfl, rfl⟩

theorem decode_writesOnce_scene :
    (∀ f ∈ scene.fields, f.id ≠ "") ∧ scene.succeeds {} [2, 0, 1, 2, 9, 3, 4, 255] = true ∧
      scene.WritesOnce {} [2, 0, 1, 2, 9, 3, 4, 255] := by
  have hid : ∀ f ∈ scene.fields, f.id ≠ "" := by decide +kernel
  exact ⟨hid, by decide +kernel, decode_writesOnce hid {} [2, 0, 1, 2, 9, 3, 4, 255]⟩

/-- What is inside a field is written before the field, and elements are not written. -/
example : (scene.valuesAfter {} [1, 0, 3, 4, 255]).toList.map Prod.fst =
    ["scene.count", "scene.shapes[0].kind", "scene.shapes[0].at.x", "scene.shapes[0].at.y",
      "scene.shapes[0].at", "scene.shapes", "scene.mark"] := by decide +kernel

end Schema

end ByteSchema
