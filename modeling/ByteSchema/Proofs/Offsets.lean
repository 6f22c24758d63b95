import ByteSchema.Proofs.Tiling
import ByteSchema.Proofs.Visit

/-!
# ByteSchema.Proofs.Offsets

Where a decode can get to.

All reads are checked against the buffer, so by themselves they lead nowhere but to places in it.
The only way out is a field with a position: nothing checks it, and a field that takes up no bytes
is decoded wherever its position says. If all positions that a decode goes to lie between two bounds
around the buffer, then so do all offsets and all nodes (`Schema.nodes_within`); with the ends of
the buffer as bounds this says that every node lies in the buffer.
-/

namespace ByteSchema

variable {lo hi : Int}

/-- The offset lies between the bounds. -/
def Between (lo hi offset : Int) : Prop := lo ≤ offset ∧ offset ≤ hi

/-- The bounds lie around the buffer. -/
structure Buffer.Margin (b : Buffer) (lo hi : Int) : Prop where
  start : lo ≤ 0
  stop : (b.length : Int) ≤ hi

/-- The tightest bounds around a buffer. -/
theorem Buffer.margin_self (b : Buffer) : b.Margin 0 b.length := ⟨Int.le_refl _, Int.le_refl _⟩

/-- The node lies between the bounds. -/
structure Node.Within (lo hi : Int) (n : Node) : Prop where
  start : lo ≤ n.range.start
  length : 0 ≤ n.range.length
  stop : n.range.stop ≤ hi

/-- All nodes of the trees lie between the bounds, and so does the place behind them. -/
structure StaysWithin (lo hi : Int) (nodes : List Node) (next : Int) : Prop where
  nodes : ∀ n ∈ nodes.flatMap Node.flatten, n.Within lo hi
  next : Between lo hi next

theorem StaysWithin.nil {stop : Int} (h : Between lo hi stop) : StaysWithin lo hi [] stop :=
  ⟨by simp, h⟩

theorem StaysWithin.cons {n : Node} {nodes : List Node} {next stop : Int}
    (hn : StaysWithin lo hi [n] next) (hrest : StaysWithin lo hi nodes stop) :
    StaysWithin lo hi (n :: nodes) stop := by
  refine ⟨forall_flatten_cons.2 ⟨?_, hrest.nodes⟩, hrest.next⟩
  exact (forall_flatten_cons.1 hn.nodes).1

/-- A node put around others, from its start to where they end, stays as they do. -/
theorem StaysWithin.around (n : Node) {stop : Int} (h : StaysWithin lo hi n.children stop)
    (hstart : Between lo hi n.range.start)
    (hlength : n.range.length = max 0 (stop - n.range.start)) : StaysWithin lo hi [n] stop := by
  have hstop := h.next.2
  have hself : n.Within lo hi := by
    refine ⟨hstart.1, by omega, ?_⟩
    have hle := hstart.2
    unfold Span.stop
    omega
  refine ⟨forall_flatten_cons.2 ⟨Node.forall_flatten.2 ⟨hself, h.nodes⟩, by simp⟩, h.next⟩

namespace Setting

variable {s : Setting} {R : Visit → Prop} {depth : Nat} {outer : List Frame} {ctx ctx' : Context}
  {f : Field} {name : String} {p p' : Progress} {o : Outcome}

theorem IsLeaf.staysWithin (h : s.IsLeaf ctx name o) (hmargin : s.buffer.Margin lo hi) :
    StaysWithin lo hi [o.node] o.next := by
  obtain ⟨h0, hlength, hstop⟩ := h.holds
  have hlo := hmargin.start
  have hhi := hmargin.stop
  have hself : o.node.Within lo hi := ⟨by omega, hlength, by unfold Span.stop; omega⟩
  refine ⟨forall_flatten_cons.2 ⟨?_, by simp⟩, ?_⟩
  · exact (Node.forall_flatten_of_leaf h.children_eq).2 hself
  · rw [h.next_eq]
    exact ⟨by unfold Span.stop; omega, hself.stop⟩

/-! ## Positions -/

/-- The position of the field has a value, by which the field is read at this offset. -/
def Places (s : Setting) (ctx : Context) (f : Field) (p : Progress) (offset : Int) : Prop :=
  ∃ n, (s.view ctx.toPlace p.values).evaluate f.position = .ok (some n) ∧
    (s.view ctx.toPlace p.values).requireInt "pos" n.toValue (some (ctx.childId f.id)) = .ok offset

/-- A field is read where the one before ends, or where its position says. -/
theorem placed_cases (h : (s.placed ctx f).Yields p ctx' p') :
    ctx' = ctx ∨ ∃ offset, s.Places ctx f p offset ∧ ctx' = ctx.moveTo offset := by
  simp only [placed, Decoder.yields_bind, yields_evaluate] at h
  obtain ⟨n, _, ⟨hn, rfl⟩, h⟩ := h
  cases n with
  | none =>
      obtain ⟨rfl, rfl⟩ := Decoder.yields_pure.1 h
      exact .inl rfl
  | some n =>
      simp only [Decoder.yields_bind, yields_requireInt, Decoder.yields_pure] at h
      obtain ⟨offset, _, ⟨hoffset, rfl⟩, rfl, rfl⟩ := h
      exact .inr ⟨offset, ⟨n, hn, hoffset⟩, rfl⟩

theorem yields_placed {offset : Int} (h : s.Places ctx f p offset) :
    (s.placed ctx f).Yields p (ctx.moveTo offset) p := by
  obtain ⟨n, hn, hoffset⟩ := h
  simp only [placed, Decoder.yields_bind, yields_evaluate]
  refine ⟨some n, p, ⟨hn, rfl⟩, ?_⟩
  simp only [Decoder.yields_bind, yields_requireInt, Decoder.yields_pure]
  exact ⟨offset, p, ⟨hoffset, rfl⟩, rfl, rfl⟩

theorem range_of_single {depth : Nat}
    (h : (s.decodeSingle (s.nested depth) ctx f name).Yields p o p') :
    o.node.range.start = ctx.offset ∧ 0 ≤ o.node.range.length := by
  rcases decodeSingle_inv h with ⟨hleaf, -⟩ | ⟨typeName, -, -, hnested⟩
  · exact ⟨hleaf.start_eq, hleaf.holds.2.1⟩
  · obtain ⟨definition, chain, -, hrun⟩ := nested_inv hnested
    obtain ⟨left, children, fields, stop, -, -, rfl⟩ := decodeInstance_inv hrun
    exact ⟨rfl, Int.le_max_left 0 _⟩

/-- The node of a field with a position starts there. -/
theorem range_of_places {offset : Int} (hplaces : s.Places ctx f p offset)
    (h : (s.decodeField (s.nested depth) ctx f).Yields p o p') :
    o.node.range.start = offset ∧ 0 ≤ o.node.range.length := by
  obtain ⟨ctx', hplaced, hrun⟩ := decodeField_inv h
  obtain ⟨rfl, -⟩ := (yields_placed hplaces).unique hplaced
  rcases hrun with ⟨-, hsingle⟩ | ⟨r, count, items, stop, -, -, -, rfl⟩
  · exact range_of_single hsingle
  · exact ⟨rfl, Int.le_max_left 0 _⟩

/-- At the places of `R`, all positions of fields that are decoded lie between the bounds. -/
def PlacesWithin (s : Setting) (R : Visit → Prop) (lo hi : Int) : Prop :=
  ∀ {depth : Nat} {outer : List Frame} {ctx : Context} {f : Field} {rest : List Field}
    {p : Progress} {offset : Int}, R ⟨depth, outer, ctx, .fields (f :: rest), p⟩ →
      (s.isPresent ctx f).Yields p true p → s.Places ctx f p offset → Between lo hi offset

theorem PlacesWithin.placed {rest : List Field} (h : s.PlacesWithin R lo hi)
    (hv : R ⟨depth, outer, ctx, .fields (f :: rest), p⟩)
    (hpresent : (s.isPresent ctx f).Yields p true p) (hplaced : (s.placed ctx f).Yields p ctx' p')
    (hoffset : Between lo hi ctx.offset) : Between lo hi ctx'.offset := by
  rcases placed_cases hplaced with rfl | ⟨offset, hplaces, rfl⟩
  · exact hoffset
  · exact h hv hpresent hplaces

/-! ## The decoders -/

/-- What is asked of the fields of an instance in which `depth` more may be nested. -/
def FieldsWithin (s : Setting) (R : Visit → Prop) (lo hi : Int) (depth : Nat) : Prop :=
  ∀ {outer : List Frame} {ctx : Context} {seq : List Field} {p p' : Progress} {nodes : List Node}
    {fields : Fields} {stop : Int}, R ⟨depth, outer, ctx, .fields seq, p⟩ →
      Between lo hi ctx.offset → Sequence s (s.nested depth) seq ctx p nodes fields stop p' →
        StaysWithin lo hi nodes stop

variable (hR : s.Keeps R) (hmargin : s.buffer.Margin lo hi)
include hR hmargin

theorem single_within (hfields : ∀ left, depth = left + 1 → s.FieldsWithin R lo hi left)
    (hv : R ⟨depth, outer, ctx, .single f name, p⟩) (hoffset : Between lo hi ctx.offset)
    (h : (s.decodeSingle (s.nested depth) ctx f name).Yields p o p') :
    StaysWithin lo hi [o.node] o.next := by
  rcases decodeSingle_inv h with ⟨hleaf, -⟩ | ⟨typeName, hselected, hcustom, hnested⟩
  · exact hleaf.staysWithin hmargin
  · obtain ⟨definition, chain, hfound, hrun⟩ := nested_inv hnested
    obtain ⟨left, children, fields, stop, rfl, hseq, rfl⟩ := decodeInstance_inv hrun
    have hinside := hfields left rfl (hR hv (.enter hselected hcustom hfound)) hoffset hseq
    exact hinside.around (s.instanceNode ..) hoffset rfl

theorem elements_within {r : Repetition} {count : Option Int} {index : Nat} {cursor stop : Int}
    {items : List Node} (hfields : ∀ left, depth = left + 1 → s.FieldsWithin R lo hi left)
    (hv : R ⟨depth, outer, ctx, .elements f r count index cursor, p⟩)
    (hcursor : Between lo hi cursor)
    (h : Elements s (s.nested depth) ctx f r count index cursor p items stop p') :
    StaysWithin lo hi items stop := by
  induction h with
  | complete => exact .nil hcursor
  | satisfied more single _ | stuck more single _ _ =>
      have hself := single_within hR hmargin hfields (hR hv (.element more)) hcursor single
      exact hself.cons (.nil hself.next)
  | next more single fails moves _ ih =>
      have hself := single_within hR hmargin hfields (hR hv (.element more)) hcursor single
      exact hself.cons (ih (hR hv (.next more single fails moves)) hself.next)

theorem field_within {rest : List Field} (hpos : s.PlacesWithin R lo hi)
    (hfields : ∀ left, depth = left + 1 → s.FieldsWithin R lo hi left)
    (hv : R ⟨depth, outer, ctx, .fields (f :: rest), p⟩) (hoffset : Between lo hi ctx.offset)
    (hpresent : (s.isPresent ctx f).Yields p true p)
    (h : (s.decodeField (s.nested depth) ctx f).Yields p o p') :
    StaysWithin lo hi [o.node] o.next := by
  obtain ⟨ctx', hplaced, hrun⟩ := decodeField_inv h
  have hoffset' := hpos.placed hv hpresent hplaced hoffset
  rcases hrun with ⟨honce, hsingle⟩ | ⟨r, count, items, stop, hr, hcount, helements, rfl⟩
  · exact single_within hR hmargin hfields (hR hv (.value hpresent hplaced honce)) hoffset' hsingle
  · have hitems := elements_within hR hmargin hfields (hR hv (.array hpresent hplaced hr hcount))
      hoffset' helements
    exact hitems.around (arrayNode ..) hoffset' rfl

theorem sequence_within {seq : List Field} {nodes : List Node} {fields : Fields} {stop : Int}
    (hpos : s.PlacesWithin R lo hi)
    (hfields : ∀ left, depth = left + 1 → s.FieldsWithin R lo hi left)
    (hv : R ⟨depth, outer, ctx, .fields seq, p⟩) (hoffset : Between lo hi ctx.offset)
    (h : Sequence s (s.nested depth) seq ctx p nodes fields stop p') :
    StaysWithin lo hi nodes stop := by
  induction h with
  | nil => exact .nil hoffset
  | skip absent _ ih => exact ih (hR hv (.skip absent)) hoffset
  | field present decoded new _ ih =>
      have hself := field_within hR hmargin hpos hfields hv hoffset present decoded
      exact hself.cons (ih (hR hv (.past present decoded new)) hself.next)

theorem fieldsWithin (hpos : s.PlacesWithin R lo hi) : s.FieldsWithin R lo hi depth := by
  refine @forall_depth (s.FieldsWithin R lo hi) ?_ depth
  intro depth hfields outer ctx seq p p' nodes fields stop hv hoffset h
  exact sequence_within hR hmargin hpos hfields hv hoffset h

end Setting

/-! ## Places -/

/-- The offsets at a place lie between the bounds. -/
structure Visit.Within (lo hi : Int) (v : Visit) : Prop where
  offset : Between lo hi v.ctx.offset
  cursor {f : Field} {r : Repetition} {count : Option Int} {index : Nat} {cursor : Int} :
    v.station = .elements f r count index cursor → Between lo hi cursor

theorem Setting.Leads.within {s : Setting} {R : Visit → Prop} {v v' : Visit} (hR : s.Keeps R)
    (hmargin : s.buffer.Margin lo hi) (hpos : s.PlacesWithin R lo hi) (hv : R v)
    (h : v.Within lo hi) (leads : s.Leads v v') : v'.Within lo hi := by
  have hfields (depth : Nat) : s.FieldsWithin R lo hi depth :=
    Setting.fieldsWithin hR hmargin hpos
  cases leads with
  | skip => exact ⟨h.offset, nofun⟩
  | past present decoded _ =>
      have hself := Setting.field_within hR hmargin hpos (fun left _ => hfields left) hv h.offset
        present decoded
      exact ⟨hself.next, nofun⟩
  | value present placed _ => exact ⟨hpos.placed hv present placed h.offset, nofun⟩
  | array present placed _ _ =>
      have hplaced := hpos.placed hv present placed h.offset
      refine ⟨hplaced, fun hstation => ?_⟩
      cases hstation
      exact hplaced
  | element _ => exact ⟨h.cursor rfl, nofun⟩
  | next more decoded _ _ =>
      have hself := Setting.single_within hR hmargin (fun left _ => hfields left)
        (hR hv (.element more)) (h.cursor rfl) decoded
      refine ⟨h.offset, fun hstation => ?_⟩
      cases hstation
      exact hself.next
  | enter _ _ _ => exact ⟨h.offset, nofun⟩

namespace Schema

variable {schema : Schema} {options : Options} {buffer : Buffer} {result : Result} {root : Node}

/-- All positions that the decode goes to lie between the bounds. -/
def PlacesWithin (schema : Schema) (options : Options) (buffer : Buffer) (lo hi : Int) : Prop :=
  (schema.setting options buffer).PlacesWithin (schema.Reached options buffer) lo hi

/-- Then so do the offsets at all places that it comes to. -/
theorem Reached.within {v : Visit} (hmargin : buffer.Margin lo hi)
    (hpos : schema.PlacesWithin options buffer lo hi) (h : schema.Reached options buffer v) :
    v.Within lo hi := by
  have hzero : Between lo hi 0 := by
    have hlo := hmargin.start
    have hhi := hmargin.stop
    exact ⟨hlo, by omega⟩
  induction h with
  | root => exact ⟨hzero, nofun⟩
  | step hreached leads ih => exact leads.within (fun _ _ => .step) hmargin hpos hreached ih

/-- And so do all nodes. -/
theorem nodes_within (hmargin : buffer.Margin lo hi)
    (hpos : schema.PlacesWithin options buffer lo hi)
    (h : schema.decode options buffer = .ok result) (hroot : result.root = some root) :
    ∀ n ∈ result.nodes, n.Within lo hi := by
  obtain ⟨definition, o, p, hdefinition, hrun, rfl⟩ := decode_inv h hroot
  obtain ⟨depth, children, fields, stop, hdepth, hseq, rfl⟩ := Setting.decodeInstance_inv hrun
  have hv : schema.Reached options buffer _ := .root hdefinition hdepth
  have hoffset := (hv.within hmargin hpos).offset
  have hinside := Setting.fieldsWithin (fun _ _ => .step) hmargin hpos hv hoffset hseq
  suffices haround : StaysWithin lo hi [_] stop from (forall_flatten_cons.1 haround.nodes).1
  exact hinside.around _ hoffset rfl

/-- The nodes of a decode that succeeds lie in the buffer exactly when all positions that it goes to
do: nothing else leads out of the buffer, and nothing but a check by the schema keeps a position in
it. -/
theorem nodes_inBuffer_iff (h : schema.decode options buffer = .ok result)
    (hroot : result.root = some root) :
    (∀ n ∈ result.nodes, 0 ≤ n.range.start ∧ n.range.stop ≤ (buffer.length : Int)) ↔
      schema.PlacesWithin options buffer 0 buffer.length := by
  constructor
  · intro hnodes depth outer ctx f rest p offset hv hpresent hplaces
    obtain ⟨nodes, fields, stop, p', hrun, hin⟩ := hv.completes h hroot
    -- The decode succeeds, so the field that is placed there has a node in the tree.
    cases hrun with
    | skip absent => cases (absent.unique hpresent).1
    | @field _ _ _ _ _ _ o _ _ _ _ decoded =>
        have hflatten : o.node ∈ root.flatten :=
          (forall_flatten_cons.1 hin).1 _ o.node.mem_flatten_self
        have hmem : o.node ∈ result.nodes := by
          obtain ⟨_, _, _, _, _, rfl⟩ := decode_inv h hroot
          cases hroot
          exact hflatten
        obtain ⟨hstart, hlength⟩ := Setting.range_of_places hplaces decoded
        obtain ⟨hlow, hhigh⟩ := hnodes _ hmem
        unfold Span.stop at hhigh
        exact ⟨by omega, by omega⟩
  · intro hpos n hn
    have hwithin := nodes_within buffer.margin_self hpos h hroot n hn
    exact ⟨hwithin.start, hwithin.stop⟩

/-- Positions that are given as numbers are known beforehand. -/
theorem placesWithin_of_literals
    (h : ∀ f ∈ schema.fields, f.position = .null ∨ ∃ n, f.position = .int n ∧ Between lo hi n) :
    schema.PlacesWithin options buffer lo hi := by
  intro depth outer ctx f rest p offset hv _ hplaces
  obtain ⟨n, hn, hoffset⟩ := hplaces
  rcases (hv.meets h).ahead f List.mem_cons_self with hnull | ⟨m, hm, hbetween⟩
  · rw [hnull] at hn
    cases hn
  · rw [hm] at hn
    cases hn
    cases hoffset
    exact hbetween

/-- A byte, and another one at a fixed position. -/
def footer : Schema where
  seq := some [
    { id := "head", type := .named "u1" },
    { id := "foot", type := .named "u1", position := .int 2 }]

theorem nodes_inBuffer_footer :
    ∃ result root, footer.decode {} [7, 8, 9] = .ok result ∧ result.root = some root ∧
      ∀ n ∈ result.nodes, 0 ≤ n.range.start ∧ n.range.stop ≤ 3 := by
  have hrun : footer.succeeds {} [7, 8, 9] = true := by decide +kernel
  obtain ⟨result, h, hsuccess⟩ := exists_of_succeeds hrun
  obtain ⟨root, hroot⟩ := Result.exists_root hsuccess
  refine ⟨result, root, h, hroot, (nodes_inBuffer_iff h hroot).2 (placesWithin_of_literals ?_)⟩
  simp [footer, fields, fieldsIn, Between]

/-- An instance without fields, at a position behind the buffer. -/
def astray : Schema where
  seq := some [{ id := "a", type := .named "e", position := .int 5 }]
  types := [("e", {})]

/-- A read of no bytes at that position fails, but the instance is decoded there. -/
theorem decode_astray :
    ∃ result, astray.decode {} [] = .ok result ∧ result.success = true ∧
      ∃ n ∈ result.nodes, n.range.start = 5 ∧ ¬ n.range.stop ≤ ([] : Buffer).length := by
  refine ⟨_, rfl, rfl, _, List.mem_cons_of_mem _ (List.mem_cons_self ..), rfl, ?_⟩
  decide

end Schema

end ByteSchema
