import ByteSchema.Proofs.Declared

/-!
# ByteSchema.Proofs.Tiling

Without positions the tree of a decode tiles what it consumes.

Every decoder starts where the one before stopped, and what a decoder reads lies in the buffer, so
the children of a node lie one behind the other from its start to its end (`Tiles`). The invariant is
`Outcome.Fits` for one value and `Row` for several; a row is closed to a node by an array or an
instance. The bytes of the leaves, put together, are then the consumed bytes by induction on the tree
alone (`leafBytes_flatten`).
-/

namespace ByteSchema

/-- The nodes lie one behind the other, from `start` to `stop`. -/
inductive Tiles : Int → List Node → Int → Prop
  | nil {start : Int} : Tiles start [] start
  | cons {start stop : Int} {n : Node} {rest : List Node} (hstart : n.range.start = start)
      (hrest : Tiles n.range.stop rest stop) : Tiles start (n :: rest) stop

/-- A node lies in the buffer, and its children tile it. An instance or an array without children is
tiled by none, so it is empty. -/
structure Node.Tiled (b : Buffer) (n : Node) : Prop where
  holds : b.Holds n.range.start n.range.length
  children : n.children ≠ [] ∨ n.value.isComposite = true →
    Tiles n.range.start n.children n.range.stop

/-! ## The bytes of the leaves -/

/-- The bytes of a range. -/
def Buffer.within (b : Buffer) (r : Span) : List UInt8 := b.slice r.start.toNat r.length.toNat

/-- The bytes of the nodes without children, put together. -/
def leafBytes (b : Buffer) (nodes : List Node) : List UInt8 :=
  (nodes.filter fun n => n.children.isEmpty).flatMap fun n => b.within n.range

theorem leafBytes_append (b : Buffer) (ns ms : List Node) :
    leafBytes b (ns ++ ms) = leafBytes b ns ++ leafBytes b ms := by
  simp [leafBytes]

/-- Two slices one behind the other make one. -/
theorem Buffer.slice_append_slice (b : Buffer) (i m n : Nat) :
    b.slice i m ++ b.slice (i + m) n = b.slice i (m + n) := by
  simp only [Buffer.slice, List.take_add, List.drop_drop]

/-- The end of a row of tiled nodes is not before its start. -/
theorem Tiles.le {b : Buffer} {start stop : Int} {nodes : List Node} (h : Tiles start nodes stop)
    (hnodes : ∀ n ∈ nodes, n.Tiled b) : start ≤ stop := by
  induction h with
  | nil => exact Int.le_refl _
  | @cons start stop n rest hstart _ ih =>
      have hlength := (hnodes n List.mem_cons_self).holds.2.1
      have hrest := ih fun m hm => hnodes m (List.mem_cons_of_mem _ hm)
      unfold Span.stop at hrest
      omega

theorem mem_flattenAll_self {n : Node} {ns : List Node} (hn : n ∈ ns) : n ∈ flattenAll ns := by
  rw [flattenAll_eq_flatMap]
  exact List.mem_flatMap.2 ⟨n, hn, n.mem_flatten_self⟩

theorem forall_flattenAll_cons {P : Node → Prop} {n : Node} {rest : List Node} :
    (∀ m ∈ flattenAll (n :: rest), P m) ↔
      (∀ m ∈ n.flatten, P m) ∧ ∀ m ∈ flattenAll rest, P m := by
  rw [flattenAll]
  exact List.forall_mem_append

theorem Tiles.le_of_flattenAll {b : Buffer} {start stop : Int} {nodes : List Node}
    (h : Tiles start nodes stop) (hnodes : ∀ m ∈ flattenAll nodes, m.Tiled b) : start ≤ stop :=
  h.le fun n hn => hnodes n (mem_flattenAll_self hn)

mutual

/-- The leaves below a node hold the bytes of its range. -/
theorem leafBytes_flatten (b : Buffer) :
    ∀ n : Node, (∀ m ∈ n.flatten, m.Tiled b) → leafBytes b n.flatten = b.within n.range
  | ⟨id, name, label, range, endian, value, children, attributes, problems⟩, h => by
      have hself := h _ (Node.mem_flatten_self _)
      cases children with
      | nil => simp [Node.flatten, flattenAll, leafBytes]
      | cons c rest =>
          have htiles := hself.children (.inl (List.cons_ne_nil c rest))
          have hall := leafBytes_flattenAll b (c :: rest) htiles hself.holds.1 fun m hm =>
            h m (by rw [Node.flatten]; exact List.mem_cons_of_mem _ hm)
          have hlength : range.stop - range.start = range.length := by unfold Span.stop; omega
          rw [Node.flatten, ← List.singleton_append, leafBytes_append, hall, hlength]
          simp [leafBytes, Buffer.within]

/-- The leaves below a row of nodes hold the bytes from its start to its end. -/
theorem leafBytes_flattenAll (b : Buffer) :
    ∀ (ns : List Node) {start stop : Int}, Tiles start ns stop → 0 ≤ start →
      (∀ m ∈ flattenAll ns, m.Tiled b) →
      leafBytes b (flattenAll ns) = b.slice start.toNat (stop - start).toNat
  | [], _, _, .nil, _, _ => by simp [flattenAll, leafBytes, Buffer.slice]
  | n :: rest, start, stop, .cons hstart hrest, h0, h => by
      obtain ⟨hn, hns⟩ := forall_flattenAll_cons.1 h
      have hlength := (hn n n.mem_flatten_self).holds.2.1
      have hle : n.range.stop ≤ stop := hrest.le_of_flattenAll hns
      have hstop : n.range.stop = start + n.range.length := by rw [← hstart]; rfl
      -- The first node holds the front of the slice, the others hold what is behind it.
      rw [flattenAll, leafBytes_append, leafBytes_flatten b n hn,
        leafBytes_flattenAll b rest hrest (by omega) hns, Buffer.within, hstart]
      have hoffset : n.range.stop.toNat = start.toNat + n.range.length.toNat := by omega
      have htotal : (stop - start).toNat =
          n.range.length.toNat + (stop - n.range.stop).toNat := by omega
      rw [hoffset, htotal, Buffer.slice_append_slice]

end

/-! ## What one value and what a row keeps -/

/-- The field is read where the one before ends. -/
def Field.IsUnplaced (f : Field) : Prop := f.position = .null

/-- A value that was read from `start` on: its node and all nodes below are tiled, and the next field
starts where the node ends. -/
structure Outcome.Fits (b : Buffer) (start : Int) (o : Outcome) : Prop where
  start_eq : o.node.range.start = start
  next_eq : o.next = o.node.range.stop
  tiled : ∀ n ∈ o.node.flatten, n.Tiled b

/-- A place where something can be read. -/
def Buffer.InRange (b : Buffer) (offset : Int) : Prop := 0 ≤ offset ∧ offset ≤ (b.length : Int)

/-- Behind a value that fits there is a place to read at, if only the end of the buffer. -/
theorem Outcome.Fits.inRange_next {b : Buffer} {start : Int} {o : Outcome} (h : o.Fits b start) :
    b.InRange o.next := by
  obtain ⟨h0, hlength, hle⟩ := (h.tiled _ o.node.mem_flatten_self).holds
  rw [h.next_eq]
  exact ⟨by unfold Span.stop; omega, hle⟩

/-- Values that were read one behind the other, from `start` to `stop`. -/
structure Row (b : Buffer) (start : Int) (nodes : List Node) (stop : Int) : Prop where
  tiles : Tiles start nodes stop
  inRange : b.InRange stop
  tiled : ∀ n ∈ nodes.flatMap Node.flatten, n.Tiled b

theorem Row.nil {b : Buffer} {start : Int} (h : b.InRange start) : Row b start [] start :=
  ⟨.nil, h, by simp⟩

/-- A value stands in front of a row when the row starts where it ends. -/
theorem Row.cons {b : Buffer} {start stop : Int} {o : Outcome} {rest : List Node}
    (ho : o.Fits b start) (hrest : Row b o.next rest stop) : Row b start (o.node :: rest) stop where
  tiles := .cons ho.start_eq (ho.next_eq ▸ hrest.tiles)
  inRange := hrest.inRange
  tiled := forall_flatten_cons.2 ⟨ho.tiled, hrest.tiled⟩

theorem Row.single {b : Buffer} {start : Int} {o : Outcome} (ho : o.Fits b start) :
    Row b start [o.node] o.next :=
  .cons ho (.nil ho.inRange_next)

theorem Row.le {b : Buffer} {start stop : Int} {nodes : List Node} (h : Row b start nodes stop) :
    start ≤ stop :=
  h.tiles.le fun n hn => h.tiled n (List.mem_flatMap.2 ⟨n, hn, n.mem_flatten_self⟩)

/-- A node that is put around a row fits. -/
theorem Row.fits_around {b : Buffer} (n : Node) {stop : Int}
    (h : Row b n.range.start n.children stop) (h0 : 0 ≤ n.range.start)
    (hlength : n.range.length = max 0 (stop - n.range.start)) :
    (⟨n, stop⟩ : Outcome).Fits b n.range.start := by
  -- A row does not go back, so the length of the node is not cut off at zero.
  have hle := h.le
  have hstop : n.range.stop = stop := by unfold Span.stop; omega
  have hin : n.range.stop ≤ (b.length : Int) := hstop ▸ h.inRange.2
  have hself : n.Tiled b := ⟨⟨h0, by omega, hin⟩, fun _ => hstop ▸ h.tiles⟩
  exact ⟨rfl, hstop.symm, Node.forall_flatten.2 ⟨hself, h.tiled⟩⟩

/-! ## The decoders -/

namespace Setting

variable {s : Setting} {custom : CustomDecoder} {ctx : Context} {f : Field} {name : String}
  {p p' : Progress} {o : Outcome}

/-- A leaf has no children; it was read at the offset and ends where the next field starts. -/
theorem IsLeaf.fits (h : s.IsLeaf ctx name o) : o.Fits s.buffer ctx.offset := by
  refine ⟨h.start_eq, h.next_eq, (Node.forall_flatten_of_leaf h.children_eq).2 ⟨h.holds, ?_⟩⟩
  intro hinner
  rcases hinner with hinner | hinner
  · exact absurd h.children_eq hinner
  · rw [h.scalar] at hinner
    cases hinner

/-- What is asked of the decoder of nested instances. -/
def FitsCustom (s : Setting) (custom : CustomDecoder) : Prop :=
  ∀ {ctx : Context} {f : Field} {typeName name : String} {p p' : Progress} {o : Outcome},
    ctx.Every Field.IsUnplaced → s.buffer.InRange ctx.offset →
      (custom ctx f typeName name).Yields p o p' → o.Fits s.buffer ctx.offset

theorem decodeSingle_fits (h : (s.decodeSingle custom ctx f name).Yields p o p')
    (hcustom : s.FitsCustom custom) (hctx : ctx.Every Field.IsUnplaced)
    (hoffset : s.buffer.InRange ctx.offset) : o.Fits s.buffer ctx.offset := by
  rcases decodeSingle_inv h with ⟨hleaf, -⟩ | ⟨typeName, -, -, hrun⟩
  · exact hleaf.fits
  · exact hcustom hctx hoffset hrun

theorem elements_row {r : Repetition} {count : Option Int} {index : Nat} {cursor stop : Int}
    {items : List Node} (h : Elements s custom ctx f r count index cursor p items stop p')
    (hcustom : s.FitsCustom custom) (hctx : ctx.Every Field.IsUnplaced)
    (hcursor : s.buffer.InRange cursor) : Row s.buffer cursor items stop := by
  induction h with
  | complete => exact .nil hcursor
  | satisfied _ single => exact .single (decodeSingle_fits single hcustom hctx hcursor)
  | stuck _ single => exact .single (decodeSingle_fits single hcustom hctx hcursor)
  | next _ single _ _ _ ih =>
      have hfits := decodeSingle_fits single hcustom hctx hcursor
      exact .cons hfits (ih hfits.inRange_next)

/-- Without a position a field starts where the one before it ends. -/
theorem decodeField_fits (h : (s.decodeField custom ctx f).Yields p o p')
    (hcustom : s.FitsCustom custom) (hctx : ctx.Every Field.IsUnplaced)
    (hoffset : s.buffer.InRange ctx.offset) (hf : f.IsUnplaced) : o.Fits s.buffer ctx.offset := by
  obtain ⟨ctx', hplaced, hrun⟩ := decodeField_inv h
  obtain rfl := (placed_inv hplaced).2.2 hf
  rcases hrun with ⟨-, hsingle⟩ | ⟨r, count, items, stop, -, -, helements, rfl⟩
  · exact decodeSingle_fits hsingle hcustom hctx hoffset
  · exact (elements_row helements hcustom hctx hoffset).fits_around (arrayNode ..) hoffset.1 rfl

/-- By induction on the fields: one that is not present takes no bytes. -/
theorem sequence_row {seq : List Field} {nodes : List Node} {fields : Fields} {stop : Int}
    (h : Sequence s custom seq ctx p nodes fields stop p') (hcustom : s.FitsCustom custom)
    (hseq : ∀ f ∈ seq, f.IsUnplaced) (hctx : ctx.Every Field.IsUnplaced)
    (hoffset : s.buffer.InRange ctx.offset) : Row s.buffer ctx.offset nodes stop := by
  induction h with
  | nil => exact .nil hoffset
  | skip _ _ ih => exact ih (fun f hf => hseq f (List.mem_cons_of_mem _ hf)) hctx hoffset
  | field _ decoded _ _ ih =>
      have hfits := decodeField_fits decoded hcustom hctx hoffset (hseq _ List.mem_cons_self)
      exact .cons hfits
        (ih (fun f hf => hseq f (List.mem_cons_of_mem _ hf)) hctx hfits.inRange_next)

/-- By induction on the depth: the fields of an instance are a row, and it is put around them. -/
theorem decodeInstance_fits {depth : Nat} {i : Instance}
    (h : (s.decodeInstance depth ctx i).Yields p o p') (hi : i.Every Field.IsUnplaced)
    (hoffset : s.buffer.InRange ctx.offset) : o.Fits s.buffer ctx.offset := by
  induction depth generalizing ctx i p o p' with
  | zero => exact absurd h Decoder.not_yields_fail
  | succ depth ih =>
      obtain ⟨left, children, fields, stop, hleft, hrun, rfl⟩ := decodeInstance_inv h
      cases hleft
      -- The hypothesis of the induction is what is asked of the instances inside.
      have hcustom : s.FitsCustom (s.nested depth) := by
        intro ctx f typeName name p p' o hctx hoffset h
        obtain ⟨i, -, hi, hrun⟩ := nested_every hctx h
        exact ih hrun hi hoffset
      have hrow := sequence_row hrun hcustom (fun f hf => hi.seq hf) hi.inside hoffset
      exact hrow.fits_around (s.instanceNode ..) hoffset.1 rfl

end Setting

/-- **Tiling.** When no field has a position, the tree of a decode tiles what is consumed: the root
starts at 0, every node lies in the buffer, children lie one behind the other from the start of their
node to its end, an instance or array without children is empty, and the leaves, in order, hold
exactly the consumed bytes. -/
theorem Schema.decode_tiles {schema : Schema} {options : Options} {buffer : Buffer}
    {result : Result} {root : Node} (hpos : ∀ f ∈ schema.fields, f.position = .null)
    (h : schema.decode options buffer = .ok result) (hroot : result.root = some root) :
    root.range.start = 0 ∧
      (∀ n ∈ result.nodes,
        0 ≤ n.range.start ∧ 0 ≤ n.range.length ∧ n.range.stop ≤ (buffer.length : Int) ∧
          (n.children ≠ [] → Tiles n.range.start n.children n.range.stop) ∧
          (n.value.isComposite = true → n.children = [] → n.range.length = 0)) ∧
      leafBytes buffer result.nodes = buffer.take result.consumed.toNat := by
  obtain ⟨definition, o, p, hdefinition, hrun, rfl⟩ := decode_inv h hroot
  cases hroot
  have hfits : o.Fits buffer 0 :=
    Setting.decodeInstance_fits hrun (rootInstance_every hdefinition hpos)
      ⟨Int.le_refl _, Int.natCast_nonneg _⟩
  refine ⟨hfits.start_eq, ?_, ?_⟩
  · intro n hn
    obtain ⟨⟨h0, hlength, hle⟩, hchildren⟩ := hfits.tiled n hn
    refine ⟨h0, hlength, hle, fun hne => hchildren (.inl hne), ?_⟩
    intro hcomposite hnil
    -- A row of no nodes ends where it starts.
    have htiles := hchildren (.inr hcomposite)
    rw [hnil] at htiles
    generalize hstop : n.range.stop = stop at htiles
    cases htiles
    unfold Span.stop at hstop
    omega
  · have hbytes := leafBytes_flatten buffer o.node hfits.tiled
    have hstart := hfits.start_eq
    have hconsumed : o.node.range.stop = o.node.range.length := by unfold Span.stop; omega
    simp only [Result.consumed, hbytes, Buffer.within, hstart, hconsumed]
    rfl

/-- A count, as many messages behind their lengths, and a text up to a zero byte. -/
def Schema.messages : Schema where
  info := { id := some "box" }
  seq := some [
    { id := "count", type := .named "u1" },
    { id := "items", type := .named "message", repetition := some (.count (.str "count")) },
    { id := "title", terminator := some (.byte 0) }]
  types := [
    ("message", { seq := [
      { id := "length", type := .named "u1" },
      { id := "body", type := .named "str", size := .str "length" }] })]

/-- Two messages and a title, and a byte behind them. -/
def messageBytes : Buffer := [2, 1, 65, 2, 66, 67, 84, 0, 255]

theorem Schema.decode_tiles_messages :
    (∀ f ∈ messages.fields, f.position = .null) ∧
      ∃ result root, messages.decode {} messageBytes = .ok result ∧ result.root = some root ∧
        root.range.start = 0 ∧
        (∀ n ∈ result.nodes,
          0 ≤ n.range.start ∧ 0 ≤ n.range.length ∧ n.range.stop ≤ (messageBytes.length : Int) ∧
            (n.children ≠ [] → Tiles n.range.start n.children n.range.stop) ∧
            (n.value.isComposite = true → n.children = [] → n.range.length = 0)) ∧
        leafBytes messageBytes result.nodes = messageBytes.take result.consumed.toNat := by
  have hpos : ∀ f ∈ messages.fields, f.position = .null := by
    simp [messages, fields, fieldsIn, TypeDef.fields]
  have hrun : messages.succeeds {} messageBytes = true := by decide +kernel
  obtain ⟨result, h, hsuccess⟩ := exists_of_succeeds hrun
  obtain ⟨root, hroot⟩ := Result.exists_root hsuccess
  exact ⟨hpos, result, root, h, hroot, decode_tiles hpos h hroot⟩

end ByteSchema
