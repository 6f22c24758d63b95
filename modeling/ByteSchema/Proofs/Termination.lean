import ByteSchema.Proofs.Escape
import ByteSchema.Proofs.Offsets
import ByteSchema.Proofs.Path

/-!
# ByteSchema.Proofs.Termination

When a decode ends.

All loops but one are bounded by the schema and the options. A repetition without count goes on only
behind an element that ends further on than it starts, so its elements climb: before the element
`index` the cursor is `index` bytes on at least (`Visit.Climbs`). What bounds the elements from
above is where the decode can get to (`Offsets`), and that is the buffer as long as no position of a
field leads out of it. Where one does, a repetition with a condition can go on for ever
(`Schema.decode_climbing`).
-/

namespace ByteSchema

variable {lo hi : Int}

/-- Each element of a repetition without count starts behind the start of the one before. -/
def Visit.Climbs (v : Visit) : Prop :=
  ∀ {f : Field} {r : Repetition} {index : Nat} {cursor : Int},
    v.station = .elements f r none index cursor → v.ctx.offset + index ≤ cursor

/-- By cases on the step: only that to the next element moves on in an array. -/
theorem Setting.Leads.climbs {s : Setting} {v v' : Visit} (h : v.Climbs) (leads : s.Leads v v') :
    v'.Climbs := by
  intro f r index cursor hstation
  cases leads with
  | skip | past | value | element | enter => cases hstation
  | array =>
      cases hstation
      simp
  | next more decoded fails moves =>
      cases hstation
      have hcursor := h rfl
      simp only [Option.isNone_none, true_and, Int.not_le] at moves
      dsimp only at hcursor ⊢
      omega

/-- A repetition starts with nothing behind it, and each step climbs. -/
theorem Schema.Reached.climbs {schema : Schema} {options : Options} {buffer : Buffer} {v : Visit}
    (h : schema.Reached options buffer v) : v.Climbs := by
  induction h with
  | root => exact nofun
  | step _ leads ih => exact leads.climbs ih

namespace Schema

variable {schema : Schema} {options : Options} {buffer : Buffer} {v : Visit} {f : Field}
  {r : Repetition} {index : Nat} {cursor : Int}

/-- Any repetition without count climbs no further than the decode gets to. -/
theorem Reached.index_le (hv : schema.Reached options buffer v) (hmargin : buffer.Margin lo hi)
    (hpos : schema.PlacesWithin options buffer lo hi)
    (hstation : v.station = .elements f r none index cursor) : v.ctx.offset + index ≤ hi := by
  have hcursor := hv.climbs hstation
  have hbetween := (hv.within hmargin hpos).cursor hstation
  exact Int.le_trans hcursor hbetween.2

/-- So no repetition is given up that has a round for each offset that the decode gets to. -/
theorem decode_ne_unfinished (hmargin : buffer.Margin lo hi)
    (hpos : schema.PlacesWithin options buffer lo hi) (hrounds : hi - lo < options.maxRounds) :
    schema.decode options buffer ≠ .error .unfinished := by
  intro hrun
  obtain ⟨v, hv, hblames⟩ := decode_escape hrun
  cases hblames with
  | field _ hblamed => exact absurd hblamed Field.not_blamed_unfinished
  | unending =>
      have hindex := hv.index_le hmargin hpos rfl
      have hstart := (hv.within hmargin hpos).offset.1
      simp only [setting] at hindex
      dsimp only at hstart
      omega

/-- If all positions that the decode goes to lie in the buffer, then the decode ends, and a
repetition without count decodes at most one element more than there are bytes from its start on. -/
theorem decode_terminates (hpos : schema.PlacesWithin options buffer 0 buffer.length)
    (hrounds : buffer.length < options.maxRounds) :
    schema.decode options buffer ≠ .error .unfinished ∧
      ∀ v f r index cursor, schema.Reached options buffer v →
        v.station = .elements f r none index cursor →
          (index : Int) + 1 ≤ max 0 (buffer.length - v.ctx.offset) + 1 := by
  refine ⟨decode_ne_unfinished buffer.margin_self hpos (by omega), ?_⟩
  intro v f r index cursor hv hstation
  have hindex := hv.index_le buffer.margin_self hpos hstation
  omega

/-- Bytes up to a zero, and a byte at a fixed position. -/
def zeroEnded : Schema where
  seq := some [
    { id := "a", type := .named "u1", repetition := some (.untilTrue (.str "_ == 0")) },
    { id := "b", type := .named "u1", position := .int 2 }]

theorem decode_terminates_zeroEnded :
    zeroEnded.PlacesWithin {} [3, 1, 0] 0 3 ∧
      zeroEnded.decode {} [3, 1, 0] ≠ .error .unfinished := by
  have hpos : zeroEnded.PlacesWithin {} [3, 1, 0] 0 3 :=
    placesWithin_of_literals (by simp [zeroEnded, fields, fieldsIn, Between])
  exact ⟨hpos, (decode_terminates hpos (by decide)).1⟩

/-- Numbers lie between some bounds. -/
theorem exists_bounds {fields : List Field} (length : Int)
    (h : ∀ f ∈ fields, f.position = .null ∨ ∃ n, f.position = .int n) :
    ∃ lo hi, lo ≤ 0 ∧ length ≤ hi ∧
      ∀ f ∈ fields, f.position = .null ∨ ∃ n, f.position = .int n ∧ Between lo hi n := by
  induction fields with
  | nil => exact ⟨0, length, Int.le_refl _, Int.le_refl _, by simp⟩
  | cons f rest ih =>
      obtain ⟨hf, hrest⟩ := List.forall_mem_cons.1 h
      obtain ⟨lo, hi, hlo, hhi, hbounds⟩ := ih hrest
      rcases hf with hnull | ⟨n, hn⟩
      · exact ⟨lo, hi, hlo, hhi, List.forall_mem_cons.2 ⟨.inl hnull, hbounds⟩⟩
      · refine ⟨min lo n, max hi n, by omega, by omega, List.forall_mem_cons.2 ⟨?_, ?_⟩⟩
        · exact .inr ⟨n, hn, by omega, by omega⟩
        · intro g hg
          refine (hbounds g hg).imp_right fun ⟨m, hm, hbetween⟩ => ⟨m, hm, ?_⟩
          have hlow := hbetween.1
          have hhigh := hbetween.2
          exact ⟨by omega, by omega⟩

/-- With positions that are numbers, wherever they lie, every decode ends by itself. -/
theorem decode_ends_of_literals
    (h : ∀ f ∈ schema.fields, f.position = .null ∨ ∃ n, f.position = .int n)
    (options : Options) (buffer : Buffer) :
    ∃ bound, ∀ rounds, bound ≤ rounds →
      schema.decode { options with maxRounds := rounds } buffer ≠ .error .unfinished := by
  obtain ⟨lo, hi, hlo, hhi, hbounds⟩ := exists_bounds buffer.length h
  refine ⟨(hi - lo).toNat + 1, fun rounds hrounds => ?_⟩
  exact decode_ne_unfinished ⟨hlo, hhi⟩ (placesWithin_of_literals hbounds) (by dsimp only; omega)

end Schema

/-! ## A decode that does not end -/

namespace Expression

theorem isIdentifier_position : IsIdentifier "_io.pos" :=
  ⟨'_', "io.pos".toList, by decide +kernel, by decide +kernel, List.all_eq_true.1 (by decide +kernel)⟩

theorem isSentence_successor :
    IsSentence "_io.pos + 1" (.binary .add (.name "_io.pos") (.numeral 1)) := by
  have hnone : Blank [] := by simp [Blank]
  have hspace : Blank [' '] := List.forall_mem_singleton.2 Text.isBlank_space
  have hname : Derives .primary ([] ++ "_io.pos".toList) (.name "_io.pos") :=
    .name hnone isIdentifier_position
  have hone : Derives .primary ([' '] ++ ['1']) (.numeral 1) :=
    .numeral hspace (.decimal (.one (by decide)))
  refine ⟨_, [], ?_, hnone,
    .additive (.sum (.inl rfl) (.term (.unary (.primary hname))) hspace (.unary (.primary hone)))⟩
  decide +kernel

end Expression

theorem View.resolve_position (view : View) :
    view.resolve "_io.pos" = some (.int view.place.offset) := by
  have hstrip : Text.strip "_io.pos" = "_io.pos" := by decide +kernel
  unfold resolve
  simp only [hstrip]
  rfl

theorem View.evaluate_successor (view : View) :
    view.evaluate (.str "_io.pos + 1") = .ok (some (.int (view.place.offset + 1))) := by
  have hshort : Expression.NoLongRun "_io.pos + 1".toList :=
    Expression.noLongRun_of_length (by decide +kernel)
  refine evaluate_sentence Expression.isSentence_successor hshort ?_
  simp only [Expression.Tree.eval, resolve_position]
  rfl

/-- A loop whose elements are decoded further and further on, without end, is given up after however
many rounds. -/
theorem Setting.decodeElements_unfinished {s : Setting} {custom : CustomDecoder} {ctx : Context}
    {f : Field} {r : Repetition} {I : Nat → Int → Progress → Prop}
    (hmore : ∀ index cursor, s.isComplete r none index cursor = false)
    (hstep : ∀ index cursor p, I index cursor p → ∃ o p₁,
      (s.decodeSingle custom (ctx.moveTo cursor) f (elementName f.id index)).Yields p o p₁ ∧
        (s.isSatisfied r ctx index o.node.value o.next).Yields p₁ false p₁ ∧ cursor < o.next ∧
          I (index + 1) o.next p₁)
    {rounds index : Nat} {done : List Node} {cursor : Int} {p : Progress} (h : I index cursor p) :
    (s.decodeElements custom ctx f r none rounds index done cursor).Escapes p .unfinished := by
  induction rounds generalizing index done cursor p with
  | zero => rfl
  | succ rounds ih =>
      obtain ⟨o, p₁, hsingle, hfails, hmoves, hnext⟩ := hstep index cursor p h
      unfold decodeElements
      rw [hmore, if_neg Bool.false_ne_true]
      refine Decoder.escapes_bind.2 (.inr ⟨o, p₁, hsingle, ?_⟩)
      refine Decoder.escapes_bind.2 (.inr ⟨false, p₁, hfails, ?_⟩)
      rw [if_neg Bool.false_ne_true, if_neg (by simp; omega)]
      exact ih hnext

/-- A field that goes one byte on without a read. -/
def Field.climb : Field := { id := "p", type := .named "e", position := .str "_io.pos + 1" }

/-- An array of such fields, until the condition holds. -/
def Field.climbs (condition : Value) : Field :=
  { id := "a", type := .named "t", repetition := some (.untilTrue condition) }

namespace Schema

/-- A schema with this array only. -/
def climbing (condition : Value) : Schema where
  seq := some [.climbs condition]
  types := [("t", { seq := [.climb] }), ("e", {})]

/-- The buffer is empty, but the array has three elements. -/
theorem decode_climbing_three :
    ((climbing (.str "_index == 2")).decode {} []).toOption.map (fun result =>
        result.nodes.map fun n => (n.id, n.range.start, n.children.length)) =
      some [("root", 0, 1), ("root.a", 0, 3),
        ("root.a[0]", 0, 1), ("root.a[0].p", 1, 0),
        ("root.a[1]", 1, 1), ("root.a[1].p", 2, 0),
        ("root.a[2]", 2, 1), ("root.a[2].p", 3, 0)] := by
  decide +kernel

section

/-- The types in sight of the array. -/
def climbingChain (condition : Value) : TypeChain :=
  [{ seq := [.climbs condition], types := [("t", { seq := [.climb] }), ("e", {})] }]

variable {s : Setting} {left : Nat} {ctx : Context} {condition : Value} {name : String}
  {p : Progress}

/-- The field is decoded to an empty instance one byte on. -/
theorem yields_climb (hchain : ctx.chain = { seq := [.climb] } :: climbingChain condition) :
    ∃ o, (s.decodeField (s.nested (left + 1)) ctx .climb).Yields p o p ∧
      o.next = ctx.offset + 1 ∧ o.node.id = ctx.childId "p" := by
  have hplaces : s.Places ctx .climb p (ctx.offset + 1) :=
    ⟨_, View.evaluate_successor _, View.requireInt_int ..⟩
  have hplaced := Setting.yields_placed hplaces
  obtain ⟨place, endian, chain⟩ := ctx
  cases hchain
  exact ⟨_, Decoder.yields_bind.2 ⟨_, p, hplaced, rfl⟩, rfl, rfl⟩

/-- It is the only field of its instance. -/
theorem yields_fields (hchain : ctx.chain = { seq := [.climb] } :: climbingChain condition)
    (hnew : p.values.get? (ctx.childId "p") = none) :
    ∃ nodes fields v, (s.decodeFields (s.nested (left + 1)) [.climb] ctx []).Yields p
      (nodes, fields, ctx.offset + 1) (p.write (ctx.childId "p") v) := by
  obtain ⟨o, hfield, hnext, hid⟩ := yields_climb (s := s) (p := p) hchain
  have hrecord : (Decoder.record o.node.id o.node.value).Yields p ()
      (p.write o.node.id o.node.value) :=
    Decoder.yields_record.2 ⟨hid ▸ hnew, rfl⟩
  refine ⟨[o.node], Fields.put ctx.scope "p" o.node.value, o.node.value, ?_⟩
  rw [← hid, ← hnext]
  refine Decoder.yields_bind.2 ⟨true, p, rfl, ?_⟩
  refine Decoder.yields_bind.2 ⟨o, p, hfield, ?_⟩
  exact Decoder.yields_bind.2 ⟨(), _, hrecord, rfl⟩

/-- The instance is decoded as an element of the array, if the path of its field is new. -/
theorem yields_element (hchain : ctx.chain = climbingChain condition)
    (hnew : p.values.get? (nodeIdOf (ctx.path ++ [name] ++ ["p"])) = none) :
    ∃ o v, (s.decodeSingle (s.nested (left + 2)) ctx (.climbs condition) name).Yields p o
      (p.write (nodeIdOf (ctx.path ++ [name] ++ ["p"])) v) ∧ o.next = ctx.offset + 1 := by
  obtain ⟨place, endian, chain⟩ := ctx
  cases hchain
  let inner : Setting.Instance :=
    { name, typeName := "t", definition := { seq := [.climb] },
      chain := { seq := [.climb] } :: climbingChain condition, attributes := [] }
  obtain ⟨nodes, fields, v, hfields⟩ : ∃ nodes fields v,
      (s.decodeFields (s.nested (left + 1)) [.climb]
        (Setting.inside ⟨place, endian, climbingChain condition⟩ inner) []).Yields p
        (nodes, fields, place.offset + 1) (p.write (nodeIdOf (place.path ++ [name] ++ ["p"])) v) :=
    yields_fields rfl hnew
  exact ⟨_, v, Decoder.yields_located.2 (Decoder.yields_bind.2 ⟨_, _, hfields, rfl⟩), rfl⟩

end

/-- What is written before an element is that of elements before it. -/
def Climbed (path : List String) (index : Nat) (p : Progress) : Prop :=
  ∀ entry ∈ p.values.entries, ∃ j < index,
    entry.1 = nodeIdOf (path ++ [Setting.elementName "a" j] ++ ["p"])

theorem Climbed.new {path : List String} {index : Nat} {p : Progress} (h : Climbed path index p) :
    p.values.get? (nodeIdOf (path ++ [Setting.elementName "a" index] ++ ["p"])) = none := by
  refine List.lookup_eq_none_iff.2 fun entry hentry => ?_
  obtain ⟨j, hj, hkey⟩ := h entry hentry
  rw [bne_iff_ne, hkey, nodeIdOf_concat (by decide), nodeIdOf_concat (by decide),
    pathLead_concat elementName_ne_empty, pathLead_concat elementName_ne_empty]
  simp only [String.append_assoc, ne_eq, String.append_right_inj]
  exact fun heq => Nat.ne_of_gt hj (elementName_inj heq)

/-- Writing it leaves those ahead unwritten. -/
theorem Climbed.next {path : List String} {index : Nat} {p : Progress} {v : Value}
    (h : Climbed path index p) :
    Climbed path (index + 1)
      (p.write (nodeIdOf (path ++ [Setting.elementName "a" index] ++ ["p"])) v) := by
  intro entry hentry
  rcases List.mem_cons.1 hentry with rfl | hentry
  · exact ⟨index, Nat.lt_succ_self _, rfl⟩
  · obtain ⟨j, hj, hkey⟩ := h entry hentry
    exact ⟨j, Nat.lt_succ_of_lt hj, hkey⟩

/-- However many rounds the array is given, and whatever the buffer, the decode does not end. -/
theorem decode_climbing (options : Options) (hdepth : 3 ≤ options.maxDepth) (buffer : Buffer) :
    (climbing (.int 0)).decode options buffer = .error .unfinished := by
  obtain ⟨left, hleft⟩ : ∃ left, options.maxDepth.toNat = left + 3 :=
    ⟨options.maxDepth.toNat - 3, by omega⟩
  refine decode_of_escapes rfl ?_
  unfold decodeRoot
  rw [hleft]
  -- The first field of the root is present, has no position and no count.
  refine Decoder.escapes_bind.2 (.inl ?_)
  refine Decoder.escapes_bind.2 (.inr ⟨true, {}, rfl, ?_⟩)
  refine Decoder.escapes_bind.2 (.inl ?_)
  refine Decoder.escapes_bind.2 (.inr ⟨_, {}, rfl, ?_⟩)
  refine Decoder.escapes_bind.2 (.inr ⟨none, {}, rfl, ?_⟩)
  refine Decoder.escapes_bind.2 (.inl ?_)
  refine Setting.decodeElements_unfinished (I := fun index _ p => Climbed ["root"] index p)
    (fun _ _ => rfl) ?_ nofun
  intro index cursor p hp
  let here : Context :=
    { path := ["root"], offset := cursor, scope := [], endian := .big,
      chain := climbingChain (.int 0) }
  have hchain : here.chain = climbingChain (.int 0) := rfl
  obtain ⟨o, v, hsingle, hnext⟩ := yields_element hchain hp.new
  exact ⟨o, _, hsingle, rfl, by rw [hnext]; exact Int.lt_succ _, hp.next⟩

end Schema

end ByteSchema
