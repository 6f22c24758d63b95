import ByteSchema.Proofs.Fields
import ByteSchema.Proofs.IntegerBytes
import ByteSchema.Proofs.Run
import ByteSchema.Proofs.Unfolding

/-!
# ByteSchema.Proofs.Data

The values in a tree. Whatever a schema says, a decode gives integers of at most eight bytes,
doubles, texts and byte strings, and arrays and instances of these (`Value.IsData`). So no value in a
tree holds an integer that is too long to be written, and none holds itself.
-/

namespace ByteSchema

/-! ## Data -/

namespace Value

/-- What is decoded: numbers of few digits, texts, byte strings, and arrays and instances of these. -/
inductive IsData : Value → Prop
  | int {n : Int} (short : isOverlong n = false) : IsData (int n)
  | float {x : Float} : IsData (float x)
  | str {s : String} : IsData (str s)
  | bytes {bs : List UInt8} : IsData (bytes bs)
  | tuple {vs : List Value} (items : ∀ v ∈ vs, IsData v) : IsData (tuple vs)
  | record {fs : Fields} (values : ∀ k v, (k, v) ∈ fs → IsData v) : IsData (record fs)

theorem IsData.hasOverlong_eq {v : Value} (h : v.IsData) : v.hasOverlong = false := by
  induction h with
  | int short => exact short
  | float | str | bytes => rfl
  | tuple _ ih =>
      rw [hasOverlong, hasOverlongItem_eq, List.any_eq_false]
      intro v hv
      simp [ih v hv]
  | record _ ih =>
      rw [hasOverlong, hasOverlongField_eq, List.any_eq_false]
      intro field hfield
      simp [ih field.1 field.2 hfield]

theorem isData_put {fields : Fields} {name : String} {v : Value}
    (hfields : ∀ k w, (k, w) ∈ fields → w.IsData) (hv : v.IsData) :
    ∀ k w, (k, w) ∈ Fields.put fields name v → w.IsData := by
  intro k w hmem
  rcases Fields.mem_put hmem with heq | hmem
  · cases heq
    exact hv
  · exact hfields k w hmem

/-- Integers of at most eight bytes have few digits. -/
theorem not_isOverlong_of_natAbs_lt {width : Nat} {z : Int} (hwidth : width ≤ 8)
    (h : z.natAbs < 256 ^ width) : isOverlong z = false := by
  have hdigits : 20 ≤ maxDecimalDigits := by decide
  unfold isOverlong
  generalize maxDecimalDigits = digits at hdigits
  have hz : z.natAbs < 10 ^ digits :=
    calc z.natAbs < 256 ^ width := h
      _ ≤ 256 ^ 8 := Nat.pow_le_pow_right (by decide) hwidth
      _ ≤ 10 ^ 20 := by decide
      _ ≤ 10 ^ digits := Nat.pow_le_pow_right (by decide) hdigits
  simp only [decide_eq_false_iff_not, Nat.not_le]
  exact hz

theorem not_isOverlong_of_lt {width n : Nat} (hwidth : width ≤ 8) (h : n < 256 ^ width) :
    isOverlong n = false :=
  not_isOverlong_of_natAbs_lt hwidth (by rwa [Int.natAbs_natCast])

end Value

/-- With a sign the bound is half as high. -/
theorem InRange.natAbs_lt {signed : Bool} {width : Nat} {z : Int} (h : InRange signed width z) :
    z.natAbs < 256 ^ width := by
  have hspan : (256 ^ width : Int) = ((256 ^ width : Nat) : Int) := by push_cast; rfl
  have hpos : 0 < 256 ^ width := Nat.pow_pos (by decide)
  unfold InRange at h
  dsimp only at h
  rw [hspan] at h
  generalize 256 ^ width = span at h hpos ⊢
  cases signed <;> simp at h <;> omega

/-- The width of an integer type. -/
theorem Primitive.width_of_ofName? {typeName : String} {width : Nat} {signed : Bool}
    {suffix : Option Endian} (h : ofName? typeName = some (.integer width signed suffix)) :
    1 ≤ width ∧ width ≤ 8 := by
  have hwidth {c : Char} {w : Nat} (h : integerWidth? c = some w) : 1 ≤ w ∧ w ≤ 8 := by
    unfold integerWidth? at h
    split at h <;> cases h <;> decide
  unfold ofName? at h
  split at h
  case h_1 => cases h
  case h_2 => cases h
  case h_3 => cases h
  case h_4 bare _ _ _ =>
      unfold numeric? at h
      split at h
      case h_4 => cases h
      all_goals
        simp only [Option.bind_eq_bind, Option.bind_eq_some_iff] at h
        obtain ⟨w, hw, rest, -, h⟩ := h
        cases h
      · exact hwidth hw
      · exact hwidth hw

/-! ## Decoding data -/

namespace Setting

variable {s : Setting} {custom : CustomDecoder} {ctx : Context} {f : Field} {name : String}
  {p p' : Progress} {o : Outcome}

/-- All values of a tree are data. -/
def GivesData (o : Outcome) : Prop := ∀ n ∈ o.node.flatten, n.value.IsData

/-- What is asked of the decoder of nested instances. -/
def DataCustom (custom : CustomDecoder) : Prop :=
  ∀ {ctx : Context} {f : Field} {typeName name : String} {p p' : Progress} {o : Outcome},
    (custom ctx f typeName name).Yields p o p' → GivesData o

theorem givesData_of_leaf (hleaf : s.IsLeaf ctx name o) (h : o.node.value.IsData) : GivesData o :=
  (Node.forall_flatten_of_leaf hleaf.children_eq).2 h

/-- Integers have at most eight bytes, hence few digits. -/
theorem readInteger_data {label : String} {width : Nat} {signed : Bool} {endian : Option Endian}
    (hwidth : width ≤ 8)
    (h : (s.readInteger ctx f name label width signed endian).Yields p o p') : GivesData o := by
  refine givesData_of_leaf (readInteger_inv h).1 ?_
  simp only [readInteger, Decoder.yields_bind, Decoder.yields_check, Decoder.yields_pure] at h
  obtain ⟨bytes, _, ⟨hread, rfl⟩, rfl, rfl⟩ := h
  obtain ⟨⟨h₀, hlength, hstop⟩, rfl⟩ := Buffer.read_eq_ok_iff.1 hread
  have hbytes : (s.buffer.slice ctx.offset.toNat (width : Int).toNat).length = width := by
    rw [Buffer.length_slice (by omega), Int.toNat_natCast]
  have hrange := inRange_integerOfBytes (endian.getD ctx.endian) signed
    (s.buffer.slice ctx.offset.toNat (width : Int).toNat)
  rw [hbytes] at hrange
  exact .int (Value.not_isOverlong_of_natAbs_lt hwidth hrange.natAbs_lt)

theorem readFloat_data {label : String} {width : Nat} {endian : Option Endian}
    (h : (s.readFloat ctx f name label width endian).Yields p o p') : GivesData o := by
  refine givesData_of_leaf (readFloat_inv h).1 ?_
  simp only [readFloat, Decoder.yields_bind, Decoder.yields_check, Decoder.yields_pure] at h
  obtain ⟨bytes, _, -, rfl, rfl⟩ := h
  exact .float

theorem readBytes_data (h : (s.readBytes ctx f name).Yields p o p') : GivesData o := by
  refine givesData_of_leaf (readBytes_inv h).1 ?_
  simp only [readBytes, Decoder.yields_bind, Decoder.yields_pure] at h
  obtain ⟨span, _, -, rfl, rfl⟩ := h
  exact .bytes

theorem readText_data {terminated : Bool} (h : (s.readText ctx f name terminated).Yields p o p') :
    GivesData o := by
  refine givesData_of_leaf (readText_inv h).1 ?_
  simp only [readText, Decoder.yields_bind, Decoder.yields_orEscape, Decoder.yields_pure,
    Decoder.yields_forIn_warn] at h
  obtain ⟨span, _, -, text, _, ⟨htext, rfl⟩, _, _, rfl, rfl, rfl⟩ := h
  show text.1.IsData
  rcases Encoding.value_of_decodeNamed htext with ⟨bs, hbytes⟩ | ⟨text, hstr⟩
  · rw [hbytes]
    exact .bytes
  · rw [hstr]
    exact .str

theorem decodeNamed_data {typeName : String} (hcustom : DataCustom custom)
    (h : (s.decodeNamed custom ctx f name typeName).Yields p o p') : GivesData o := by
  unfold decodeNamed at h
  split at h
  case h_1 hinteger => exact readInteger_data (Primitive.width_of_ofName? hinteger).2 h
  case h_2 => exact readFloat_data h
  case h_3 => exact readBytes_data h
  case h_4 => exact readText_data h
  case h_5 => exact hcustom h

theorem decodeSingle_data (hcustom : DataCustom custom)
    (h : (s.decodeSingle custom ctx f name).Yields p o p') : GivesData o := by
  rcases decodeSingle_named h with hbytes | ⟨typeName, -, hnamed⟩
  · exact readBytes_data hbytes
  · exact decodeNamed_data hcustom hnamed

theorem elements_data {r : Repetition} {count : Option Int} {index : Nat} {cursor stop : Int}
    {items : List Node} (hcustom : DataCustom custom)
    (h : Elements s custom ctx f r count index cursor p items stop p') :
    ∀ n ∈ items.flatMap Node.flatten, n.value.IsData := by
  induction h with
  | complete => exact fun _ hn => absurd hn List.not_mem_nil
  | satisfied _ single | stuck _ single =>
      exact forall_flatten_cons.2
        ⟨decodeSingle_data hcustom single, fun _ hn => absurd hn List.not_mem_nil⟩
  | next _ single _ _ _ ih =>
      exact forall_flatten_cons.2 ⟨decodeSingle_data hcustom single, ih⟩

/-- An array holds the values of its elements, and these are data. -/
theorem decodeField_data (hcustom : DataCustom custom)
    (h : (s.decodeField custom ctx f).Yields p o p') : GivesData o := by
  obtain ⟨ctx', -, hrun⟩ := decodeField_inv h
  rcases hrun with ⟨-, hsingle⟩ | ⟨r, count, items, stop, -, -, helements, rfl⟩
  · exact decodeSingle_data hcustom hsingle
  · have hitems := elements_data hcustom helements
    refine Node.forall_flatten.2 ⟨.tuple ?_, hitems⟩
    intro v hv
    obtain ⟨n, hn, rfl⟩ := List.mem_map.1 hv
    exact hitems n (List.mem_flatMap.2 ⟨n, hn, n.mem_flatten_self⟩)

/-- The values by name are those of the scope and of the nodes. -/
theorem sequence_data {seq : List Field} {nodes : List Node} {fields : Fields} {stop : Int}
    (hcustom : DataCustom custom) (hscope : ∀ k v, (k, v) ∈ ctx.scope → v.IsData)
    (h : Sequence s custom seq ctx p nodes fields stop p') :
    (∀ n ∈ nodes.flatMap Node.flatten, n.value.IsData) ∧ ∀ k v, (k, v) ∈ fields → v.IsData := by
  induction h with
  | nil => exact ⟨fun _ hn => absurd hn List.not_mem_nil, hscope⟩
  | skip _ _ ih => exact ih hscope
  | @field _ _ _ _ _ _ o _ _ _ _ decoded _ _ ih =>
      have ho : GivesData o := decodeField_data hcustom decoded
      obtain ⟨hrest, hfields⟩ := ih (Value.isData_put hscope (ho _ o.node.mem_flatten_self))
      exact ⟨forall_flatten_cons.2 ⟨ho, hrest⟩, hfields⟩

theorem decodeInstance_data {depth : Nat} {i : Instance}
    (h : (s.decodeInstance depth ctx i).Yields p o p') : GivesData o := by
  induction depth generalizing ctx i p o p' with
  | zero => exact absurd h Decoder.not_yields_fail
  | succ depth ih =>
      obtain ⟨left, children, fields, stop, hleft, hrun, rfl⟩ := decodeInstance_inv h
      cases hleft
      have hcustom : DataCustom (s.nested depth) := by
        intro ctx f typeName name p p' o h
        obtain ⟨definition, chain, -, hinstance⟩ := nested_inv h
        exact ih hinstance
      obtain ⟨hchildren, hfields⟩ := sequence_data hcustom (fun _ _ hmem => by cases hmem) hrun
      exact Node.forall_flatten.2 ⟨.record hfields, hchildren⟩

end Setting

/-- All values in the tree of a decode are data. -/
theorem Schema.isData_of_decode {schema : Schema} {options : Options} {buffer : Buffer}
    {result : Result} {root : Node} (h : schema.decode options buffer = .ok result)
    (hroot : result.root = some root) : ∀ n ∈ root.flatten, n.value.IsData := by
  obtain ⟨definition, o, p, -, hrun, rfl⟩ := decode_inv h hroot
  cases hroot
  exact Setting.decodeInstance_data hrun

end ByteSchema
