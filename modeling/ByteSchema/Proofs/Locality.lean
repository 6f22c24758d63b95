import ByteSchema.Proofs.Agreement
import ByteSchema.Proofs.Declared

/-!
# ByteSchema.Proofs.Locality

Bytes behind the buffer cannot change a decode that succeeded.

A decode looks at the end of the buffer in three places only: where a read is checked, where a field
or a repetition reaches to the end, and where an expression says `_io.size` or `_io.eof`. A schema
without the last two is *local*. In two runs of a local schema, on a buffer and on a longer one, all
questions have the same answers, and each read that succeeds in the first succeeds with the same bytes
in the second: each decoder refines its counterpart (`Decoder.Refines`).
-/

namespace ByteSchema

/-! ## Local fields -/

/-- The expression that a case key is read as. -/
def caseExpression : Value → Value
  | .bool b => .bool b
  | .int n => .int n
  | .float x => .float x
  | key => .str key.text

/-- The expressions in the type of a field: the discriminant and the case keys of a switch. -/
def FieldType.expressions : FieldType → List Value
  | .switched sw => sw.discriminant :: sw.cases.map fun entry => caseExpression entry.1
  | _ => []

/-- The expressions of a field: size, position, condition, count or condition of its repetition, and
those of its type. -/
def Field.expressions (f : Field) : List Value :=
  [f.size, f.position, f.condition] ++ (f.repetition.map Repetition.expr).toList ++
    f.type.expressions

/-- A field that does not ask where the buffer ends. -/
structure Field.IsLocal (f : Field) : Prop where
  size : f.sizeToEnd = false
  repetition : f.repetition ≠ some .toEnd
  expressions : ∀ expr ∈ f.expressions, View.IsLocal expr

/-- Does the repetition end where the buffer ends? -/
def Repetition.isToEnd : Repetition → Bool
  | .toEnd => true
  | _ => false

theorem Field.isLocal_iff {f : Field} : f.IsLocal ↔
    f.sizeToEnd = false ∧ (∀ r ∈ f.repetition, r.isToEnd = false) ∧
      ∀ expr ∈ f.expressions, View.IsLocal expr := by
  constructor
  · intro h
    refine ⟨h.size, ?_, h.expressions⟩
    intro r hr
    cases r with
    | toEnd => exact absurd hr h.repetition
    | count _ => rfl
    | untilTrue _ => rfl
  · rintro ⟨hsize, hrepetition, hexpressions⟩
    exact ⟨hsize, fun h => Bool.noConfusion (hrepetition _ h), hexpressions⟩

instance (f : Field) : Decidable f.IsLocal := decidable_of_iff' _ Field.isLocal_iff

theorem Field.IsLocal.size_expr {f : Field} (h : f.IsLocal) : View.IsLocal f.size :=
  h.expressions _ (by simp [Field.expressions])

theorem Field.IsLocal.position_expr {f : Field} (h : f.IsLocal) : View.IsLocal f.position :=
  h.expressions _ (by simp [Field.expressions])

theorem Field.IsLocal.condition_expr {f : Field} (h : f.IsLocal) : View.IsLocal f.condition :=
  h.expressions _ (by simp [Field.expressions])

theorem Field.IsLocal.repetition_expr {f : Field} (h : f.IsLocal) {r : Repetition}
    (hr : f.repetition = some r) : View.IsLocal r.expr :=
  h.expressions _ (by simp [Field.expressions, hr])

theorem Field.IsLocal.type_exprs {f : Field} (h : f.IsLocal) {expr : Value}
    (hexpr : expr ∈ f.type.expressions) : View.IsLocal expr :=
  h.expressions _ (by simp [Field.expressions, hexpr])

/-! ## Reads -/

namespace Buffer

variable {b more : Buffer} {offset : Int}

/-- Bytes that are there stay where they are when more follow. -/
theorem read_append {n : Int} {bytes : List UInt8} (h : b.read offset n = .ok bytes) :
    (b ++ more).read offset n = .ok bytes := by
  obtain ⟨⟨h0, hn, hle⟩, rfl⟩ := read_eq_ok_iff.1 h
  refine read_eq_ok_iff.2 ⟨⟨h0, hn, ?_⟩, ?_⟩
  · rw [List.length_append]
    omega
  · have hoffset : offset.toNat ≤ b.length := by omega
    have hlength : n.toNat ≤ (b.drop offset.toNat).length := by
      rw [List.length_drop]
      omega
    rw [slice, slice, List.drop_append_of_le_length hoffset, List.take_append_of_le_length hlength]

/-- A terminator is looked for in the bytes that were read, so it is found again. -/
theorem readSized_append {size : Int} {t : Option UInt8} {keep : Bool} {r : List UInt8 × Int}
    (h : b.readSized offset size t keep = .ok r) :
    (b ++ more).readSized offset size t keep = .ok r := by
  obtain ⟨bytes, hread, hrest⟩ := bind_eq_ok h
  unfold readSized
  rw [read_append hread]
  exact hrest

/-- A terminator that is found is the first one in the longer buffer as well. -/
theorem readTerminated_append {t : UInt8} {keep skip : Bool} {r : List UInt8 × Int}
    (h : b.readTerminated offset t keep skip = .ok r) :
    (b ++ more).readTerminated offset t keep skip = .ok r := by
  obtain ⟨bytes, hread, hrest⟩ := bind_eq_ok h
  have hoffset : offset.toNat ≤ b.length := by
    have := (holds_of_read hread).2.2
    omega
  dsimp only at hrest
  split at hrest
  case isFalse => cases hrest
  case isTrue hlt =>
      -- The search ends within the buffer, so it does not come to the bytes behind.
      have hfront : (b.drop offset.toNat ++ more).takeWhile (· != t) =
          (b.drop offset.toNat).takeWhile (· != t) := by
        rw [List.takeWhile_append, if_neg (by omega)]
      have hlonger : ((b.drop offset.toNat).takeWhile (· != t)).length <
          (b.drop offset.toNat ++ more).length := by
        rw [List.length_append]
        omega
      unfold readTerminated
      rw [read_append hread]
      simp only [bind, Except.bind, List.drop_append_of_le_length hoffset, hfront, if_pos hlonger]
      exact hrest

end Buffer

/-! ## Questions

None of the questions of a decoder sees how long the buffer is. -/

namespace Setting

variable {s : Setting} {more : Buffer} {place : Place} {ctx : Context} {f : Field}

/-- The setting with more bytes behind the buffer. -/
def extend (s : Setting) (more : Buffer) : Setting := { s with buffer := s.buffer ++ more }

/-- A local expression does not ask for the size of the buffer. -/
theorem evaluate_extend {expr : Value} (h : View.IsLocal expr) :
    (s.extend more).evaluate place expr = s.evaluate place expr := by
  have hview (values : ValueTable) : (s.extend more).view place values =
      (s.view place values).resize (s.buffer ++ more).length := rfl
  simp only [evaluate, hview, View.evaluate_resize _ _ h]

theorem requireInt_extend {what path : String} {expr : Value} (h : View.IsLocal expr) :
    (s.extend more).requireInt place what expr path = s.requireInt place what expr path := by
  have hview (values : ValueTable) : (s.extend more).view place values =
      (s.view place values).resize (s.buffer ++ more).length := rfl
  simp only [requireInt, hview, View.requireInt_resize _ _ h]

/-- White space around a case key does not matter. -/
theorem caseNumber_extend {key : Value} (h : View.IsLocal (caseExpression key)) :
    (s.extend more).caseNumber place key = s.caseNumber place key := by
  have htext (hkey : caseExpression key = .str key.text) :
      View.IsLocal (.str (Text.strip key.text)) := by
    intro text htext
    cases htext
    exact (h _ (hkey ▸ rfl)).of_isInfix (Text.strip_isInfix key.text)
  cases key with
  | bool b => rfl
  | int n => rfl
  | float x => rfl
  -- All other keys are read as the text that they are printed as.
  | _ => simp only [caseNumber, evaluate_extend (htext rfl)]

theorem selectCase_extend {d : Number} {entries : List (Value × String)}
    (h : ∀ entry ∈ entries, View.IsLocal (caseExpression entry.1)) :
    (s.extend more).selectCase place d entries = s.selectCase place d entries := by
  induction entries with
  | nil => rfl
  | cons entry rest ih =>
      have hrest := ih fun entry hentry => h entry (List.mem_cons_of_mem _ hentry)
      simp only [selectCase, caseNumber_extend (h entry List.mem_cons_self), hrest]

/-- The discriminant and the keys of a switch are local, so the same case is found. -/
theorem selectType_extend {id : String} {sw : Switch}
    (h : ∀ expr ∈ (FieldType.switched sw).expressions, View.IsLocal expr) :
    (s.extend more).selectType place id sw = s.selectType place id sw := by
  have hdiscriminant : View.IsLocal sw.discriminant := h _ List.mem_cons_self
  have hcases (d : Number) :
      (s.extend more).selectCase place d sw.cases = s.selectCase place d sw.cases :=
    selectCase_extend fun entry hentry =>
      h _ (List.mem_cons_of_mem _ (List.mem_map_of_mem hentry))
  simp only [selectType, evaluate_extend hdiscriminant, hcases]

/-- Only a repetition to the end of the buffer looks at where it ends. -/
theorem isComplete_extend {r : Repetition} {count : Option Int} {index : Nat} {cursor : Int}
    (h : r ≠ .toEnd) :
    (s.extend more).isComplete r count index cursor = s.isComplete r count index cursor := by
  cases r with
  | toEnd => exact absurd rfl h
  | count _ => rfl
  | untilTrue _ => rfl

theorem isSatisfied_extend {r : Repetition} {index : Nat} {v : Value} {cursor : Int}
    (h : View.IsLocal r.expr) :
    (s.extend more).isSatisfied r ctx index v cursor = s.isSatisfied r ctx index v cursor := by
  cases r with
  | untilTrue condition =>
      have hcondition : View.IsLocal condition := h
      simp only [isSatisfied, evaluate_extend hcondition]
  | count _ => rfl
  | toEnd => rfl

theorem repeatCount_extend {r : Repetition} (h : View.IsLocal r.expr) :
    (s.extend more).repeatCount ctx f r = s.repeatCount ctx f r := by
  cases r with
  | count expr =>
      have hexpr : View.IsLocal expr := h
      simp only [repeatCount, requireInt_extend hexpr]
      rfl
  | untilTrue _ => rfl
  | toEnd => rfl

/-- The position itself is a number by then, and no text. -/
theorem placed_extend (h : View.IsLocal f.position) :
    (s.extend more).placed ctx f = s.placed ctx f := by
  have hnumber (n : Number) : View.IsLocal n.toValue := by
    intro text htext
    cases n <;> cases htext
  simp only [placed, evaluate_extend h, requireInt_extend (hnumber _)]

theorem isPresent_extend (h : View.IsLocal f.condition) :
    (s.extend more).isPresent ctx f = s.isPresent ctx f := by
  simp only [isPresent, evaluate_extend h]

/-! ## The decoders -/

open Decoder

variable {custom custom' : CustomDecoder} {name : String}

/-- Bytes up to the end of the buffer are ruled out; all others are read again. -/
theorem readSpan_refines {what : String} {implied : Option UInt8} (hf : f.IsLocal) :
    Refines (s.readSpan ctx f what implied) ((s.extend more).readSpan ctx f what implied) := by
  unfold readSpan
  dsimp only
  rw [requireInt_extend hf.size_expr, hf.size]
  split
  · exact refines_bind refines_rfl fun size => refines_check fun _ => Buffer.readSized_append
  · rw [if_neg Bool.false_ne_true, if_neg Bool.false_ne_true]
    split
    · exact refines_check fun _ => Buffer.readTerminated_append
    · exact refines_fail

theorem readInteger_refines {label : String} {width : Nat} {signed : Bool}
    {endian : Option Endian} :
    Refines (s.readInteger ctx f name label width signed endian)
      ((s.extend more).readInteger ctx f name label width signed endian) :=
  refines_bind (refines_check fun _ => Buffer.read_append) fun _ => refines_rfl

theorem readFloat_refines {label : String} {width : Nat} {endian : Option Endian} :
    Refines (s.readFloat ctx f name label width endian)
      ((s.extend more).readFloat ctx f name label width endian) :=
  refines_bind (refines_check fun _ => Buffer.read_append) fun _ => refines_rfl

theorem readBytes_refines (hf : f.IsLocal) :
    Refines (s.readBytes ctx f name) ((s.extend more).readBytes ctx f name) :=
  refines_bind (readSpan_refines hf) fun _ => refines_rfl

theorem readText_refines {terminated : Bool} (hf : f.IsLocal) :
    Refines (s.readText ctx f name terminated) ((s.extend more).readText ctx f name terminated) :=
  refines_bind (readSpan_refines hf) fun _ => refines_rfl

/-- What is asked of the two decoders of nested instances. -/
def RefinesCustom (custom custom' : CustomDecoder) : Prop :=
  ∀ ⦃ctx : Context⦄ ⦃f : Field⦄ ⦃typeName name : String⦄, ctx.Every Field.IsLocal →
    Refines (custom ctx f typeName name) (custom' ctx f typeName name)

theorem decodeNamed_refines {typeName : String} (hcustom : RefinesCustom custom custom')
    (hctx : ctx.Every Field.IsLocal) (hf : f.IsLocal) :
    Refines (s.decodeNamed custom ctx f name typeName)
      ((s.extend more).decodeNamed custom' ctx f name typeName) := by
  unfold decodeNamed
  split
  · exact readInteger_refines
  · exact readFloat_refines
  · exact readBytes_refines hf
  · exact readText_refines hf
  · exact hcustom hctx

theorem decodeSingle_refines (hcustom : RefinesCustom custom custom')
    (hctx : ctx.Every Field.IsLocal) (hf : f.IsLocal) :
    Refines (s.decodeSingle custom ctx f name)
      ((s.extend more).decodeSingle custom' ctx f name) := by
  refine refines_located ?_
  cases htype : f.type with
  | untyped => exact readBytes_refines hf
  | named typeName => exact decodeNamed_refines hcustom hctx hf
  | switched sw =>
      have hswitch : ∀ expr ∈ (FieldType.switched sw).expressions, View.IsLocal expr :=
        fun expr hexpr => hf.type_exprs (htype ▸ hexpr)
      dsimp only
      rw [selectType_extend hswitch]
      exact refines_bind refines_rfl fun _ => decodeNamed_refines hcustom hctx hf

/-- Both loops ask the same questions behind each element, so they stop behind the same one. -/
theorem decodeElements_refines {r : Repetition} {count : Option Int} {rounds index : Nat}
    {done : List Node} {cursor : Int} (hcustom : RefinesCustom custom custom')
    (hctx : ctx.Every Field.IsLocal) (hf : f.IsLocal) (hr : f.repetition = some r) :
    Refines (s.decodeElements custom ctx f r count rounds index done cursor)
      ((s.extend more).decodeElements custom' ctx f r count rounds index done cursor) := by
  have hend : r ≠ .toEnd := fun h => hf.repetition (h ▸ hr)
  induction rounds generalizing index done cursor with
  | zero => exact refines_rfl
  | succ rounds ih =>
      unfold decodeElements
      rw [isComplete_extend hend]
      split
      · exact refines_rfl
      · have hmoved : (ctx.moveTo cursor).Every Field.IsLocal := hctx
        -- From here on both runs have the same element, and the same progress.
        refine refines_bind (decodeSingle_refines hcustom hmoved hf) fun o => ?_
        rw [isSatisfied_extend (hf.repetition_expr hr)]
        refine refines_bind refines_rfl fun holds => ?_
        split
        · exact refines_rfl
        split
        · exact refines_rfl
        · exact ih

/-- The rounds of a repetition to the end would grow with the buffer; it is ruled out. -/
theorem decodeRepeated_refines {r : Repetition} (hcustom : RefinesCustom custom custom')
    (hctx : ctx.Every Field.IsLocal) (hf : f.IsLocal) (hr : f.repetition = some r) :
    Refines (s.decodeRepeated custom ctx f r)
      ((s.extend more).decodeRepeated custom' ctx f r) := by
  unfold decodeRepeated
  rw [repeatCount_extend (hf.repetition_expr hr)]
  refine refines_bind refines_rfl fun count => ?_
  exact refines_bind (decodeElements_refines hcustom hctx hf hr) fun _ => refines_rfl

/-- The position moves the offset only, so the same fields stay in sight. -/
theorem decodeField_refines (hcustom : RefinesCustom custom custom')
    (hctx : ctx.Every Field.IsLocal) (hf : f.IsLocal) :
    Refines (s.decodeField custom ctx f) ((s.extend more).decodeField custom' ctx f) := by
  intro p o p' h
  obtain ⟨ctx', _, hplaced, hrun⟩ := yields_bind.1 h
  obtain ⟨rfl, ⟨offset, rfl⟩, -⟩ := placed_inv hplaced
  have hmoved : (ctx.moveTo offset).Every Field.IsLocal := hctx
  refine yields_bind.2 ⟨_, _, (placed_extend hf.position_expr).symm ▸ hplaced, ?_⟩
  split at hrun
  case h_1 r hr => exact decodeRepeated_refines hcustom hmoved hf hr hrun
  case h_2 => exact decodeSingle_refines hcustom hmoved hf hrun

theorem decodeFields_refines {seq : List Field} {done : List Node}
    (hcustom : RefinesCustom custom custom') (hctx : ctx.Every Field.IsLocal)
    (hseq : ∀ f ∈ seq, f.IsLocal) :
    Refines (s.decodeFields custom seq ctx done)
      ((s.extend more).decodeFields custom' seq ctx done) := by
  induction seq generalizing ctx done with
  | nil => exact refines_rfl
  | cons f rest ih =>
      have hf := hseq f List.mem_cons_self
      have hrest := fun g hg => hseq g (List.mem_cons_of_mem f hg)
      unfold decodeFields
      rw [isPresent_extend hf.condition_expr]
      refine refines_bind refines_rfl fun present => ?_
      split
      · refine refines_bind (decodeField_refines hcustom hctx hf) fun o => ?_
        exact refines_bind refines_rfl fun _ => ih hctx hrest
      · exact ih hctx hrest

theorem decodeInstance_refines {depth : Nat} {i : Instance} (hi : i.Every Field.IsLocal) :
    Refines (s.decodeInstance depth ctx i) ((s.extend more).decodeInstance depth ctx i) := by
  induction depth generalizing ctx i with
  | zero => exact refines_fail
  | succ depth ih =>
      have hcustom : RefinesCustom (s.nested depth) ((s.extend more).nested depth) := by
        intro ctx f typeName name hctx p o p' h
        obtain ⟨definition, chain, hlookup, hrun⟩ := nested_inv h
        unfold nested
        rw [hlookup]
        exact ih (Instance.every_of_lookup? hctx hlookup) hrun
      exact refines_bind (decodeFields_refines hcustom hi.inside fun f hf => hi.seq hf)
        fun _ => refines_rfl

end Setting

/-- **Locality.** When no field asks where the buffer ends, bytes behind the buffer change nothing of
a decode that succeeded: tree, nodes and warnings are the same. -/
theorem Schema.decode_append {schema : Schema} {options : Options} {buffer : Buffer}
    {result : Result} (more : Buffer) (hlocal : ∀ f ∈ schema.fields, f.IsLocal)
    (h : schema.decode options buffer = .ok result) (hsuccess : result.success = true) :
    schema.decode options (buffer ++ more) = .ok result := by
  obtain ⟨root, hroot⟩ := Result.exists_root hsuccess
  obtain ⟨definition, o, p, hdefinition, hrun, rfl⟩ := decode_inv h hroot
  have hlonger : (schema.decodeRoot options definition (buffer ++ more)).Yields {} o p :=
    Setting.decodeInstance_refines (s := schema.setting options buffer)
      (rootInstance_every hdefinition hlocal) hrun
  unfold decode
  rw [hdefinition]
  dsimp only
  rw [hlonger]

/-- Two words, and behind them a number at an offset that is read, in a width that is read. -/
def Schema.words : Schema where
  info := { id := some "words" }
  seq := some [
    { id := "kind", type := .named "u1" },
    { id := "at", type := .named "u1" },
    { id := "words", type := .named "strz", repetition := some (.untilTrue (.str "_index == 1")) },
    { id := "body", type := .switched ⟨.str "kind", [(.int 1, "u1"), (.str "_", "u2")]⟩,
      position := .str "at", condition := .str "kind > 0" }]

theorem Schema.decode_append_words :
    (∀ f ∈ words.fields, f.IsLocal) ∧
      ∃ result, words.decode {} [1, 4, 65, 0, 66, 67, 0] = .ok result ∧ result.success = true ∧
        words.decode {} ([1, 4, 65, 0, 66, 67, 0] ++ [0, 68]) = .ok result := by
  have hlocal : ∀ f ∈ words.fields, f.IsLocal := by decide +kernel
  have hrun : words.succeeds {} [1, 4, 65, 0, 66, 67, 0] = true := by decide +kernel
  obtain ⟨result, h, hsuccess⟩ := exists_of_succeeds hrun
  exact ⟨hlocal, result, h, hsuccess, decode_append [0, 68] hlocal h hsuccess⟩

end ByteSchema
