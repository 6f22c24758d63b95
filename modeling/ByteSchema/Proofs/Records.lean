import ByteSchema.Proofs.Chunks
import ByteSchema.Proofs.Data
import ByteSchema.Proofs.Resolution

/-!
# ByteSchema.Proofs.Records

Records with their lengths in front.

A record is an integer and as many bytes (`Schema.recordType`). The size of the bytes is an
expression, the name of the integer; all records before have one of the same name, and in the table
of values it is that of the same record that counts, for it is looked for there first. So an array of
records up to the end of the buffer reads what was written record by record. A buffer that ends
earlier gives its whole records if it ends behind one, and otherwise fails in the record that is
incomplete (`Schema.readsRecords_recordArray`).
-/

namespace ByteSchema

/-! ## The format -/

/-- The bytes of a record. -/
def recordBytes (order : Endian) (width : Nat) (payload : List UInt8) : List UInt8 :=
  orderedBytes order width payload.length ++ payload

/-- The value of a record. -/
def recordValue (payload : List UInt8) : Value :=
  .record [("n", .int payload.length), ("data", .bytes payload)]

/-! ## Its schema -/

namespace Field

/-- The length of a record. -/
def length (lengthType : String) : Field := { id := "n", type := .named lengthType }

/-- The bytes of a record. -/
def payload : Field := { id := "data", size := .str "n" }

/-- The records. -/
def records : Field := { id := "recs", type := .named "rec" }

end Field

/-- The type of a record. -/
def Schema.recordType (lengthType : String) : TypeDef where
  seq := [.length lengthType, .payload]

/-- The schema of an array of records. -/
def Schema.recordArray (info : Meta) (lengthType : String) : Schema :=
  .arrayOf info [("rec", recordType lengthType)] .records

/-- Where its records are decoded. -/
def Schema.recordContext (info : Meta) (lengthType : String) : Context :=
  elementContext info [("rec", recordType lengthType)] .records

theorem Schema.endian_recordContext (info : Meta) (lengthType : String) (cursor : Int) :
    ((recordContext info lengthType).moveTo cursor).endian = info.endian.getD .big :=
  endian_elementContext info _ _

namespace Setting

variable {s : Setting} {custom : CustomDecoder} {ctx : Context} {lengthType : String}
  {width n : Nat} {suffix : Option Endian} {payload left rest : List UInt8} {p : Progress}

/-! ## The fields of a record -/

/-- What stands at the offset is read. -/
theorem HasLeft.read_eq {offset : Int} {front : List UInt8}
    (h : s.HasLeft offset (front ++ rest)) : s.buffer.read offset front.length = .ok front := by
  have hend := h.offset_eq
  obtain ⟨h₀, hdrop⟩ := h.drop_eq
  rw [List.length_append] at hend
  refine Buffer.read_eq_ok_iff.2 ⟨⟨h₀, Int.natCast_nonneg _, by omega⟩, ?_⟩
  rw [Buffer.slice, hdrop, Int.toNat_natCast, List.take_left]

/-- More than is left cannot be read. -/
theorem HasLeft.read_runsShort {offset : Int} (h : s.HasLeft offset left) (hshort : left.length < n) :
    RunsShort (s.buffer.read offset n) [offset, (n : Int)] := by
  have hend := h.offset_eq
  exact Buffer.read_runsShort (by omega)

/-- A field without position and repetition is a single value. -/
theorem decodeField_plain {f : Field} (hunplaced : f.position = .null) (honce : f.repetition = none) :
    s.decodeField custom ctx f = s.decodeSingle custom ctx f f.id := by
  have hplaced : s.placed ctx f = pure ctx := Decoder.eq_pure fun p => yields_placed_self hunplaced
  rw [decodeField, hplaced, pure_bind, honce]

/-- The length is read as an integer of its type, in its own byte order if it has one. -/
theorem decodeField_length
    (hlength : Primitive.ofName? lengthType = some (.integer width false suffix)) :
    s.decodeField custom ctx (.length lengthType) = Decoder.located (ctx.childId "n")
      (s.readInteger ctx (.length lengthType) "n" (Text.lower lengthType) width false suffix) := by
  rw [decodeField_plain rfl rfl]
  simp only [decodeSingle, Field.length, decodeNamed, hlength]

/-- A length is decoded, whatever stands behind it. -/
theorem yields_length
    (hlength : Primitive.ofName? lengthType = some (.integer width false suffix))
    (hn : n < 256 ^ width)
    (hleft : s.HasLeft ctx.offset (orderedBytes (suffix.getD ctx.endian) width n ++ rest)) :
    ∃ o, (s.decodeField custom ctx (.length lengthType)).Yields p o p ∧
      o.node.id = ctx.childId "n" ∧ o.node.value = .int n ∧ s.HasLeft o.next rest := by
  have hread := hleft.read_eq
  have hrest := hleft.past
  rw [length_orderedBytes] at hread hrest
  refine ⟨leaf ctx "n" (Text.lower lengthType) width (some (suffix.getD ctx.endian)) (.int n)
    (Field.length lengthType).remarks, ?_, rfl, rfl, hrest⟩
  rw [decodeField_length hlength, Decoder.yields_located, readInteger, hread]
  refine Decoder.yields_pure.2 ⟨?_, rfl⟩
  rw [integerOfBytes_orderedBytes hn]

/-- With fewer bytes than it has, the length cannot be decoded. -/
theorem length_stopsAt
    (hlength : Primitive.ofName? lengthType = some (.integer width false suffix))
    (hleft : s.HasLeft ctx.offset left) (hshort : left.length < width)
    (hwords : Value.isOverlong s.buffer.length = false) :
    (s.decodeField custom ctx (.length lengthType)).StopsAt p (ctx.childId "n") := by
  have hwidth : Value.isOverlong width = false :=
    Value.not_isOverlong_of_lt (Primitive.width_of_ofName? hlength).2
      (Nat.lt_pow_self (by decide))
  have hnumbers : ∀ m ∈ [ctx.offset, (width : Int)], Value.isOverlong m = false :=
    List.forall_mem_cons.2 ⟨hleft.not_isOverlong hwords, List.forall_mem_singleton.2 hwidth⟩
  rw [decodeField_length hlength]
  exact (hleft.read_runsShort hshort).stopsAt hnumbers

/-- In a record, the name of the length stands for the one that is just decoded. -/
theorem yields_payloadSize (hpath : ctx.path ≠ [])
    (hn : p.values.get? (ctx.childId "n") = some (.int n)) :
    (s.requireInt ctx.toPlace "size" Field.payload.size (ctx.childId "data")).Yields p n p := by
  have hname : IsIdentifier "n" :=
    ⟨'n', [], by decide +kernel, by decide +kernel, List.all_eq_true.1 rfl⟩
  obtain ⟨path, last, hconcat⟩ : ∃ path last, ctx.path = path ++ [last] :=
    ⟨_, _, (List.dropLast_append_getLast hpath).symm⟩
  have hwritten : (s.view ctx.toPlace p.values).values.get? (nodeIdOf (ctx.path ++ ["n"])) =
      some (.int n) := hn
  -- The name is looked up in the record first.
  have hnumber : (s.view ctx.toPlace p.values).numberAt? (nodeIdOf (path ++ [last] ++ ["n"])) =
      some (.int n) := by
    rw [← hconcat, View.numberAt?, hwritten]
    rfl
  have hvalue : (s.view ctx.toPlace p.values).evaluate Field.payload.size =
      .ok (some (.int n)) := by
    refine View.evaluate_name hname (Expression.noLongRun_of_length (by decide)) ?_
    rw [View.resolve_of_unmarked hname (by decide) hconcat, hnumber]
    rfl
  refine yields_requireInt.2 ⟨?_, rfl⟩
  rw [View.requireInt, hvalue]
  rfl

theorem decodeField_payload :
    s.decodeField custom ctx .payload =
      Decoder.located (ctx.childId "data") (s.readBytes ctx .payload "data") := by
  rw [decodeField_plain rfl rfl]
  exact decodeSingle_of_isRaw (.untyped rfl)

/-- Behind the length, as many bytes are decoded. -/
theorem yields_payload (hpath : ctx.path ≠ [])
    (hn : p.values.get? (ctx.childId "n") = some (.int payload.length))
    (hleft : s.HasLeft ctx.offset (payload ++ rest)) :
    ∃ o, (s.decodeField custom ctx .payload).Yields p o p ∧ o.node.id = ctx.childId "data" ∧
      o.node.value = .bytes payload ∧ s.HasLeft o.next rest := by
  have hspan (what : String) : (s.readSpan ctx .payload what none).Yields p
      (payload, (payload.length : Int)) p := by
    rw [readSpan_sized rfl]
    refine Decoder.yields_bind.2 ⟨_, p, yields_payloadSize hpath hn, ?_⟩
    refine Decoder.yields_check.2 ⟨?_, rfl⟩
    rw [Buffer.readSized, hleft.read_eq]
    rfl
  refine ⟨leaf ctx "data" "bytes" payload.length none (.bytes payload) Field.payload.remarks, ?_, rfl,
    rfl, hleft.past⟩
  rw [decodeField_payload, Decoder.yields_located]
  exact Decoder.yields_bind.2 ⟨_, p, hspan _, rfl⟩

/-- With fewer bytes than the length says, they cannot be decoded. -/
theorem payload_stopsAt (hpath : ctx.path ≠ [])
    (hn : p.values.get? (ctx.childId "n") = some (.int n)) (hlong : Value.isOverlong n = false)
    (hleft : s.HasLeft ctx.offset left) (hshort : left.length < n)
    (hwords : Value.isOverlong s.buffer.length = false) :
    (s.decodeField custom ctx .payload).StopsAt p (ctx.childId "data") := by
  have hnumbers : ∀ m ∈ [ctx.offset, (n : Int)], Value.isOverlong m = false :=
    List.forall_mem_cons.2 ⟨hleft.not_isOverlong hwords, List.forall_mem_singleton.2 hlong⟩
  obtain ⟨c, hkind, hfails⟩ := ((hleft.read_runsShort hshort).bind _).check_fails hnumbers
  refine ⟨c, hkind, ?_⟩
  have hbytes : (s.readBytes ctx .payload "data").Fails p (.error ⟨c, none⟩) := by
    refine Decoder.Fails.bind_left ?_ _
    rw [readSpan_sized rfl]
    exact (yields_payloadSize hpath hn).bind_fails (hfails p)
  rw [decodeField_payload]
  exact hbytes.located _

/-! ## One record -/

/-- A record as an instance. -/
def recordInstance (lengthType name : String) (chain : TypeChain) : Instance where
  name := name
  typeName := "rec"
  definition := Schema.recordType lengthType
  chain := chain
  attributes := []

section

variable {chain : TypeChain} {path : List String} {name : String} {depth : Nat}

/-- The type of a record is found in the chain, so a record is decoded as an instance of it. -/
theorem decodeSingle_record
    (hlookup : ctx.chain.lookup? "rec" = some (Schema.recordType lengthType, chain)) :
    s.decodeSingle (s.nested (depth + 1)) ctx .records name =
      Decoder.located (ctx.childId name)
        (s.decodeInstance (depth + 1) ctx (recordInstance lengthType name chain)) := by
  have hcustom : Primitive.ofName? "rec" = none := by decide
  have hnested : s.nested (depth + 1) ctx .records "rec" name =
      s.decodeInstance (depth + 1) ctx (recordInstance lengthType name chain) := by
    unfold nested
    rw [hlookup]
    rfl
  rw [← hnested]
  simp only [decodeSingle, Field.records, decodeNamed, hcustom]

/-- The length of a record is decoded as `o`, and can be written; then it can be looked up, and the
path of the bytes is still free. -/
structure ReadsLength (s : Setting) (custom : CustomDecoder) (ctx : Context) (lengthType : String)
    (p : Progress) (n : Nat) (rest : List UInt8) (o : Outcome) : Prop where
  run : (s.decodeField custom ctx (.length lengthType)).Yields p o p
  free : p.values.get? o.node.id = none
  value : o.node.value = .int n
  written : (p.write o.node.id o.node.value).values.get? (ctx.childId "n") = some (.int n)
  ahead : (p.write o.node.id o.node.value).values.get? (ctx.childId "data") = none
  left : s.HasLeft o.next rest

/-- The length is recorded under its own path. The path of the payload is another one and stays
free. -/
theorem exists_readsLength
    (hlength : Primitive.ofName? lengthType = some (.integer width false suffix))
    (hpath : ctx.path = path ++ [name]) (hname : name ≠ "") (hvacant : p.values.Vacant path name)
    (hn : n < 256 ^ width)
    (hleft : s.HasLeft ctx.offset (orderedBytes (suffix.getD ctx.endian) width n ++ rest)) :
    ∃ o, s.ReadsLength custom ctx lengthType p n rest o := by
  have hfree {child : String} (hchild : child ≠ "") : p.values.get? (ctx.childId child) = none := by
    have hinner : p.values.Vacant (path ++ [name]) child := hvacant.child hname
    rw [Place.childId_eq hchild, hpath, ← hinner "" (.inl rfl), String.append_empty]
  -- The two fields of a record have different paths.
  have hne : ctx.childId "data" ≠ ctx.childId "n" := by
    rw [Place.childId_eq (by decide), Place.childId_eq (by decide), ne_eq, String.append_right_inj]
    decide
  obtain ⟨o, hrun, hid, hvalue, hrest⟩ := yields_length hlength hn hleft
  refine ⟨o, hrun, ?_, hvalue, ?_, ?_, hrest⟩
  · rw [hid]
    exact hfree (by decide)
  · rw [hid, hvalue]
    exact Progress.get?_write p _ _
  · rw [hid]
    exact (Progress.get?_write_of_ne p _ hne).trans (hfree (by decide))

/-- A record is decoded, whatever stands behind it. -/
theorem yields_record
    (hlength : Primitive.ofName? lengthType = some (.integer width false suffix))
    (hlookup : ctx.chain.lookup? "rec" = some (Schema.recordType lengthType, chain))
    (hname : name ≠ "") (hvacant : p.values.Vacant ctx.path name)
    (hpayload : payload.length < 256 ^ width)
    (hleft : s.HasLeft ctx.offset (recordBytes (suffix.getD ctx.endian) width payload ++ rest)) :
    ∃ o p', (s.decodeSingle (s.nested (depth + 1)) ctx .records name).Yields p o p' ∧
      o.node.value = recordValue payload ∧ s.HasLeft o.next rest ∧ p'.warnings = p.warnings := by
  let inner := inside ctx (recordInstance lengthType name chain)
  have hinner : s.HasLeft inner.offset
      (orderedBytes (suffix.getD inner.endian) width payload.length ++ (payload ++ rest)) := by
    rw [← List.append_assoc]
    exact hleft
  obtain ⟨o₁, h₁⟩ : ∃ o, s.ReadsLength (s.nested depth) inner lengthType p _ (payload ++ rest) o :=
    exists_readsLength hlength rfl hname hvacant hpayload hinner
  let p₁ := p.write o₁.node.id o₁.node.value
  let behind := inner.past (.length lengthType) o₁
  obtain ⟨o₂, hrun₂, hid₂, hvalue₂, hrest⟩ : ∃ o,
      (s.decodeField (s.nested depth) behind .payload).Yields p₁ o p₁ ∧
        o.node.id = behind.childId "data" ∧ o.node.value = .bytes payload ∧ s.HasLeft o.next rest :=
    yields_payload (by simp [behind, inner, inside]) h₁.written h₁.left
  have hfields : (s.decodeFields (s.nested depth) [.length lengthType, .payload] inner []).Yields p
      ([o₁.node, o₂.node], [("n", o₁.node.value), ("data", o₂.node.value)], o₂.next)
      (p₁.write o₂.node.id o₂.node.value) := by
    refine Decoder.yields_bind.2 ⟨true, p, yields_isPresent rfl, ?_⟩
    refine Decoder.yields_bind.2 ⟨o₁, p, h₁.run, ?_⟩
    refine Decoder.yields_bind.2 ⟨(), p₁, Decoder.yields_record.2 ⟨h₁.free, rfl⟩, ?_⟩
    refine Decoder.yields_bind.2 ⟨true, p₁, yields_isPresent rfl, ?_⟩
    refine Decoder.yields_bind.2 ⟨o₂, p₁, hrun₂, ?_⟩
    exact Decoder.yields_bind.2 ⟨(), _, Decoder.yields_record.2 ⟨hid₂ ▸ h₁.ahead, rfl⟩, rfl⟩
  refine ⟨⟨s.instanceNode ctx (recordInstance lengthType name chain) [o₁.node, o₂.node]
    [("n", o₁.node.value), ("data", o₂.node.value)] o₂.next, o₂.next⟩,
    p₁.write o₂.node.id o₂.node.value, ?_, ?_, hrest, rfl⟩
  · rw [decodeSingle_record hlookup, Decoder.yields_located]
    exact Decoder.yields_bind.2 ⟨_, _, hfields, rfl⟩
  · rw [recordValue, ← h₁.value, ← hvalue₂]
    rfl

/-- With fewer bytes than a length has, a record fails at its length. -/
theorem record_stopsAt_length
    (hlength : Primitive.ofName? lengthType = some (.integer width false suffix))
    (hlookup : ctx.chain.lookup? "rec" = some (Schema.recordType lengthType, chain))
    (hleft : s.HasLeft ctx.offset left) (hshort : left.length < width)
    (hwords : Value.isOverlong s.buffer.length = false) :
    (s.decodeSingle (s.nested (depth + 1)) ctx .records name).StopsAt p
      (nodeIdOf (ctx.path ++ [name] ++ ["n"])) := by
  let inner := inside ctx (recordInstance lengthType name chain)
  have hinner : s.HasLeft inner.offset left := hleft
  obtain ⟨c, hkind, hfails⟩ : (s.decodeField (s.nested depth) inner (.length lengthType)).StopsAt p
      (inner.childId "n") := length_stopsAt hlength hinner hshort hwords
  have hfields : (s.decodeFields (s.nested depth) [.length lengthType, .payload] inner []).Fails p
      (.error ⟨c, some (inner.childId "n")⟩) :=
    decodeFields_fails (yields_isPresent rfl) hfails
  refine ⟨c, hkind, ?_⟩
  rw [decodeSingle_record hlookup]
  exact Decoder.Fails.located (Decoder.Fails.bind_left hfields _) _

/-- With fewer bytes than its length says, a record fails at its bytes. -/
theorem record_stopsAt_payload
    (hlength : Primitive.ofName? lengthType = some (.integer width false suffix))
    (hlookup : ctx.chain.lookup? "rec" = some (Schema.recordType lengthType, chain))
    (hname : name ≠ "") (hvacant : p.values.Vacant ctx.path name) (hn : n < 256 ^ width)
    (hleft : s.HasLeft ctx.offset (orderedBytes (suffix.getD ctx.endian) width n ++ left))
    (hshort : left.length < n) (hwords : Value.isOverlong s.buffer.length = false) :
    (s.decodeSingle (s.nested (depth + 1)) ctx .records name).StopsAt p
      (nodeIdOf (ctx.path ++ [name] ++ ["data"])) := by
  let inner := inside ctx (recordInstance lengthType name chain)
  have hinner : s.HasLeft inner.offset (orderedBytes (suffix.getD inner.endian) width n ++ left) :=
    hleft
  obtain ⟨o, ho⟩ : ∃ o, s.ReadsLength (s.nested depth) inner lengthType p n left o :=
    exists_readsLength hlength rfl hname hvacant hn hinner
  -- The length has at most eight bytes, so the error can be worded.
  have hlong : Value.isOverlong n = false :=
    Value.not_isOverlong_of_lt (Primitive.width_of_ofName? hlength).2 hn
  let behind := inner.past (.length lengthType) o
  obtain ⟨c, hkind, hfails⟩ : (s.decodeField (s.nested depth) behind .payload).StopsAt
      (p.write o.node.id o.node.value) (behind.childId "data") :=
    payload_stopsAt (by simp [behind, inner, inside]) ho.written hlong ho.left hshort hwords
  have hfields : (s.decodeFields (s.nested depth) [.length lengthType, .payload] inner []).Fails p
      (.error ⟨c, some (behind.childId "data")⟩) := by
    have hpresent : (s.isPresent inner (.length lengthType)).Yields p true p := yields_isPresent rfl
    have hrecord : (Decoder.record o.node.id o.node.value).Yields p ()
        (p.write o.node.id o.node.value) := Decoder.yields_record.2 ⟨ho.free, rfl⟩
    refine hpresent.bind_fails (ho.run.bind_fails (hrecord.bind_fails ?_))
    exact decodeFields_fails (yields_isPresent rfl) hfails
  refine ⟨c, hkind, ?_⟩
  rw [decodeSingle_record hlookup]
  exact Decoder.Fails.located (Decoder.Fails.bind_left hfields _) _

end

/-- An element of which a part is left fails in that record. -/
theorem record_stopsAt {info : Meta} {options : Options} {buffer : Buffer} {depth index : Nat}
    {cursor : Int}
    (hlength : Primitive.ofName? lengthType = some (.integer width false suffix))
    (hpayload : payload.length < 256 ^ width)
    (hpart : left <+: recordBytes (suffix.getD (info.endian.getD .big)) width payload)
    (hpartial : left ≠ recordBytes (suffix.getD (info.endian.getD .big)) width payload)
    (hleft : ((Schema.recordArray info lengthType).setting options buffer).HasLeft cursor left)
    (hp : Untouched (Schema.recordContext info lengthType) .records index p)
    (hwords : Value.isOverlong buffer.length = false) :
    (((Schema.recordArray info lengthType).setting options buffer).decodeSingle
      (((Schema.recordArray info lengthType).setting options buffer).nested (depth + 1))
      ((Schema.recordContext info lengthType).moveTo cursor) .records
      (elementName "recs" index)).StopsAt p
        (nodeIdOf [(Schema.recordArray info lengthType).rootId, elementName "recs" index,
          if left.length < width then "n" else "data"]) := by
  let s := (Schema.recordArray info lengthType).setting options buffer
  let ctx := (Schema.recordContext info lengthType).moveTo cursor
  have hleft : s.HasLeft ctx.offset left := hleft
  by_cases hshort : left.length < width
  · rw [if_pos hshort]
    exact record_stopsAt_length hlength rfl hleft hshort hwords
  · -- The length is whole, and of the bytes behind it some are missing.
    rw [if_neg hshort]
    rw [recordBytes] at hpart hpartial
    obtain ⟨more, rfl⟩ : orderedBytes (suffix.getD (info.endian.getD .big)) width payload.length <+:
        left := by
      refine List.prefix_of_prefix_length_le (List.prefix_append _ _) hpart ?_
      rw [length_orderedBytes]
      omega
    have hmore : more.length < payload.length := by
      have hmore : more <+: payload := (List.prefix_append_right_inj _).1 hpart
      refine Nat.lt_of_le_of_ne hmore.length_le fun heq => hpartial ?_
      rw [hmore.eq_of_length heq]
    have hvacant : p.values.Vacant ctx.path (elementName "recs" index) :=
      hp.vacant index (Nat.le_refl _)
    rw [← Schema.endian_recordContext info lengthType cursor] at hleft
    exact record_stopsAt_payload hlength rfl elementName_ne_empty hvacant hpayload hleft hmore hwords

/-- In an array of records, each one is a chunk. -/
theorem decodesChunks_records {info : Meta} {options : Options} {buffer : Buffer} {depth : Nat}
    {payloads : List (List UInt8)}
    (hlength : Primitive.ofName? lengthType = some (.integer width false suffix))
    (hpayloads : ∀ payload ∈ payloads, payload.length < 256 ^ width) :
    ((Schema.recordArray info lengthType).setting options buffer).DecodesChunks
      (((Schema.recordArray info lengthType).setting options buffer).nested (depth + 1))
      (Schema.recordContext info lengthType) .records
      (recordBytes (suffix.getD (info.endian.getD .big)) width) recordValue payloads where
  nonempty payload _ := by
    have hwidth := (Primitive.width_of_ofName? hlength).1
    refine List.ne_nil_of_length_pos ?_
    rw [recordBytes, List.length_append, length_orderedBytes]
    omega
  element payload hpayload index cursor rest p hleft hp := by
    let s := (Schema.recordArray info lengthType).setting options buffer
    let ctx := (Schema.recordContext info lengthType).moveTo cursor
    have hvacant : p.values.Vacant ctx.path (elementName "recs" index) :=
      hp.vacant index (Nat.le_refl _)
    have hrecord : s.HasLeft ctx.offset
        (recordBytes (suffix.getD ctx.endian) width payload ++ rest) := by
      rw [Schema.endian_recordContext]
      exact hleft
    exact yields_record hlength rfl elementName_ne_empty hvacant (hpayloads payload hpayload) hrecord

end Setting

/-- A prefix of chunks has some of them whole, and then a part of the next one. -/
theorem exists_take_of_prefix {α : Type} {items : List α} {bytesOf : α → List UInt8}
    {bytes : List UInt8} (h : bytes <+: items.flatMap bytesOf) :
    ∃ k rest, bytes = (items.take k).flatMap bytesOf ++ rest ∧
      (rest = [] ∨ ∃ a, items[k]? = some a ∧ rest <+: bytesOf a ∧ rest ≠ bytesOf a) := by
  induction items generalizing bytes with
  | nil => exact ⟨0, [], by simpa using h, .inl rfl⟩
  | cons a items ih =>
      rw [List.flatMap_cons] at h
      by_cases hshort : bytes.length < (bytesOf a).length
      · -- The first chunk is not whole.
        have hpart : bytes <+: bytesOf a :=
          List.prefix_of_prefix_length_le h (List.prefix_append _ _) (Nat.le_of_lt hshort)
        refine ⟨0, bytes, rfl, .inr ⟨a, rfl, hpart, ?_⟩⟩
        intro heq
        rw [heq] at hshort
        exact Nat.lt_irrefl _ hshort
      · obtain ⟨more, rfl⟩ : bytesOf a <+: bytes :=
          List.prefix_of_prefix_length_le (List.prefix_append _ _) h (Nat.le_of_not_lt hshort)
        obtain ⟨k, rest, rfl, hrest⟩ := ih ((List.prefix_append_right_inj _).1 h)
        exact ⟨k + 1, rest, by simp, hrest⟩

namespace Schema

theorem recordArray_named (info : Meta) (lengthType : String) :
    ∀ g ∈ (recordArray info lengthType).fields, g.id ≠ "" := by
  simp [recordArray, arrayOf, Schema.fields, fieldsIn, TypeDef.fields, recordType, Field.records,
    Field.length, Field.payload, Field.repeatedBy]

/-- To decode is to read record by record what was written, and what comes of a buffer that ends
earlier. -/
structure ReadsRecords (schema : Schema) (options : Options) (order : Endian) (width : Nat)
    (payloads : List (List UInt8)) : Prop where
  /-- As many records as there are, or fewer: they are read, to the last byte and without a
  warning. -/
  whole : ∀ k, options.Admit ((payloads.take k).flatMap (recordBytes order width)) → ∃ result,
    schema.decode options ((payloads.take k).flatMap (recordBytes order width)) = .ok result ∧
      result.success = true ∧ result.data = [("recs", .tuple ((payloads.take k).map recordValue))] ∧
      result.consumed = ((payloads.take k).flatMap (recordBytes order width)).length ∧
      result.warnings = []
  /-- A buffer that ends elsewhere ends in a record. There is no tree, and one error, in that record:
  at its length if that is not whole, and else at its bytes. -/
  cut : ∀ buffer, buffer <+: payloads.flatMap (recordBytes order width) →
    (∀ k, buffer ≠ (payloads.take k).flatMap (recordBytes order width)) → options.Admit buffer →
      ∃ k payload rest, payloads[k]? = some payload ∧
        buffer = (payloads.take k).flatMap (recordBytes order width) ++ rest ∧
        rest <+: recordBytes order width payload ∧ rest ≠ [] ∧
        rest ≠ recordBytes order width payload ∧
        ∃ result message, schema.decode options buffer = .ok result ∧ result.root = none ∧
          result.errors = [⟨message, some (nodeIdOf [schema.rootId, Setting.elementName "recs" k,
            if rest.length < width then "n" else "data"]), "BoundsError"⟩]

/-- **Length-prefixed records.** An array of records reads the records that were written, in the byte
order of the length's type or else of the schema. -/
theorem readsRecords_recordArray {info : Meta} {lengthType : String} {width : Nat}
    {suffix : Option Endian} {options : Options} {payloads : List (List UInt8)}
    (hlength : Primitive.ofName? lengthType = some (.integer width false suffix))
    (hdepth : 2 ≤ options.maxDepth)
    (hpayloads : ∀ payload ∈ payloads, payload.length < 256 ^ width) :
    (recordArray info lengthType).ReadsRecords options (suffix.getD (info.endian.getD .big)) width
      payloads := by
  -- The root takes one level and each record another one.
  obtain ⟨depth, hdepth⟩ : ∃ depth, options.maxDepth.toNat = depth + 1 + 1 :=
    ⟨options.maxDepth.toNat - 2, by omega⟩
  have htake (k : Nat) : ∀ payload ∈ payloads.take k, payload.length < 256 ^ width :=
    fun payload hpayload => hpayloads payload (List.mem_of_mem_take hpayload)
  have hid := recordArray_named info lengthType
  refine ⟨fun k hadmits => ?_, fun buffer hstart hcut hadmits => ?_⟩
  · exact decode_chunks hid rfl rfl hdepth hadmits.rounds
      (Setting.decodesChunks_records hlength (htake k)) rfl
  -- The buffer holds some whole records and a part of the next one.
  · obtain ⟨k, rest, hbuffer, hrest⟩ := exists_take_of_prefix hstart
    rcases hrest with rfl | ⟨payload, hpayload, hpart, hpartial⟩
    · rw [List.append_nil] at hbuffer
      exact absurd hbuffer (hcut k)
    have hk : (payloads.take k).length = k :=
      List.length_take_of_le (Nat.le_of_lt (List.getElem?_eq_some_iff.1 hpayload).1)
    have hnonempty : rest ≠ [] := by
      rintro rfl
      rw [List.append_nil] at hbuffer
      exact hcut k hbuffer
    refine ⟨k, payload, rest, hpayload, hbuffer, hpart, hnonempty, hpartial, ?_⟩
    refine decode_chunks_stops hid rfl rfl hdepth hadmits.rounds
      (Setting.decodesChunks_records hlength (htake k)) hbuffer hnonempty ?_
    intro cursor p hleft hp
    rw [hk] at hp ⊢
    exact Setting.record_stopsAt hlength (hpayloads payload (List.mem_of_getElem? hpayload)) hpart
      hpartial hleft hp hadmits.words

/-- The four widths, in the byte order of the schema. -/
example : ∀ entry ∈ [("u1", 1), ("u2", 2), ("u4", 4), ("u8", 8)],
    Primitive.ofName? entry.1 = some (.integer entry.2 false none) := by
  decide

/-- Three records, of which the second is empty, and the lengths in two bytes. -/
theorem readsRecords_recordArray_three :
    Primitive.ofName? "u2" = some (.integer 2 false none) ∧
      (∀ payload ∈ ([[7], [], [8, 9]] : List (List UInt8)), payload.length < 256 ^ 2) ∧
      [[7], [], [8, 9]].flatMap (recordBytes .little 2) = [1, 0, 7, 0, 0, 2, 0, 8, 9] ∧
      ({} : Options).Admit [1, 0, 7, 0, 0, 2, 0, 8, 9] ∧
      (recordArray { endian := some .little } "u2").ReadsRecords {} .little 2
        [[7], [], [8, 9]] := by
  have hlength : Primitive.ofName? "u2" = some (.integer 2 false none) := by decide
  have hpayloads :
      ∀ payload ∈ ([[7], [], [8, 9]] : List (List UInt8)), payload.length < 256 ^ 2 := by
    decide
  exact ⟨hlength, hpayloads, by decide, ⟨by decide, by decide +kernel⟩,
    readsRecords_recordArray hlength (by decide) hpayloads⟩

end Schema

end ByteSchema
