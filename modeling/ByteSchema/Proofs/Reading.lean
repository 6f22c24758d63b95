import ByteSchema.Proofs.Decoder

/-!
# ByteSchema.Proofs.Reading

What reading a primitive value can do. A read that succeeds has checked its bounds first, so all
primitives share one description, `IsLeaf`: a node without children whose range starts at the offset
of the read and lies in the buffer. Reading never touches the table of values.
-/

namespace ByteSchema

/-- Is the value that of an instance or of an array? -/
def Value.isComposite : Value → Bool
  | .record _ => true
  | .tuple _ => true
  | _ => false

/-- Without an error there is a result, and the computation went on with it. -/
theorem bind_eq_ok {ε α β : Type} {x : Except ε α} {f : α → Except ε β} {b : β}
    (h : (x >>= f) = .ok b) : ∃ a, x = .ok a ∧ f a = .ok b := by
  cases x with
  | error e => cases h
  | ok a => exact ⟨a, rfl, h⟩

/-- What holds of each single result holds of all of them. -/
theorem forall_of_mapM {ε α β : Type} {f : α → Except ε β} {P : β → Prop} {items : List α}
    {results : List β} (h : items.mapM f = .ok results)
    (hf : ∀ {a b}, a ∈ items → f a = .ok b → P b) : ∀ b ∈ results, P b := by
  induction items generalizing results with
  | nil =>
      cases h
      simp
  | cons a rest ih =>
      rw [List.mapM_cons] at h
      obtain ⟨b, hb, h⟩ := bind_eq_ok h
      obtain ⟨bs, hbs, h⟩ := bind_eq_ok h
      cases h
      exact List.forall_mem_cons.2
        ⟨hf List.mem_cons_self hb, ih hbs fun ha => hf (List.mem_cons_of_mem a ha)⟩

namespace Buffer

variable {b : Buffer} {offset : Int}

/-- A range that starts at `offset`, has the length `n` and lies in the buffer. -/
def Holds (b : Buffer) (offset n : Int) : Prop :=
  0 ≤ offset ∧ 0 ≤ n ∧ offset + n ≤ (b.length : Int)

theorem holds_of_read {n : Int} {bytes : List UInt8} (h : b.read offset n = .ok bytes) :
    b.Holds offset n :=
  (read_eq_ok_iff.1 h).1

/-- A size counts all bytes, also those behind a terminator. -/
theorem holds_of_readSized {size n : Int} {t : Option UInt8} {keep : Bool} {bytes : List UInt8}
    (h : b.readSized offset size t keep = .ok (bytes, n)) : b.Holds offset n := by
  obtain ⟨raw, hread, h⟩ := bind_eq_ok h
  have hn : n = size := by cases t <;> cases h <;> rfl
  exact hn ▸ holds_of_read hread

theorem holds_of_readRest {n : Int} {bytes : List UInt8}
    (h : b.readRest offset = .ok (bytes, n)) : b.Holds offset n := by
  obtain ⟨_, hread, h⟩ := bind_eq_ok h
  obtain ⟨h0, -, hle⟩ := holds_of_read hread
  cases h
  exact ⟨h0, by omega, by omega⟩

/-- The terminator counts as read when it is skipped. -/
theorem holds_of_readTerminated {n : Int} {t : UInt8} {keep skip : Bool} {bytes : List UInt8}
    (h : b.readTerminated offset t keep skip = .ok (bytes, n)) : b.Holds offset n := by
  obtain ⟨_, hread, h⟩ := bind_eq_ok h
  obtain ⟨h0, -, hle⟩ := holds_of_read hread
  dsimp only at h
  split at h
  case isFalse => cases h
  case isTrue hlt =>
      cases h
      rw [List.length_drop] at hlt
      refine ⟨h0, ?_, ?_⟩ <;> split <;> omega

end Buffer

namespace Encoding

/-- Text is a text, and what hexadecimal digits write is bytes. -/
theorem value_of_decode {e : Encoding} {bytes : List UInt8} {r : Value × Option Cause}
    (h : e.decode bytes = .ok r) : (∃ bs, r.1 = .bytes bs) ∨ ∃ text, r.1 = .str text := by
  unfold decode at h
  split at h
  case h_1 =>
      cases hu : unhex bytes with
      | error e => rw [hu] at h; cases h
      | ok bs => rw [hu] at h; cases h; exact .inl ⟨bs, rfl⟩
  case h_2 => split at h <;> cases h <;> exact .inr ⟨_, rfl⟩

/-- What an encoding of the host reads is no different. -/
theorem value_of_host {h : HostEncoding} {bytes : List UInt8} {r : Value × Option Cause}
    (hdecode : h.decode bytes = .ok r) : (∃ bs, r.1 = .bytes bs) ∨ ∃ text, r.1 = .str text := by
  have datum (d : HostDatum) : (∃ bs, d.toValue = .bytes bs) ∨ ∃ text, d.toValue = .str text := by
    cases d with
    | text s => exact .inr ⟨s, rfl⟩
    | bytes bs => exact .inl ⟨bs, rfl⟩
  unfold HostEncoding.decode at hdecode
  split at hdecode
  case h_1 d _ => cases hdecode; exact datum d
  case h_2 => cases hdecode
  case h_3 =>
      split at hdecode
      case h_1 d _ => cases hdecode; exact datum d
      case h_2 => cases hdecode

/-- An encoding gives text or bytes, whoever knows it. -/
theorem value_of_decodeFound {hosts : HostEncodings} {name : String} {bytes : List UInt8}
    {r : Value × Option Cause} (h : decodeFound hosts name bytes = .ok r) :
    (∃ bs, r.1 = .bytes bs) ∨ ∃ text, r.1 = .str text := by
  unfold decodeFound at h
  split at h
  case h_1 => exact value_of_decode h
  split at h
  case h_1 => exact value_of_host h
  case h_2 => cases h; exact .inr ⟨_, rfl⟩

theorem value_of_decodeNamed {hosts : HostEncodings} {name : Option String} {bytes : List UInt8}
    {r : Value × Option Cause} (h : decodeNamed hosts name bytes = .ok r) :
    (∃ bs, r.1 = .bytes bs) ∨ ∃ text, r.1 = .str text := by
  unfold decodeNamed at h
  split at h
  case h_1 => cases h
  split at h
  case h_1 => cases h
  split at h
  case isTrue => cases h
  case isFalse => exact value_of_decodeFound h

theorem isComposite_of_decodeNamed {hosts : HostEncodings} {name : Option String}
    {bytes : List UInt8} {r : Value × Option Cause} (h : decodeNamed hosts name bytes = .ok r) :
    r.1.isComposite = false := by
  rcases value_of_decodeNamed h with ⟨bs, hr⟩ | ⟨text, hr⟩ <;> rw [hr] <;> rfl

end Encoding

namespace Setting

variable {s : Setting} {ctx : Context} {f : Field} {name : String} {p p' : Progress} {o : Outcome}

/-- The raw bytes of a field lie in the buffer from the offset on. -/
theorem readSpan_inv {what : String} {implied : Option UInt8} {r : List UInt8 × Int}
    (h : (s.readSpan ctx f what implied).Yields p r p') :
    s.buffer.Holds ctx.offset r.2 ∧ p' = p := by
  unfold readSpan at h
  dsimp only at h
  split at h
  · simp only [Decoder.yields_bind, yields_requireInt, Decoder.yields_check] at h
    obtain ⟨size, _, ⟨-, rfl⟩, hread, rfl⟩ := h
    exact ⟨Buffer.holds_of_readSized hread, rfl⟩
  split at h
  · simp only [Decoder.yields_check] at h
    exact ⟨Buffer.holds_of_readRest h.1, h.2⟩
  split at h
  · simp only [Decoder.yields_check] at h
    exact ⟨Buffer.holds_of_readTerminated h.1, h.2⟩
  · exact absurd h Decoder.not_yields_fail

/-! ## Leaves -/

/-- What a primitive read at `ctx` gives under a name: a node without children, read in the buffer
from the offset of `ctx` on. -/
structure IsLeaf (s : Setting) (ctx : Context) (name : String) (o : Outcome) : Prop where
  id_eq : o.node.id = ctx.childId name
  name_eq : o.node.name = name
  start_eq : o.node.range.start = ctx.offset
  next_eq : o.next = o.node.range.stop
  holds : s.buffer.Holds o.node.range.start o.node.range.length
  children_eq : o.node.children = []
  scalar : o.node.value.isComposite = false

theorem isLeaf_leaf {label : String} {length : Int} {endian : Option Endian} {value : Value}
    {attributes : Fields} {problems : List Diagnostic} (h : s.buffer.Holds ctx.offset length)
    (hv : value.isComposite = false) :
    s.IsLeaf ctx name (leaf ctx name label length endian value attributes problems) :=
  ⟨rfl, rfl, rfl, rfl, h, rfl, hv⟩

theorem readInteger_inv {label : String} {width : Nat} {signed : Bool} {endian : Option Endian}
    (h : (s.readInteger ctx f name label width signed endian).Yields p o p') :
    s.IsLeaf ctx name o ∧ p' = p := by
  simp only [readInteger, Decoder.yields_bind, Decoder.yields_check, Decoder.yields_pure] at h
  obtain ⟨bytes, _, ⟨hread, rfl⟩, rfl, rfl⟩ := h
  exact ⟨isLeaf_leaf (Buffer.holds_of_read hread) rfl, rfl⟩

theorem readFloat_inv {label : String} {width : Nat} {endian : Option Endian}
    (h : (s.readFloat ctx f name label width endian).Yields p o p') :
    s.IsLeaf ctx name o ∧ p' = p := by
  simp only [readFloat, Decoder.yields_bind, Decoder.yields_check, Decoder.yields_pure] at h
  obtain ⟨bytes, _, ⟨hread, rfl⟩, rfl, rfl⟩ := h
  exact ⟨isLeaf_leaf (Buffer.holds_of_read hread) rfl, rfl⟩

theorem readBytes_inv (h : (s.readBytes ctx f name).Yields p o p') :
    s.IsLeaf ctx name o ∧ p' = p := by
  simp only [readBytes, Decoder.yields_bind, Decoder.yields_pure] at h
  obtain ⟨r, _, hspan, rfl, rfl⟩ := h
  obtain ⟨hholds, rfl⟩ := readSpan_inv hspan
  exact ⟨isLeaf_leaf hholds rfl, rfl⟩

/-- Text may come with warnings. -/
theorem readText_inv {terminated : Bool} (h : (s.readText ctx f name terminated).Yields p o p') :
    s.IsLeaf ctx name o ∧ p'.values = p.values := by
  simp only [readText, Decoder.yields_bind, Decoder.yields_orEscape, Decoder.yields_pure,
    Decoder.yields_forIn_warn] at h
  obtain ⟨span, _, hspan, text, _, ⟨htext, rfl⟩, _, _, rfl, rfl, rfl⟩ := h
  obtain ⟨hholds, rfl⟩ := readSpan_inv hspan
  exact ⟨isLeaf_leaf hholds (Encoding.isComposite_of_decodeNamed htext), rfl⟩

end Setting

end ByteSchema
