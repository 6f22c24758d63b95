import ByteSchema.Proofs.Causes
import ByteSchema.Proofs.RoundTrip

/-!
# ByteSchema.Proofs.Span

Where a span of raw bytes ends.

A field says so in one of three ways: by its size, by the end of the buffer, or by a terminator, and
the first of them counts. A terminator also cuts a span that has a size, but then it does not say how
many bytes are consumed. The rules (`Setting.ReadsSpan`) are said in terms of the buffer and of the
place of the first terminator in it; each comes with the exact condition under which there are too
few bytes, and then the read fails with an error of bounds (`Decoder.RunsOut`).

The words of that error have the numbers in them. One that is too long to be written escapes in place
of the error (`Setting.readSpan_overlong`).
-/

namespace ByteSchema

/-- The terminator of a field: its own, or else the one that is implied. -/
def Field.terminatorOr (f : Field) (implied : Option UInt8) : Option UInt8 :=
  (f.terminator.map Terminator.toByte).or implied

/-- The values of the field end at the terminator `t`, which may be implied, and the next one starts
behind it. -/
structure Field.EndsAt (f : Field) (implied : Option UInt8) (t : UInt8) : Prop where
  unsized : f.size = .null
  bounded : f.sizeToEnd = false
  terminator : f.terminatorOr implied = some t
  skips : f.skipTerminator = true

/-- A value of the field is its raw bytes. -/
inductive Field.IsRaw (f : Field) : Prop
  | untyped (type_eq : f.type = .untyped)
  | bytes {typeName : String} (type_eq : f.type = .named typeName)
      (primitive : Primitive.ofName? typeName = some .bytes)

/-- What is left of some bytes when they are cut at the first terminator, which is kept if `keep` says
so. -/
inductive CutsAt (terminator : Option UInt8) (keep : Bool) : List UInt8 → List UInt8 → Prop
  | whole {bytes : List UInt8} (uncut : ∀ t, terminator = some t → t ∉ bytes) :
      CutsAt terminator keep bytes bytes
  | first {t : UInt8} {front behind : List UInt8} (cuts : terminator = some t) (first : t ∉ front) :
      CutsAt terminator keep (front ++ t :: behind) (if keep then front ++ [t] else front)

/-! ## Too few bytes -/

/-- The computation fails by a cause of bounds, and no other numbers are in its words. -/
def RunsShort {α : Type} (x : Except Cause α) (numbers : List Int) : Prop :=
  ∃ c, x = .error c ∧ c.kind = .bounds ∧
    (c.hasOverlong = true → ∃ n ∈ numbers, Value.isOverlong n = true)

/-- The step fails with an error of bounds, or if one of the numbers is too long for its words, it may
escape. -/
def Decoder.RunsOut {α : Type} (m : Decoder α) (p : Progress) (numbers : List Int) : Prop :=
  (∃ e, e.cause.kind = .bounds ∧ m.Fails p (.error e)) ∨
    m.Fails p (.escape .longInteger) ∧ ∃ n ∈ numbers, Value.isOverlong n = true

/-- The step fails with an error of bounds at the path. -/
def Decoder.StopsAt {α : Type} (m : Decoder α) (p : Progress) (path : String) : Prop :=
  ∃ c : Cause, c.kind = .bounds ∧ m.Fails p (.error ⟨c, some path⟩)

theorem RunsShort.bind {α β : Type} {x : Except Cause α} {numbers : List Int}
    (h : RunsShort x numbers) (f : α → Except Cause β) : RunsShort (x >>= f) numbers := by
  obtain ⟨c, rfl, hc⟩ := h
  exact ⟨c, rfl, hc⟩

theorem RunsShort.check {α : Type} {x : Except Cause α} {numbers : List Int}
    (h : RunsShort x numbers) (p : Progress) : (Decoder.check x).RunsOut p numbers := by
  obtain ⟨c, rfl, hkind, hlong⟩ := h
  have hfails : (Decoder.check (.error c) : Decoder α).Fails p (.ofCause c) := rfl
  unfold Failure.ofCause at hfails
  split at hfails
  case isTrue hc => exact .inr ⟨hfails, hlong hc⟩
  case isFalse => exact .inl ⟨⟨c, none⟩, hkind, hfails⟩

/-- With numbers that can be worded there is an error of bounds, and it names no path yet. -/
theorem RunsShort.check_fails {α : Type} {x : Except Cause α} {numbers : List Int}
    (h : RunsShort x numbers) (hwords : ∀ n ∈ numbers, Value.isOverlong n = false) :
    ∃ c : Cause, c.kind = .bounds ∧ ∀ p, (Decoder.check x).Fails p (.error ⟨c, none⟩) := by
  obtain ⟨c, rfl, hkind, hlong⟩ := h
  refine ⟨c, hkind, fun p => ?_⟩
  have hfails : (Decoder.check (.error c) : Decoder α).Fails p (.ofCause c) := rfl
  have hshort : ¬ c.hasOverlong = true := by
    intro hc
    obtain ⟨n, hn, hlong⟩ := hlong hc
    rw [hwords n hn] at hlong
    cases hlong
  rwa [Failure.ofCause, if_neg hshort] at hfails

/-- Such a step fails at its path when it begins with what runs short. -/
theorem RunsShort.stopsAt {α β : Type} {x : Except Cause α} {numbers : List Int}
    (h : RunsShort x numbers) (hwords : ∀ n ∈ numbers, Value.isOverlong n = false)
    {f : α → Decoder β} {p : Progress} {path : String} :
    (Decoder.located path (Decoder.check x >>= f)).StopsAt p path := by
  obtain ⟨c, hkind, hfails⟩ := h.check_fails hwords
  exact ⟨c, hkind, ((hfails p).bind_left _).located _⟩

/-- What is behind a step that succeeds runs out where the step leaves it. -/
theorem Decoder.RunsOut.behind {α β : Type} {m : Decoder α} {f : α → Decoder β} {a : α}
    {p p' : Progress} {numbers : List Int} (hm : m.Yields p a p') (h : (f a).RunsOut p' numbers) :
    (m >>= f).RunsOut p numbers := by
  rcases h with ⟨e, hkind, hfails⟩ | ⟨hfails, hlong⟩
  · exact .inl ⟨e, hkind, hm.bind_fails hfails⟩
  · exact .inr ⟨hm.bind_fails hfails, hlong⟩

namespace Buffer

variable {b : Buffer} {offset : Int}

/-- Bytes that are not all in the buffer cannot be read. -/
theorem read_runsShort {length : Int}
    (h : length < 0 ∨ offset < 0 ∨ (b.length : Int) < offset + length) :
    RunsShort (b.read offset length) [offset, length] := by
  unfold read boundsFault?
  by_cases hoffset : offset < 0
  · rw [if_pos hoffset]
    exact ⟨.negativeOffset offset, rfl, rfl, fun hc => ⟨offset, List.mem_cons_self, hc⟩⟩
  by_cases hlength : length < 0
  · rw [if_neg hoffset, if_pos hlength]
    refine ⟨.negativeSize length offset, rfl, rfl, fun hc => ?_⟩
    simp only [Cause.hasOverlong, Bool.or_eq_true] at hc
    rcases hc with hc | hc
    · exact ⟨length, by simp, hc⟩
    · exact ⟨offset, by simp, hc⟩
  · rw [if_neg hoffset, if_neg hlength, if_pos (by omega)]
    refine ⟨.pastEnd offset length (max 0 (b.length - offset)), rfl, rfl, fun hc => ?_⟩
    simp only [Cause.hasOverlong, Bool.or_eq_true] at hc
    rcases hc with (hc | hc) | havailable
    · exact ⟨offset, by simp, hc⟩
    · exact ⟨length, by simp, hc⟩
    -- Fewer bytes are left than are asked for.
    · refine ⟨length, by simp, ?_⟩
      have hle : (max 0 (b.length - offset)).toNat ≤ length.toNat := by omega
      have hmono := Value.isOverlong_mono hle
      rw [Int.toNat_of_nonneg (by omega), Int.toNat_of_nonneg (by omega)] at hmono
      exact hmono havailable

/-- At an offset that is not in the buffer nothing is read. -/
theorem read_runsShort_zero (h : offset < 0 ∨ (b.length : Int) < offset) :
    RunsShort (b.read offset 0) [offset] := by
  obtain ⟨c, hread, hkind, hlong⟩ : RunsShort (b.read offset 0) [offset, 0] :=
    read_runsShort (by omega)
  refine ⟨c, hread, hkind, fun hc => ?_⟩
  obtain ⟨n, hn, hn'⟩ := hlong hc
  rcases List.mem_cons.1 hn with rfl | hn
  · exact ⟨n, List.mem_singleton_self n, hn'⟩
  · obtain rfl := List.mem_singleton.1 hn
    exact absurd (Value.pos_of_isOverlong (n := 0) hn') (Nat.lt_irrefl 0)

theorem takeWhile_of_not_mem {t : UInt8} {bytes : List UInt8} (h : t ∉ bytes) :
    bytes.takeWhile (· != t) = bytes :=
  List.takeWhile_eq_self_iff.2 fun c hc => by
    have hne : c ≠ t := fun heq => h (heq ▸ hc)
    simpa using hne

theorem takeWhile_first {t : UInt8} {front behind : List UInt8} (h : t ∉ front) :
    (front ++ t :: behind).takeWhile (· != t) = front := by
  refine takeWhile_append_cons (fun c hc => ?_) (by simp)
  have hne : c ≠ t := fun heq => h (heq ▸ hc)
  simpa using hne

theorem cutsAt_cutAt {t : UInt8} {keep : Bool} {bytes : List UInt8} :
    CutsAt (some t) keep bytes (cutAt t keep bytes) := by
  unfold cutAt
  by_cases ht : t ∈ bytes
  · obtain ⟨front, behind, rfl, hfirst⟩ := List.eq_append_cons_of_mem ht
    rw [takeWhile_first hfirst]
    have hshorter : front.length < (front ++ t :: behind).length := by simp
    simp only [hshorter, decide_true, Bool.and_true]
    exact .first rfl hfirst
  · rw [takeWhile_of_not_mem ht]
    simp only [Nat.lt_irrefl, decide_false, Bool.and_false, Bool.false_eq_true, if_false]
    refine .whole fun u hu => ?_
    cases hu
    exact ht

/-- Bytes that are in the buffer are read, and cut. -/
theorem readSized_of_holds {size : Int} {terminator : Option UInt8} {keep : Bool}
    (h : b.Holds offset size) :
    ∃ data, b.readSized offset size terminator keep = .ok (data, size) ∧
      CutsAt terminator keep ((b.drop offset.toNat).take size.toNat) data := by
  have hread : b.read offset size = .ok (b.slice offset.toNat size.toNat) :=
    read_eq_ok_iff.2 ⟨h, rfl⟩
  unfold readSized
  rw [hread]
  cases terminator with
  | none => exact ⟨_, rfl, .whole nofun⟩
  | some t => exact ⟨_, rfl, cutsAt_cutAt⟩

theorem readRest_of_le (h₀ : 0 ≤ offset) (h : offset ≤ (b.length : Int)) :
    b.readRest offset = .ok (b.drop offset.toNat, b.length - offset) := by
  have hread : b.read offset 0 = .ok (b.slice offset.toNat 0) :=
    read_eq_ok_iff.2 ⟨⟨h₀, Int.le_refl 0, by omega⟩, rfl⟩
  have hmax : max 0 ((b.length : Int) - offset) = b.length - offset := by omega
  unfold readRest
  rw [hread, hmax]
  rfl

/-- What is in front of the first terminator is read. -/
theorem readTerminated_of_first {t : UInt8} {keep skip : Bool} {front behind : List UInt8}
    (h₀ : 0 ≤ offset) (h : b.drop offset.toNat = front ++ t :: behind) (hfirst : t ∉ front) :
    b.readTerminated offset t keep skip =
      .ok (if keep then front ++ [t] else front, front.length + if skip then 1 else 0) := by
  have hinside : offset.toNat < b.length := by
    have hlength := congrArg List.length h
    rw [List.length_drop, List.length_append, List.length_cons] at hlength
    omega
  have hread : b.read offset 0 = .ok (b.slice offset.toNat 0) :=
    read_eq_ok_iff.2 ⟨⟨h₀, Int.le_refl 0, by omega⟩, rfl⟩
  unfold readTerminated
  rw [hread, h]
  show (if _ then _ else _) = _
  rw [takeWhile_first hfirst, if_pos (by simp)]
  rfl

/-- A terminator may be kept and still be read again. -/
example : readTerminated [9, 65, 66, 0, 67] 1 0 true false = .ok ([65, 66, 0], 2) := rfl

/-- Without a terminator there is no end. -/
theorem readTerminated_runsShort {t : UInt8} {keep skip : Bool}
    (h : offset < 0 ∨ (b.length : Int) < offset ∨ t ∉ b.drop offset.toNat) :
    RunsShort (b.readTerminated offset t keep skip) [offset] := by
  by_cases hinside : offset < 0 ∨ (b.length : Int) < offset
  · exact (read_runsShort_zero hinside).bind _
  · have ht : t ∉ b.drop offset.toNat := by
      rcases h with h | h | h
      · exact absurd (.inl h) hinside
      · exact absurd (.inr h) hinside
      · exact h
    have hread : b.read offset 0 = .ok (b.slice offset.toNat 0) :=
      read_eq_ok_iff.2 ⟨⟨by omega, Int.le_refl 0, by omega⟩, rfl⟩
    unfold readTerminated
    rw [hread]
    show RunsShort (if _ then _ else _) _
    rw [takeWhile_of_not_mem ht, if_neg (Nat.lt_irrefl _)]
    exact ⟨_, rfl, rfl, fun hc => ⟨offset, List.mem_singleton_self offset, hc⟩⟩

end Buffer

/-! ## The three ways -/

namespace Setting

variable {s : Setting} {ctx : Context} {f : Field} {what : String} {implied : Option UInt8}
  {p : Progress}

theorem readSpan_sized (h : f.size.isNull = false) :
    s.readSpan ctx f what implied = (do
      let size ← s.requireInt ctx.toPlace "size" f.size (ctx.childId f.id)
      Decoder.check
        (s.buffer.readSized ctx.offset size (f.terminatorOr implied) f.keepTerminator)) := by
  unfold readSpan
  rw [h]
  rfl

theorem readSpan_toEnd (h : f.size.isNull = true) (hend : f.sizeToEnd = true) :
    s.readSpan ctx f what implied = Decoder.check (s.buffer.readRest ctx.offset) := by
  unfold readSpan
  rw [h, hend]
  rfl

theorem readSpan_terminated {t : UInt8} (h : f.size.isNull = true) (hend : f.sizeToEnd = false)
    (ht : f.terminatorOr implied = some t) :
    s.readSpan ctx f what implied = Decoder.check
      (s.buffer.readTerminated ctx.offset t f.keepTerminator f.skipTerminator) := by
  have hor : (f.terminator.map Terminator.toByte).or implied = some t := ht
  unfold readSpan
  simp only [h, hend, hor]
  rfl

theorem readSpan_endsAt {t : UInt8} (hf : f.EndsAt implied t) :
    s.readSpan ctx f what implied = Decoder.check
      (s.buffer.readTerminated ctx.offset t f.keepTerminator true) := by
  rw [readSpan_terminated (by rw [hf.unsized]; rfl) hf.bounded hf.terminator, hf.skips]

/-- What stands in front of the terminator is read, and the terminator is consumed. -/
theorem readSpan_of_first {t : UInt8} {front rest : List UInt8} (hf : f.EndsAt implied t)
    (hfree : t ∉ front) (hleft : s.HasLeft ctx.offset ((front ++ [t]) ++ rest)) :
    s.readSpan ctx f what implied =
      pure (if f.keepTerminator then front ++ [t] else front, ((front ++ [t]).length : Int)) := by
  obtain ⟨h₀, hdrop⟩ := hleft.drop_eq
  rw [List.append_assoc, List.singleton_append] at hdrop
  rw [readSpan_endsAt hf, Buffer.readTerminated_of_first h₀ hdrop hfree]
  simp [Decoder.check]

theorem readSpan_open (h : f.size.isNull = true) (hend : f.sizeToEnd = false)
    (ht : f.terminatorOr implied = none) :
    s.readSpan ctx f what implied = Decoder.fail (.sizeRequired f.id what) := by
  have hor : (f.terminator.map Terminator.toByte).or implied = none := ht
  unfold readSpan
  simp only [h, hend, hor]
  rfl

/-- The rules by which the raw bytes of a field are read, with the number of bytes consumed. -/
structure ReadsSpan (s : Setting) (ctx : Context) (f : Field) (what : String)
    (implied : Option UInt8) (p : Progress) : Prop where
  /-- What is read lies in the buffer, from the offset on, and changes nothing. -/
  within : ∀ data consumed p', (s.readSpan ctx f what implied).Yields p (data, consumed) p' →
    p' = p ∧ s.buffer.Holds ctx.offset consumed
  /-- With a size, as many bytes are consumed, and cut at a terminator that is among them. -/
  sized : f.size.isNull = false → ∀ size,
    (s.view ctx.toPlace p.values).requireInt "size" f.size (some (ctx.childId f.id)) = .ok size →
      (0 ≤ size → 0 ≤ ctx.offset → ctx.offset + size ≤ (s.buffer.length : Int) →
        ∃ data, (s.readSpan ctx f what implied).Yields p (data, size) p ∧
          CutsAt (f.terminatorOr implied) f.keepTerminator
            ((s.buffer.drop ctx.offset.toNat).take size.toNat) data) ∧
      (size < 0 ∨ ctx.offset < 0 ∨ (s.buffer.length : Int) < ctx.offset + size →
        (s.readSpan ctx f what implied).RunsOut p [ctx.offset, size])
  /-- A size without value fails, but not for want of bytes. -/
  unsized : f.size.isNull = false → ∀ e,
    (s.view ctx.toPlace p.values).requireInt "size" f.size (some (ctx.childId f.id)) = .error e →
      (s.readSpan ctx f what implied).Fails p e ∧
        ∀ error, e = .error error → error.cause.kind = .expression
  /-- Else the rest of the buffer may be asked for. -/
  toEnd : f.size.isNull = true → f.sizeToEnd = true →
    (0 ≤ ctx.offset → ctx.offset ≤ (s.buffer.length : Int) →
      (s.readSpan ctx f what implied).Yields p
        (s.buffer.drop ctx.offset.toNat, s.buffer.length - ctx.offset) p) ∧
    (ctx.offset < 0 ∨ (s.buffer.length : Int) < ctx.offset →
      (s.readSpan ctx f what implied).RunsOut p [ctx.offset])
  /-- Else the bytes in front of the first terminator are read. It is kept and consumed as the field
  says, the one without the other. -/
  terminated : f.size.isNull = true → f.sizeToEnd = false → ∀ t, f.terminatorOr implied = some t →
    (0 ≤ ctx.offset → t ∈ s.buffer.drop ctx.offset.toNat →
      ∃ front behind, s.buffer.drop ctx.offset.toNat = front ++ t :: behind ∧ t ∉ front ∧
        (s.readSpan ctx f what implied).Yields p
          (if f.keepTerminator then front ++ [t] else front,
            front.length + if f.skipTerminator then 1 else 0) p) ∧
    (ctx.offset < 0 ∨ (s.buffer.length : Int) < ctx.offset ∨ t ∉ s.buffer.drop ctx.offset.toNat →
      (s.readSpan ctx f what implied).RunsOut p [ctx.offset])
  /-- And without a terminator there are no bytes to read. -/
  undelimited : f.size.isNull = true → f.sizeToEnd = false → f.terminatorOr implied = none →
    (s.readSpan ctx f what implied).Fails p (.error ⟨.sizeRequired f.id what, none⟩)

/-- **Spans.** Raw bytes are read by these rules, whatever the buffer, the field and the place. -/
theorem readSpan_rules (s : Setting) (ctx : Context) (f : Field) (what : String)
    (implied : Option UInt8) (p : Progress) : s.ReadsSpan ctx f what implied p where
  within data consumed p' h := (readSpan_inv h).symm
  -- The size is asked for first; then the bytes are there or they are not.
  sized h size hsize := by
    have hrequired : (s.requireInt ctx.toPlace "size" f.size (ctx.childId f.id)).Yields p size p :=
      yields_requireInt.2 ⟨hsize, rfl⟩
    rw [readSpan_sized h]
    refine ⟨fun hnonneg hoffset hend => ?_, fun hshort => ?_⟩
    · obtain ⟨data, hread, hcut⟩ := Buffer.readSized_of_holds ⟨hoffset, hnonneg, hend⟩
      exact ⟨data, Decoder.yields_bind.2 ⟨size, p, hrequired, Decoder.yields_check.2 ⟨hread, rfl⟩⟩,
        hcut⟩
    · exact .behind hrequired (((Buffer.read_runsShort hshort).bind _).check p)
  unsized h e he := by
    have hfails : (s.requireInt ctx.toPlace "size" f.size (ctx.childId f.id)).Fails p e := by
      refine Decoder.Yields.bind_fails (Decoder.yields_get.2 ⟨rfl, rfl⟩) ?_
      rw [he]
      rfl
    rw [readSpan_sized h]
    refine ⟨hfails.bind_left _, fun error herror => ?_⟩
    subst herror
    exact View.requireInt_kind error he
  toEnd h hend := by
    rw [readSpan_toEnd h hend]
    refine ⟨fun hoffset hle => ?_, fun hshort => ?_⟩
    · exact Decoder.yields_check.2 ⟨Buffer.readRest_of_le hoffset hle, rfl⟩
    · exact ((Buffer.read_runsShort_zero hshort).bind _).check p
  terminated h hend t ht := by
    rw [readSpan_terminated h hend ht]
    refine ⟨fun hoffset hmem => ?_, fun hshort => ?_⟩
    · obtain ⟨front, behind, hdrop, hfirst⟩ := List.eq_append_cons_of_mem hmem
      exact ⟨front, behind, hdrop, hfirst, Decoder.yields_check.2
        ⟨Buffer.readTerminated_of_first hoffset hdrop hfirst, rfl⟩⟩
    · exact (Buffer.readTerminated_runsShort hshort).check p
  undelimited h hend ht := by
    rw [readSpan_open h hend ht]
    rfl

/-! ## Values made of a span -/

theorem decodeSingle_of_isRaw {custom : CustomDecoder} {name : String} (hf : f.IsRaw) :
    s.decodeSingle custom ctx f name = Decoder.located (ctx.childId name) (s.readBytes ctx f name) := by
  unfold decodeSingle
  cases hf with
  | untyped type_eq => rw [type_eq]
  | bytes type_eq primitive => simp only [type_eq, decodeNamed, primitive]

theorem decodeSingle_of_text {custom : CustomDecoder} {name typeName : String} {terminated : Bool}
    (htype : f.type = .named typeName) (h : Primitive.ofName? typeName = some (.text terminated)) :
    s.decodeSingle custom ctx f name =
      Decoder.located (ctx.childId name) (s.readText ctx f name terminated) := by
  simp only [decodeSingle, htype, decodeNamed, h]

/-- The value of a field of raw bytes is its span. -/
theorem readBytes_of_span {name : String} {span : List UInt8 × Int}
    (h : ∀ what, s.readSpan ctx f what none = pure span) :
    s.readBytes ctx f name =
      pure (leaf ctx name "bytes" span.2 none (.bytes span.1) f.remarks) := by
  unfold readBytes
  dsimp only
  rw [h, pure_bind]

end Setting

/-- A field of `size` bytes. -/
def Field.sized (size : Nat) : Field := { id := "a", size := .int size }

/-- Where the buffer has no bytes, a size that is too long for the words of an error escapes. -/
theorem Setting.readSpan_escapes {s : Setting} {size : Nat} {what : String} {p : Progress}
    (hbuffer : s.buffer = []) (h : Value.isOverlong size = true) :
    (s.readSpan {} (.sized size) what none).Fails p (.escape .longInteger) := by
  have hpos : 0 < size := Value.pos_of_isOverlong h
  have hread : Buffer.read [] 0 size = .error (.pastEnd 0 size 0) := by
    unfold Buffer.read Buffer.boundsFault?
    rw [if_neg (by decide), if_neg (by omega), if_pos (by simpa using hpos)]
    rfl
  have hcheck : (Decoder.check (s.buffer.readSized 0 size none false)).Fails p
      (.ofCause (.pastEnd 0 size 0)) := by
    unfold Buffer.readSized
    rw [hbuffer, hread]
    rfl
  have hlong : (Cause.pastEnd 0 size 0).hasOverlong = true := by simp [Cause.hasOverlong, h]
  have hsize : (s.requireInt ({} : Context).toPlace "size" (Field.sized size).size
      (({} : Context).childId "a")).Yields p size p := yields_requireInt.2 ⟨rfl, rfl⟩
  rw [Failure.ofCause, if_pos hlong] at hcheck
  rw [readSpan_sized rfl]
  exact hsize.bind_fails hcheck

/-- A size has a value and the buffer has fewer bytes, and yet there is no error of bounds, nor any
other one. -/
theorem Setting.readSpan_overlong :
    ∃ size : Nat, Value.isOverlong size = true ∧
      (((Schema.span size).setting {} []).view {} .empty).requireInt "size" (Field.sized size).size
        (some "a") = .ok size ∧
      (([] : Buffer).length : Int) < 0 + size ∧
      (((Schema.span size).setting {} []).readSpan {} (.sized size) "untyped data" none).Fails {}
        (.escape .longInteger) ∧
      ∀ e, ¬ (((Schema.span size).setting {} []).readSpan {} (.sized size) "untyped data" none).Fails
        {} (.error e) := by
  have hlong := Value.isOverlong_pow
  generalize Nat.pow 10 Value.maxDecimalDigits = size at hlong
  have hfails : (((Schema.span size).setting {} []).readSpan {} (.sized size) "untyped data"
      none).Fails {} (.escape .longInteger) := readSpan_escapes rfl hlong
  have hpos : 0 < size := Value.pos_of_isOverlong hlong
  refine ⟨size, hlong, rfl, ?_, hfails, fun e he => ?_⟩
  · simpa using hpos
  · cases hfails.symm.trans he

end ByteSchema
