import ByteSchema.Proofs.Repetition
import ByteSchema.Proofs.RoundTrip

/-!
# ByteSchema.Proofs.Replay

Repetitions of different kinds that decode the same elements.

The kinds of repetition share one loop and one way to decode an element; they differ in the questions
that end the loop, and in the kind that is noted at the node of the array.

* To repeat up to the end of the buffer is to repeat until `_io.eof` (`repeatsAs_untilEnd`). One
  asks for the end before an element, the other one behind it, and between the two stands the
  question whether the element leads on. It does not matter which comes first: an element that leads
  no further ends before the end of the buffer, for that is where it starts.
* A repetition that has come to its end is decoded again by the number of its elements
  (`decodeField_counted`), whatever ended it.
-/

namespace ByteSchema

/-- The field, repeated in this way. -/
def Field.repeatedBy (f : Field) (r : Repetition) : Field := { f with repetition := some r }

/-- Elements until one ends at the end of the buffer, or behind it. -/
def Repetition.untilEnd : Repetition := .untilTrue (.str "_io.eof")

/-- The outcome with the kind of repetition noted at its node. -/
def Outcome.notedAs (o : Outcome) (r : Repetition) : Outcome :=
  { o with node :=
    { o.node with attributes := Fields.put o.node.attributes "repeat" (.str r.name) } }

/-- A decoder that succeeds with `a` and changes nothing, whatever there is, does no more than that. -/
theorem Decoder.eq_pure {α : Type} {m : Decoder α} {a : α} (h : ∀ p, m.Yields p a p) : m = pure a :=
  funext h

/-! ## Names as expressions -/

/-- An identifier is an expression. -/
theorem Expression.isSentence_name {x : String} (h : IsIdentifier x) : IsSentence x (.name x) := by
  have hnone : Blank [] := by simp [Blank]
  exact ⟨x.toList, [], (List.append_nil _).symm, hnone,
    .additive (.term (.unary (.primary (.name hnone h))))⟩

/-- The value of a name is the number that it stands for. -/
theorem View.evaluate_name {view : View} {x : String} {n : Int} (hx : IsIdentifier x)
    (hshort : Expression.NoLongRun x.toList) (h : view.resolve x = some (.int n)) :
    view.evaluate (.str x) = .ok (some (.int n)) := by
  refine evaluate_sentence (Expression.isSentence_name hx) hshort ?_
  simp only [Expression.Tree.eval, h]
  rfl

theorem View.evaluate_eof (view : View) :
    view.evaluate (.str "_io.eof") =
      .ok (some (.int (if (view.size : Int) ≤ view.place.offset then 1 else 0))) := by
  have hname : IsIdentifier "_io.eof" :=
    ⟨'_', "io.eof".toList, by decide +kernel, by decide +kernel,
      List.all_eq_true.1 (by decide +kernel)⟩
  refine evaluate_name hname (Expression.noLongRun_of_length (by decide +kernel)) ?_
  have hstrip : Text.strip "_io.eof" = "_io.eof" := by decide +kernel
  unfold resolve
  simp only [hstrip]
  rfl

namespace Setting

variable {s : Setting} {custom : CustomDecoder} {depth : Nat} {ctx : Context} {f : Field}
  {r r' : Repetition} {count : Option Int} {p p' : Progress} {o : Outcome}

/-! ## Fields that differ in their repetition -/

theorem decodeNamed_repeatedBy {name typeName : String} :
    s.decodeNamed (s.nested depth) ctx (f.repeatedBy r) name typeName =
      s.decodeNamed (s.nested depth) ctx f name typeName := by
  unfold decodeNamed
  split <;> rfl

/-- An element is decoded in the same way, however its field is repeated. -/
theorem decodeSingle_repeatedBy {name : String} :
    s.decodeSingle (s.nested depth) ctx (f.repeatedBy r) name =
      s.decodeSingle (s.nested depth) ctx f name := by
  have hid : (f.repeatedBy r).id = f.id := rfl
  have htype : (f.repeatedBy r).type = f.type := rfl
  have hbytes : s.readBytes ctx (f.repeatedBy r) name = s.readBytes ctx f name := rfl
  unfold decodeSingle
  simp only [hid, htype, hbytes, decodeNamed_repeatedBy]

theorem decodeElements_repeatedBy {rounds index : Nat} {done : List Node} {cursor : Int} :
    s.decodeElements (s.nested depth) ctx (f.repeatedBy r') r count rounds index done cursor =
      s.decodeElements (s.nested depth) ctx f r count rounds index done cursor := by
  induction rounds generalizing index done cursor with
  | zero => rfl
  | succ rounds ih =>
      have hid : (f.repeatedBy r').id = f.id := rfl
      unfold decodeElements
      simp only [ih, decodeSingle_repeatedBy, hid]

/-- The kind of repetition matters to the loop and to the node of the array only. -/
theorem decodeField_repeatedBy :
    s.decodeField (s.nested depth) ctx (f.repeatedBy r) = (do
      let ctx' ← s.placed ctx f
      s.decodeRepeated (s.nested depth) ctx' f r) := by
  have hrepeated (ctx' : Context) : s.decodeRepeated (s.nested depth) ctx' (f.repeatedBy r) r =
      s.decodeRepeated (s.nested depth) ctx' f r := by
    unfold decodeRepeated
    simp only [decodeElements_repeatedBy]
    rfl
  exact congrArg (s.placed ctx f >>= ·) (funext hrepeated)

theorem notedAs_arrayNode {items : List Node} {stop : Int} :
    Outcome.notedAs ⟨arrayNode ctx f r items stop, stop⟩ r' =
      ⟨arrayNode ctx f r' items stop, stop⟩ := by
  have hput : Fields.put (f.remarks ++ [("repeat", .str r.name)]) "repeat" (.str r'.name) =
      f.remarks ++ [("repeat", .str r'.name)] := by
    unfold Field.remarks
    split <;> rfl
  unfold Outcome.notedAs arrayNode
  rw [hput]

/-! ## Up to the end of the buffer -/

/-- A repetition from `offset` on starts before the end of the buffer, and has rounds enough to come
there. -/
structure ReachesEnd (s : Setting) (offset : Int) : Prop where
  inside : offset < s.buffer.length
  rounds : s.buffer.length - offset < s.options.maxRounds

/-- To ask for the end of the buffer changes nothing. -/
theorem isSatisfied_untilEnd {index : Nat} {v : Value} {cursor : Int} :
    s.isSatisfied .untilEnd ctx index v cursor =
      pure (decide ((s.buffer.length : Int) ≤ cursor)) := by
  refine Decoder.eq_pure fun p => ?_
  simp only [isSatisfied, Repetition.untilEnd, Decoder.yields_bind, yields_evaluate,
    Decoder.yields_pure]
  refine ⟨_, p, ⟨View.evaluate_eof _, rfl⟩, ?_, rfl⟩
  show _ = Number.isTrue (.int (if (s.buffer.length : Int) ≤ cursor then 1 else 0))
  split <;> simp [*]

/-- The loops do the same. They may ask in different orders whether the buffer is at its end and
whether an element leads on, for an element that starts in the buffer and ends behind it does lead
on. -/
theorem decodeElements_untilEnd {rounds index : Nat} {done : List Node} {cursor : Int}
    (hinside : cursor < s.buffer.length) (hrounds : s.buffer.length - cursor < rounds) :
    s.decodeElements custom ctx f .untilEnd none rounds index done cursor =
      s.decodeElements custom ctx f .toEnd none rounds index done cursor := by
  induction rounds generalizing index done cursor with
  | zero => omega
  | succ rounds ih =>
      have hmore : s.isComplete .toEnd none index cursor = false := by
        simpa [isComplete] using hinside
      have hopen : s.isComplete .untilEnd none index cursor = false := rfl
      unfold decodeElements
      rw [hmore, hopen, if_neg Bool.false_ne_true]
      refine congrArg (s.decodeSingle custom (ctx.moveTo cursor) f (elementName f.id index) >>= ·)
        (funext fun o => ?_)
      have hnever : s.isSatisfied .toEnd ctx index o.node.value o.next = pure false := rfl
      rw [isSatisfied_untilEnd, hnever, pure_bind, pure_bind, if_neg Bool.false_ne_true]
      by_cases hend : (s.buffer.length : Int) ≤ o.next
      · -- The element leads on, and the other loop stops in its next round.
        have hmoves : ¬ ((none : Option Int).isNone ∧ o.next ≤ cursor) := by
          simp only [Option.isNone_none, true_and]
          omega
        obtain ⟨left, rfl⟩ : ∃ left, rounds = left + 1 := ⟨rounds - 1, by omega⟩
        have hover : s.isComplete .toEnd none (index + 1) o.next = true := by
          simpa [isComplete] using hend
        rw [if_pos (decide_eq_true hend), if_neg hmoves]
        unfold decodeElements
        rw [if_pos hover]
      · rw [if_neg (by simpa using hend)]
        split
        case isTrue => rfl
        case isFalse hmoves =>
            simp only [Option.isNone_none, true_and] at hmoves
            exact ih (by omega) (by omega)

/-- Repetitions without count that have the same loop differ only in what is noted. -/
theorem decodeRepeated_of_loop (hr : s.repeatCount ctx f r = pure none)
    (hr' : s.repeatCount ctx f r' = pure none)
    (hloop : s.decodeElements custom ctx f r' none s.options.maxRounds 0 [] ctx.offset =
      s.decodeElements custom ctx f r none s.options.maxRounds 0 [] ctx.offset) :
    s.decodeRepeated custom ctx f r' =
      (·.notedAs r') <$> s.decodeRepeated custom ctx f r := by
  unfold decodeRepeated
  rw [hr, hr', pure_bind, pure_bind]
  dsimp only
  rw [hloop, map_bind]
  refine congrArg (_ >>= ·) (funext fun ⟨items, stop⟩ => ?_)
  simp only [map_pure, notedAs_arrayNode]

/-- From `p` on the field does the same, repeated in one way and in the other: it fails alike, or gives
the same elements, values and offsets with the same warnings and entries in the table. Only the kind
of repetition is noted at the node. -/
def RepeatsAs (s : Setting) (depth : Nat) (ctx : Context) (f : Field) (p : Progress)
    (r r' : Repetition) : Prop :=
  (s.decodeField (s.nested depth) ctx (f.repeatedBy r')).run.run p =
    ((·.notedAs r') <$> s.decodeField (s.nested depth) ctx (f.repeatedBy r)).run.run p

/-- Where a field is placed, its repetitions are compared. -/
theorem repeatsAs_of_placed
    (h : ∀ ctx' p', (s.placed ctx f).Yields p ctx' p' →
      s.decodeRepeated (s.nested depth) ctx' f r' =
        (·.notedAs r') <$> s.decodeRepeated (s.nested depth) ctx' f r) :
    s.RepeatsAs depth ctx f p r r' := by
  unfold RepeatsAs
  rw [decodeField_repeatedBy, decodeField_repeatedBy, map_bind, Decoder.run_bind, Decoder.run_bind]
  cases hplaced : (s.placed ctx f).run.run p with
  | mk result p' =>
      cases result with
      | error e => rfl
      | ok ctx' => exact congrArg (fun m : Decoder Outcome => m.run.run p') (h ctx' p' hplaced)

/-- **The end of the buffer as a condition.** Where a field starts before the end of the buffer, it is
repeated up to there and until `_io.eof` alike. -/
theorem repeatsAs_untilEnd
    (h : ∀ ctx' p', (s.placed ctx f).Yields p ctx' p' → s.ReachesEnd ctx'.offset) :
    s.RepeatsAs depth ctx f p .toEnd .untilEnd ∧ s.RepeatsAs depth ctx f p .untilEnd .toEnd := by
  have hloop (ctx' : Context) (hctx : s.ReachesEnd ctx'.offset) :
      s.decodeElements (s.nested depth) ctx' f .untilEnd none s.options.maxRounds 0 [] ctx'.offset =
        s.decodeElements (s.nested depth) ctx' f .toEnd none s.options.maxRounds 0 [] ctx'.offset :=
    decodeElements_untilEnd hctx.inside hctx.rounds
  constructor
  · refine repeatsAs_of_placed fun ctx' p' hplaced => decodeRepeated_of_loop rfl rfl ?_
    exact hloop ctx' (h ctx' p' hplaced)
  · refine repeatsAs_of_placed fun ctx' p' hplaced => decodeRepeated_of_loop rfl rfl ?_
    exact (hloop ctx' (h ctx' p' hplaced)).symm

end Setting

/-- Chunks, each with its length in front. -/
def Field.chunks : Field := { id := "chunks", type := .named "chunk" }

/-- Where chunks are decoded. -/
def Context.chunked : Context where
  chain := [{
    types := [("chunk", {
      seq := [{ id := "size", type := .named "u1" }, { id := "body", size := .str "size" }] })] }]

/-- Nothing is known but a buffer. -/
def Setting.of (buffer : Buffer) : Setting where
  buffer := buffer
  rootId := "root"
  encoding := none
  options := {}

/-- Three chunks, of which the second is empty. -/
theorem Setting.repeatsAs_untilEnd_chunks :
    (∀ ctx' p', ((Setting.of [1, 7, 0, 2, 8, 9]).placed .chunked .chunks).Yields {} ctx' p' →
      (Setting.of [1, 7, 0, 2, 8, 9]).ReachesEnd ctx'.offset) ∧
    ((((Setting.of [1, 7, 0, 2, 8, 9]).decodeField ((Setting.of [1, 7, 0, 2, 8, 9]).nested 1) .chunked
      (Field.chunks.repeatedBy .toEnd)).run.run {}).1.toOption.map fun o =>
        (o.next, o.node.children.length)) = some (6, 3) ∧
    (Setting.of [1, 7, 0, 2, 8, 9]).RepeatsAs 1 .chunked .chunks {} .toEnd .untilEnd ∧
    (Setting.of [1, 7, 0, 2, 8, 9]).RepeatsAs 1 .chunked .chunks {} .untilEnd .toEnd := by
  have hreaches : ∀ ctx' p', ((Setting.of [1, 7, 0, 2, 8, 9]).placed .chunked .chunks).Yields {}
      ctx' p' → (Setting.of [1, 7, 0, 2, 8, 9]).ReachesEnd ctx'.offset := by
    intro ctx' p' hplaced
    obtain ⟨-, -, hctx⟩ := placed_inv hplaced
    rw [hctx rfl]
    exact ⟨by decide, by decide⟩
  exact ⟨hreaches, by decide +kernel, repeatsAs_untilEnd hreaches⟩

namespace Setting

variable {s : Setting} {custom : CustomDecoder} {depth : Nat} {ctx : Context} {f : Field}
  {r : Repetition} {count : Option Int} {p p' : Progress} {o : Outcome}

/-! ## By count -/

/-- A run of the loop is one of its decoder, which needs a round for each element and one more. -/
theorem Elements.yields {rounds index : Nat} {done items : List Node} {cursor stop : Int}
    (h : Elements s custom ctx f r count index cursor p items stop p')
    (hrounds : items.length < rounds) :
    (s.decodeElements custom ctx f r count rounds index done cursor).Yields p
      (done.reverse ++ items, stop) p' := by
  induction h generalizing rounds done with
  | complete reached =>
      obtain ⟨left, rfl⟩ : ∃ left, rounds = left + 1 := ⟨rounds - 1, by omega⟩
      unfold decodeElements
      rw [if_pos reached]
      simp
  | @satisfied index cursor p p₁ o more single holds =>
      obtain ⟨left, rfl⟩ : ∃ left, rounds = left + 1 := ⟨rounds - 1, by omega⟩
      unfold decodeElements
      rw [more, if_neg Bool.false_ne_true]
      refine Decoder.yields_bind.2 ⟨o, p₁, single, Decoder.yields_bind.2 ⟨true, p₁, holds, ?_⟩⟩
      simp
  -- The warning is the only thing that this end leaves behind.
  | @stuck index cursor p p₁ o more single fails idle =>
      obtain ⟨left, rfl⟩ : ∃ left, rounds = left + 1 := ⟨rounds - 1, by omega⟩
      unfold decodeElements
      rw [more, if_neg Bool.false_ne_true]
      refine Decoder.yields_bind.2 ⟨o, p₁, single, Decoder.yields_bind.2 ⟨false, p₁, fails, ?_⟩⟩
      rw [if_neg Bool.false_ne_true, if_pos idle]
      exact Decoder.yields_bind.2 ⟨(), _, Decoder.yields_warn.2 rfl, by simp⟩
  | @next index cursor stop p p₁ p' o items more single fails moves _ ih =>
      obtain ⟨left, rfl⟩ : ∃ left, rounds = left + 1 := ⟨rounds - 1, by omega⟩
      unfold decodeElements
      rw [more, if_neg Bool.false_ne_true]
      refine Decoder.yields_bind.2 ⟨o, p₁, single, Decoder.yields_bind.2 ⟨false, p₁, fails, ?_⟩⟩
      rw [if_neg Bool.false_ne_true, if_neg moves]
      have hrest : (s.decodeElements custom ctx f r count left (index + 1) (o.node :: done)
          o.next).Yields p₁ ((o.node :: done).reverse ++ items, stop) p' :=
        ih (Nat.lt_of_succ_lt_succ hrounds)
      simpa using hrest

/-- The progress is `q`, or `q` with the warning that the array `id` was stopped behind the last of its
elements. -/
def Progress.IsOrStopped (p q : Progress) (id : String) (elements : Nat) : Prop :=
  p = q ∨ ∃ last, elements = last + 1 ∧
    p = { q with warnings := q.warnings ++ [stopWarning id last] }

theorem isComplete_count {expr : Value} {n index : Nat} {cursor : Int} :
    s.isComplete (.count expr) (some (n : Int)) index cursor = decide (n ≤ index) :=
  decide_eq_decide.2 Int.ofNat_le

/-- The last element of a loop is the last one that is counted. -/
theorem Elements.counted_last {expr : Value} {index : Nat} {cursor : Int} {p₁ : Progress}
    (single : (s.decodeSingle custom (ctx.moveTo cursor) f (elementName f.id index)).Yields p o p₁) :
    Elements s custom ctx f (.count expr) (some ((index + 1 : Nat) : Int)) index cursor p [o.node]
      o.next p₁ := by
  refine .next ?_ single rfl (fun hidle => by cases hidle.1) (.complete ?_)
  · rw [isComplete_count]
    exact decide_eq_false (by omega)
  · rw [isComplete_count]
    exact decide_eq_true (Nat.le_refl _)

/-- The elements of a loop are those of the loop that counts them. -/
theorem Elements.counted {index : Nat} {cursor stop : Int} {items : List Node}
    (h : Elements s custom ctx f r count index cursor p items stop p') (expr : Value) :
    ∃ q, Elements s custom ctx f (.count expr) (some ((index + items.length : Nat) : Int)) index
      cursor p items stop q ∧
        Progress.IsOrStopped p' q (ctx.childId f.id) (index + items.length) := by
  induction h with
  | @complete index cursor p reached =>
      refine ⟨p, .complete ?_, .inl rfl⟩
      rw [isComplete_count]
      exact decide_eq_true (Nat.le_refl _)
  | satisfied more single holds => exact ⟨_, counted_last single, .inl rfl⟩
  | @stuck index cursor p p₁ o more single fails idle =>
      exact ⟨p₁, counted_last single, .inr ⟨index, rfl, rfl⟩⟩
  | @next index cursor stop p p₁ p' o items more single fails moves rest ih =>
      obtain ⟨q, helements, hq⟩ := ih
      have hlength : index + 1 + items.length = index + (o.node :: items).length := by
        rw [List.length_cons]
        omega
      rw [hlength] at helements hq
      refine ⟨q, .next ?_ single rfl (fun hidle => by cases hidle.1) helements, hq⟩
      rw [isComplete_count, List.length_cons]
      exact decide_eq_false (by omega)

/-- **Counted replay.** What a repeated field is decoded to is decoded again by the number of the
elements, if the limit on counted elements allows as many: the same elements, values and offsets, with
the same entries in the table, and the same warnings but for the one that the array was stopped. -/
theorem decodeField_counted {expr : Value}
    (h : (s.decodeField (s.nested depth) ctx (f.repeatedBy r)).Yields p o p')
    (hlimit : (o.node.children.length : Int) ≤ s.options.maxCount)
    (hexpr : expr.IsLiteral o.node.children.length) :
    ∃ q, (s.decodeField (s.nested depth) ctx (f.repeatedBy (.count expr))).Yields p
        (o.notedAs (.count expr)) q ∧
      Progress.IsOrStopped p' q o.node.id o.node.children.length := by
  rw [decodeField_repeatedBy] at h
  obtain ⟨ctx', _, hplaced, hrepeated⟩ := Decoder.yields_bind.1 h
  obtain ⟨rfl, -, -⟩ := placed_inv hplaced
  obtain ⟨count, items, stop, -, helements, rfl⟩ := decodeRepeated_inv hrepeated
  obtain ⟨q, hcounted, hq⟩ := helements.counted expr
  rw [Nat.zero_add] at hcounted hq
  have hloop : (s.decodeElements (s.nested depth) ctx' f (.count expr) (some (items.length : Int))
      (items.length + 1) 0 [] ctx'.offset).Yields _ ([].reverse ++ items, stop) q :=
    hcounted.yields (Nat.lt_succ_self _)
  refine ⟨q, ?_, hq⟩
  rw [decodeField_repeatedBy, notedAs_arrayNode]
  refine Decoder.yields_bind.2 ⟨ctx', _, hplaced, ?_⟩
  refine Decoder.yields_bind.2 ⟨_, _, yields_repeatCount_literal hexpr hlimit, ?_⟩
  exact Decoder.yields_bind.2 ⟨_, q, hloop, Decoder.yields_pure.2 ⟨rfl, rfl⟩⟩

end Setting

/-- Bytes up to the third one, and an empty rest. -/
def Field.front : Field := { id := "front", size := .str "2 - _io.pos" }

/-- The second element takes up no bytes: it stops the array, but not the one that is counted. -/
theorem Setting.decodeField_counted_front :
    ∃ o p', ((Setting.of [1, 2, 3]).decodeField ((Setting.of [1, 2, 3]).nested 0) {}
        (Field.front.repeatedBy .toEnd)).Yields {} o p' ∧
      p'.warnings = [stopWarning "front" 1] ∧
      (o.node.children.length : Int) ≤ (Setting.of [1, 2, 3]).options.maxCount ∧
      (Value.int 2).IsLiteral o.node.children.length ∧
      ∃ q, ((Setting.of [1, 2, 3]).decodeField ((Setting.of [1, 2, 3]).nested 0) {}
          (Field.front.repeatedBy (.count (.int 2)))).Yields {} (o.notedAs (.count (.int 2))) q ∧
        Progress.IsOrStopped p' q o.node.id o.node.children.length := by
  have hrun : (((Setting.of [1, 2, 3]).decodeField ((Setting.of [1, 2, 3]).nested 0) {}
      (Field.front.repeatedBy .toEnd)).run.run {}).1.toOption.map
        (fun o => o.node.children.length) = some 2 := by
    decide +kernel
  have hwarnings : (((Setting.of [1, 2, 3]).decodeField ((Setting.of [1, 2, 3]).nested 0) {}
      (Field.front.repeatedBy .toEnd)).run.run {}).2.warnings = [stopWarning "front" 1] := by
    decide +kernel
  obtain ⟨o, ho, hlength⟩ := Option.map_eq_some_iff.1 hrun
  have hyields := Decoder.yields_of_run ho
  have hlimit : (o.node.children.length : Int) ≤ (Setting.of [1, 2, 3]).options.maxCount := by
    rw [hlength]
    decide
  have hliteral : (Value.int 2).IsLiteral o.node.children.length := by
    rw [hlength]
    exact Value.isLiteral_int 2
  exact ⟨o, _, hyields, hwarnings, hlimit, hliteral, decodeField_counted hyields hlimit hliteral⟩

end ByteSchema
