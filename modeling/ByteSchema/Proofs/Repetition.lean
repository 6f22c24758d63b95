import ByteSchema.Proofs.Warnings

/-!
# ByteSchema.Proofs.Repetition

What the loop over the elements of a repetition does, round by round.

One loop serves the three kinds of repetition, and it has three exits: it is complete before an
element, or the condition is satisfied behind one, or an element brings it no further. A run of the
loop (`Elements`) says this from its first round on; `Rounds` lists the rounds by number, so that
all of them can be spoken of at once. Which exits there are is then decided by the kind: a count has
only the first, the end of the buffer the first and the last, a condition the last two (`EndsAs`).
-/

namespace ByteSchema

/-- An expression that gives an integer has a value, and that is the integer. -/
theorem View.requireInt_inv {view : View} {what : String} {expr : Value} {path : Option String}
    {n : Int} (h : view.requireInt what expr path = .ok n) :
    ∃ x, view.evaluate expr = .ok (some x) ∧ integerOf what expr (some x) = .ok n := by
  unfold requireInt at h
  split at h
  case h_1 => cases h
  case h_2 number hnumber =>
      split at h
      case h_1 m hm =>
          cases h
          cases number with
          | none => cases hm
          | some x => exact ⟨x, hnumber, hm⟩
      case h_2 => cases h

theorem Decoder.yields_of_run {α : Type} {m : Decoder α} {p : Progress} {a : α}
    (h : (m.run.run p).1.toOption = some a) : m.Yields p a (m.run.run p).2 := by
  refine Prod.ext ?_ rfl
  generalize (m.run.run p).1 = result at h ⊢
  cases result with
  | ok b => exact congrArg Except.ok (Option.some.inj h)
  | error e => cases h

namespace Setting

variable {s : Setting} {custom : CustomDecoder} {ctx : Context} {f : Field} {r : Repetition}
  {count : Option Int} {p p' : Progress} {o : Outcome}

/-! ## Rounds -/

/-- The rounds of a loop by number: where the element starts, the progress before it, and what is
decoded. -/
structure Rounds where
  cursor : Nat → Int
  progress : Nat → Progress
  element : Nat → Outcome

namespace Rounds

/-- A round before the others. -/
def cons (cursor : Int) (p : Progress) (o : Outcome) (t : Rounds) : Rounds where
  cursor
    | 0 => cursor
    | i + 1 => t.cursor i
  progress
    | 0 => p
    | i + 1 => t.progress i
  element
    | 0 => o
    | i + 1 => t.element i

/-- The nodes of the first `k` rounds. -/
def nodes (t : Rounds) (k : Nat) : List Node := (List.range k).map fun i => (t.element i).node

theorem nodes_cons (cursor : Int) (p : Progress) (o : Outcome) (t : Rounds) (k : Nat) :
    (t.cons cursor p o).nodes (k + 1) = o.node :: t.nodes k := by
  simp only [nodes, List.range_succ_eq_map, List.map_cons, List.map_map]
  rfl

/-- In round `i` the element `index` is decoded, and the cursor moves to its end. -/
structure Decodes (s : Setting) (custom : CustomDecoder) (ctx : Context) (f : Field)
    (r : Repetition) (count : Option Int) (t : Rounds) (index i : Nat) : Prop where
  more : s.isComplete r count index (t.cursor i) = false
  single : (s.decodeSingle custom (ctx.moveTo (t.cursor i)) f (elementName f.id index)).Yields
    (t.progress i) (t.element i) (t.progress (i + 1))
  next : t.cursor (i + 1) = (t.element i).next

/-- Behind round `i`, with the element `index`, the condition of the repetition is `b`. -/
def Satisfies (s : Setting) (ctx : Context) (r : Repetition) (t : Rounds) (index i : Nat)
    (b : Bool) : Prop :=
  (s.isSatisfied r ctx index (t.element i).node.value (t.cursor (i + 1))).Yields
    (t.progress (i + 1)) b (t.progress (i + 1))

/-- Round `i` brings a repetition without count no further. -/
def IsIdle (count : Option Int) (t : Rounds) (i : Nat) : Prop :=
  count.isNone ∧ t.cursor (i + 1) ≤ t.cursor i

/-- The progress behind round `i` with the warning that the element `index` has stopped the loop. -/
def stopped (ctx : Context) (f : Field) (t : Rounds) (index i : Nat) : Progress :=
  { t.progress (i + 1) with
    warnings := (t.progress (i + 1)).warnings ++ [stopWarning (ctx.childId f.id) index] }

/-- Behind round `i`, with the element `index`, there is another one. -/
structure GoesOn (s : Setting) (ctx : Context) (r : Repetition) (count : Option Int) (t : Rounds)
    (index i : Nat) : Prop where
  fails : t.Satisfies s ctx r index i false
  moves : ¬ t.IsIdle count i

/-- The ways in which the loop ends behind `k` rounds, the first one with the element `index`. -/
inductive Ends (s : Setting) (ctx : Context) (f : Field) (r : Repetition) (count : Option Int)
    (t : Rounds) (index : Nat) : Nat → Progress → Prop
  | complete {k : Nat} (goesOn : ∀ i < k, t.GoesOn s ctx r count (index + i) i)
      (reached : s.isComplete r count (index + k) (t.cursor k) = true) :
      Ends s ctx f r count t index k (t.progress k)
  | satisfied {last : Nat} (goesOn : ∀ i < last, t.GoesOn s ctx r count (index + i) i)
      (holds : t.Satisfies s ctx r (index + last) last true) :
      Ends s ctx f r count t index (last + 1) (t.progress (last + 1))
  | stuck {last : Nat} (goesOn : ∀ i < last, t.GoesOn s ctx r count (index + i) i)
      (fails : t.Satisfies s ctx r (index + last) last false) (idle : t.IsIdle count last) :
      Ends s ctx f r count t index (last + 1) (t.stopped ctx f (index + last) last)

variable {t : Rounds} {index k : Nat} {cursor : Int} {p₁ : Progress}

/-- What holds of the first round, and of the ones behind with their elements counted from the next
one on, holds of all rounds. -/
theorem forall_lt_succ {P : Nat → Nat → Prop} (first : P index 0)
    (rest : ∀ i < k, P (index + 1 + i) (i + 1)) : ∀ i < k + 1, P (index + i) i := by
  intro i hi
  cases i with
  | zero => exact first
  | succ i =>
      have hindex : index + (i + 1) = index + 1 + i := by omega
      rw [hindex]
      exact rest i (by omega)

theorem forall_goesOn_cons (on : (t.cons cursor p o).GoesOn s ctx r count index 0)
    (h : ∀ i < k, t.GoesOn s ctx r count (index + 1 + i) i) :
    ∀ i < k + 1, (t.cons cursor p o).GoesOn s ctx r count (index + i) i :=
  forall_lt_succ on fun i hi => ⟨(h i hi).fails, (h i hi).moves⟩

/-- A round in front, behind which the loop goes on. -/
theorem Ends.cons (h : t.Ends s ctx f r count (index + 1) k p')
    (on : (t.cons cursor p o).GoesOn s ctx r count index 0) :
    (t.cons cursor p o).Ends s ctx f r count index (k + 1) p' := by
  -- Round `i + 1` here is round `i` there, where the elements are counted from the next one on.
  have hindex (i : Nat) : index + (i + 1) = index + 1 + i := by omega
  cases h with
  | complete goesOn reached =>
      refine .complete (forall_goesOn_cons on goesOn) ?_
      rw [hindex]
      exact reached
  | satisfied goesOn holds =>
      refine .satisfied (forall_goesOn_cons on goesOn) ?_
      rw [hindex]
      exact holds
  | @stuck last goesOn fails idle =>
      have hfails :
          (t.cons cursor p o).Satisfies s ctx r (index + (last + 1)) (last + 1) false := by
        rw [hindex]
        exact fails
      have hstuck := Ends.stuck (f := f) (forall_goesOn_cons on goesOn) hfails idle
      rwa [hindex] at hstuck

/-- No rounds: all that counts is where the loop stands. -/
def standing (cursor : Int) (p : Progress) : Rounds where
  cursor _ := cursor
  progress _ := p
  element _ := default

end Rounds

/-- A run of the loop is made of rounds. -/
theorem Elements.exists_rounds {index : Nat} {cursor stop : Int} {items : List Node}
    (h : Elements s custom ctx f r count index cursor p items stop p') :
    ∃ (t : Rounds) (k : Nat), t.cursor 0 = cursor ∧ t.progress 0 = p ∧ items = t.nodes k ∧
      t.cursor k = stop ∧ (∀ i < k, t.Decodes s custom ctx f r count (index + i) i) ∧
      t.Ends s ctx f r count index k p' := by
  -- The rounds behind the first are those of the rest of the run.
  induction h with
  | @complete index cursor p reached =>
      exact ⟨.standing cursor p, 0, rfl, rfl, rfl, rfl, nofun, .complete nofun reached⟩
  | @satisfied index cursor p p₁ o more single holds =>
      refine ⟨(Rounds.standing o.next p₁).cons cursor p o, 1, rfl, rfl, rfl, rfl, ?_, ?_⟩
      · exact Rounds.forall_lt_succ ⟨more, single, rfl⟩ nofun
      · exact .satisfied nofun holds
  | @stuck index cursor p p₁ o more single fails idle =>
      refine ⟨(Rounds.standing o.next p₁).cons cursor p o, 1, rfl, rfl, rfl, rfl, ?_, ?_⟩
      · exact Rounds.forall_lt_succ ⟨more, single, rfl⟩ nofun
      · exact Rounds.Ends.stuck nofun fails idle
  | @next index cursor stop p p₁ p' o items more single fails moves rest ih =>
      obtain ⟨t, k, hcursor, hprogress, rfl, rfl, hdecodes, hends⟩ := ih
      subst hprogress
      rw [← hcursor] at fails moves
      refine ⟨t.cons cursor p o, k + 1, rfl, rfl, (Rounds.nodes_cons cursor p o t k).symm, rfl,
        Rounds.forall_lt_succ ⟨more, single, hcursor⟩ ?_, hends.cons ⟨fails, moves⟩⟩
      exact fun i hi => ⟨(hdecodes i hi).more, (hdecodes i hi).single, (hdecodes i hi).next⟩

/-! ## The kinds of repetition -/

namespace Rounds

/-- What the condition of a repetition gives behind round `i`. It is evaluated where the element
ends, and sees the element as `_` and its index as `_index`. -/
def condition (s : Setting) (ctx : Context) (t : Rounds) (expr : Value) (i : Nat) :
    Except Escape (Option Number) :=
  let scope := (Fields.put ctx.scope "_" (t.element i).node.value).put "_index" (.int i)
  (s.view { ctx.toPlace with offset := t.cursor (i + 1), scope }
    (t.progress (i + 1)).values).evaluate expr

/-- The condition has a value other than zero behind round `i`. -/
def Meets (s : Setting) (ctx : Context) (t : Rounds) (expr : Value) (i : Nat) : Prop :=
  ∃ x, t.condition s ctx expr i = .ok (some x) ∧ x.isTrue = true

/-- The condition has no value behind round `i`, or it is zero. -/
def Misses (s : Setting) (ctx : Context) (t : Rounds) (expr : Value) (i : Nat) : Prop :=
  t.condition s ctx expr i = .ok none ∨
    ∃ x, t.condition s ctx expr i = .ok (some x) ∧ x.isTrue = false

/-- How `k` rounds from the progress `p` on come to their end with `p'`, for each kind of
repetition. -/
def EndsAs (s : Setting) (ctx : Context) (f : Field) (t : Rounds) (k : Nat) (p p' : Progress) :
    Repetition → Prop
  | .count expr =>
      -- There are as many as the expression says, and that is checked against the limit.
      (∃ x, (s.view ctx.toPlace p.values).evaluate expr = .ok (some x) ∧
        View.integerOf "repeat-expr" expr (some x) = .ok (k : Int)) ∧
      (k : Int) ≤ s.options.maxCount ∧ p' = t.progress k
  | .toEnd =>
      -- Each starts in the buffer and each but the last leads on. Behind the last one the buffer is
      -- at its end, or that one leads no further.
      (∀ i < k, t.cursor i < s.buffer.length) ∧
      (∀ i, i + 1 < k → t.cursor i < t.cursor (i + 1)) ∧
      ((s.buffer.length ≤ t.cursor k ∧ p' = t.progress k) ∨
        ∃ last, k = last + 1 ∧ t.cursor k ≤ t.cursor last ∧ p' = t.stopped ctx f last last)
  | .untilTrue expr =>
      -- Each but the last leads on and misses the condition. The last one meets it, or misses it
      -- and leads no further.
      ∃ last, k = last + 1 ∧ (∀ i < last, t.cursor i < t.cursor (i + 1) ∧ t.Misses s ctx expr i) ∧
        ((t.Meets s ctx expr last ∧ p' = t.progress k) ∨
          (t.Misses s ctx expr last ∧ t.cursor k ≤ t.cursor last ∧ p' = t.stopped ctx f last last))

variable {t : Rounds} {expr : Value} {i k : Nat}

theorem satisfies_untilTrue {b : Bool} (h : t.Satisfies s ctx (.untilTrue expr) i i b) :
    ∃ number, t.condition s ctx expr i = .ok number ∧
      (number.map Number.isTrue).getD false = b := by
  simp only [Satisfies, isSatisfied, Decoder.yields_bind, yields_evaluate, Decoder.yields_pure] at h
  obtain ⟨number, _, ⟨hnumber, rfl⟩, hb, -⟩ := h
  exact ⟨number, hnumber, hb.symm⟩

theorem meets_of_satisfies (h : t.Satisfies s ctx (.untilTrue expr) i i true) :
    t.Meets s ctx expr i := by
  obtain ⟨number, hnumber, hb⟩ := satisfies_untilTrue h
  cases number with
  | none => cases hb
  | some x => exact ⟨x, hnumber, hb⟩

theorem misses_of_satisfies (h : t.Satisfies s ctx (.untilTrue expr) i i false) :
    t.Misses s ctx expr i := by
  obtain ⟨number, hnumber, hb⟩ := satisfies_untilTrue h
  cases number with
  | none => exact .inl hnumber
  | some x => exact .inr ⟨x, hnumber, hb⟩

/-- Where a repetition without count goes on, the round has led on. -/
theorem GoesOn.lt {index : Nat} (h : t.GoesOn s ctx r none index i) :
    t.cursor i < t.cursor (i + 1) := by
  have hmoves := h.moves
  simp only [IsIdle, Option.isNone_none, true_and] at hmoves
  omega

/-- With a count there are just as many rounds. -/
theorem Ends.endsAs_count {n : Int} (h : t.Ends s ctx f (.count expr) (some n) 0 k p')
    (hmore : ∀ i < k, s.isComplete (.count expr) (some n) i (t.cursor i) = false) (hn : 0 ≤ n) :
    (k : Int) = n ∧ p' = t.progress k := by
  cases h with
  | complete _ reached =>
      refine ⟨?_, rfl⟩
      have hreached : n ≤ ((0 + k : Nat) : Int) := by simpa [isComplete] using reached
      cases k with
      | zero => omega
      | succ last =>
          have hlast : ((last : Nat) : Int) < n := by
            simpa [isComplete] using hmore last (Nat.lt_succ_self last)
          omega
  | satisfied _ holds =>
      obtain ⟨_, hr⟩ := isSatisfied_true holds
      cases hr
  | stuck _ _ idle => cases idle.1

/-- Up to the end of the buffer, the loop ends there or behind a round that leads no further. -/
theorem Ends.endsAs_toEnd (h : t.Ends s ctx f .toEnd none 0 k p')
    (hmore : ∀ i < k, s.isComplete .toEnd none i (t.cursor i) = false) :
    t.EndsAs s ctx f k p p' .toEnd := by
  have hinside : ∀ i < k, t.cursor i < s.buffer.length := by
    intro i hi
    simpa [isComplete] using hmore i hi
  refine ⟨hinside, ?_⟩
  cases h with
  | complete goesOn reached =>
      have hreached : (s.buffer.length : Int) ≤ t.cursor k := by simpa [isComplete] using reached
      exact ⟨fun i hi => (goesOn i (by omega)).lt, .inl ⟨hreached, rfl⟩⟩
  | satisfied _ holds =>
      obtain ⟨_, hr⟩ := isSatisfied_true holds
      cases hr
  | @stuck last goesOn _ idle =>
      refine ⟨fun i hi => (goesOn i (by omega)).lt, .inr ⟨last, rfl, idle.2, ?_⟩⟩
      rw [Nat.zero_add]

/-- With a condition, the loop ends behind a round that meets it or leads no further. -/
theorem Ends.endsAs_untilTrue (h : t.Ends s ctx f (.untilTrue expr) none 0 k p') :
    t.EndsAs s ctx f k p p' (.untilTrue expr) := by
  have hbefore {last : Nat}
      (goesOn : ∀ i < last, t.GoesOn s ctx (.untilTrue expr) none (0 + i) i) :
      ∀ i < last, t.cursor i < t.cursor (i + 1) ∧ t.Misses s ctx expr i := by
    intro i hi
    have hgoes := goesOn i hi
    rw [Nat.zero_add] at hgoes
    exact ⟨hgoes.lt, misses_of_satisfies hgoes.fails⟩
  cases h with
  | complete _ reached => cases reached
  | @satisfied last goesOn holds =>
      rw [Nat.zero_add] at holds
      exact ⟨last, rfl, hbefore goesOn, .inl ⟨meets_of_satisfies holds, rfl⟩⟩
  | @stuck last goesOn fails idle =>
      rw [Nat.zero_add] at fails ⊢
      exact ⟨last, rfl, hbefore goesOn, .inr ⟨misses_of_satisfies fails, idle.2, rfl⟩⟩

end Rounds

/-- A count is the value of its expression. -/
theorem repeatCount_value {expr : Value}
    (h : (s.repeatCount ctx f (.count expr)).Yields p count p') :
    ∃ n x, count = some n ∧ (s.view ctx.toPlace p.values).evaluate expr = .ok (some x) ∧
      View.integerOf "repeat-expr" expr (some x) = .ok n := by
  simp only [repeatCount, Decoder.yields_bind, yields_requireInt] at h
  obtain ⟨n, _, ⟨hn, rfl⟩, h⟩ := h
  split at h
  · exact absurd h Decoder.not_yields_fail
  split at h
  · exact absurd h Decoder.not_yields_fail
  · obtain ⟨rfl, -⟩ := Decoder.yields_pure.1 h
    obtain ⟨x, hx, hinteger⟩ := View.requireInt_inv hn
    exact ⟨n, x, rfl, hx, hinteger⟩

/-- **Repetition.** A repeated field that is decoded is made of rounds: element `i` is decoded at
`t.cursor i`, with the index `i` in its name, and ends at `t.cursor (i + 1)`, where the next one
starts. How many there are and how the last one ends is as the kind of the repetition says. -/
theorem decodeRepeated_rounds (h : (s.decodeRepeated custom ctx f r).Yields p o p') :
    ∃ (k : Nat) (t : Rounds), t.cursor 0 = ctx.offset ∧ t.progress 0 = p ∧
      (∀ i < k, (s.decodeSingle custom (ctx.moveTo (t.cursor i)) f (elementName f.id i)).Yields
        (t.progress i) (t.element i) (t.progress (i + 1)) ∧
        t.cursor (i + 1) = (t.element i).next) ∧
      o = ⟨arrayNode ctx f r (t.nodes k) (t.cursor k), t.cursor k⟩ ∧
      t.EndsAs s ctx f k p p' r := by
  obtain ⟨count, items, stop, hcount, helements, rfl⟩ := decodeRepeated_inv h
  obtain ⟨t, k, hcursor, hprogress, rfl, rfl, hdecodes, hends⟩ := helements.exists_rounds
  simp only [Nat.zero_add] at hdecodes
  refine ⟨k, t, hcursor, hprogress, fun i hi => ⟨(hdecodes i hi).single, (hdecodes i hi).next⟩, rfl,
    ?_⟩
  have hmore := fun i hi => (hdecodes i hi).more
  cases r with
  | count expr =>
      obtain ⟨n, x, rfl, hx, hn⟩ := repeatCount_value hcount
      obtain ⟨m, hm, hle, hlimit⟩ := repeatCount_count hcount
      cases hm
      obtain ⟨rfl, hp⟩ := hends.endsAs_count hmore hle
      exact ⟨⟨x, hx, hn⟩, hlimit, hp⟩
  | toEnd =>
      obtain ⟨rfl, -⟩ := Decoder.yields_pure.1 hcount
      exact hends.endsAs_toEnd hmore
  | untilTrue expr =>
      obtain ⟨rfl, -⟩ := Decoder.yields_pure.1 hcount
      exact hends.endsAs_untilTrue

end Setting

/-- Bytes up to the first one that is 1. -/
def Field.flags : Field where
  id := "flags"
  type := .named "u1"
  repetition := some (.untilTrue (.str "_ == 1"))

theorem Setting.decodeRepeated_rounds_flags :
    ∃ (s : Setting) (o : Outcome) (p' : Progress), s.buffer = [0, 1, 9] ∧
      (s.decodeRepeated (s.nested 0) {} .flags (.untilTrue (.str "_ == 1"))).Yields {} o p' ∧
      o.next = 2 ∧
      ∃ (k : Nat) (t : Rounds), t.cursor 0 = 0 ∧ t.progress 0 = {} ∧
        (∀ i < k, (s.decodeSingle (s.nested 0) (Context.moveTo {} (t.cursor i)) .flags
          (elementName "flags" i)).Yields (t.progress i) (t.element i) (t.progress (i + 1)) ∧
          t.cursor (i + 1) = (t.element i).next) ∧
        o = ⟨arrayNode {} .flags (.untilTrue (.str "_ == 1")) (t.nodes k) (t.cursor k),
          t.cursor k⟩ ∧
        t.EndsAs s {} .flags k {} p' (.untilTrue (.str "_ == 1")) := by
  have hnext : (((Schema.memo.setting {} [0, 1, 9]).decodeRepeated
      ((Schema.memo.setting {} [0, 1, 9]).nested 0) {} .flags
      (.untilTrue (.str "_ == 1"))).run.run {}).1.toOption.map Outcome.next = some 2 := by
    decide +kernel
  obtain ⟨o, ho, hnext⟩ := Option.map_eq_some_iff.1 hnext
  have hrun := Decoder.yields_of_run ho
  exact ⟨_, o, _, rfl, hrun, hnext, decodeRepeated_rounds hrun⟩

end ByteSchema
