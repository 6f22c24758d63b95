import ByteSchema.Proofs.Evaluation
import ByteSchema.Proofs.Locality
import ByteSchema.Proofs.Unreadable
import ByteSchema.Proofs.Visit

/-!
# ByteSchema.Proofs.Escape

What leaves a decode that neither succeeds nor reports an error.

A failure of a decode is a result with one error, except for the failures that are no errors of the
library (`Escape`). `step.Escapes p e` says that `step`, started in `p`, ends with the escape `e`;
like success it is inverted once for each operation that decoders are built from. An escape is then
traced back to the field that it comes from (`Field.Blamed`), of which there are three sorts, or to
a repetition that was given up; this is done along the places that the decode comes to, so the place
of the blame is one of them (`Schema.decode_escape`).
-/

namespace ByteSchema

/-- Of all errors only one that cannot be worded becomes an escape. -/
theorem Failure.ofCause_eq_escape {c : Cause} {path : Option String} {e : Escape}
    (h : Failure.ofCause c path = .escape e) : c.hasOverlong = true ∧ e = .longInteger := by
  unfold ofCause at h
  split at h
  case isTrue hoverlong =>
      cases h
      exact ⟨hoverlong, rfl⟩
  case isFalse => cases h

namespace Decoder

variable {α β : Type} {p : Progress} {e : Escape}

/-- `step`, started in `p`, ends with the escape `e`. -/
def Escapes (step : Decoder α) (p : Progress) (e : Escape) : Prop :=
  (step.run.run p).1 = .error (.escape e)

/-- Two steps escape when the first does, or the second behind a result of the first. -/
theorem escapes_bind {step : Decoder α} {f : α → Decoder β} :
    (step >>= f).Escapes p e ↔
      step.Escapes p e ∨ ∃ a p', step.Yields p a p' ∧ (f a).Escapes p' e := by
  unfold Escapes Yields
  rw [run_bind]
  rcases step.run.run p with ⟨failure | a, p'⟩
  · constructor
    · intro h
      cases h
      exact .inl rfl
    · rintro (h | ⟨a, p', h, -⟩)
      · cases h
        rfl
      · cases h
  · constructor
    · exact fun h => .inr ⟨a, p', rfl, h⟩
    · rintro (h | ⟨a', p'', heq, h⟩)
      · cases h
      · cases heq
        exact h

/-- A step that succeeds does not escape. -/
theorem Yields.not_escapes {step : Decoder α} {a : α} {p' : Progress} (h : step.Yields p a p') :
    ¬ step.Escapes p e := by
  intro hescape
  unfold Yields at h
  unfold Escapes at hescape
  rw [h] at hescape
  cases hescape

theorem not_escapes_pure {a : α} : ¬ (pure a : Decoder α).Escapes p e := nofun

theorem not_escapes_get : ¬ (get : Decoder Progress).Escapes p e := nofun

theorem not_escapes_modify {f : Progress → Progress} : ¬ (modify f : Decoder Unit).Escapes p e :=
  nofun

theorem escapes_throw {e' : Escape} (h : (throw (.escape e') : Decoder α).Escapes p e) :
    e = e' := by
  cases h
  rfl

/-- Only a failure that needs the digits of an overlong integer for its words escapes. -/
theorem escapes_fail {c : Cause} {path : Option String}
    (h : (fail c path : Decoder α).Escapes p e) : c.hasOverlong = true ∧ e = .longInteger :=
  Failure.ofCause_eq_escape (Except.error.inj h)

theorem escapes_check {r : Except Cause α} (h : (check r).Escapes p e) : e = .longInteger := by
  cases r with
  | ok a => exact absurd h not_escapes_pure
  | error c => exact (escapes_fail h).2

theorem escapes_lift {r : Except Failure α} (h : (lift r).Escapes p e) :
    r = .error (.escape e) := by
  cases r with
  | ok a => exact absurd h not_escapes_pure
  | error failure => exact congrArg Except.error (Except.error.inj h)

theorem escapes_orEscape {r : Except Escape α} (h : (orEscape r).Escapes p e) : r = .error e := by
  cases r with
  | ok a => exact absurd h not_escapes_pure
  | error e' => rw [escapes_throw h]

/-- Giving errors a path changes nothing about escapes. -/
theorem escapes_located {path : String} {step : Decoder α} (h : (located path step).Escapes p e) :
    step.Escapes p e := by
  unfold Escapes at h ⊢
  rw [run_located] at h
  generalize step.run.run p = r at h ⊢
  rcases r with ⟨(_ | _) | _, _⟩ <;> cases h
  rfl

theorem not_escapes_record {path : String} {v : Value} : ¬ (record path v).Escapes p e := by
  intro h
  unfold record at h
  rcases escapes_bind.1 h with h | ⟨q, p', -, h⟩
  · exact not_escapes_get h
  · split at h
    · exact not_escapes_modify h
    · cases h

end Decoder

/-! ## What a field is to blame for -/

/-- No expression of the field has a decimal numeral that is longer than is read. -/
def Field.HasShortNumerals (f : Field) : Prop :=
  ∀ text, .str text ∈ f.expressions → Expression.NoLongRun text.toList

/-- The escapes that a field is to blame for. -/
inductive Field.Blamed (s : Setting) (f : Field) : Escape → Prop
  /-- An error cannot be worded, for it would need the digits of an overlong integer. -/
  | wording : Blamed s f .longInteger
  /-- An expression of the field has an overlong numeral. -/
  | numeral {digits : Nat} (long : ¬ f.HasShortNumerals) : Blamed s f (.longNumeral digits)
  /-- Text cannot be decoded in the encoding of the field. -/
  | encoding {e : Escape} (unreadable : Encoding.Unreadable s.hosts (s.encodingOf f) e) : Blamed s f e

/-- Giving up is left to repetitions. -/
theorem Field.not_blamed_unfinished {s : Setting} {f : Field} : ¬ f.Blamed s .unfinished := by
  intro h
  cases h with
  | encoding hunreadable => exact hunreadable.ne_unfinished rfl

/-- The value of a text that is an expression is that of its tree. -/
theorem View.evaluate_sentence {view : View} {text : String} {t : Expression.Tree} {n : Int}
    (h : Expression.IsSentence text t) (hshort : Expression.NoLongRun text.toList)
    (heval : t.eval view.resolve = .ok (.int n)) :
    view.evaluate (.str text) = .ok (some (.int n)) := by
  have hvalue : (Expression.read text view.resolve).value = _ :=
    (Expression.read_complete h hshort).1
  rw [heval] at hvalue
  simp only [evaluate, Expression.Reading.outcome, hvalue]
  rfl

/-- An expression escapes only by a numeral that is too long. -/
theorem View.evaluate_escape {view : View} {expr : Value} {e : Escape}
    (h : view.evaluate expr = .error e) :
    ∃ text digits, expr = .str text ∧ ¬ Expression.NoLongRun text.toList ∧
      e = .longNumeral digits := by
  unfold evaluate at h
  split at h
  case h_4 text =>
      have hnumbers (x : String) (a : Number) (_ : view.resolve x = some a) :
          Expression.Exact.IsNumber a := trivial
      rcases Expression.read_sound hnumbers text with
        ⟨t, a, -, -, hvalue, -⟩ | ⟨stop, hvalue, hstops⟩
      · simp only [Expression.Reading.outcome, hvalue] at h
        cases h
      · simp only [Expression.Reading.outcome, hvalue] at h
        cases hstops with
        | noValue => cases h
        | longNumeral long =>
            cases h
            exact ⟨text, _, rfl, long, rfl⟩
  all_goals cases h

theorem Field.blamed_of_evaluate {s : Setting} {f : Field} {view : View} {expr : Value} {e : Escape}
    (h : view.evaluate expr = .error e) (hexpr : expr ∈ f.expressions) : f.Blamed s e := by
  obtain ⟨text, digits, rfl, hlong, rfl⟩ := View.evaluate_escape h
  exact .numeral fun hshort => hlong (hshort text hexpr)

/-- The expression escapes itself, or its value cannot be told. -/
theorem View.requireInt_escape {view : View} {what : String} {expr : Value}
    {path : Option String} {e : Escape} (h : view.requireInt what expr path = .error (.escape e)) :
    view.evaluate expr = .error e ∨ e = .longInteger := by
  unfold requireInt at h
  split at h
  case h_1 hevaluate =>
      cases h
      exact .inl hevaluate
  case h_2 =>
      split at h
      · cases h
      · exact .inr (Failure.ofCause_eq_escape (Except.error.inj h)).2

namespace Setting

variable {s : Setting} {custom : CustomDecoder} {ctx : Context} {f : Field} {name : String}
  {place : Place} {p : Progress} {e : Escape} {expr : Value}

theorem escapes_evaluate (h : (s.evaluate place expr).Escapes p e) :
    ∃ values, (s.view place values).evaluate expr = .error e := by
  unfold evaluate at h
  rcases Decoder.escapes_bind.1 h with h | ⟨q, p', -, h⟩
  · exact absurd h Decoder.not_escapes_get
  · exact ⟨_, Decoder.escapes_orEscape h⟩

theorem evaluate_blamed (h : (s.evaluate place expr).Escapes p e) (hexpr : expr ∈ f.expressions) :
    f.Blamed s e := by
  obtain ⟨values, hevaluate⟩ := escapes_evaluate h
  exact Field.blamed_of_evaluate hevaluate hexpr

theorem escapes_requireInt {what path : String}
    (h : (s.requireInt place what expr path).Escapes p e) :
    (∃ values, (s.view place values).evaluate expr = .error e) ∨ e = .longInteger := by
  unfold requireInt at h
  rcases Decoder.escapes_bind.1 h with h | ⟨q, p', -, h⟩
  · exact absurd h Decoder.not_escapes_get
  · exact (View.requireInt_escape (Decoder.escapes_lift h)).imp_left fun h => ⟨_, h⟩

theorem requireInt_blamed {what path : String}
    (h : (s.requireInt place what expr path).Escapes p e) (hexpr : expr ∈ f.expressions) :
    f.Blamed s e := by
  rcases escapes_requireInt h with ⟨values, hevaluate⟩ | rfl
  · exact Field.blamed_of_evaluate hevaluate hexpr
  · exact .wording

/-- Any failure of a field can be blamed on it: it is about words. -/
theorem fail_blamed {α : Type} {c : Cause} {path : Option String}
    (h : (Decoder.fail c path : Decoder α).Escapes p e) : f.Blamed s e := by
  rw [(Decoder.escapes_fail h).2]
  exact .wording

theorem check_blamed {α : Type} {r : Except Cause α} (h : (Decoder.check r).Escapes p e) :
    f.Blamed s e := by
  rw [Decoder.escapes_check h]
  exact .wording

/-! ## Questions -/

/-- Of the condition of a field only its expression escapes. -/
theorem isPresent_blamed (h : (s.isPresent ctx f).Escapes p e) : f.Blamed s e := by
  unfold isPresent at h
  split at h
  · exact absurd h Decoder.not_escapes_pure
  rcases Decoder.escapes_bind.1 h with h | ⟨n, p', -, h⟩
  · exact evaluate_blamed h (by simp [Field.expressions])
  · exact absurd h Decoder.not_escapes_pure

theorem placed_blamed (h : (s.placed ctx f).Escapes p e) : f.Blamed s e := by
  unfold placed at h
  rcases Decoder.escapes_bind.1 h with h | ⟨n, p', -, h⟩
  · exact evaluate_blamed h (by simp [Field.expressions])
  cases n with
  | none => exact absurd h Decoder.not_escapes_pure
  | some n =>
      rcases Decoder.escapes_bind.1 h with h | ⟨offset, p'', -, h⟩
      · -- A number is no expression text, so only the wording of an error can escape here.
        rcases escapes_requireInt h with ⟨values, hevaluate⟩ | rfl
        · cases n <;> cases hevaluate
        · exact .wording
      · exact absurd h Decoder.not_escapes_pure

/-- Only a count is evaluated before the first element. -/
theorem repeatCount_blamed {r : Repetition} (hr : f.repetition = some r)
    (h : (s.repeatCount ctx f r).Escapes p e) : f.Blamed s e := by
  unfold repeatCount at h
  split at h
  case h_2 => exact absurd h Decoder.not_escapes_pure
  case h_1 expr =>
      dsimp only at h
      rcases Decoder.escapes_bind.1 h with h | ⟨n, p', -, h⟩
      · exact requireInt_blamed h (by simp [Field.expressions, hr, Repetition.expr])
      split at h
      · exact fail_blamed h
      split at h
      · exact fail_blamed h
      · exact absurd h Decoder.not_escapes_pure

theorem isSatisfied_blamed {r : Repetition} {index : Nat} {v : Value} {cursor : Int}
    (hr : f.repetition = some r) (h : (s.isSatisfied r ctx index v cursor).Escapes p e) :
    f.Blamed s e := by
  unfold isSatisfied at h
  split at h
  case h_2 => exact absurd h Decoder.not_escapes_pure
  case h_1 condition =>
      dsimp only at h
      rcases Decoder.escapes_bind.1 h with h | ⟨n, p', -, h⟩
      · exact evaluate_blamed h (by simp [Field.expressions, hr, Repetition.expr])
      · exact absurd h Decoder.not_escapes_pure

/-- A key is compared as an expression when it is no number, and that expression is one of the
field's. -/
theorem caseNumber_blamed {key : Value} (hkey : caseExpression key ∈ f.expressions)
    (h : (s.caseNumber place key).Escapes p e) : f.Blamed s e := by
  -- Stripping a key makes no run of digits longer, so the numeral stands in the key as well.
  have htext (hcase : caseExpression key = .str key.text)
      (h : (s.evaluate place (.str (Text.strip key.text))).Escapes p e) : f.Blamed s e := by
    obtain ⟨values, hevaluate⟩ := escapes_evaluate h
    obtain ⟨text, digits, heq, hlong, rfl⟩ := View.evaluate_escape hevaluate
    cases heq
    refine .numeral fun hshort => hlong ?_
    have hkeyShort : Expression.NoLongRun key.text.toList := hshort _ (hcase ▸ hkey)
    exact hkeyShort.of_infix (Text.strip_isInfix key.text)
  cases key with
  | bool | int | float => exact absurd h Decoder.not_escapes_pure
  -- All other keys are read as the text that they are printed as.
  | _ =>
      simp only [caseNumber] at h
      split at h
      · rw [Decoder.escapes_throw h]
        exact .wording
      split at h
      · exact absurd h Decoder.not_escapes_pure
      rcases Decoder.escapes_bind.1 h with h | ⟨n, p', -, h⟩
      · exact htext rfl h
      · cases n <;> exact absurd h Decoder.not_escapes_pure

/-- By induction on the cases: the first that fits ends the search. -/
theorem selectCase_blamed {d : Number} {entries : List (Value × String)}
    (hkeys : ∀ entry ∈ entries, caseExpression entry.1 ∈ f.expressions)
    (h : (s.selectCase place d entries).Escapes p e) : f.Blamed s e := by
  induction entries generalizing p with
  | nil => exact absurd h Decoder.not_escapes_pure
  | cons entry rest ih =>
      obtain ⟨key, typeName⟩ := entry
      have hrest {p' : Progress} (h : (s.selectCase place d rest).Escapes p' e) : f.Blamed s e :=
        ih (fun entry hentry => hkeys entry (List.mem_cons_of_mem _ hentry)) h
      unfold selectCase at h
      split at h
      · exact hrest h
      rcases Decoder.escapes_bind.1 h with h | ⟨n, p', -, h⟩
      · exact caseNumber_blamed (hkeys _ List.mem_cons_self) h
      split at h
      · split at h
        · exact absurd h Decoder.not_escapes_pure
        · exact hrest h
      · exact hrest h

/-- The discriminant and the keys are expressions of the field. -/
theorem selectType_blamed {sw : Switch} (hsw : f.type = .switched sw)
    (h : (s.selectType place f.id sw).Escapes p e) : f.Blamed s e := by
  have hmem {expr : Value} (hexpr : expr ∈ f.type.expressions) : expr ∈ f.expressions := by
    simp [Field.expressions, hexpr]
  have hkeys : ∀ entry ∈ sw.cases, caseExpression entry.1 ∈ f.expressions := by
    intro entry hentry
    refine hmem ?_
    rw [hsw]
    exact List.mem_cons_of_mem _ (List.mem_map_of_mem hentry)
  unfold selectType at h
  rcases Decoder.escapes_bind.1 h with h | ⟨d, p', -, h⟩
  · refine evaluate_blamed h (hmem ?_)
    rw [hsw]
    exact List.mem_cons_self
  dsimp only at h
  -- Without a discriminant only the default is left to choose.
  cases d with
  | none =>
      rcases Decoder.escapes_bind.1 h with h | ⟨selected, p'', -, h⟩
      · exact absurd h Decoder.not_escapes_pure
      split at h
      · exact absurd h Decoder.not_escapes_pure
      · exact fail_blamed h
  | some n =>
      rcases Decoder.escapes_bind.1 h with h | ⟨selected, p'', -, h⟩
      · exact selectCase_blamed hkeys h
      split at h
      · exact absurd h Decoder.not_escapes_pure
      · exact fail_blamed h

/-! ## Single values -/

/-- The size is the one expression that is evaluated to find the bytes. -/
theorem readSpan_blamed {what : String} {implied : Option UInt8}
    (h : (s.readSpan ctx f what implied).Escapes p e) : f.Blamed s e := by
  unfold readSpan at h
  dsimp only at h
  split at h
  · rcases Decoder.escapes_bind.1 h with h | ⟨size, p', -, h⟩
    · exact requireInt_blamed h (by simp [Field.expressions])
    · exact check_blamed h
  split at h
  · exact check_blamed h
  split at h
  · exact check_blamed h
  · exact fail_blamed h

theorem readBytes_blamed (h : (s.readBytes ctx f name).Escapes p e) : f.Blamed s e := by
  unfold readBytes at h
  rcases Decoder.escapes_bind.1 h with h | ⟨span, p', -, h⟩
  · exact readSpan_blamed h
  · exact absurd h Decoder.not_escapes_pure

theorem readText_blamed {terminated : Bool} (h : (s.readText ctx f name terminated).Escapes p e) :
    f.Blamed s e := by
  unfold readText at h
  rcases Decoder.escapes_bind.1 h with h | ⟨span, p', -, h⟩
  · exact readSpan_blamed h
  rcases Decoder.escapes_bind.1 h with h | ⟨text, p'', -, h⟩
  · exact .encoding (Encoding.unreadable_iff.2 ⟨_, Decoder.escapes_orEscape h⟩)
  rcases Decoder.escapes_bind.1 h with h | ⟨u, p₃, -, h⟩
  · exact absurd h (Decoder.yields_forIn_warn (u := ⟨⟩).2 rfl).not_escapes
  · exact absurd h Decoder.not_escapes_pure

/-- The escape is one of the field, or comes from a nested instance. -/
theorem decodeNamed_blamed {typeName : String}
    (h : (s.decodeNamed custom ctx f name typeName).Escapes p e) :
    f.Blamed s e ∨
      (Primitive.ofName? typeName = none ∧ (custom ctx f typeName name).Escapes p e) := by
  have hread {bytes : Except Cause (List UInt8)} {k : List UInt8 → Decoder Outcome}
      (hk : ∀ bytes p', ¬ (k bytes).Escapes p' e) (h : (Decoder.check bytes >>= k).Escapes p e) :
      f.Blamed s e := by
    rcases Decoder.escapes_bind.1 h with h | ⟨bytes, p', -, h⟩
    · exact check_blamed h
    · exact absurd h (hk bytes p')
  unfold decodeNamed at h
  split at h
  case h_1 => exact .inl (hread (fun _ _ => Decoder.not_escapes_pure) h)
  case h_2 => exact .inl (hread (fun _ _ => Decoder.not_escapes_pure) h)
  case h_3 => exact .inl (readBytes_blamed h)
  case h_4 => exact .inl (readText_blamed h)
  case h_5 hname => exact .inr ⟨hname, h⟩

/-- Where a single value escapes, its field is to blame, or the instance that it is. -/
theorem decodeSingle_blamed (h : (s.decodeSingle custom ctx f name).Escapes p e) :
    f.Blamed s e ∨ ∃ typeName, s.Selects ctx f p typeName ∧
      Primitive.ofName? typeName = none ∧ (custom ctx f typeName name).Escapes p e := by
  have h := Decoder.escapes_located h
  split at h
  case h_1 => exact .inl (readBytes_blamed h)
  case h_2 typeName htype =>
      refine (decodeNamed_blamed h).imp_right fun ⟨hname, hcustom⟩ => ?_
      exact ⟨typeName, by simp [Selects, htype], hname, hcustom⟩
  case h_3 sw htype =>
      rcases Decoder.escapes_bind.1 h with h | ⟨typeName, p', hselect, hrun⟩
      · exact .inl (selectType_blamed htype h)
      obtain rfl := selectType_inv hselect
      have hselected : s.Selects ctx f p' typeName := by
        unfold Selects
        rw [htype]
        exact hselect
      exact (decodeNamed_blamed hrun).imp_right fun hnested => ⟨typeName, hselected, hnested⟩

end Setting

/-! ## Places of the blame -/

/-- The escapes that a place is to blame for. -/
inductive Visit.Blames (s : Setting) : Visit → Escape → Prop
  /-- The field at hand is to blame. -/
  | field {v : Visit} {f : Field} {e : Escape} (atHand : v.station.fieldsAhead.head? = some f)
      (blamed : f.Blamed s e) : Blames s v e
  /-- A repetition without count was not over when it was given up. -/
  | unending {depth : Nat} {outer : List Frame} {ctx : Context} {f : Field} {r : Repetition}
      {cursor : Int} {p : Progress} :
      Blames s ⟨depth, outer, ctx, .elements f r none s.options.maxRounds cursor, p⟩ .unfinished

namespace Setting

variable {s : Setting} {R : Visit → Prop} {depth : Nat} {outer : List Frame} {ctx : Context}
  {f : Field} {p : Progress} {e : Escape}

/-- One of the places of `R` is to blame for the escape. -/
def Explains (s : Setting) (R : Visit → Prop) (e : Escape) : Prop := ∃ v, R v ∧ v.Blames s e

/-- What is asked of the fields of an instance in which `depth` more may be nested. -/
def ExplainsFields (s : Setting) (R : Visit → Prop) (depth : Nat) : Prop :=
  ∀ {outer : List Frame} {ctx : Context} {seq : List Field} {p : Progress} {done : List Node}
    {e : Escape}, R ⟨depth, outer, ctx, .fields seq, p⟩ →
      (s.decodeFields (s.nested depth) seq ctx done).Escapes p e → s.Explains R e

/-- How many rounds are left for a repetition before the element `index`. A count is used up before
they are. -/
def RoundsLeft (s : Setting) (count : Option Int) (rounds index : Nat) : Prop :=
  match count with
  | some n => index ≤ n.toNat ∧ rounds + index = n.toNat + 1
  | none => rounds + index = s.options.maxRounds

/-- A round that is not the last of a count leaves rounds for the elements behind it. -/
theorem RoundsLeft.next {r : Repetition} {count : Option Int} {rounds index : Nat} {cursor : Int}
    (h : s.RoundsLeft count (rounds + 1) index)
    (hmore : s.isComplete r count index cursor = false) :
    s.RoundsLeft count rounds (index + 1) := by
  cases count with
  | none =>
      unfold RoundsLeft at h ⊢
      omega
  | some n =>
      have hlt : (index : Int) < n := by simpa [isComplete] using hmore
      unfold RoundsLeft at h ⊢
      omega

variable (hR : s.Keeps R)
include hR

/-- A single value escapes in its own field, or in one of the instance that it is. -/
theorem single_explains {name : String}
    (hfields : ∀ left, depth = left + 1 → s.ExplainsFields R left)
    (hv : R ⟨depth, outer, ctx, .single f name, p⟩)
    (h : (s.decodeSingle (s.nested depth) ctx f name).Escapes p e) : s.Explains R e := by
  rcases decodeSingle_blamed h with hblamed | ⟨typeName, hselected, hcustom, hnested⟩
  · exact ⟨_, hv, .field rfl hblamed⟩
  unfold nested at hnested
  split at hnested
  case h_2 => cases (Decoder.escapes_fail hnested).1
  case h_1 definition chain hfound =>
      cases depth with
      | zero => cases (Decoder.escapes_fail hnested).1
      | succ left =>
          rcases Decoder.escapes_bind.1 hnested with hinside | ⟨_, p', -, hpure⟩
          · exact hfields left rfl (hR hv (.enter hselected hcustom hfound)) hinside
          · exact absurd hpure Decoder.not_escapes_pure

/-- By induction on the rounds. When none is left, only a repetition without count is not over. -/
theorem elements_explains {r : Repetition} {count : Option Int} {rounds index : Nat} {cursor : Int}
    {done : List Node} (hfields : ∀ left, depth = left + 1 → s.ExplainsFields R left)
    (hr : f.repetition = some r) (hrounds : s.RoundsLeft count rounds index)
    (hv : R ⟨depth, outer, ctx, .elements f r count index cursor, p⟩)
    (h : (s.decodeElements (s.nested depth) ctx f r count rounds index done cursor).Escapes p e) :
    s.Explains R e := by
  induction rounds generalizing index done cursor p with
  | zero =>
      obtain rfl := Decoder.escapes_throw h
      cases count with
      | none =>
          unfold RoundsLeft at hrounds
          obtain rfl : index = s.options.maxRounds := by omega
          exact ⟨_, hv, .unending⟩
      -- A count is used up before its rounds are.
      | some n =>
          unfold RoundsLeft at hrounds
          omega
  | succ rounds ih =>
      unfold decodeElements at h
      split at h
      · exact absurd h Decoder.not_escapes_pure
      case isFalse hmore =>
          -- The element escapes, or the condition behind it, or a later round.
          have hmore : s.isComplete r count index cursor = false := by simpa using hmore
          rcases Decoder.escapes_bind.1 h with hsingle | ⟨o, p₁, hsingle, h₁⟩
          · exact single_explains hR hfields (hR hv (.element hmore)) hsingle
          rcases Decoder.escapes_bind.1 h₁ with hcondition | ⟨holds, _, hholds, h₂⟩
          · exact ⟨_, hv, .field rfl (isSatisfied_blamed hr hcondition)⟩
          obtain rfl := isSatisfied_inv hholds
          cases holds with
          | true => exact absurd h₂ Decoder.not_escapes_pure
          | false =>
              rw [if_neg (by simp)] at h₂
              split at h₂
              case isTrue =>
                  rcases Decoder.escapes_bind.1 h₂ with hwarn | ⟨_, _, -, hpure⟩
                  · exact absurd hwarn Decoder.not_escapes_modify
                  · exact absurd hpure Decoder.not_escapes_pure
              case isFalse hmoves =>
                  exact ih (hrounds.next hmore) (hR hv (.next hmore hsingle hholds hmoves)) h₂

/-- A field is placed, and then it is a single value or as many elements as there are rounds. -/
theorem field_explains {rest : List Field}
    (hfields : ∀ left, depth = left + 1 → s.ExplainsFields R left)
    (hv : R ⟨depth, outer, ctx, .fields (f :: rest), p⟩)
    (hpresent : (s.isPresent ctx f).Yields p true p)
    (h : (s.decodeField (s.nested depth) ctx f).Escapes p e) : s.Explains R e := by
  rcases Decoder.escapes_bind.1 h with hposition | ⟨ctx', _, hplaced, h₁⟩
  · exact ⟨_, hv, .field rfl (placed_blamed hposition)⟩
  obtain ⟨rfl, -, -⟩ := placed_inv hplaced
  split at h₁
  case h_2 honce => exact single_explains hR hfields (hR hv (.value hpresent hplaced honce)) h₁
  case h_1 r hr =>
      rcases Decoder.escapes_bind.1 h₁ with hcount | ⟨count, _, hcount, h₂⟩
      · exact ⟨_, hv, .field rfl (repeatCount_blamed hr hcount)⟩
      obtain rfl := repeatCount_inv hcount
      rcases Decoder.escapes_bind.1 h₂ with helements | ⟨_, _, -, hpure⟩
      · have hstart := hR hv (.array hpresent hplaced hr hcount)
        -- Without a count there are as many rounds as are allowed; with one, one more than
        -- elements.
        cases count with
        | none =>
            have hrounds : s.RoundsLeft none s.options.maxRounds 0 := Nat.add_zero _
            exact elements_explains hR hfields hr hrounds hstart helements
        | some n =>
            have hrounds : s.RoundsLeft (some n) (n.toNat + 1) 0 :=
              ⟨Nat.zero_le _, Nat.add_zero _⟩
            exact elements_explains hR hfields hr hrounds hstart helements
      · exact absurd hpure Decoder.not_escapes_pure

/-- By induction on the fields: the condition of the first, the first itself, or the rest. -/
theorem sequence_explains {seq : List Field} {done : List Node}
    (hfields : ∀ left, depth = left + 1 → s.ExplainsFields R left)
    (hv : R ⟨depth, outer, ctx, .fields seq, p⟩)
    (h : (s.decodeFields (s.nested depth) seq ctx done).Escapes p e) : s.Explains R e := by
  induction seq generalizing ctx done p with
  | nil => exact absurd h Decoder.not_escapes_pure
  | cons f rest ih =>
      rcases Decoder.escapes_bind.1 h with hcondition | ⟨present, _, hpresent, h₁⟩
      · exact ⟨_, hv, .field rfl (isPresent_blamed hcondition)⟩
      obtain rfl := isPresent_inv hpresent
      cases present with
      | false => exact ih (hR hv (.skip hpresent)) h₁
      | true =>
          rcases Decoder.escapes_bind.1 h₁ with hfield | ⟨o, p₁, hdecoded, h₂⟩
          · exact field_explains hR hfields hv hpresent hfield
          rcases Decoder.escapes_bind.1 h₂ with hrecord | ⟨_, _, hrecord, h₃⟩
          · exact absurd hrecord Decoder.not_escapes_record
          obtain ⟨hnew, rfl⟩ := Decoder.yields_record.1 hrecord
          exact ih (hR hv (.past hpresent hdecoded hnew)) h₃

/-- By induction on the depth, as instances are nested in single values. -/
theorem explainsFields : s.ExplainsFields R depth := by
  refine @forall_depth (s.ExplainsFields R) ?_ depth
  intro depth hfields outer ctx seq p done e hv h
  exact sequence_explains hR hfields hv h

end Setting

namespace Schema

variable {schema : Schema} {options : Options} {buffer : Buffer} {e : Escape}

/-- Whatever escapes from a decode, a place that the decode comes to is to blame. -/
theorem decode_escape (h : schema.decode options buffer = .error e) :
    (schema.setting options buffer).Explains (schema.Reached options buffer) e := by
  unfold decode at h
  split at h
  case h_1 => cases h
  case h_2 definition hdefinition =>
      split at h
      case h_1 | h_2 => cases h
      case h_3 e' p hrun =>
          cases h
          have hescape : (schema.decodeRoot options definition buffer).Escapes {} e :=
            congrArg Prod.fst hrun
          unfold decodeRoot at hescape
          generalize hdepth : options.maxDepth.toNat = depth at hescape
          cases depth with
          -- The root takes one level, so a limit of none ends the decode with an error.
          | zero => cases (Decoder.escapes_fail hescape).1
          | succ depth =>
              rcases Decoder.escapes_bind.1 hescape with hinside | ⟨_, p', -, hpure⟩
              · exact Setting.explainsFields (fun _ _ => .step) (.root hdefinition hdepth) hinside
              · exact absurd hpure Decoder.not_escapes_pure

theorem decode_of_escapes {definition : TypeDef} (hroot : schema.rootType? = some definition)
    (h : (schema.decodeRoot options definition buffer).Escapes {} e) :
    schema.decode options buffer = .error e := by
  unfold Decoder.Escapes at h
  unfold decode
  rw [hroot]
  dsimp only
  generalize (schema.decodeRoot options definition buffer).run.run {} = r at h
  obtain ⟨r, p⟩ := r
  cases h
  rfl

/-- Text that is written in hexadecimal digits. -/
def digits : Schema where
  seq := some [{ id := "a", type := .named "str", size := .int 1, encoding := some "hex" }]

end Schema

end ByteSchema
