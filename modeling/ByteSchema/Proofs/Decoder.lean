import ByteSchema.Decode

/-!
# ByteSchema.Proofs.Decoder

Inverting the decoder monad.

`step.Yields p a p'` says that `step`, started in the progress `p`, succeeds with `a` and leaves `p'`.
A successful run of a `do` block decomposes into successful runs of its parts; the lemmas below say
how, one for each operation that decoders are built from. All later proofs open a decoder through
them and never through the monad itself.
-/

namespace ByteSchema

/-- The progress with one more entry in the table of values. -/
def Progress.write (p : Progress) (path : String) (v : Value) : Progress :=
  { p with values := ⟨(path, v) :: p.values.entries⟩ }

@[simp] theorem Progress.entries_write (p : Progress) (path : String) (v : Value) :
    (p.write path v).values.entries = (path, v) :: p.values.entries := rfl

namespace Decoder

variable {α β : Type}

/-- What comes of one step after another. -/
theorem run_bind (step : Decoder α) (f : α → Decoder β) (p : Progress) :
    (step >>= f).run.run p =
      match step.run.run p with
      | (.ok a, p') => (f a).run.run p'
      | (.error e, p') => (.error e, p') := by
  simp only [ExceptT.run_bind, StateT.run_bind]
  rcases step.run.run p with ⟨_ | _, _⟩ <;> rfl

/-- Locating a step changes only the failure that it ends with. -/
theorem run_located (path : String) (step : Decoder α) (p : Progress) :
    (located path step).run.run p =
      ((step.run.run p).1.mapError (Failure.withPath path), (step.run.run p).2) := rfl

/-- `step`, started in `p`, succeeds with `a` and leaves `p'`. -/
def Yields (step : Decoder α) (p : Progress) (a : α) (p' : Progress) : Prop :=
  step.run.run p = (.ok a, p')

/-- A step succeeds in one way only. -/
theorem Yields.unique {step : Decoder α} {p p₁ p₂ : Progress} {a b : α} (h : step.Yields p a p₁)
    (h' : step.Yields p b p₂) : b = a ∧ p₂ = p₁ := by
  unfold Yields at h h'
  rw [h] at h'
  cases h'
  exact ⟨rfl, rfl⟩

@[simp] theorem yields_pure {a b : α} {p p' : Progress} :
    (pure a : Decoder α).Yields p b p' ↔ b = a ∧ p' = p := by
  constructor
  · intro h
    cases h
    exact ⟨rfl, rfl⟩
  · rintro ⟨rfl, rfl⟩
    rfl

/-- The workhorse: invert one `do`-step. -/
@[simp] theorem yields_bind {step : Decoder α} {f : α → Decoder β} {p p'' : Progress} {b : β} :
    (step >>= f).Yields p b p'' ↔ ∃ a p', step.Yields p a p' ∧ (f a).Yields p' b p'' := by
  unfold Yields
  rw [run_bind]
  rcases step.run.run p with ⟨_ | a, p'⟩
  · constructor
    · intro h
      cases h
    · rintro ⟨_, _, h, _⟩
      cases h
  · constructor
    · intro h
      exact ⟨a, p', rfl, h⟩
    · rintro ⟨_, _, heq, h⟩
      cases heq
      exact h

/-! ## Failing -/

@[simp] theorem not_yields_throw {e : Failure} {p p' : Progress} {a : α} :
    ¬ (throw e : Decoder α).Yields p a p' := by
  intro h
  cases h

@[simp] theorem not_yields_fail {c : Cause} {path : Option String} {p p' : Progress} {a : α} :
    ¬ (fail c path : Decoder α).Yields p a p' :=
  not_yields_throw

@[simp] theorem yields_check {e : Except Cause α} {p p' : Progress} {a : α} :
    (check e).Yields p a p' ↔ e = .ok a ∧ p' = p := by
  cases e with
  | ok b => simp [check, eq_comm]
  | error c => simp [check]

@[simp] theorem yields_lift {e : Except Failure α} {p p' : Progress} {a : α} :
    (lift e).Yields p a p' ↔ e = .ok a ∧ p' = p := by
  cases e with
  | ok b => simp [lift, eq_comm]
  | error failure => simp [lift]

@[simp] theorem yields_orEscape {e : Except Escape α} {p p' : Progress} {a : α} :
    (orEscape e).Yields p a p' ↔ e = .ok a ∧ p' = p := by
  cases e with
  | ok b => simp [orEscape, eq_comm]
  | error escape => simp [orEscape]

/-- Giving errors a path changes nothing about success. -/
@[simp] theorem yields_located {path : String} {step : Decoder α} {p p' : Progress} {a : α} :
    (located path step).Yields p a p' ↔ step.Yields p a p' := by
  unfold Yields
  rw [run_located]
  rcases step.run.run p with ⟨_ | _, _⟩
  · constructor <;> intro h <;> cases h
  · exact Iff.rfl

/-! ## Reading and changing the progress -/

@[simp] theorem yields_get {p p' q : Progress} :
    (get : Decoder Progress).Yields p q p' ↔ q = p ∧ p' = p := by
  constructor
  · intro h
    cases h
    exact ⟨rfl, rfl⟩
  · rintro ⟨rfl, rfl⟩
    rfl

@[simp] theorem yields_modify {f : Progress → Progress} {p p' : Progress} {u : Unit} :
    (modify f : Decoder Unit).Yields p u p' ↔ p' = f p := by
  constructor
  · intro h
    cases h
    rfl
  · rintro rfl
    rfl

@[simp] theorem yields_warn {message : String} {p p' : Progress} {u : Unit} :
    (warn message).Yields p u p' ↔ p' = { p with warnings := p.warnings ++ [message] } :=
  yields_modify

/-- Warnings are added in order. -/
@[simp] theorem yields_forIn_warn {items : List α} {text : α → String} {p p' : Progress}
    {u : PUnit} :
    (forIn items PUnit.unit fun a (_ : PUnit) => do
        warn (text a)
        pure (ForInStep.yield PUnit.unit) : Decoder PUnit).Yields p u p' ↔
      p' = { p with warnings := p.warnings ++ items.map text } := by
  induction items generalizing p with
  | nil => simp
  | cons a rest ih =>
      rw [List.forIn_cons]
      simp only [yields_bind, yields_warn, yields_pure]
      constructor
      · rintro ⟨_, _, ⟨_, _, rfl, rfl, rfl⟩, h⟩
        simpa using ih.1 h
      · rintro rfl
        exact ⟨.yield PUnit.unit, _, ⟨(), _, rfl, rfl, rfl⟩, ih.2 (by simp)⟩

/-- A path is written when it is new. -/
@[simp] theorem yields_record {path : String} {v : Value} {p p' : Progress} {u : Unit} :
    (record path v).Yields p u p' ↔
      p.values.get? path = none ∧ p' = p.write path v := by
  unfold record
  simp only [yields_bind, yields_get, and_assoc, exists_and_left, exists_eq_left]
  cases hr : p.values.record path v with
  | ok t =>
      obtain ⟨hn, rfl⟩ := ValueTable.record_eq_ok_iff.1 hr
      simp [hn, Progress.write]
  | error e =>
      have hsome : p.values.get? path ≠ none := by
        intro hn
        simp [ValueTable.record, hn, pure, Except.pure] at hr
      simp [hsome]

/-! ## Refinement -/

/-- Where the first decoder succeeds, the second does the same. -/
def Refines (m m' : Decoder α) : Prop := ∀ ⦃p a p'⦄, m.Yields p a p' → m'.Yields p a p'

theorem refines_rfl {m : Decoder α} : Refines m m := fun _ _ _ h => h

theorem refines_bind {m m' : Decoder α} {k k' : α → Decoder β} (hm : Refines m m')
    (hk : ∀ a, Refines (k a) (k' a)) : Refines (m >>= k) (m' >>= k') := by
  intro p b p'' h
  obtain ⟨a, p', ha, hb⟩ := yields_bind.1 h
  exact yields_bind.2 ⟨a, p', hm ha, hk a hb⟩

theorem refines_check {e e' : Except Cause α} (h : ∀ a, e = .ok a → e' = .ok a) :
    Refines (check e) (check e') := by
  intro p a p' hrun
  obtain ⟨ha, rfl⟩ := yields_check.1 hrun
  exact yields_check.2 ⟨h a ha, rfl⟩

theorem refines_located {path : String} {m m' : Decoder α} (h : Refines m m') :
    Refines (located path m) (located path m') :=
  fun _ _ _ hrun => yields_located.2 (h (yields_located.1 hrun))

theorem refines_fail {c : Cause} {path : Option String} {m : Decoder α} :
    Refines (fail c path) m :=
  fun _ _ _ h => absurd h not_yields_fail

end Decoder

namespace Setting

variable {s : Setting} {place : Place} {p p' : Progress}

/-- An expression is evaluated on what is decoded so far, and changes nothing. -/
@[simp] theorem yields_evaluate {expr : Value} {n : Option Number} :
    (s.evaluate place expr).Yields p n p' ↔
      (s.view place p.values).evaluate expr = .ok n ∧ p' = p := by
  unfold evaluate
  simp [and_assoc]

@[simp] theorem yields_requireInt {what path : String} {expr : Value} {n : Int} :
    (s.requireInt place what expr path).Yields p n p' ↔
      (s.view place p.values).requireInt what expr (some path) = .ok n ∧ p' = p := by
  unfold requireInt
  simp [and_assoc]

end Setting

end ByteSchema
