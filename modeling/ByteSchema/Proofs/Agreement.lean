import ByteSchema.Expression.Evaluate

/-!
# ByteSchema.Proofs.Agreement

The value of an expression depends on no identifiers but those that stand in its text.

Two readers *agree* on a text when they do the same on each rest of it and leave a rest of it. Readers
that are put together from agreeing parts agree, so two resolvers that give the same for every name
within the text make the whole grammar agree (`read_congr`). For a schema's expressions this means: an
expression that does not mention the buffer's end has the same value whatever the buffer's length.
-/

namespace ByteSchema.Expression

open ByteSchema.Text

variable {α β γ : Type} {text : List Char}

/-- The readers do the same on each rest of the text, and leave a rest of it. -/
def Agree (text : List Char) (m₁ m₂ : Reader β) : Prop :=
  ∀ i : Input, i.rest <:+ text →
    m₁.run.run i = m₂.run.run i ∧ (m₁.run.run i).2.rest <:+ text

/-! ## Combinators -/

theorem agree_pure (b : β) : Agree text (pure b) (pure b) := fun _ hi => ⟨rfl, hi⟩

theorem agree_noValue : Agree text (noValue : Reader β) noValue := fun _ hi => ⟨rfl, hi⟩

theorem agree_orStop (e : Except Stop β) : Agree text (orStop e) (orStop e) := by
  cases e with
  | ok b => exact agree_pure b
  | error stop => exact fun _ hi => ⟨rfl, hi⟩

/-- Two readers in a row agree if both pairs do; what is left of the text is part of it still. -/
theorem agree_bind {m₁ m₂ : Reader β} {k₁ k₂ : β → Reader γ} (hm : Agree text m₁ m₂)
    (hk : ∀ b, Agree text (k₁ b) (k₂ b)) : Agree text (m₁ >>= k₁) (m₂ >>= k₂) := by
  intro i hi
  obtain ⟨heq, hrest⟩ := hm i hi
  rw [run_bind, run_bind, ← heq]
  rcases hr : m₁.run.run i with ⟨stop | b, i'⟩
  · rw [hr] at hrest
    exact ⟨rfl, hrest⟩
  · rw [hr] at hrest
    exact hk b i' hrest

theorem agree_get : Agree text (get : Reader Input) get := fun _ hi => ⟨rfl, hi⟩

theorem agree_peek : Agree text peek peek := fun _ hi => ⟨rfl, hi⟩

theorem agree_skip (n : Nat) : Agree text (skip n) (skip n) :=
  fun i hi => ⟨rfl, (List.drop_suffix n i.rest).trans hi⟩

theorem agree_skipBlanks : Agree text skipBlanks skipBlanks :=
  fun _ hi => ⟨rfl, (List.dropWhile_suffix _).trans hi⟩

theorem agree_roundsLeft : Agree text roundsLeft roundsLeft := fun _ hi => ⟨rfl, hi⟩

/-! ## The grammar -/

variable {r₁ r₂ : Resolver α}

/-- The resolvers give the same for every name that stands in the text. -/
def SameWithin (text : List Char) (r₁ r₂ : Resolver α) : Prop :=
  ∀ name : String, name.toList <:+: text → r₁ name = r₂ name

/-- The one place where the resolvers are asked: the name is the front of a rest of the text. -/
theorem agree_identifier (h : SameWithin text r₁ r₂) :
    Agree text (identifier r₁) (identifier r₂) := by
  intro i hi
  have hname : i.rest.takeWhile continuesIdentifier <:+: text :=
    (List.takeWhile_prefix _).isInfix.trans hi.isInfix
  have hsame : r₁ (String.ofList (i.rest.takeWhile continuesIdentifier)) =
      r₂ (String.ofList (i.rest.takeWhile continuesIdentifier)) :=
    h _ (by rwa [String.toList_ofList])
  have hrest : i.rest.dropWhile continuesIdentifier <:+ text :=
    (List.dropWhile_suffix _).trans hi
  have hrun (r : Resolver α) : (identifier r).run.run i =
      (orStop (orNoValue (r (String.ofList (i.rest.takeWhile continuesIdentifier))))).run.run
        { rest := i.rest.dropWhile continuesIdentifier
          asked := String.ofList (i.rest.takeWhile continuesIdentifier) :: i.asked } := rfl
  rw [hrun, hrun, ← hsame]
  exact agree_orStop _ _ hrest

theorem agree_chain {m₁ m₂ : Reader α} (hm : Agree text m₁ m₂)
    (operators : List (Char × (α → α → Except Stop α))) (value : α) (rounds : Nat) :
    Agree text (chain operators m₁ value rounds) (chain operators m₂ value rounds) := by
  induction rounds generalizing value with
  | zero => exact agree_noValue
  | succ rounds ih =>
      refine agree_bind agree_skipBlanks fun _ => agree_bind agree_peek fun next => ?_
      split
      · refine agree_bind (agree_skip _) fun _ => agree_bind hm fun right => ?_
        exact agree_bind (agree_orStop _) fun _ => ih _
      · exact agree_pure _

variable [Arithmetic α]

theorem agree_numeral : Agree text (numeral : Reader α) numeral := by
  refine agree_bind agree_get fun i => agree_bind (agree_orStop _) fun entry => ?_
  exact agree_bind (agree_skip _) fun _ => agree_pure _

/-- Names are what two resolvers could tell apart, and these stand in the text. -/
theorem agree_primary (h : SameWithin text r₁ r₂) {b₁ b₂ : Reader α} (hb : Agree text b₁ b₂) :
    Agree text (primary r₁ b₁) (primary r₂ b₂) := by
  refine agree_bind agree_skipBlanks fun _ => agree_bind agree_peek fun next => ?_
  cases next with
  | none => exact agree_noValue
  | some c =>
      dsimp only
      split
      · refine agree_bind (agree_skip _) fun _ => agree_bind hb fun value => ?_
        refine agree_bind agree_skipBlanks fun _ => agree_bind agree_peek fun close => ?_
        split
        · exact agree_bind (agree_skip _) fun _ => agree_pure _
        · exact agree_noValue
      split
      · exact agree_numeral
      split
      · exact agree_identifier h
      · exact agree_noValue

theorem agree_unary {m₁ m₂ : Reader α} (hm : Agree text m₁ m₂) (rounds : Nat) :
    Agree text (unary m₁ rounds) (unary m₂ rounds) := by
  induction rounds with
  | zero => exact agree_noValue
  | succ rounds ih =>
      refine agree_bind agree_skipBlanks fun _ => agree_bind agree_peek fun next => ?_
      split
      · exact agree_bind (agree_skip _) fun _ => ih
      · exact agree_bind (agree_skip _) fun _ => agree_bind ih fun _ => agree_orStop _
      · exact hm

theorem agree_term {m₁ m₂ : Reader α} (hm : Agree text m₁ m₂) :
    Agree text (term m₁) (term m₂) := by
  refine agree_bind agree_roundsLeft fun rounds => ?_
  exact agree_bind (agree_unary hm rounds) fun _ => agree_chain (agree_unary hm rounds) _ _ _

theorem agree_additive {m₁ m₂ : Reader α} (hm : Agree text m₁ m₂) :
    Agree text (additive m₁) (additive m₂) := by
  refine agree_bind agree_roundsLeft fun rounds => ?_
  exact agree_bind (agree_term hm) fun _ => agree_chain (agree_term hm) _ _ _

theorem agree_comparison (h : SameWithin text r₁ r₂) (depth : Nat) :
    Agree text (comparison r₁ depth) (comparison r₂ depth) := by
  induction depth with
  | zero => exact agree_noValue
  | succ depth ih =>
      have hoperand := agree_additive (agree_primary h ih)
      refine agree_bind hoperand fun left => agree_bind agree_skipBlanks fun _ => ?_
      refine agree_bind agree_get fun i => ?_
      split
      · refine agree_bind (agree_skip _) fun _ => agree_bind hoperand fun right => ?_
        exact agree_bind (agree_orStop _) fun _ => agree_pure _
      · exact agree_pure _

/-- Readers that resolve the names of a text alike read it alike. -/
theorem agree_whole (h : SameWithin text r₁ r₂) (depth : Nat) :
    Agree text (whole r₁ depth) (whole r₂ depth) := by
  refine agree_bind (agree_comparison h depth) fun value => ?_
  refine agree_bind agree_skipBlanks fun _ => agree_bind agree_get fun i => ?_
  split
  · exact agree_pure _
  · exact agree_noValue

/-- Resolvers that give the same for every name in a text read it the same. -/
theorem read_congr {s : String} (h : SameWithin s.toList r₁ r₂) : read s r₁ = read s r₂ := by
  unfold read
  dsimp only
  rw [(agree_whole h (s.toList.length + 1) { rest := s.toList } List.suffix_rfl).1]

end ByteSchema.Expression

namespace ByteSchema

/-! ## The end of the buffer -/

/-- The part stands somewhere in the text. -/
def Text.Occurs (part s : String) : Prop := part.toList <:+: s.toList

instance (part s : String) : Decidable (Text.Occurs part s) :=
  inferInstanceAs (Decidable (part.toList <:+: s.toList))

/-- The text has none of the two names that speak of where the buffer ends. -/
def Text.IsLocal (s : String) : Prop := ¬ Text.Occurs "_io.size" s ∧ ¬ Text.Occurs "_io.eof" s

instance (s : String) : Decidable (Text.IsLocal s) := inferInstanceAs (Decidable (_ ∧ _))

theorem Text.strip_isInfix (s : String) : (Text.strip s).toList <:+: s.toList := by
  have hfront := (List.dropWhile_suffix (l := s.toList) Text.isBlank).isInfix
  have hback : ((s.toList.dropWhile Text.isBlank).reverse.dropWhile Text.isBlank).reverse <:+:
      s.toList.dropWhile Text.isBlank := by
    rw [← List.reverse_infix, List.reverse_reverse]
    exact (List.dropWhile_suffix _).isInfix
  rw [Text.strip, String.toList_ofList]
  exact hback.trans hfront

/-- What stands in a part of a local text is local. -/
theorem Text.IsLocal.of_isInfix {part s : String} (h : Text.IsLocal s)
    (hpart : part.toList <:+: s.toList) : Text.IsLocal part :=
  ⟨fun hsize => h.1 (hsize.trans hpart), fun heof => h.2 (heof.trans hpart)⟩

namespace View

/-- The view with a buffer of another length. -/
def resize (v : View) (size : Nat) : View := { v with size }

/-- Only the names of the buffer's size tell two sizes apart. -/
theorem resolve_resize (v : View) (size : Nat) {name : String} (h : Text.IsLocal name) :
    (v.resize size).resolve name = v.resolve name := by
  have hstrip := h.of_isInfix (Text.strip_isInfix name)
  have hsize : Text.strip name ≠ "_io.size" := fun heq => hstrip.1 (heq ▸ List.infix_rfl)
  have heof : Text.strip name ≠ "_io.eof" := fun heq => hstrip.2 (heq ▸ List.infix_rfl)
  have hplace : (v.resize size).place = v.place := rfl
  have hcandidates : (v.resize size).candidates = v.candidates := rfl
  have hnumber : (v.resize size).numberAt? = v.numberAt? := rfl
  simp only [resolve, hsize, heof, if_false, hplace, hcandidates, hnumber]

/-- The text that an expression is read from. -/
def source? : Value → Option String
  | .str s => some s
  | _ => none

/-- An expression that is no text, or that does not mention the end of the buffer. -/
def IsLocal (expr : Value) : Prop := ∀ s ∈ source? expr, Text.IsLocal s

instance (expr : Value) : Decidable (IsLocal expr) :=
  inferInstanceAs (Decidable (∀ s ∈ source? expr, Text.IsLocal s))

/-- An expression without these names has one value for all sizes. -/
theorem evaluate_resize (v : View) (size : Nat) {expr : Value} (h : IsLocal expr) :
    (v.resize size).evaluate expr = v.evaluate expr := by
  cases expr with
  | str s =>
      have hsame : Expression.SameWithin s.toList (v.resize size).resolve v.resolve :=
        fun name hname => resolve_resize v size ((h s rfl).of_isInfix hname)
      simp only [evaluate, Expression.read_congr hsame]
  | _ => rfl

theorem requireInt_resize (v : View) (size : Nat) {what : String} {expr : Value}
    {path : Option String} (h : IsLocal expr) :
    (v.resize size).requireInt what expr path = v.requireInt what expr path := by
  simp only [requireInt, evaluate_resize v size h]

end View

end ByteSchema
