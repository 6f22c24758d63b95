import ByteSchema.Expression.Operand
import ByteSchema.Proofs.Grammar

/-!
# ByteSchema.Proofs.Exact

Arithmetic that is exact on integers.

Sums, differences, products, opposites and comparisons of integers are those of the integers, with
no bound; and numbers never mismatch, so an operation on them gives a number or has no result. Both
kinds of operands that expressions are read for are such: the numbers of a schema's expressions, and
the values that a host supplies. A tree without quotient is then worth its meaning
(`eval_integers`).
-/

namespace ByteSchema.Expression

variable {α : Type}

/-- The computation gives a number, or has no result. -/
def GivesNumber (IsNumber : α → Prop) (e : Except Stop α) : Prop :=
  (∃ a, e = .ok a ∧ IsNumber a) ∨ e = .error .noValue

/-- Arithmetic that is exact on integers, and that joins all numbers. -/
class Exact (α : Type) [Arithmetic α] where
  /-- The operands that are numbers. -/
  IsNumber : α → Prop
  isNumber_ofInt (n : Int) : IsNumber (Arithmetic.ofInt n)
  neg_number {a : α} (ha : IsNumber a) : GivesNumber IsNumber (Arithmetic.neg a)
  apply_number (op : Operation) {a b : α} (ha : IsNumber a) (hb : IsNumber b) :
    GivesNumber IsNumber (op.apply a b)
  holds_number (op : Comparison) {a b : α} (ha : IsNumber a) (hb : IsNumber b) :
    ∃ truth, Arithmetic.holds op a b = .ok truth
  neg_ofInt (n : Int) : (Arithmetic.neg (Arithmetic.ofInt n) : Except Stop α) =
    .ok (Arithmetic.ofInt (-n))
  apply_ofInt {op : Operation} {m n k : Int} (h : op.onIntegers m n = some k) :
    (op.apply (Arithmetic.ofInt m) (Arithmetic.ofInt n) : Except Stop α) =
      .ok (Arithmetic.ofInt k)
  holds_ofInt (op : Comparison) (m n : Int) :
    Arithmetic.holds op (Arithmetic.ofInt m : α) (Arithmetic.ofInt n) = .ok (compares op m n)
  normalize_ofInt (n : Int) : Arithmetic.normalize (Arithmetic.ofInt n : α) = Arithmetic.ofInt n

/-! ## Numbers and values -/

theorem givesNumber_orNoValue {IsNumber : α → Prop} {found : Option α}
    (h : ∀ a, found = some a → IsNumber a) : GivesNumber IsNumber (orNoValue found) := by
  cases found with
  | none => exact .inr rfl
  | some a => exact .inl ⟨a, rfl, h a rfl⟩

/-- Comparing integers as numbers is comparing them. -/
theorem holds_int (op : Comparison) (m n : Int) :
    op.holds (.int m) (.int n) = compares op m n := by
  rw [Bool.eq_iff_iff]
  cases op <;> simp [Comparison.holds, compares, Int.compare_eq_lt, Int.compare_eq_gt] <;> omega

instance : Exact Number where
  IsNumber _ := True
  isNumber_ofInt _ := trivial
  neg_number _ := .inl ⟨_, rfl, trivial⟩
  apply_number op _ _ _ _ := by
    cases op <;> exact givesNumber_orNoValue fun _ _ => trivial
  holds_number _ _ _ _ _ := ⟨_, rfl⟩
  neg_ofInt _ := rfl
  apply_ofInt {op m n k} h := by
    cases op with
    | add | sub | mul => obtain rfl := Option.some.inj h; rfl
    | div => cases h
  holds_ofInt op m n := congrArg Except.ok (holds_int op m n)
  normalize_ofInt _ := rfl

@[simp] theorem asNumber?_toValue (a : Number) : Value.asNumber? a.toValue = some a := by
  cases a <;> rfl

theorem joinNumbers_toValue (join : Number → Number → Option Number) (a b : Number) :
    joinNumbers join a.toValue b.toValue = orNoValue ((join a b).map Number.toValue) := by
  simp [joinNumbers]

/-- A number is not repeated, whatever the count. -/
theorem repeated?_toValue (a : Number) (count : Int) : repeated? a.toValue count = none := by
  cases a <;> rfl

/-- On numbers the operations of values are those of numbers. -/
theorem apply_toValue (op : Operation) (a b : Number) :
    op.apply a.toValue b.toValue = (op.apply a b).map Number.toValue := by
  have hmap (found : Option Number) : orNoValue (found.map Number.toValue) =
      (orNoValue found).map Number.toValue := by cases found <;> rfl
  cases op with
  | add =>
      have hadd : add a.toValue b.toValue = joinNumbers Number.add a.toValue b.toValue := by
        cases a <;> cases b <;> rfl
      exact hadd.trans ((joinNumbers_toValue _ _ _).trans (hmap _))
  | sub => exact (joinNumbers_toValue _ _ _).trans (hmap _)
  | mul =>
      have hbyCount (count : Option Int) (a : Number) :
          count.bind (repeated? a.toValue) = none := by
        cases count <;> simp [repeated?_toValue]
      have hmul : mul a.toValue b.toValue = joinNumbers Number.mul a.toValue b.toValue := by
        simp [mul, hbyCount]
      exact hmul.trans ((joinNumbers_toValue _ _ _).trans (hmap _))
  | div => exact (joinNumbers_toValue _ _ _).trans (hmap _)

theorem ordered_toValue (op : Comparison) (a b : Number) :
    ordered op a.toValue b.toValue = .ok (op.holds a b) := by
  cases a <;> cases b <;> simp [Number.toValue, ordered, Value.asNumber?]

theorem equal_toValue (a b : Number) : Value.equal a.toValue b.toValue = a.equal b := by
  cases a <;> cases b <;> simp [Number.toValue, Value.equal, Value.asNumber?]

/-- On numbers the comparisons of values are those of numbers. -/
theorem holds_toValue (op : Comparison) (a b : Number) :
    holds op a.toValue b.toValue = .ok (op.holds a b) := by
  cases op with
  | eq | ne => simp [holds, equal_toValue, Number.equal, Comparison.holds, bne]
  | le | ge | lt | gt => exact ordered_toValue _ a b

instance : Exact Value where
  IsNumber v := ∃ a : Number, v = a.toValue
  isNumber_ofInt n := ⟨.int n, rfl⟩
  neg_number := by
    rintro _ ⟨a, rfl⟩
    exact .inl ⟨a.neg.toValue, by simp [Arithmetic.neg, neg], a.neg, rfl⟩
  apply_number op := by
    rintro _ _ ⟨a, rfl⟩ ⟨b, rfl⟩
    rw [apply_toValue]
    rcases Exact.apply_number op (a := a) (b := b) trivial trivial with ⟨c, hc, -⟩ | hc
    · exact .inl ⟨c.toValue, by rw [hc]; rfl, c, rfl⟩
    · exact .inr (by rw [hc]; rfl)
  holds_number op := by
    rintro _ _ ⟨a, rfl⟩ ⟨b, rfl⟩
    exact ⟨_, holds_toValue op a b⟩
  neg_ofInt _ := rfl
  apply_ofInt {op m n k} h := by
    have happly : op.apply (Number.int m) (Number.int n) = .ok (Number.int k) :=
      Exact.apply_ofInt h
    exact (apply_toValue op (.int m) (.int n)).trans (by rw [happly]; rfl)
  holds_ofInt op m n :=
    (holds_toValue op (.int m) (.int n)).trans (congrArg Except.ok (holds_int op m n))
  normalize_ofInt _ := rfl

/-! ## Trees -/

variable [Arithmetic α] [Exact α]

/-- Names that stand for integers. -/
def integers (resolve : String → Option Int) : Resolver α :=
  fun x => (resolve x).map Arithmetic.ofInt

theorem isNumber_of_integers (resolve : String → Option Int) (x : String) (a : α)
    (h : integers resolve x = some a) : Exact.IsNumber a := by
  obtain ⟨n, -, rfl⟩ := Option.map_eq_some_iff.1 h
  exact Exact.isNumber_ofInt n

theorem givesNumber_bind {e : Except Stop α} {k : α → Except Stop α}
    (he : GivesNumber (Exact.IsNumber (α := α)) e)
    (hk : ∀ a, Exact.IsNumber a → GivesNumber Exact.IsNumber (k a)) :
    GivesNumber Exact.IsNumber (e >>= k) := by
  rcases he with ⟨a, rfl, ha⟩ | rfl
  · exact hk a ha
  · exact .inr rfl

namespace Tree

/-- Where names stand for numbers, a tree gives a number or has no value. -/
theorem eval_number {resolve : Resolver α}
    (hresolve : ∀ x a, resolve x = some a → Exact.IsNumber a) (t : Tree) :
    GivesNumber Exact.IsNumber (t.eval resolve) := by
  induction t with
  | numeral n => exact .inl ⟨_, rfl, Exact.isNumber_ofInt _⟩
  | name x => exact givesNumber_orNoValue (hresolve x)
  | neg t ih => exact givesNumber_bind ih fun _ => Exact.neg_number
  | binary op l r ihl ihr =>
      exact givesNumber_bind ihl fun _ ha => givesNumber_bind ihr fun _ hb =>
        Exact.apply_number op ha hb
  | compare op l r ihl ihr =>
      refine givesNumber_bind ihl fun a ha => givesNumber_bind ihr fun b hb => ?_
      obtain ⟨truth, htruth⟩ := Exact.holds_number op ha hb
      rw [htruth]
      exact .inl ⟨_, rfl, Exact.isNumber_ofInt _⟩

/-- Does a quotient stand in the tree? -/
def hasQuotient : Tree → Bool
  | numeral _ => false
  | name _ => false
  | neg t => t.hasQuotient
  | binary op l r => op == .div || l.hasQuotient || r.hasQuotient
  | compare _ l r => l.hasQuotient || r.hasQuotient

/-- Any two integers have a sum, a difference and a product. -/
theorem exists_onIntegers {op : Operation} (h : op ≠ .div) (m n : Int) :
    ∃ k, op.onIntegers m n = some k := by
  cases op with
  | add | sub | mul => exact ⟨_, rfl⟩
  | div => exact absurd rfl h

/-- A tree without quotient has a meaning when all of its names have one, and only then. -/
theorem meaning_isSome {resolve : String → Option Int} {t : Tree} (h : t.hasQuotient = false) :
    (t.meaning resolve).isSome ↔ ∀ x ∈ t.names, (resolve x).isSome := by
  induction t with
  | numeral n => simp [meaning, names]
  | name x => simp [meaning, names]
  | neg t ih =>
      rw [names, ← ih h, meaning]
      cases t.meaning resolve <;> simp
  | binary op l r ihl ihr =>
      simp only [hasQuotient, Bool.or_eq_false_iff, beq_eq_false_iff_ne] at h
      rw [names, List.forall_mem_append, ← ihl h.1.2, ← ihr h.2, meaning]
      cases l.meaning resolve with
      | none => simp
      | some m =>
        cases r.meaning resolve with
        | none => simp
        | some n =>
          -- The other operations are defined for all integers.
          obtain ⟨k, hk⟩ := exists_onIntegers h.1.1 m n
          simp [hk]
  | compare op l r ihl ihr =>
      simp only [hasQuotient, Bool.or_eq_false_iff] at h
      rw [names, List.forall_mem_append, ← ihl h.1, ← ihr h.2, meaning]
      cases l.meaning resolve <;> cases r.meaning resolve <;> simp

/-- Where names stand for integers, a tree without quotient is worth its meaning. -/
theorem eval_integers {resolve : String → Option Int} {t : Tree} (h : t.hasQuotient = false) :
    t.eval (integers resolve) =
      (orNoValue ((t.meaning resolve).map Arithmetic.ofInt) : Except Stop α) := by
  induction t with
  | numeral n => rfl
  | name x => rfl
  | neg t ih =>
      rw [eval, ih h, meaning]
      cases t.meaning resolve with
      | none => rfl
      | some n => exact Exact.neg_ofInt n
  -- Both sides stop at the first operand that has no value.
  | binary op l r ihl ihr =>
      simp only [hasQuotient, Bool.or_eq_false_iff, beq_eq_false_iff_ne] at h
      rw [eval, ihl h.1.2, ihr h.2, meaning]
      cases l.meaning resolve with
      | none => rfl
      | some m =>
        cases r.meaning resolve with
        | none => rfl
        | some n =>
          obtain ⟨k, hk⟩ := exists_onIntegers h.1.1 m n
          exact (Exact.apply_ofInt hk).trans (by simp [hk, orNoValue])
  | compare op l r ihl ihr =>
      simp only [hasQuotient, Bool.or_eq_false_iff] at h
      rw [eval, ihl h.1, ihr h.2, meaning]
      cases l.meaning resolve with
      | none => rfl
      | some m =>
        cases r.meaning resolve with
        | none => rfl
        | some n =>
          change (Arithmetic.holds op (Arithmetic.ofInt m : α) (Arithmetic.ofInt n) >>= _) = _
          rw [Exact.holds_ofInt]
          rfl

end Tree

/-- A quotient leaves its sign in the text. -/
theorem Derives.mem_of_hasQuotient {level : Level} {text : List Char} {t : Tree}
    (h : Derives level text t) (hquotient : t.hasQuotient = true) : '/' ∈ text := by
  induction h with
  | numeral | name => cases hquotient
  | brackets _ _ _ ih => simp [ih hquotient]
  | primary _ ih | unary _ ih | term _ ih | additive _ ih => exact ih hquotient
  | plus _ _ ih | minus _ _ ih => simp [ih hquotient]
  | @product op _ _ _ _ _ _ _ _ _ ihl ihr | @sum op _ _ _ _ _ _ _ _ _ ihl ihr =>
      simp only [Tree.hasQuotient, Bool.or_eq_true, beq_iff_eq] at hquotient
      rcases hquotient with (rfl | hl) | hr
      · simp [Operation.sign]
      · simp [ihl hl]
      · simp [ihr hr]
  | compare _ _ _ ihl ihr =>
      simp only [Tree.hasQuotient, Bool.or_eq_true] at hquotient
      rcases hquotient with hl | hr
      · simp [ihl hl]
      · simp [ihr hr]

end ByteSchema.Expression
