import ByteSchema.Proofs.Exact
import ByteSchema.Proofs.Numeral

/-!
# ByteSchema.Proofs.ReaderSound

What the reader of expressions accepts, the grammar derives.

Each reader of the grammar either gives up, for want of a value or before too long a numeral, or has
read a phrase of its level with a tree that evaluates to what it returns, and has asked for the
names of this tree (`HasRead`). Blanks that it skipped in search of an operator may follow the
phrase. The loops for products and for sums are one loop; the phrase that stands before it grows
with each round (`chain_sound`).
-/

namespace ByteSchema.Expression

open ByteSchema.Text

variable {α β γ : Type} {i i' : Input} {text : List Char}

/-! ## Readers that return or give up -/

/-- The reader returns as `post` says, or it gives up as reading the text may. -/
def Settles (text : List Char) (m : Reader β) (i : Input) (post : β → Input → Prop) : Prop :=
  match m.run.run i with
  | (.ok b, i') => post b i'
  | (.error stop, _) => Stops text stop

theorem Settles.mono {m : Reader β} {post post' : β → Input → Prop} (h : Settles text m i post)
    (hpost : ∀ b i', post b i' → post' b i') : Settles text m i post' := by
  unfold Settles at h ⊢
  split
  · next hrun => rw [hrun] at h; exact hpost _ _ h
  · next hrun => rw [hrun] at h; exact h

/-- A reader in two steps settles when the first leads the second to settle. -/
@[simp] theorem settles_bind {m : Reader β} {k : β → Reader γ} {post : γ → Input → Prop} :
    Settles text (m >>= k) i post ↔ Settles text m i fun b i' => Settles text (k b) i' post := by
  unfold Settles
  rw [run_bind]
  rcases m.run.run i with ⟨_ | _, _⟩ <;> exact Iff.rfl

@[simp] theorem settles_pure {b : β} {post : β → Input → Prop} :
    Settles text (pure b) i post ↔ post b i := Iff.rfl

@[simp] theorem settles_noValue {post : β → Input → Prop} : Settles text noValue i post :=
  Stops.noValue

@[simp] theorem settles_orStop_ok {b : β} {post : β → Input → Prop} :
    Settles text (orStop (.ok b)) i post ↔ post b i := Iff.rfl

theorem settles_orStop_error {stop : Stop} (h : Stops text stop) {post : β → Input → Prop} :
    Settles text (orStop (.error stop)) i post := h

@[simp] theorem settles_get {post : Input → Input → Prop} :
    Settles text get i post ↔ post i i := Iff.rfl

@[simp] theorem settles_modify {f : Input → Input} {post : Unit → Input → Prop} :
    Settles text (modify f) i post ↔ post () (f i) := Iff.rfl

@[simp] theorem settles_peek {post : Option Char → Input → Prop} :
    Settles text peek i post ↔ post i.rest.head? i := Iff.rfl

@[simp] theorem settles_skip {n : Nat} {post : Unit → Input → Prop} :
    Settles text (skip n) i post ↔ post () { i with rest := i.rest.drop n } := Iff.rfl

@[simp] theorem settles_roundsLeft {post : Nat → Input → Prop} :
    Settles text roundsLeft i post ↔ post (i.rest.length + 1) i := Iff.rfl

/-- Skipping blanks splits them off the text. -/
theorem settles_skipBlanks {post : Unit → Input → Prop}
    (h : ∀ ws rest, i.rest = ws ++ rest → Blank ws → post () { i with rest }) :
    Settles text skipBlanks i post :=
  h _ _ List.takeWhile_append_dropWhile.symm fun _ => List.mem_takeWhile_imp

theorem Blank.append {ws ws' : List Char} (h : Blank ws) (h' : Blank ws') : Blank (ws ++ ws') :=
  List.forall_mem_append.2 ⟨h, h'⟩

/-! ## Phrases that were read -/

variable [Arithmetic α] {resolve : Resolver α}

/-- Between the two inputs stands a phrase of the level, worth `v`, with blanks behind it, and its
names were asked for. -/
def HasRead (resolve : Resolver α) (level : Level) (i : Input) (v : α) (i' : Input) : Prop :=
  ∃ phrase ws t, i.rest = phrase ++ (ws ++ i'.rest) ∧ Blank ws ∧ Derives level phrase t ∧
    t.eval resolve = .ok v ∧ i'.asked = t.names.reverse ++ i.asked

/-- The reader reads phrases of the level within the text. -/
def Sound (resolve : Resolver α) (text : List Char) (level : Level) (m : Reader α) : Prop :=
  ∀ ⦃i⦄, i.rest <:+: text → Settles text m i (HasRead resolve level i)

theorem HasRead.lift {level level' : Level} {v : α}
    (hlift : ∀ text t, Derives level text t → Derives level' text t)
    (h : HasRead resolve level i v i') : HasRead resolve level' i v i' := by
  obtain ⟨phrase, ws, t, hrest, hblank, hphrase, heval, hasked⟩ := h
  exact ⟨phrase, ws, t, hrest, hblank, hlift _ _ hphrase, heval, hasked⟩

/-- A numeral that is read is the longest run of its digits, so it ends as a token does. -/
theorem sound_numeral {ws rest : List Char} (hrest : i.rest = ws ++ rest) (hblank : Blank ws)
    (hin : i.rest <:+: text) :
    Settles text (numeral : Reader α) { i with rest } (HasRead resolve .primary i) := by
  have hbehind : rest <:+: i.rest := hrest ▸ (List.suffix_append _ _).isInfix
  have hin' : rest <:+: text := hbehind.trans hin
  simp only [numeral, settles_bind, settles_get]
  rcases numeralAt_sound rest with ⟨token, after, n, rfl, hnumeral, hread⟩ | ⟨stop, hread, hstop⟩
  · rw [hread]
    refine ⟨ws ++ token, [], .numeral n, ?_, by simp [Blank], .numeral hblank hnumeral, rfl, rfl⟩
    simp [hrest]
  · rw [hread]
    exact settles_orStop_error (hstop.of_infix hin')

/-- A name is read to where no character can continue it. -/
theorem sound_identifier {ws rest : List Char} {c : Char} (hrest : i.rest = ws ++ c :: rest)
    (hblank : Blank ws) (hstart : startsIdentifier c = true) :
    Settles text (identifier resolve) { i with rest := c :: rest }
      (HasRead resolve .primary i) := by
  have hname : IsIdentifier (String.ofList ((c :: rest).takeWhile continuesIdentifier)) := by
    refine ⟨c, rest.takeWhile continuesIdentifier, ?_, hstart, fun d hd => ?_⟩
    · simp [continuesIdentifier_of_startsIdentifier hstart]
    · rw [← List.takeWhile_cons_of_pos (continuesIdentifier_of_startsIdentifier hstart)] at hd
      exact List.mem_takeWhile_imp hd
  simp only [identifier, settles_bind, settles_get, settles_modify]
  cases hresolve : resolve (String.ofList ((c :: rest).takeWhile continuesIdentifier)) with
  | none => exact settles_orStop_error .noValue
  | some v =>
      refine ⟨_, [], .name _, ?_, by simp [Blank], .name hblank hname, ?_, rfl⟩
      · simp [hrest]
      · rw [Tree.eval, hresolve]
        rfl

/-- The first character that is no blank tells what follows: digits, a name, or a bracket. -/
theorem sound_primary {bracketed : Reader α}
    (hbracketed : Sound resolve text .comparison bracketed) :
    Sound resolve text .primary (primary resolve bracketed) := by
  intro i hin
  simp only [primary, settles_bind, settles_peek]
  refine settles_skipBlanks fun ws rest hrest hblank => ?_
  cases rest with
  | nil => exact settles_noValue
  | cons c rest =>
      simp only [List.head?_cons]
      split
      · next hopen =>
          obtain rfl := eq_of_beq hopen
          have hin' : rest <:+: text :=
            List.IsInfix.trans ⟨ws ++ ['('], [], by simp [hrest]⟩ hin
          simp only [settles_bind, settles_skip, List.drop_succ_cons, List.drop_zero]
          refine (hbracketed hin').mono fun v i₁ hread => ?_
          obtain ⟨phrase, ws₁, t, hrest₁, hblank₁, hphrase, heval, hasked⟩ := hread
          refine settles_skipBlanks fun ws₂ rest₂ hrest₂ hblank₂ => ?_
          simp only [settles_peek]
          split
          · next hclose =>
              obtain ⟨rest₃, rfl⟩ := List.head?_eq_some_iff.1 (eq_of_beq hclose)
              refine ⟨_, [], t, ?_, by simp [Blank],
                .brackets hblank hphrase (hblank₁.append hblank₂), heval, hasked⟩
              simp only at hrest₁
              simp [hrest, hrest₁, hrest₂]
          · exact settles_noValue
      · split
        · exact sound_numeral hrest hblank hin
        · split
          · next hstart => exact sound_identifier hrest hblank hstart
          · exact settles_noValue

/-! ## Signs, products, sums -/

/-- Blanks may stand before every phrase. -/
theorem Derives.prepend {level : Level} {ws text : List Char} {t : Tree} (hblank : Blank ws)
    (h : Derives level text t) : Derives level (ws ++ text) t := by
  induction h with
  | numeral blank numeral => rw [← List.append_assoc]; exact .numeral (hblank.append blank) numeral
  | name blank identifier => rw [← List.append_assoc]; exact .name (hblank.append blank) identifier
  | brackets before inner behind =>
      rw [← List.append_assoc]; exact .brackets (hblank.append before) inner behind
  | plus blank operand => rw [← List.append_assoc]; exact .plus (hblank.append blank) operand
  | minus blank operand => rw [← List.append_assoc]; exact .minus (hblank.append blank) operand
  | primary _ ih => exact .primary ih
  | unary _ ih => exact .unary ih
  | term _ ih => exact .term ih
  | additive _ ih => exact .additive ih
  | product isProduct _ blank right ihl =>
      rw [← List.append_assoc]; exact .product isProduct ihl blank right
  | sum isSum _ blank right ihl => rw [← List.append_assoc]; exact .sum isSum ihl blank right
  | compare _ blank right ihl => rw [← List.append_assoc]; exact .compare ihl blank right

theorem HasRead.prepend {level : Level} {ws rest : List Char} {v : α} (hblank : Blank ws)
    (hrest : i.rest = ws ++ rest) (h : HasRead resolve level { i with rest } v i') :
    HasRead resolve level i v i' := by
  obtain ⟨phrase, ws', t, rfl, hblank', hphrase, heval, hasked⟩ := h
  exact ⟨ws ++ phrase, ws', t, by simp [hrest], hblank', hphrase.prepend hblank, heval, hasked⟩

/-- What is left of a part of the text is a part of it. -/
theorem HasRead.isInfix {level : Level} {v : α} (h : HasRead resolve level i v i')
    (hin : i.rest <:+: text) : i'.rest <:+: text := by
  obtain ⟨phrase, ws, t, hrest, -⟩ := h
  exact List.IsInfix.trans ⟨phrase ++ ws, [], by simp [hrest]⟩ hin

/-- The signs of operations, each with what it does. -/
def operators (ops : List Operation) : List (Char × (α → α → Except Stop α)) :=
  ops.map fun op => (op.sign, op.apply)

/-- A phrase of the level, an operation and a phrase of the level below make a phrase of the level.
-/
def Joins (ops : List Operation) (level below : Level) : Prop :=
  ∀ ⦃op a ws b l r⦄, op ∈ ops → Derives level a l → Blank ws → Derives below b r →
    Derives level (a ++ (ws ++ op.sign :: b)) (.binary op l r)

theorem mem_of_lookup_operators {ops : List Operation} {c : Char}
    {apply : α → α → Except Stop α} (h : (operators ops).lookup c = some apply) :
    ∃ op ∈ ops, c = op.sign ∧ apply = op.apply := by
  induction ops with
  | nil => cases h
  | cons op ops ih =>
      rw [operators, List.map_cons, List.lookup_cons] at h
      split at h
      · next hc => exact ⟨op, by simp, eq_of_beq hc, (Option.some.inj h).symm⟩
      · obtain ⟨op', hop', hfound⟩ := ih h
        exact ⟨op', List.mem_cons_of_mem _ hop', hfound⟩

theorem joins_term : Joins [.mul, .div] .term .unary :=
  fun _ _ _ _ _ _ hop => .product (by simpa using hop)

theorem joins_additive : Joins [.add, .sub] .additive .term :=
  fun _ _ _ _ _ _ hop => .sum (by simpa using hop)

/-- The longer spellings are tried first, so the one that is found is written there. -/
theorem comparisonAt_eq_some {text : List Char} {op : Comparison} {length : Nat}
    (h : comparisonAt text = some (op, length)) :
    ∃ rest, text = spelling op ++ rest ∧ length = (spelling op).length := by
  obtain ⟨entry, hentry, heq⟩ := Option.map_eq_some_iff.1 h
  have hspelled : ∀ entry ∈ comparisonSpellings, entry.1 = spelling entry.2 := by decide
  have hprefix : entry.1.isPrefixOf text = true := by simpa using List.find?_some hentry
  obtain ⟨rest, hrest⟩ := List.isPrefixOf_iff_prefix.1 hprefix
  have hentry' := hspelled entry (List.mem_of_find?_eq_some hentry)
  obtain ⟨rfl, rfl⟩ := Prod.mk.inj heq
  exact ⟨rest, by rw [← hentry', hrest], by rw [hentry']⟩

variable [Exact α] (hresolve : ∀ x a, resolve x = some a → Exact.IsNumber a)
include hresolve

theorem HasRead.isNumber {level : Level} {v : α} (h : HasRead resolve level i v i') :
    Exact.IsNumber v := by
  obtain ⟨-, -, t, -, -, -, heval, -⟩ := h
  rcases t.eval_number hresolve with ⟨a, ha, hnumber⟩ | hnone
  · rw [heval] at ha
    exact Except.ok.inj ha ▸ hnumber
  · rw [heval] at hnone
    cases hnone

theorem sound_unary {m : Reader α} (hm : Sound resolve text .primary m) (rounds : Nat) :
    Sound resolve text .unary (unary m rounds) := by
  induction rounds with
  | zero => exact fun _ _ => settles_noValue
  | succ rounds ih =>
      intro i hin
      simp only [unary, settles_bind, settles_peek]
      refine settles_skipBlanks fun ws rest hrest hblank => ?_
      have hin' : rest <:+: text :=
        (hrest ▸ (List.suffix_append _ _).isInfix : rest <:+: i.rest).trans hin
      split
      · next hplus =>
          obtain ⟨rest, rfl⟩ := List.head?_eq_some_iff.1 hplus
          simp only [settles_bind, settles_skip, List.drop_succ_cons, List.drop_zero]
          refine (ih ((List.suffix_cons _ _).isInfix.trans hin')).mono fun v i₁ hread => ?_
          obtain ⟨phrase, ws₁, t, rfl, hblank₁, hphrase, heval, hasked⟩ := hread
          exact ⟨_, ws₁, t, by simp [hrest], hblank₁, .plus hblank hphrase, heval, hasked⟩
      · next hminus =>
          obtain ⟨rest, rfl⟩ := List.head?_eq_some_iff.1 hminus
          simp only [settles_bind, settles_skip, List.drop_succ_cons, List.drop_zero]
          refine (ih ((List.suffix_cons _ _).isInfix.trans hin')).mono fun v i₁ hread => ?_
          have hnumber := hread.isNumber hresolve
          obtain ⟨phrase, ws₁, t, rfl, hblank₁, hphrase, heval, hasked⟩ := hread
          -- The number is negated, if that has a value.
          rcases Exact.neg_number hnumber with ⟨a, ha, -⟩ | hnone
          · rw [ha, settles_orStop_ok]
            refine ⟨_, ws₁, t.neg, by simp [hrest], hblank₁, .minus hblank hphrase, ?_, hasked⟩
            rw [Tree.eval, heval]
            exact ha
          · rw [hnone]
            exact settles_orStop_error .noValue
      · exact (hm hin').mono fun v i₁ hread =>
          (hread.prepend hblank hrest).lift fun _ _ => .primary

/-- Each round lets the phrase before it grow by an operation and an operand. -/
theorem chain_sound {ops : List Operation} {level below : Level} (hjoins : Joins ops level below)
    {m : Reader α} (hm : Sound resolve text below m) {i₀ : Input} (rounds : Nat) {value : α}
    (hin : i.rest <:+: text) (hread : HasRead resolve level i₀ value i) :
    Settles text (chain (operators ops) m value rounds) i (HasRead resolve level i₀) := by
  induction rounds generalizing value i with
  | zero => exact settles_noValue
  | succ rounds ih =>
      have hnumber := hread.isNumber hresolve
      obtain ⟨phrase, ws, t, hrest, hblank, hphrase, heval, hasked⟩ := hread
      simp only [chain, settles_bind, settles_peek]
      refine settles_skipBlanks fun ws₁ rest₁ hrest₁ hblank₁ => ?_
      split
      · next apply hfound =>
          obtain ⟨c, hc, hlookup⟩ := Option.bind_eq_some_iff.1 hfound
          obtain ⟨rest₁, rfl⟩ := List.head?_eq_some_iff.1 hc
          obtain ⟨op, hop, rfl, rfl⟩ := mem_of_lookup_operators hlookup
          have hin' : rest₁ <:+: text :=
            List.IsInfix.trans ⟨ws₁ ++ [op.sign], [], by simp [hrest₁]⟩ hin
          simp only [settles_bind, settles_skip, List.drop_succ_cons, List.drop_zero]
          refine (hm hin').mono fun v i₂ hread₂ => ?_
          have hnumber₂ := hread₂.isNumber hresolve
          obtain ⟨phrase₂, ws₂, t₂, rfl, hblank₂, hphrase₂, heval₂, hasked₂⟩ := hread₂
          -- The operation may have no value, as a quotient by zero has none.
          rcases Exact.apply_number op hnumber hnumber₂ with ⟨a, ha, -⟩ | hnone
          · rw [ha, settles_orStop_ok]
            refine ih (List.IsInfix.trans ⟨phrase₂ ++ ws₂, [], by simp⟩ hin')
              ⟨_, ws₂, .binary op t t₂, ?_, hblank₂,
                hjoins hop hphrase (hblank.append hblank₁) hphrase₂, ?_, ?_⟩
            · simp [hrest, hrest₁]
            · rw [Tree.eval, heval, heval₂]
              exact ha
            · simp [hasked₂, hasked, Tree.names]
          · rw [hnone]
            exact settles_orStop_error .noValue
      · exact ⟨phrase, ws ++ ws₁, t, by simp [hrest, hrest₁], hblank.append hblank₁, hphrase, heval,
          hasked⟩

theorem sound_term {m : Reader α} (hm : Sound resolve text .primary m) :
    Sound resolve text .term (term m) := by
  intro i hin
  simp only [term, settles_bind, settles_roundsLeft]
  refine (sound_unary hresolve hm _ hin).mono fun v i₁ hread => ?_
  exact chain_sound hresolve joins_term (sound_unary hresolve hm _) _ (hread.isInfix hin)
    (hread.lift fun _ _ => .unary)

theorem sound_additive {m : Reader α} (hm : Sound resolve text .primary m) :
    Sound resolve text .additive (additive m) := by
  intro i hin
  simp only [additive, settles_bind, settles_roundsLeft]
  refine (sound_term hresolve hm hin).mono fun v i₁ hread => ?_
  exact chain_sound hresolve joins_additive (sound_term hresolve hm) _ (hread.isInfix hin)
    (hread.lift fun _ _ => .term)

/-! ## Comparisons and whole expressions -/

/-- By induction on the depth of brackets: in brackets a comparison stands again. -/
theorem sound_comparison (depth : Nat) :
    Sound resolve text .comparison (comparison resolve depth) := by
  induction depth with
  | zero => exact fun _ _ => settles_noValue
  | succ depth ih =>
      have hoperand := sound_additive hresolve (sound_primary ih)
      intro i hin
      simp only [comparison, settles_bind]
      refine (hoperand hin).mono fun v i₁ hread => ?_
      have hin₁ := hread.isInfix hin
      have hnumber := hread.isNumber hresolve
      obtain ⟨phrase, ws, t, hrest, hblank, hphrase, heval, hasked⟩ := hread
      refine settles_skipBlanks fun ws₁ rest₁ hrest₁ hblank₁ => ?_
      simp only [settles_get]
      split
      · next op length hop =>
          obtain ⟨rest₂, rfl, rfl⟩ := comparisonAt_eq_some hop
          simp only [settles_bind, settles_skip, List.drop_left]
          have hin₂ : rest₂ <:+: text :=
            List.IsInfix.trans ⟨ws₁ ++ spelling op, [], by simp [hrest₁]⟩ hin₁
          refine (hoperand hin₂).mono fun v₃ i₃ hread₃ => ?_
          -- Numbers can always be compared.
          obtain ⟨truth, htruth⟩ := Exact.holds_number op hnumber (hread₃.isNumber hresolve)
          obtain ⟨phrase₃, ws₃, t₃, rfl, hblank₃, hphrase₃, heval₃, hasked₃⟩ := hread₃
          rw [htruth, settles_orStop_ok]
          refine ⟨_, ws₃, .compare op t t₃, ?_, hblank₃,
            .compare hphrase (hblank.append hblank₁) hphrase₃, ?_, ?_⟩
          · simp [hrest, hrest₁]
          · rw [Tree.eval, heval, heval₃]
            change (Arithmetic.holds op v v₃ >>= _) = _
            rw [htruth]
            rfl
          · simp [hasked₃, hasked, Tree.names]
      · exact ⟨phrase, ws ++ ws₁, t, by simp [hrest, hrest₁], hblank.append hblank₁,
          .additive hphrase, heval, hasked⟩

/-- A whole text that has a value is a sentence of the grammar. -/
theorem settles_whole (s : String) (depth : Nat) :
    Settles s.toList (whole resolve depth) { rest := s.toList } fun v i =>
      ∃ t a, IsSentence s t ∧ t.eval resolve = .ok a ∧ v = Arithmetic.normalize a ∧
        i.asked.reverse = t.names := by
  simp only [whole, settles_bind]
  refine (sound_comparison hresolve depth (List.infix_refl _)).mono fun v i₁ hread => ?_
  obtain ⟨phrase, ws, t, hrest, hblank, hphrase, heval, hasked⟩ := hread
  refine settles_skipBlanks fun ws₁ rest₁ hrest₁ hblank₁ => ?_
  simp only [settles_get]
  split
  · next hend =>
      obtain rfl := List.isEmpty_iff.1 hend
      refine ⟨t, v, ⟨phrase, ws ++ ws₁, ?_, hblank.append hblank₁, hphrase⟩, heval, rfl, ?_⟩
      · simpa [hrest₁] using hrest
      · simp [hasked]
  · exact settles_noValue

end ByteSchema.Expression
