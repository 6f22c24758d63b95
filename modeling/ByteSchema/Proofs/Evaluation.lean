import ByteSchema.Proofs.ReaderComplete

/-!
# ByteSchema.Proofs.Evaluation

Reading an expression, from outside.

A text has a value only if the grammar derives it, and then it has the value of each of its trees;
the names that were asked for are those of the tree (`read_sound`, `read_complete`). Where names
stand for integers and no quotient is taken, this value is the integer that the tree means, and
there is one as soon as all names have one (`read_isExact`).
-/

namespace ByteSchema.Expression

open ByteSchema.Text

variable {α : Type} [Arithmetic α] {s : String}

theorem read_of_run {resolve : Resolver α} {e : Except Stop α} {i : Input}
    (h : (whole resolve (s.toList.length + 1)).run.run { rest := s.toList } = (e, i)) :
    read s resolve = { value := e, asked := i.asked.reverse } := by
  simp only [read, h]

/-- The value of a text is that of a tree, and the names asked for are the names of this tree. -/
theorem read_sound [Exact α] {resolve : Resolver α}
    (hresolve : ∀ x a, resolve x = some a → Exact.IsNumber a) (s : String) :
    (∃ t a, IsSentence s t ∧ t.eval resolve = .ok a ∧
      (read s resolve).value = .ok (Arithmetic.normalize a) ∧ (read s resolve).asked = t.names) ∨
    ∃ stop, (read s resolve).value = .error stop ∧ Stops s.toList stop := by
  have hsettles := settles_whole hresolve s (s.toList.length + 1)
  unfold Settles at hsettles
  split at hsettles
  · next v i hrun =>
      obtain ⟨t, a, hsentence, heval, rfl, hasked⟩ := hsettles
      rw [read_of_run hrun]
      exact .inl ⟨t, a, hsentence, heval, rfl, hasked⟩
  · next stop i hrun =>
      rw [read_of_run hrun]
      exact .inr ⟨stop, rfl, hsettles⟩

/-- A text has the value of each tree that the grammar gives it. -/
theorem read_complete {resolve : Resolver α} {t : Tree} (h : IsSentence s t)
    (hshort : NoLongRun s.toList) :
    (read s resolve).value = (t.eval resolve).map Arithmetic.normalize ∧
      ∀ v, (read s resolve).value = .ok v → (read s resolve).asked = t.names := by
  have hgives := h.gives resolve hshort
  cases heval : t.eval resolve with
  | ok a =>
      rw [heval] at hgives
      have hrun : (whole resolve (s.toList.length + 1)).run.run { rest := s.toList } =
          (.ok (Arithmetic.normalize a), ⟨[], t.names.reverse⟩) := hgives
      rw [read_of_run hrun]
      exact ⟨rfl, fun _ _ => List.reverse_reverse _⟩
  | error stop =>
      rw [heval] at hgives
      have hrun : (read s resolve).value = .error stop := hgives
      exact ⟨hrun, fun v hv => by rw [hrun] at hv; cases hv⟩

/-- The reading of a text is the one that the grammar and the integers give it. -/
structure Reading.IsExact (r : Reading α) (s : String) (resolve : String → Option Int) : Prop where
  /-- What has no value fails in no other way. -/
  noValue : ∀ stop, r.value = .error stop → stop = .noValue
  /-- Only sentences have a value. -/
  sentence : ∀ v, r.value = .ok v → ∃ t, IsSentence s t
  /-- The names of the tree are asked for, each as often as it occurs, from left to right. -/
  names : ∀ v t, r.value = .ok v → IsSentence s t → r.asked = t.names
  /-- White space between tokens does not count: it leaves no trace in a tree. -/
  blanks : ∀ s' t, NoLongRun s'.toList → IsSentence s t → IsSentence s' t →
    (read s' (integers resolve)).value = r.value
  /-- Without quotients there is a value when all names of a tree have one, and only then. -/
  returns : '/' ∉ s.toList → ((∃ v, r.value = .ok v) ↔
    ∃ t, IsSentence s t ∧ ∀ x ∈ t.names, (resolve x).isSome)
  /-- This value is the integer that the tree means. -/
  meaning : '/' ∉ s.toList → ∀ v t, r.value = .ok v → IsSentence s t →
    ∃ n, t.meaning resolve = some n ∧ v = Arithmetic.ofInt n

/-- Without a quotient sign in the text, no tree of it has a quotient. -/
theorem IsSentence.hasQuotient {t : Tree} (h : IsSentence s t) (hs : '/' ∉ s.toList) :
    t.hasQuotient = false := by
  obtain ⟨text, ws, htext, -, hphrase⟩ := h
  rw [Bool.eq_false_iff]
  intro hquotient
  exact hs (htext ▸ List.mem_append_left _ (hphrase.mem_of_hasQuotient hquotient))

/-- The value of a sentence without quotients. -/
theorem value_of_sentence [Exact α] {resolve : String → Option Int} {t : Tree}
    (h : IsSentence s t) (hshort : NoLongRun s.toList) (hs : '/' ∉ s.toList) :
    (read s (integers resolve)).value =
      (orNoValue ((t.meaning resolve).map Arithmetic.ofInt) : Except Stop α) := by
  rw [(read_complete h hshort).1, Tree.eval_integers (h.hasQuotient hs)]
  cases t.meaning resolve with
  | none => rfl
  | some n => exact congrArg Except.ok (Exact.normalize_ofInt n)

/-- The evaluator of expressions is exact, for all texts and all names that stand for integers. -/
theorem read_isExact [Exact α] (s : String) (resolve : String → Option Int)
    (hshort : NoLongRun s.toList) :
    (read s (integers resolve) : Reading α).IsExact s resolve := by
  have hsound := read_sound (α := α) (isNumber_of_integers resolve) s
  refine ⟨?noValue, ?sentence, ?names, ?blanks, ?returns, ?meaning⟩
  case noValue =>
    intro stop hstop
    rcases hsound with ⟨t, a, -, -, hvalue, -⟩ | ⟨stop', hvalue, hstops⟩
    · rw [hstop] at hvalue
      cases hvalue
    · rw [hstop] at hvalue
      cases hvalue
      exact hstops.eq_noValue hshort
  case sentence =>
    intro v hv
    rcases hsound with ⟨t, a, hsentence, -⟩ | ⟨stop, hvalue, -⟩
    · exact ⟨t, hsentence⟩
    · rw [hv] at hvalue
      cases hvalue
  case names => exact fun v t hv hsentence => (read_complete hsentence hshort).2 v hv
  case blanks =>
    intro s' t hshort' hsentence hsentence'
    rw [(read_complete hsentence hshort).1, (read_complete hsentence' hshort').1]
  -- Without quotient an expression has a value exactly when all of its names have one.
  case returns =>
    intro hs
    constructor
    · rintro ⟨v, hv⟩
      rcases hsound with ⟨t, a, hsentence, -⟩ | ⟨stop, hvalue, -⟩
      · refine ⟨t, hsentence, (Tree.meaning_isSome (hsentence.hasQuotient hs)).1 ?_⟩
        rw [value_of_sentence hsentence hshort hs] at hv
        cases hmeaning : t.meaning resolve with
        | none => rw [hmeaning] at hv; cases hv
        | some n => rfl
      · rw [hv] at hvalue
        cases hvalue
    · rintro ⟨t, hsentence, hnames⟩
      obtain ⟨n, hn⟩ := Option.isSome_iff_exists.1
        ((Tree.meaning_isSome (hsentence.hasQuotient hs)).2 hnames)
      exact ⟨Arithmetic.ofInt n, by rw [value_of_sentence hsentence hshort hs, hn]; rfl⟩
  case meaning =>
    intro hs v t hv hsentence
    rw [value_of_sentence hsentence hshort hs] at hv
    cases hmeaning : t.meaning resolve with
    | none => rw [hmeaning] at hv; cases hv
    | some n =>
        rw [hmeaning] at hv
        exact ⟨n, rfl, (Except.ok.inj hv).symm⟩

theorem noLongRun_of_length {text : List Char} (h : text.length ≤ maxNumeralDigits) :
    NoLongRun text :=
  fun _ hrun _ => hrun.length_le.trans h

theorem isSentence_product :
    IsSentence "a*2 " (.binary .mul (.name "a") (.numeral 2)) := by
  have hnone : Blank [] := by simp [Blank]
  have hname : Derives .primary ([] ++ "a".toList) (.name "a") :=
    .name hnone ⟨'a', [], by decide +kernel, by decide +kernel, List.all_eq_true.1 rfl⟩
  have htwo : Derives .primary ([] ++ ['2']) (.numeral 2) :=
    .numeral hnone (.decimal (.one (by decide)))
  refine ⟨_, [' '], ?_, List.forall_mem_singleton.2 isBlank_space,
    .additive (.term (.product (.inl rfl) (.unary (.primary hname)) hnone (.primary htwo)))⟩
  decide +kernel

theorem read_isExact_product :
    NoLongRun "a*2 ".toList ∧ IsSentence "a*2 " (.binary .mul (.name "a") (.numeral 2)) ∧
      ∃ v, (read "a*2 " (integers fun _ => some 7) : Reading Number).value = .ok v :=
  have hshort : NoLongRun "a*2 ".toList := noLongRun_of_length (by decide +kernel)
  have hexact := read_isExact (α := Number) "a*2 " (fun _ => some 7) hshort
  ⟨hshort, isSentence_product,
    (hexact.returns (by decide +kernel)).2 ⟨_, isSentence_product, by decide +kernel⟩⟩

end ByteSchema.Expression
