import ByteSchema.Proofs.ReaderSound
import Mathlib.Data.List.DropRight

/-!
# ByteSchema.Proofs.ReaderComplete

What the grammar derives, the reader of expressions evaluates.

On a phrase of its level with a fitting sign behind it, each reader does what evaluating the tree
does, and stops at the phrase's end but for blanks (`Reads`). The grammar is recursive on the left
where the reader loops. The loop is therefore described from the point where the phrase ends: what
it makes of the rest with any value before it, it makes of the whole text with the phrase's value
(`Chains`), and such a description grows to the right by one operation at a time.

By induction on the derivation every phrase of the grammar is read (`Derives.complete`). Together
with the converse the values of a text are exactly those of its trees.
-/

namespace ByteSchema.Expression

open ByteSchema.Text

variable {α β γ : Type} {i i₁ i₂ : Input}

/-! ## Readers that follow a computation -/

/-- The reader does what the computation does, and leaves `i'` if there is a result. -/
def Gives (m : Reader β) (i : Input) (e : Except Stop β) (i' : Input) : Prop :=
  match e with
  | .ok b => m.run.run i = (.ok b, i')
  | .error stop => (m.run.run i).1 = .error stop

theorem gives_pure (b : β) : Gives (pure b) i (.ok b) i := rfl

theorem gives_orStop (e : Except Stop β) : Gives (orStop e) i e i := by
  cases e <;> rfl

/-- Two readers in a row give what the two computations give in a row. -/
theorem gives_bind {m : Reader β} {k : β → Reader γ} {e : Except Stop β}
    {g : β → Except Stop γ} (hm : Gives m i e i₁) (hk : ∀ b, Gives (k b) i₁ (g b) i₂) :
    Gives (m >>= k) i (e >>= g) i₂ := by
  have hrun := run_bind m k i
  cases e with
  | ok b =>
      have hfirst : m.run.run i = (.ok b, i₁) := hm
      rw [hfirst] at hrun
      have hsecond := hk b
      change Gives (m >>= k) i (g b) i₂
      unfold Gives at hsecond ⊢
      rwa [hrun]
  | error stop =>
      have hfirst : (m.run.run i).1 = .error stop := hm
      change ((m >>= k).run.run i).1 = .error stop
      rw [hrun]
      rcases hm' : m.run.run i with ⟨_ | _, _⟩ <;> rw [hm'] at hfirst <;> cases hfirst
      rfl

/-- The second reader only hands on what the first one gives. -/
theorem gives_bind_pure {m : Reader β} {k : β → Reader β} {e : Except Stop β}
    (hm : Gives m i e i₁) (hk : ∀ b, Gives (k b) i₁ (.ok b) i₂) : Gives (m >>= k) i e i₂ := by
  have h : Gives (m >>= k) i (e >>= pure) i₂ := gives_bind hm hk
  rwa [bind_pure] at h

@[simp] theorem gives_orStop_ok {b : β} {k : β → Reader γ} {e : Except Stop γ} :
    Gives (orStop (.ok b) >>= k) i e i₂ ↔ Gives (k b) i e i₂ := Iff.rfl

@[simp] theorem gives_peek {k : Option Char → Reader γ} {e : Except Stop γ} :
    Gives (peek >>= k) i e i₂ ↔ Gives (k i.rest.head?) i e i₂ := Iff.rfl

@[simp] theorem gives_get {k : Input → Reader γ} {e : Except Stop γ} :
    Gives (get >>= k) i e i₂ ↔ Gives (k i) i e i₂ := Iff.rfl

@[simp] theorem gives_modify {f : Input → Input} {k : Unit → Reader γ} {e : Except Stop γ} :
    Gives (modify f >>= k) i e i₂ ↔ Gives (k ()) (f i) e i₂ := Iff.rfl

@[simp] theorem gives_skip {n : Nat} {k : Unit → Reader γ} {e : Except Stop γ} :
    Gives (skip n >>= k) i e i₂ ↔ Gives (k ()) { i with rest := i.rest.drop n } e i₂ := Iff.rfl

@[simp] theorem gives_skipBlanks {k : Unit → Reader γ} {e : Except Stop γ} :
    Gives (skipBlanks >>= k) i e i₂ ↔
      Gives (k ()) { i with rest := i.rest.dropWhile isBlank } e i₂ := Iff.rfl

@[simp] theorem gives_roundsLeft {k : Nat → Reader γ} {e : Except Stop γ} :
    Gives (roundsLeft >>= k) i e i₂ ↔ Gives (k (i.rest.length + 1)) i e i₂ := Iff.rfl

/-! ## What may follow a phrase -/

/-- The first sign of the text that is not blank, if there is one, is among these. -/
def Follows (signs : List Char) (text : List Char) : Prop :=
  ∀ c, (text.dropWhile isBlank).head? = some c → c ∈ signs

theorem Follows.mono {signs signs' text : List Char} (hsigns : signs ⊆ signs')
    (h : Follows signs text) : Follows signs' text :=
  fun c hc => hsigns (h c hc)

theorem dropWhile_blank {ws rest : List Char} {c : Char} (hblank : Blank ws)
    (hc : isBlank c = false) : (ws ++ c :: rest).dropWhile isBlank = c :: rest := by
  rw [List.dropWhile_append_of_pos hblank]
  simp [hc]

theorem dropWhile_phrase {ws cs rest : List Char} {c : Char} (hblank : Blank ws)
    (hc : isBlank c = false) : (ws ++ c :: cs ++ rest).dropWhile isBlank = c :: (cs ++ rest) := by
  rw [List.append_assoc]
  exact dropWhile_blank hblank hc

theorem follows_cons {signs ws rest : List Char} {c : Char} (hblank : Blank ws)
    (hc : c ∈ signs) (hoperator : c ∈ operatorSigns) : Follows signs (ws ++ c :: rest) := by
  intro d hd
  rw [dropWhile_blank hblank (isBlank_of_mem_operatorSigns hoperator)] at hd
  exact Option.some.inj hd ▸ hc

theorem follows_blank {signs ws : List Char} (hblank : Blank ws) : Follows signs ws := by
  intro c hc
  rw [List.dropWhile_eq_nil_iff.2 hblank] at hc
  cases hc

/-- A token ends where white space or the sign of an operator follows. -/
theorem Follows.tokenEnd {text : List Char} (h : Follows operatorSigns text) : TokenEnd text := by
  intro c hc
  obtain ⟨rest, rfl⟩ := List.head?_eq_some_iff.1 hc
  by_cases hblank : isBlank c = true
  · rw [Bool.eq_false_iff]
    intro hcontinues
    rw [isBlank_of_continuesIdentifier hcontinues] at hblank
    cases hblank
  · refine continuesIdentifier_of_mem_operatorSigns (h c ?_)
    simp [hblank]

/-- The signs that may follow an operand of sums. -/
def signsBehindTerm : List Char := ['+', '-', '=', '!', '<', '>', ')']

/-- The signs that may follow an operand of comparisons. -/
def signsBehindAdditive : List Char := ['=', '!', '<', '>', ')']

/-- The signs behind a phrase of the level. -/
def Level.follow : Level → List Char
  | .primary | .unary | .term => operatorSigns
  | .additive => signsBehindTerm
  | .comparison => [')']

/-! ## Reading a phrase -/

variable [Arithmetic α] {resolve : Resolver α}

/-- On the text with the rest behind it, the reader does what evaluating the tree does. It stops
where the text ends, or behind the blanks that follow. -/
def Reads (resolve : Resolver α) (m : Reader α) (text : List Char) (t : Tree)
    (rest : List Char) : Prop :=
  ∀ asked, ∃ rest', rest'.dropWhile isBlank = rest.dropWhile isBlank ∧
    Gives m ⟨text ++ rest, asked⟩ (t.eval resolve) ⟨rest', t.names.reverse ++ asked⟩

theorem Numeral.head {ds : List Char} {n : Nat} (h : Numeral ds n) :
    ∃ c cs, ds = c :: cs ∧ isDecimal c = true := by
  cases h with
  | decimal digits =>
      obtain ⟨hne, hall, -⟩ := (digits_iff digitClass_decimal).1 digits
      obtain ⟨c, cs, rfl⟩ := List.exists_cons_of_ne_nil hne
      exact ⟨c, cs, rfl, hall c (by simp)⟩
  | based => exact ⟨_, _, rfl, rfl⟩

theorem isDigitSign_of_isDecimal {c : Char} (h : isDecimal c = true) : isDigitSign c = true :=
  forall_ascii (P := fun c => isDecimal c = true → isDigitSign c = true) (by decide +kernel)
    (ascii_of_isHexadecimal (isHexadecimal_of_isDecimal h)) h

theorem continuesIdentifier_of_isDecimal {c : Char} (h : isDecimal c = true) :
    continuesIdentifier c = true :=
  continuesIdentifier_of_isHexadecimal (isHexadecimal_of_isDecimal h)

theorem ne_open_of_continuesIdentifier {c : Char} (h : continuesIdentifier c = true) : c ≠ '(' := by
  rintro rfl
  exact not_mem_operatorSigns h (by decide)

/-- All digits are taken, and no run of them is too long. -/
theorem reads_numeral {bracketed : Reader α} {ws ds rest : List Char} {n : Nat}
    (hblank : Blank ws) (hnumeral : Numeral ds n) (hrest : TokenEnd rest)
    (hshort : NoLongRun (ds ++ rest)) :
    Reads resolve (primary resolve bracketed) (ws ++ ds) (.numeral n) rest := by
  intro asked
  refine ⟨rest, rfl, ?_⟩
  have hread := numeralAt_complete hnumeral hrest hshort
  obtain ⟨c, cs, rfl, hc⟩ := hnumeral.head
  have hcontinues := continuesIdentifier_of_isDecimal hc
  have hskip : (ws ++ c :: cs ++ rest).dropWhile isBlank = c :: (cs ++ rest) :=
    dropWhile_phrase hblank (isBlank_of_continuesIdentifier hcontinues)
  rw [primary, gives_skipBlanks, hskip, gives_peek, List.head?_cons]
  simp only [beq_iff_eq, if_neg (ne_open_of_continuesIdentifier hcontinues),
    if_pos (isDigitSign_of_isDecimal hc), numeral, gives_get]
  rw [← List.cons_append, hread, gives_orStop_ok, gives_skip, List.drop_left]
  rfl

theorem reads_name {bracketed : Reader α} {ws rest : List Char} {x : String} (hblank : Blank ws)
    (hidentifier : IsIdentifier x) (hrest : TokenEnd rest) :
    Reads resolve (primary resolve bracketed) (ws ++ x.toList) (.name x) rest := by
  intro asked
  refine ⟨rest, rfl, ?_⟩
  obtain ⟨c, cs, hx, hstart, hall⟩ := hidentifier
  have hcontinues := continuesIdentifier_of_startsIdentifier hstart
  have hskip : (ws ++ x.toList ++ rest).dropWhile isBlank = c :: (cs ++ rest) := by
    rw [hx]
    exact dropWhile_phrase hblank (isBlank_of_continuesIdentifier hcontinues)
  have hopen := ne_open_of_continuesIdentifier hcontinues
  have htake : (c :: (cs ++ rest)).takeWhile continuesIdentifier = c :: cs :=
    takeWhile_append hall hrest
  have hdrop : (c :: (cs ++ rest)).dropWhile continuesIdentifier = rest := by
    have hsplit := List.takeWhile_append_dropWhile (p := continuesIdentifier)
      (l := c :: (cs ++ rest))
    rw [htake] at hsplit
    exact List.append_cancel_left (hsplit : (c :: cs) ++ _ = (c :: cs) ++ rest)
  rw [primary, gives_skipBlanks, hskip, gives_peek, List.head?_cons]
  simp only [beq_iff_eq, if_neg hopen, isDigitSign_of_startsIdentifier hstart, hstart, if_true,
    Bool.false_eq_true, if_false, identifier, gives_get, gives_modify, htake, hdrop]
  rw [← hx, String.ofList_toList]
  exact gives_orStop _

/-- Behind the phrase in the brackets there may be blanks before the closing one. -/
theorem reads_brackets {bracketed : Reader α} {ws text ws' rest : List Char} {t : Tree}
    (hbefore : Blank ws) (hbehind : Blank ws')
    (hinner : Reads resolve bracketed text t (ws' ++ ')' :: rest)) :
    Reads resolve (primary resolve bracketed) (ws ++ '(' :: (text ++ (ws' ++ [')']))) t rest := by
  intro asked
  obtain ⟨rest', hrest', hgives⟩ := hinner asked
  refine ⟨rest, rfl, ?_⟩
  have hskip : (ws ++ '(' :: (text ++ (ws' ++ [')'])) ++ rest).dropWhile isBlank =
      '(' :: (text ++ (ws' ++ ')' :: rest)) :=
    (dropWhile_phrase hbefore (isBlank_of_mem_operatorSigns (by decide))).trans (by simp)
  have hclose : rest'.dropWhile isBlank = ')' :: rest := by
    rw [hrest']
    exact dropWhile_blank hbehind (isBlank_of_mem_operatorSigns (by decide))
  rw [primary, gives_skipBlanks, hskip, gives_peek, List.head?_cons]
  simp only [BEq.rfl, if_true, gives_skip, List.drop_succ_cons, List.drop_zero]
  refine gives_bind_pure hgives fun v => ?_
  rw [gives_skipBlanks, hclose]
  rfl

/-- A plus sign changes nothing, but it is a round of its own. -/
theorem reads_plus {m : Reader α} {ws text rest : List Char} {t : Tree} {rounds : Nat}
    (hblank : Blank ws) (hoperand : Reads resolve (unary m rounds) text t rest) :
    Reads resolve (unary m (rounds + 1)) (ws ++ '+' :: text) t rest := by
  intro asked
  obtain ⟨rest', hrest', hgives⟩ := hoperand asked
  refine ⟨rest', hrest', ?_⟩
  have hskip : (ws ++ '+' :: text ++ rest).dropWhile isBlank = '+' :: (text ++ rest) :=
    dropWhile_phrase hblank (isBlank_of_mem_operatorSigns (by decide))
  rw [unary, gives_skipBlanks, hskip, gives_peek]
  exact hgives

theorem reads_minus {m : Reader α} {ws text rest : List Char} {t : Tree} {rounds : Nat}
    (hblank : Blank ws) (hoperand : Reads resolve (unary m rounds) text t rest) :
    Reads resolve (unary m (rounds + 1)) (ws ++ '-' :: text) t.neg rest := by
  intro asked
  obtain ⟨rest', hrest', hgives⟩ := hoperand asked
  refine ⟨rest', hrest', ?_⟩
  have hskip : (ws ++ '-' :: text ++ rest).dropWhile isBlank = '-' :: (text ++ rest) :=
    dropWhile_phrase hblank (isBlank_of_mem_operatorSigns (by decide))
  rw [unary, gives_skipBlanks, hskip, gives_peek]
  exact gives_bind hgives fun _ => gives_orStop _

/-- The signs that a phrase of the level may start with, numerals and names apart. -/
def Level.lead : Level → List Char
  | .primary => ['(']
  | _ => ['(', '+', '-']

/-- Behind its blanks a phrase starts with a numeral, a name or one of few signs. -/
theorem Derives.head {level : Level} {text : List Char} {t : Tree} (h : Derives level text t) :
    ∃ ws c cs, text = ws ++ c :: cs ∧ Blank ws ∧
      (continuesIdentifier c = true ∨ c ∈ level.lead) := by
  induction h with
  | @numeral ws _ _ blank numeral =>
      obtain ⟨c, cs, rfl, hc⟩ := numeral.head
      exact ⟨ws, c, cs, rfl, blank, .inl (continuesIdentifier_of_isDecimal hc)⟩
  | @name ws _ blank identifier =>
      obtain ⟨c, cs, hx, hstart, -⟩ := identifier
      exact ⟨ws, c, cs, by rw [hx], blank, .inl (continuesIdentifier_of_startsIdentifier hstart)⟩
  | @brackets ws _ _ _ before => exact ⟨ws, '(', _, rfl, before, .inr (by decide)⟩
  | @plus ws _ _ blank => exact ⟨ws, '+', _, rfl, blank, .inr (by decide)⟩
  | @minus ws _ _ blank => exact ⟨ws, '-', _, rfl, blank, .inr (by decide)⟩
  | primary _ ih =>
      obtain ⟨ws, c, cs, rfl, hblank, hc⟩ := ih
      exact ⟨ws, c, cs, rfl, hblank, hc.imp_right (by simp +contextual [Level.lead])⟩
  | unary _ ih | term _ ih | additive _ ih => exact ih
  | product _ _ _ _ ih | sum _ _ _ _ ih | compare _ _ _ ih =>
      obtain ⟨ws, c, cs, rfl, hblank, hc⟩ := ih
      exact ⟨ws, c, _, by rw [List.append_assoc, List.cons_append], hblank, hc⟩

theorem isBlank_of_lead {level : Level} {c : Char}
    (h : continuesIdentifier c = true ∨ c ∈ level.lead) : isBlank c = false := by
  rcases h with h | h
  · exact isBlank_of_continuesIdentifier h
  · have hall : level.lead.all operatorSigns.contains = true := by cases level <;> decide
    exact isBlank_of_mem_operatorSigns (List.contains_iff_mem.1 (List.all_eq_true.1 hall c h))

/-- A primary does not start with a plus or minus sign, so it is its own unary. -/
theorem reads_primary {bracketed : Reader α} {text rest : List Char} {t : Tree} {rounds : Nat}
    (hphrase : Derives .primary text t)
    (hreads : Reads resolve (primary resolve bracketed) text t rest) :
    Reads resolve (unary (primary resolve bracketed) (rounds + 1)) text t rest := by
  intro asked
  obtain ⟨rest', hrest', hgives⟩ := hreads asked
  refine ⟨rest', hrest', ?_⟩
  obtain ⟨ws, c, cs, rfl, hblank, hc⟩ := hphrase.head
  have hskip : (ws ++ c :: cs ++ rest).dropWhile isBlank = c :: (cs ++ rest) :=
    dropWhile_phrase hblank (isBlank_of_lead hc)
  have hplus : c ≠ '+' := by
    rintro rfl
    exact absurd hc (by decide +kernel)
  have hminus : c ≠ '-' := by
    rintro rfl
    exact absurd hc (by decide +kernel)
  rw [primary, gives_skipBlanks, hskip] at hgives
  rw [unary, gives_skipBlanks, hskip, gives_peek]
  split
  · next h => exact absurd (Option.some.inj h) hplus
  · next h => exact absurd (Option.some.inj h) hminus
  · rw [primary, gives_skipBlanks]
    simpa [isBlank_of_lead hc] using hgives

/-! ## Loops -/

/-- What the loop makes of the rest with any value before it, it makes of the whole text with the
value of the phrase. -/
def Chains (resolve : Resolver α) (ops : List Operation) (m : Reader α) (text : List Char)
    (t : Tree) (rest : List Char) : Prop :=
  ∀ rounds asked (g : α → Except Stop α) i', (text ++ rest).length < rounds →
    (∀ v rounds, rest.length < rounds →
      Gives (chain (operators ops) m v rounds) ⟨rest, t.names.reverse ++ asked⟩ (g v) i') →
    Gives (m >>= fun v => chain (operators ops) m v rounds) ⟨text ++ rest, asked⟩
      (t.eval resolve >>= g) i'

omit [Arithmetic α] in
/-- The loop does not see the blanks before it. -/
theorem chain_blanks {operators : List (Char × (α → α → Except Stop α))} {m : Reader α}
    {rest rest' : List Char} (hrest : rest'.dropWhile isBlank = rest.dropWhile isBlank) (v : α)
    (rounds : Nat) (asked : List String) {e : Except Stop α} :
    Gives (chain operators m v (rounds + 1)) ⟨rest', asked⟩ e i₂ ↔
      Gives (chain operators m v (rounds + 1)) ⟨rest, asked⟩ e i₂ := by
  rw [chain, gives_skipBlanks, gives_skipBlanks, hrest]

/-- A single operand is a chain without rounds. -/
theorem chains_operand {ops : List Operation} {m : Reader α} {text rest : List Char} {t : Tree}
    (h : Reads resolve m text t rest) : Chains resolve ops m text t rest := by
  intro rounds asked g i' hrounds hrest
  obtain ⟨rest', heq, hgives⟩ := h asked
  refine gives_bind hgives fun v => ?_
  obtain ⟨rounds, rfl⟩ := Nat.exists_eq_succ_of_ne_zero (Nat.ne_zero_of_lt hrounds)
  refine (chain_blanks heq v rounds _).2 (hrest v _ ?_)
  simp only [List.length_append] at hrounds
  omega

/-- One round more: the operation and its right operand become part of the phrase. -/
theorem chains_join {ops : List Operation} {m : Reader α} {a ws b rest : List Char} {l r : Tree}
    {op : Operation} (hlookup : (operators ops).lookup op.sign = some (op.apply (α := α)))
    (hblank : Blank ws) (hleft : Chains resolve ops m a l (ws ++ op.sign :: (b ++ rest)))
    (hright : Reads resolve m b r rest) :
    Chains resolve ops m (a ++ (ws ++ op.sign :: b)) (.binary op l r) rest := by
  intro rounds asked g i' hrounds hrest
  have hassoc : a ++ (ws ++ op.sign :: b) ++ rest = a ++ (ws ++ op.sign :: (b ++ rest)) := by simp
  -- The operation applies to the chain so far and to the operand behind the sign.
  have heval : (Tree.binary op l r).eval resolve >>= g =
      l.eval resolve >>= fun x => r.eval resolve >>= fun y => op.apply x y >>= g := by
    simp only [Tree.eval, bind_assoc]
  rw [hassoc] at hrounds ⊢
  rw [heval]
  refine hleft rounds asked _ i' hrounds fun v rounds hrounds => ?_
  obtain ⟨rounds, rfl⟩ := Nat.exists_eq_succ_of_ne_zero (Nat.ne_zero_of_lt hrounds)
  obtain ⟨rest', heq, hgives⟩ := hright (l.names.reverse ++ asked)
  have hsign : isBlank op.sign = false :=
    isBlank_of_mem_operatorSigns (by cases op <;> decide)
  rw [chain, gives_skipBlanks, dropWhile_blank hblank hsign, gives_peek]
  simp only [List.head?_cons, Option.bind_some, hlookup, gives_skip, List.drop_succ_cons,
    List.drop_zero]
  refine gives_bind hgives fun w => gives_bind (gives_orStop _) fun x => ?_
  simp only [List.length_append, List.length_cons] at hrounds
  obtain ⟨rounds, rfl⟩ : ∃ n, rounds = n + 1 := ⟨rounds - 1, by omega⟩
  -- The operand may have left its blanks; the next round skips them.
  refine (chain_blanks heq x rounds _).2 ?_
  have hnames : r.names.reverse ++ (l.names.reverse ++ asked) =
      (Tree.binary op l r).names.reverse ++ asked := by simp [Tree.names]
  rw [hnames]
  exact hrest x _ (by omega)

/-- Where no operation of the loop follows, the loop is over. -/
theorem reads_of_chains {ops : List Operation} {m : Reader α} {text rest signs : List Char}
    {t : Tree} (h : Chains resolve ops m text t rest) (hfollow : Follows signs rest)
    (hsigns : ∀ c ∈ signs, (operators (α := α) ops).lookup c = none) {rounds : Nat}
    (hrounds : (text ++ rest).length < rounds) :
    Reads resolve (m >>= fun v => chain (operators ops) m v rounds) text t rest := by
  intro asked
  refine ⟨rest.dropWhile isBlank, List.dropWhile_idempotent _ _, ?_⟩
  have hgives := h rounds asked pure ⟨rest.dropWhile isBlank, t.names.reverse ++ asked⟩ hrounds ?_
  · rwa [bind_pure] at hgives
  · intro v rounds hrounds
    obtain ⟨rounds, rfl⟩ := Nat.exists_eq_succ_of_ne_zero (Nat.ne_zero_of_lt hrounds)
    rw [chain, gives_skipBlanks, gives_peek]
    have hnone : (rest.dropWhile isBlank).head?.bind
        (fun c => (operators (α := α) ops).lookup c) = none := by
      rw [Option.bind_eq_none_iff]
      exact fun c hc => hsigns c (hfollow c hc)
    simp only [hnone]
    exact gives_pure v

/-! ## Comparisons -/

/-- No phrase starts with an equals sign, so no comparison is taken for a longer one. -/
theorem comparisonAt_spelling {level : Level} {text rest : List Char} {t : Tree}
    (h : Derives level text t) (op : Comparison) :
    comparisonAt (spelling op ++ (text ++ rest)) = some (op, (spelling op).length) := by
  have hhead : ∀ c cs, text ++ rest = c :: cs → c ≠ '=' := by
    rintro _ cs hcs rfl
    obtain ⟨ws, c, cs', rfl, hblank, hc⟩ := h.head
    match ws with
    | [] =>
        obtain ⟨rfl, -⟩ := List.cons.inj hcs
        cases level <;> exact absurd hc (by decide +kernel)
    | w :: ws =>
        obtain ⟨rfl, -⟩ := List.cons.inj hcs
        exact absurd (hblank '=' (by simp)) (by decide +kernel)
  obtain ⟨ws, c, cs, htext, -⟩ := h.head
  obtain ⟨d, ds, hd⟩ : ∃ d ds, text ++ rest = d :: ds :=
    List.exists_cons_of_ne_nil (by simp [htext])
  have hne := hhead d ds hd
  rw [hd]
  cases op <;> simp [comparisonAt, comparisonSpellings, spelling, Ne.symm hne]

/-- What may stand behind a comparison does not start another one. -/
theorem comparisonAt_of_follows {rest : List Char} (h : Follows [')'] rest) :
    comparisonAt (rest.dropWhile isBlank) = none := by
  cases hrest : rest.dropWhile isBlank with
  | nil => rfl
  | cons c cs =>
      obtain rfl := List.mem_singleton.1 (h c (by rw [hrest]; rfl))
      rfl

/-- Without an operator behind it the operand is handed on as it is. -/
theorem reads_single {depth : Nat} {text rest : List Char} {t : Tree}
    (h : Reads resolve (additive (primary resolve (comparison resolve depth))) text t rest)
    (hfollow : Follows [')'] rest) :
    Reads resolve (comparison resolve (depth + 1)) text t rest := by
  intro asked
  obtain ⟨rest', heq, hgives⟩ := h asked
  refine ⟨rest.dropWhile isBlank, List.dropWhile_idempotent _ _, gives_bind_pure hgives fun v => ?_⟩
  rw [gives_skipBlanks, heq, gives_get]
  simp only [comparisonAt_of_follows hfollow]
  exact gives_pure v

/-- Both operands are read, and only then they are compared. -/
theorem reads_compare {depth : Nat} {a ws b rest : List Char} {l r : Tree} {op : Comparison}
    (hblank : Blank ws) (hb : Derives .additive b r)
    (hleft : Reads resolve (additive (primary resolve (comparison resolve depth))) a l
      (ws ++ (spelling op ++ (b ++ rest))))
    (hright : Reads resolve (additive (primary resolve (comparison resolve depth))) b r rest) :
    Reads resolve (comparison resolve (depth + 1)) (a ++ (ws ++ (spelling op ++ b)))
      (.compare op l r) rest := by
  intro asked
  obtain ⟨rest₁, heq₁, hgives₁⟩ := hleft asked
  obtain ⟨rest₂, heq₂, hgives₂⟩ := hright (l.names.reverse ++ asked)
  refine ⟨rest₂, heq₂, ?_⟩
  have hassoc : a ++ (ws ++ (spelling op ++ b)) ++ rest =
      a ++ (ws ++ (spelling op ++ (b ++ rest))) := by simp
  have hnames : (Tree.compare op l r).names.reverse ++ asked =
      r.names.reverse ++ (l.names.reverse ++ asked) := by simp [Tree.names]
  have hskip : rest₁.dropWhile isBlank = spelling op ++ (b ++ rest) := by
    rw [heq₁]
    cases op <;> exact dropWhile_blank hblank (by decide +kernel)
  rw [hassoc, hnames]
  refine gives_bind hgives₁ fun v => ?_
  rw [gives_skipBlanks, hskip, gives_get]
  simp only [comparisonAt_spelling hb op, gives_skip, List.drop_left]
  exact gives_bind hgives₂ fun w => gives_bind (gives_orStop _) fun truth => gives_pure _

/-! ## The grammar -/

/-- The reader of the level reads the text with its tree, whatever may follow; brackets may be
nested as deep as the text is long. -/
def Complete (resolve : Resolver α) (level : Level) (text : List Char) (t : Tree) : Prop :=
  ∀ depth rest, text.length ≤ depth → NoLongRun (text ++ rest) → Follows level.follow rest →
    match level with
    | .primary => Reads resolve (primary resolve (comparison resolve depth)) text t rest
    | .unary => ∀ rounds, text.length < rounds →
        Reads resolve (unary (primary resolve (comparison resolve depth)) rounds) text t rest
    | .term => ∀ rounds, (text ++ rest).length < rounds →
        Chains resolve [.mul, .div] (unary (primary resolve (comparison resolve depth)) rounds)
          text t rest
    | .additive =>
        Chains resolve [.add, .sub] (term (primary resolve (comparison resolve depth))) text t rest
    | .comparison => Reads resolve (comparison resolve (depth + 1)) text t rest

namespace Complete

variable {ws ws' text a b : List Char} {t l r : Tree}

/-- A chain that is complete has rounds enough: each takes at least one character. -/
theorem reads_term {rest : List Char} {depth : Nat}
    (h : Complete resolve .term text t) (hdepth : text.length ≤ depth)
    (hshort : NoLongRun (text ++ rest)) (hfollow : Follows signsBehindTerm rest) :
    Reads resolve (term (primary resolve (comparison resolve depth))) text t rest := by
  intro asked
  have hchains := h depth rest hdepth hshort (hfollow.mono (by decide)) _ (Nat.lt_succ_self _)
  obtain ⟨rest', heq, hgives⟩ := reads_of_chains hchains hfollow
    (by simp [signsBehindTerm, operators, Operation.sign]) (Nat.lt_succ_self _) asked
  refine ⟨rest', heq, ?_⟩
  rw [term, gives_roundsLeft]
  exact hgives

theorem reads_additive {rest : List Char} {depth : Nat}
    (h : Complete resolve .additive text t) (hdepth : text.length ≤ depth)
    (hshort : NoLongRun (text ++ rest)) (hfollow : Follows signsBehindAdditive rest) :
    Reads resolve (additive (primary resolve (comparison resolve depth))) text t rest := by
  intro asked
  have hchains := h depth rest hdepth hshort (hfollow.mono (by decide))
  obtain ⟨rest', heq, hgives⟩ := reads_of_chains hchains hfollow
    (by simp [signsBehindAdditive, operators, Operation.sign]) (Nat.lt_succ_self _) asked
  refine ⟨rest', heq, ?_⟩
  rw [additive, gives_roundsLeft]
  exact hgives

theorem numeral {ds : List Char} {n : Nat} (blank : Blank ws) (numeral : Numeral ds n) :
    Complete resolve .primary (ws ++ ds) (.numeral n) := by
  intro depth rest hdepth hshort hfollow
  refine reads_numeral blank numeral hfollow.tokenEnd (hshort.of_infix ?_)
  exact ⟨ws, [], by simp⟩

theorem name {x : String} (blank : Blank ws) (identifier : IsIdentifier x) :
    Complete resolve .primary (ws ++ x.toList) (.name x) := by
  intro depth rest hdepth hshort hfollow
  exact reads_name blank identifier hfollow.tokenEnd

/-- Brackets take one level of nesting, and are longer than what stands in them. -/
theorem brackets (before : Blank ws) (behind : Blank ws')
    (ih : Complete resolve .comparison text t) :
    Complete resolve .primary (ws ++ '(' :: (text ++ (ws' ++ [')']))) t := by
  intro depth rest hdepth hshort hfollow
  simp only [List.length_append, List.length_cons, List.length_nil] at hdepth
  obtain ⟨depth, rfl⟩ : ∃ n, depth = n + 1 := ⟨depth - 1, by omega⟩
  refine reads_brackets before behind (ih depth _ (by omega) (hshort.of_infix ?_) ?_)
  · exact ⟨ws ++ ['('], [], by simp⟩
  · exact follows_cons behind (by decide) (by decide)

theorem unary_primary (phrase : Derives .primary text t) (ih : Complete resolve .primary text t) :
    Complete resolve .unary text t := by
  intro depth rest hdepth hshort hfollow rounds hrounds
  obtain ⟨rounds, rfl⟩ := Nat.exists_eq_succ_of_ne_zero (Nat.ne_zero_of_lt hrounds)
  exact reads_primary phrase (ih depth rest hdepth hshort hfollow)

/-- The sign is read in one round, which leaves the operand one round less and a shorter text. -/
theorem plus (blank : Blank ws) (ih : Complete resolve .unary text t) :
    Complete resolve .unary (ws ++ '+' :: text) t := by
  intro depth rest hdepth hshort hfollow rounds hrounds
  simp only [List.length_append, List.length_cons] at hdepth hrounds
  obtain ⟨rounds, rfl⟩ := Nat.exists_eq_succ_of_ne_zero (Nat.ne_zero_of_lt hrounds)
  refine reads_plus blank (ih depth rest (by omega) (hshort.of_infix ?_) hfollow _ (by omega))
  exact ⟨ws ++ ['+'], [], by simp⟩

theorem minus (blank : Blank ws) (ih : Complete resolve .unary text t) :
    Complete resolve .unary (ws ++ '-' :: text) (.neg t) := by
  intro depth rest hdepth hshort hfollow rounds hrounds
  simp only [List.length_append, List.length_cons] at hdepth hrounds
  obtain ⟨rounds, rfl⟩ := Nat.exists_eq_succ_of_ne_zero (Nat.ne_zero_of_lt hrounds)
  refine reads_minus blank (ih depth rest (by omega) (hshort.of_infix ?_) hfollow _ (by omega))
  exact ⟨ws ++ ['-'], [], by simp⟩

theorem term_unary (ih : Complete resolve .unary text t) : Complete resolve .term text t := by
  intro depth rest hdepth hshort hfollow rounds hrounds
  refine chains_operand (ih depth rest hdepth hshort hfollow rounds ?_)
  simp only [List.length_append] at hrounds
  omega

theorem product {op : Operation} (isProduct : op = .mul ∨ op = .div) (blank : Blank ws)
    (ihl : Complete resolve .term a l) (ihr : Complete resolve .unary b r) :
    Complete resolve .term (a ++ (ws ++ op.sign :: b)) (.binary op l r) := by
  intro depth rest hdepth hshort hfollow rounds hrounds
  have hassoc : a ++ (ws ++ op.sign :: b) ++ rest = a ++ (ws ++ op.sign :: (b ++ rest)) := by
    simp
  have hsign : op.sign ∈ operatorSigns := by cases op <;> decide
  rw [hassoc] at hshort hrounds
  simp only [List.length_append, List.length_cons] at hdepth hrounds
  have hshort' : NoLongRun (b ++ rest) :=
    hshort.of_infix ⟨a ++ (ws ++ [op.sign]), [], by simp⟩
  refine chains_join ?_ blank ?_ (ihr depth rest (by omega) hshort' hfollow rounds (by omega))
  · rcases isProduct with rfl | rfl <;> rfl
  · refine ihl depth _ (by omega) hshort (follows_cons blank hsign hsign) rounds ?_
    simp only [List.length_append, List.length_cons]
    omega

theorem additive_term (ih : Complete resolve .term text t) :
    Complete resolve .additive text t := by
  intro depth rest hdepth hshort hfollow
  exact chains_operand (ih.reads_term hdepth hshort hfollow)

theorem sum {op : Operation} (isSum : op = .add ∨ op = .sub) (blank : Blank ws)
    (ihl : Complete resolve .additive a l) (ihr : Complete resolve .term b r) :
    Complete resolve .additive (a ++ (ws ++ op.sign :: b)) (.binary op l r) := by
  intro depth rest hdepth hshort hfollow
  have hassoc : a ++ (ws ++ op.sign :: b) ++ rest = a ++ (ws ++ op.sign :: (b ++ rest)) := by
    simp
  have hsign : op.sign ∈ operatorSigns ∧ op.sign ∈ signsBehindTerm := by
    rcases isSum with rfl | rfl <;> decide
  rw [hassoc] at hshort
  simp only [List.length_append, List.length_cons] at hdepth
  have hshort' : NoLongRun (b ++ rest) :=
    hshort.of_infix ⟨a ++ (ws ++ [op.sign]), [], by simp⟩
  refine chains_join ?_ blank ?_ (ihr.reads_term (by omega) hshort' hfollow)
  · rcases isSum with rfl | rfl <;> rfl
  · exact ihl depth _ (by omega) hshort (follows_cons blank hsign.2 hsign.1)

theorem comparison_additive (ih : Complete resolve .additive text t) :
    Complete resolve .comparison text t := by
  intro depth rest hdepth hshort hfollow
  exact reads_single (ih.reads_additive hdepth hshort (hfollow.mono (by decide))) hfollow

/-- What follows the left operand is the sign of the comparison, so none of its loops goes on. -/
theorem compare {op : Comparison} (blank : Blank ws) (right : Derives .additive b r)
    (ihl : Complete resolve .additive a l) (ihr : Complete resolve .additive b r) :
    Complete resolve .comparison (a ++ (ws ++ (spelling op ++ b))) (.compare op l r) := by
  intro depth rest hdepth hshort hfollow
  have hassoc : a ++ (ws ++ (spelling op ++ b)) ++ rest =
      a ++ (ws ++ (spelling op ++ (b ++ rest))) := by simp
  rw [hassoc] at hshort
  simp only [List.length_append] at hdepth
  have hshort' : NoLongRun (b ++ rest) :=
    hshort.of_infix ⟨a ++ (ws ++ spelling op), [], by simp⟩
  refine reads_compare blank right (ihl.reads_additive (by omega) hshort ?_)
    (ihr.reads_additive (by omega) hshort' (hfollow.mono (by decide)))
  cases op <;> exact follows_cons blank (by decide) (by decide)

end Complete

/-- Every phrase of the grammar is read: each rule has its reader. -/
theorem Derives.complete (resolve : Resolver α) {level : Level} {text : List Char} {t : Tree}
    (h : Derives level text t) : Complete resolve level text t := by
  induction h with
  | numeral blank numeral => exact .numeral blank numeral
  | name blank identifier => exact .name blank identifier
  | brackets before inner behind ih => exact .brackets before behind ih
  | primary phrase ih => exact .unary_primary phrase ih
  | plus blank operand ih => exact .plus blank ih
  | minus blank operand ih => exact .minus blank ih
  | unary phrase ih => exact .term_unary ih
  | product isProduct left blank right ihl ihr => exact .product isProduct blank ihl ihr
  | term phrase ih => exact .additive_term ih
  | sum isSum left blank right ihl ihr => exact .sum isSum blank ihl ihr
  | additive phrase ih => exact .comparison_additive ih
  | compare left blank right ihl ihr => exact .compare blank right ihl ihr

/-- A sentence of the grammar is evaluated as each of its trees. -/
theorem IsSentence.gives (resolve : Resolver α) {s : String} {t : Tree} (h : IsSentence s t)
    (hshort : NoLongRun s.toList) :
    Gives (whole resolve (s.toList.length + 1)) { rest := s.toList }
      ((t.eval resolve).map Arithmetic.normalize) ⟨[], t.names.reverse⟩ := by
  obtain ⟨text, ws, htext, hblank, hphrase⟩ := h
  have hdepth : text.length ≤ s.toList.length := by simp [htext]
  obtain ⟨rest', heq, hgives⟩ := hphrase.complete resolve s.toList.length ws hdepth
    (htext ▸ hshort) (follows_blank hblank) []
  rw [List.dropWhile_eq_nil_iff.2 hblank] at heq
  rw [List.append_nil, ← htext] at hgives
  have hmap : (t.eval resolve).map Arithmetic.normalize =
      t.eval resolve >>= fun v => pure (Arithmetic.normalize v) := by
    cases t.eval resolve <;> rfl
  rw [hmap]
  refine gives_bind hgives fun v => ?_
  rw [gives_skipBlanks, heq]
  exact gives_pure _

end ByteSchema.Expression
