import ByteSchema.Proofs.Order

/-!
# ByteSchema.Proofs.Limits

The limits are guards only.

A decoder with higher limits does the same as one with lower limits, unless the latter is stopped by
a limit (`Decoder.Loosens`). The limits are three: on instances in each other, on counted elements,
and on the elements of a repetition without count. The last one stands for "no limit", so what a
decode does in the end is what it does with any number of rounds that is large enough.
-/

namespace ByteSchema

/-- The failures that a limit makes. The count that is over its limit may be too long to be worded. -/
inductive Failure.IsLimit : Failure → Prop
  | depth {limit : Int} {typeName : String} {path : Option String} :
      IsLimit (.error ⟨.tooDeep limit typeName, path⟩)
  | count {n limit : Int} {path : Option String} :
      IsLimit (.error ⟨.countOverLimit n limit, path⟩)
  | longCount : IsLimit (.escape .longInteger)
  | rounds : IsLimit (.escape .unfinished)

theorem Failure.IsLimit.withPath {e : Failure} (h : e.IsLimit) (path : String) :
    (e.withPath path).IsLimit := by
  cases h with
  | depth => exact .depth
  | count => exact .count
  | longCount => exact .longCount
  | rounds => exact .rounds

namespace Decoder

variable {α β : Type} {m m' : Decoder α}

/-- The decoder, started in `p`, is stopped by a limit. -/
def IsStopped (m : Decoder α) (p : Progress) : Prop :=
  ∃ e p', m.run.run p = (.error e, p') ∧ e.IsLimit

/-- The second decoder does what the first one does, unless that is stopped by a limit. -/
def Loosens (m m' : Decoder α) : Prop := ∀ p, m.IsStopped p ∨ m'.run.run p = m.run.run p

theorem loosens_rfl : Loosens m m := fun _ => .inr rfl

theorem loosens_throw {e : Failure} (h : e.IsLimit) : Loosens (throw e) m :=
  fun p => .inl ⟨e, p, rfl, h⟩

theorem loosens_fail {c : Cause} {path : Option String}
    (h : (Failure.error ⟨c, path⟩).IsLimit) : Loosens (fail c path) m := by
  refine loosens_throw ?_
  unfold Failure.ofCause
  split
  · exact .longCount
  · exact h

/-- The first step may stop at a limit; if not, both runs go on from the same result. -/
theorem loosens_bind {k k' : α → Decoder β} (hm : Loosens m m') (hk : ∀ a, Loosens (k a) (k' a)) :
    Loosens (m >>= k) (m' >>= k') := by
  intro p
  unfold IsStopped
  rw [run_bind, run_bind]
  rcases hm p with ⟨e, p', hstopped, hlimit⟩ | hsame
  · exact .inl ⟨e, p', by rw [hstopped], hlimit⟩
  · rw [hsame]
    rcases m.run.run p with ⟨_ | a, p'⟩
    · exact .inr rfl
    · exact hk a p'

theorem loosens_located {path : String} (h : Loosens m m') :
    Loosens (located path m) (located path m') := by
  intro p
  unfold IsStopped
  rw [run_located, run_located]
  rcases h p with ⟨e, p', hstopped, hlimit⟩ | hsame
  · exact .inl ⟨e.withPath path, p', by rw [hstopped]; rfl, hlimit.withPath path⟩
  · exact .inr (by rw [hsame])

/-- What succeeds is not stopped. -/
theorem Loosens.yields (h : Loosens m m') {p p' : Progress} {a : α} (hrun : m.Yields p a p') :
    m'.Yields p a p' := by
  unfold Yields at hrun ⊢
  rcases h p with ⟨e, p'', hstopped, -⟩ | hsame
  · rw [hrun] at hstopped
    cases hstopped
  · exact hsame.trans hrun

end Decoder

/-- The limits on elements are not lower. -/
structure Options.AtMost (options options' : Options) : Prop where
  count : options.maxCount ≤ options'.maxCount
  rounds : options.maxRounds ≤ options'.maxRounds

theorem Options.atMost_withRounds {options : Options} {rounds : Nat}
    (h : options.maxRounds ≤ rounds) : options.AtMost { options with maxRounds := rounds } :=
  ⟨Int.le_refl _, h⟩

namespace Setting

open Decoder

variable {s : Setting} {options : Options} {custom custom' : CustomDecoder} {ctx : Context}
  {f : Field} {name : String}

/-- The setting with other limits. -/
def under (s : Setting) (options : Options) : Setting := { s with options }

/-- The cases of a switch see no limits. -/
theorem selectCase_under {place : Place} {d : Number} {entries : List (Value × String)} :
    (s.under options).selectCase place d entries = s.selectCase place d entries := by
  induction entries with
  | nil => rfl
  | cons entry rest ih =>
      unfold selectCase
      rw [ih]
      rfl

/-- Types are selected without regard to the limits. -/
theorem selectType_under {place : Place} {id : String} {sw : Switch} :
    (s.under options).selectType place id sw = s.selectType place id sw := by
  unfold selectType
  simp only [selectCase_under]
  rfl

theorem selects_under {p : Progress} {typeName : String} :
    (s.under options).Selects ctx f p typeName ↔ s.Selects ctx f p typeName := by
  unfold Selects
  simp only [selectType_under]

/-- What is asked of the two decoders of nested instances. -/
def LoosensCustom (custom custom' : CustomDecoder) : Prop :=
  ∀ ctx f typeName name, Loosens (custom ctx f typeName name) (custom' ctx f typeName name)

theorem decodeNamed_loosens {typeName : String} (hcustom : LoosensCustom custom custom') :
    Loosens (s.decodeNamed custom ctx f name typeName)
      ((s.under options).decodeNamed custom' ctx f name typeName) := by
  unfold decodeNamed
  split
  case h_5 => exact hcustom _ _ _ _
  all_goals exact loosens_rfl

theorem decodeSingle_loosens (hcustom : LoosensCustom custom custom') :
    Loosens (s.decodeSingle custom ctx f name)
      ((s.under options).decodeSingle custom' ctx f name) := by
  refine loosens_located ?_
  split
  · exact loosens_rfl
  · exact decodeNamed_loosens hcustom
  · rw [selectType_under]
    exact loosens_bind loosens_rfl fun _ => decodeNamed_loosens hcustom

/-- By induction on the rounds of the first run: the second run has at least as many. -/
theorem decodeElements_loosens {r : Repetition} {count : Option Int} {rounds rounds' index : Nat}
    {done : List Node} {cursor : Int} (hcustom : LoosensCustom custom custom')
    (hrounds : rounds ≤ rounds') :
    Loosens (s.decodeElements custom ctx f r count rounds index done cursor)
      ((s.under options).decodeElements custom' ctx f r count rounds' index done cursor) := by
  induction rounds generalizing rounds' index done cursor with
  -- The first run has no rounds left, and that is a limit of its own.
  | zero => exact loosens_throw .rounds
  | succ rounds ih =>
      obtain ⟨rounds', rfl⟩ : ∃ more, rounds' = more + 1 := ⟨rounds' - 1, by omega⟩
      have hnext : rounds ≤ rounds' := Nat.le_of_succ_le_succ hrounds
      unfold decodeElements
      have hcomplete : (s.under options).isComplete r count index cursor =
          s.isComplete r count index cursor := rfl
      rw [hcomplete]
      split
      · exact loosens_rfl
      refine loosens_bind (decodeSingle_loosens hcustom) fun o => ?_
      refine loosens_bind loosens_rfl fun satisfied => ?_
      split
      · exact loosens_rfl
      split
      · exact loosens_rfl
      · exact ih hnext

variable (hlimits : s.options.AtMost options)
include hlimits

/-- A count over the limit stops the first run; another one is not over the higher limit either. -/
theorem repeatCount_loosens {r : Repetition} :
    Loosens (s.repeatCount ctx f r) ((s.under options).repeatCount ctx f r) := by
  unfold repeatCount
  split
  case h_2 => exact loosens_rfl
  refine loosens_bind loosens_rfl fun n => ?_
  split
  · exact loosens_rfl
  split
  case isTrue => exact loosens_fail .count
  case isFalse hcount =>
      have hunder : ¬ (s.under options).options.maxCount < n := fun hover =>
        hcount (Int.lt_of_le_of_lt hlimits.count hover)
      rw [if_neg hunder]
      exact loosens_rfl

theorem decodeRepeated_loosens {r : Repetition} (hcustom : LoosensCustom custom custom') :
    Loosens (s.decodeRepeated custom ctx f r)
      ((s.under options).decodeRepeated custom' ctx f r) := by
  refine loosens_bind (repeatCount_loosens hlimits) fun count => ?_
  refine loosens_bind (decodeElements_loosens hcustom ?_) fun _ => loosens_rfl
  cases count with
  | none => exact hlimits.rounds
  | some n => exact Nat.le_refl _

theorem decodeField_loosens (hcustom : LoosensCustom custom custom') :
    Loosens (s.decodeField custom ctx f) ((s.under options).decodeField custom' ctx f) := by
  refine loosens_bind loosens_rfl fun ctx' => ?_
  split
  · exact decodeRepeated_loosens hlimits hcustom
  · exact decodeSingle_loosens hcustom

theorem decodeFields_loosens {seq : List Field} {done : List Node}
    (hcustom : LoosensCustom custom custom') :
    Loosens (s.decodeFields custom seq ctx done)
      ((s.under options).decodeFields custom' seq ctx done) := by
  induction seq generalizing ctx done with
  | nil => exact loosens_rfl
  | cons f rest ih =>
      refine loosens_bind loosens_rfl fun present => ?_
      split
      · refine loosens_bind (decodeField_loosens hlimits hcustom) fun o => ?_
        exact loosens_bind loosens_rfl fun _ => ih
      · exact ih

theorem decodeInstance_loosens {depth depth' : Nat} {i : Instance} (hdepth : depth ≤ depth') :
    Loosens (s.decodeInstance depth ctx i) ((s.under options).decodeInstance depth' ctx i) := by
  induction depth generalizing depth' ctx i with
  | zero => exact loosens_fail .depth
  | succ depth ih =>
      obtain ⟨depth', rfl⟩ : ∃ more, depth' = more + 1 := ⟨depth' - 1, by omega⟩
      have hnested : LoosensCustom (s.nested depth) ((s.under options).nested depth') := by
        intro ctx f typeName name
        unfold nested
        split
        · exact ih (Nat.le_of_succ_le_succ hdepth)
        · exact loosens_rfl
      exact loosens_bind (decodeFields_loosens hlimits hnested) fun _ => loosens_rfl

theorem loosensCustom_nested {depth : Nat} :
    LoosensCustom (s.nested depth) ((s.under options).nested depth) := by
  intro ctx f typeName name
  unfold nested
  split
  · exact decodeInstance_loosens hlimits (Nat.le_refl _)
  · exact loosens_rfl

/-- With higher limits on elements a decode takes the same ways. -/
theorem Leads.under {v w : Visit} (h : s.Leads v w) : (s.under options).Leads v w := by
  cases h with
  | skip absent => exact .skip absent
  | past present decoded new =>
      exact .past present
        (Loosens.yields (decodeField_loosens hlimits (loosensCustom_nested hlimits)) decoded) new
  | value present placed once => exact .value present placed once
  | array present placed repeated counted =>
      exact .array present placed repeated ((repeatCount_loosens hlimits).yields counted)
  | element more => exact .element more
  | next more decoded fails moves =>
      exact .next more
        (Loosens.yields (decodeSingle_loosens (loosensCustom_nested hlimits)) decoded) fails moves
  | enter selected custom found => exact .enter (selects_under.2 selected) custom found

end Setting

end ByteSchema
