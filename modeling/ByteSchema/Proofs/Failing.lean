import ByteSchema.Proofs.Escape
import ByteSchema.Proofs.Limits

/-!
# ByteSchema.Proofs.Failing

A failure at a place ends the decode.

What fails at a place that a decode comes to, fails at the place that it comes from, and so on up to
the root (`Setting.Leads.fails`). The failure stays as it is once it names a path. The loop over the
elements of an array must have rounds left for it; there are enough of them when their limit is as
high as "no limit" asks for (`Schema.Reached.fails`).
-/

namespace ByteSchema

/-- The failure stays as it is on its way to the root. -/
def Failure.IsPlaced (e : Failure) : Prop := ∀ path, e.withPath path = e

theorem Failure.isPlaced_error {c : Cause} {path : String} :
    (Failure.error ⟨c, some path⟩).IsPlaced := fun _ => rfl

namespace Decoder

variable {α β : Type} {m : Decoder α} {p p' : Progress} {e : Failure}

/-- The decoder, started in `p`, fails with `e`. -/
def Fails (m : Decoder α) (p : Progress) (e : Failure) : Prop := (m.run.run p).1 = .error e

/-- A run succeeds or fails, and not both. -/
theorem Yields.not_fails {a : α} (h : m.Yields p a p') : ¬ m.Fails p e := by
  intro he
  unfold Fails at he
  rw [h] at he
  cases he

theorem Fails.bind_left (h : m.Fails p e) (f : α → Decoder β) : (m >>= f).Fails p e := by
  unfold Fails at h ⊢
  rw [run_bind]
  generalize m.run.run p = r at h ⊢
  obtain ⟨r, p'⟩ := r
  cases h
  rfl

theorem Yields.bind_fails {f : α → Decoder β} {a : α} (h : m.Yields p a p')
    (hf : (f a).Fails p' e) : (m >>= f).Fails p e := by
  unfold Yields at h
  unfold Fails at hf ⊢
  rw [run_bind, h]
  exact hf

theorem Fails.located (h : m.Fails p e) (path : String) :
    (Decoder.located path m).Fails p (e.withPath path) := by
  unfold Fails at h ⊢
  rw [run_located, h]
  rfl

theorem record_fails {path : String} {value : Value} (h : p.values.get? path ≠ none) :
    (record path value).Fails p (.error ⟨.decodedTwice path, some path⟩) := by
  refine Yields.bind_fails (yields_get.2 ⟨rfl, rfl⟩) ?_
  obtain ⟨v, hv⟩ := Option.ne_none_iff_exists'.1 h
  have hrecord : p.values.record path value = .error ⟨.decodedTwice path, some path⟩ := by
    unfold ValueTable.record
    rw [hv]
    rfl
  rw [hrecord]
  rfl

end Decoder

/-- How many elements there are before the place in the array that it goes through. -/
def Station.round : Station → Nat
  | .elements _ _ _ index _ => index
  | _ => 0

/-- What is at hand at the place fails with `e`. -/
def Visit.Fails (v : Visit) (s : Setting) (e : Failure) : Prop :=
  match v.station with
  | .fields seq => ∀ done, (s.decodeFields (s.nested v.depth) seq v.ctx done).Fails v.progress e
  | .elements f r count index cursor => ∀ rounds done, s.RoundsLeft count rounds index →
      (s.decodeElements (s.nested v.depth) v.ctx f r count rounds index done cursor).Fails v.progress e
  | .single f name => (s.decodeSingle (s.nested v.depth) v.ctx f name).Fails v.progress e

namespace Setting

variable {s : Setting} {custom : CustomDecoder} {ctx : Context} {f : Field} {name : String}
  {p : Progress} {e : Failure}

/-- An element that is reached has a round left for it. -/
theorem RoundsLeft.exists_succ {r : Repetition} {count : Option Int} {rounds index : Nat}
    {cursor : Int} (h : s.RoundsLeft count rounds index)
    (hmore : s.isComplete r count index cursor = false) (hrounds : index < s.options.maxRounds) :
    ∃ left, rounds = left + 1 := by
  refine ⟨rounds - 1, ?_⟩
  cases count with
  | none =>
      unfold RoundsLeft at h
      omega
  | some n =>
      have hlt : (index : Int) < n := by simpa [isComplete] using hmore
      unfold RoundsLeft at h
      omega

/-- Where the decoder of an instance fails, the value fails, and the failure names its path unless
it names one. -/
theorem decodeSingle_fails {typeName : String} (hselected : s.Selects ctx f p typeName)
    (hcustom : Primitive.ofName? typeName = none) (h : (custom ctx f typeName name).Fails p e) :
    (s.decodeSingle custom ctx f name).Fails p (e.withPath (ctx.childId name)) := by
  have hnamed : (s.decodeNamed custom ctx f name typeName).Fails p e := by
    unfold decodeNamed
    rwa [hcustom]
  refine Decoder.Fails.located ?_ _
  unfold Selects at hselected
  split
  case h_1 htype => simp [htype] at hselected
  case h_2 named htype =>
      simp only [htype] at hselected
      exact hselected ▸ hnamed
  case h_3 sw htype =>
      simp only [htype] at hselected
      exact hselected.bind_fails hnamed

/-- A field that is present fails where its value does. -/
theorem decodeFields_fails {rest : List Field} {done : List Node}
    (present : (s.isPresent ctx f).Yields p true p)
    (h : (s.decodeField custom ctx f).Fails p e) :
    (s.decodeFields custom (f :: rest) ctx done).Fails p e :=
  present.bind_fails (h.bind_left _)

/-- What fails at a place fails at the place before. -/
theorem Leads.fails {v w : Visit} (he : e.IsPlaced)
    (hrounds : v.station.round < s.options.maxRounds) (h : w.Fails s e) (leads : s.Leads v w) :
    v.Fails s e := by
  cases leads with
  | skip absent =>
      intro done
      exact absent.bind_fails (h done)
  -- The value before succeeds and can be written, so the failure comes behind it.
  | @past _ _ _ _ _ _ p₁ o present decoded new =>
      intro done
      refine present.bind_fails (decoded.bind_fails ?_)
      have hrecord : (Decoder.record o.node.id o.node.value).Yields p₁ ()
          (p₁.write o.node.id o.node.value) := Decoder.yields_record.2 ⟨new, rfl⟩
      exact hrecord.bind_fails (h _)
  | value present placed once =>
      intro done
      refine decodeFields_fails present (placed.bind_fails ?_)
      rw [once]
      exact h
  | array present placed repeated counted =>
      intro done
      refine decodeFields_fails present (placed.bind_fails ?_)
      rw [repeated]
      refine counted.bind_fails (Decoder.Fails.bind_left (h _ _ ?_) _)
      rename_i count
      cases count with
      | none => exact Nat.add_zero _
      | some n => exact ⟨Nat.zero_le _, Nat.add_zero _⟩
  -- A round is left for the element, since its index is under the limit.
  | element more =>
      intro rounds done hleft
      obtain ⟨left, rfl⟩ := hleft.exists_succ more hrounds
      unfold decodeElements
      rw [more]
      exact Decoder.Fails.bind_left h _
  | next more decoded fails moves =>
      intro rounds done hleft
      obtain ⟨left, rfl⟩ := hleft.exists_succ more hrounds
      unfold decodeElements
      rw [more]
      refine decoded.bind_fails (fails.bind_fails ?_)
      rw [if_neg Bool.false_ne_true, if_neg moves]
      exact h left _ (hleft.next more)
  -- An instance passes failures on, and gives its path to none that has one.
  | @enter depth _ ctx f name typeName _ _ p selected custom found =>
      have hnested : (s.nested (depth + 1) ctx f typeName name).Fails p e := by
        unfold nested
        rw [found]
        exact Decoder.Fails.bind_left (h []) _
      have hsingle := decodeSingle_fails selected custom hnested
      rwa [he] at hsingle

end Setting

namespace Schema

variable {schema : Schema} {options : Options} {buffer : Buffer} {e : DecodeError}

theorem decode_of_fails {definition : TypeDef} (hroot : schema.rootType? = some definition)
    (h : (schema.decodeRoot options definition buffer).Fails {} (.error e)) :
    ∃ warnings, schema.decode options buffer = .ok (failed e warnings) := by
  unfold Decoder.Fails at h
  unfold decode
  rw [hroot]
  dsimp only
  generalize (schema.decodeRoot options definition buffer).run.run {} = r at h
  obtain ⟨r, p⟩ := r
  cases h
  exact ⟨p.warnings, rfl⟩

/-- What fails at a place that the decode comes to is how the decode ends, if it has enough rounds;
how many are enough depends on the place only. -/
theorem Reached.exists_rounds {v : Visit} (hv : schema.Reached options buffer v) :
    ∃ enough, ∀ rounds ≥ enough, ∀ e : DecodeError, (.error e : Failure).IsPlaced →
      v.Fails (schema.setting { options with maxRounds := rounds } buffer) (.error e) →
        ∃ warnings, schema.decode { options with maxRounds := rounds } buffer =
          .ok (failed e warnings) := by
  induction hv with
  | root isRoot allowed =>
      refine ⟨0, fun rounds _ e _ h => decode_of_fails isRoot ?_⟩
      have hdepth : ({ options with maxRounds := rounds } : Options).maxDepth.toNat = _ := allowed
      unfold decodeRoot
      rw [hdepth]
      exact Decoder.Fails.bind_left (h []) _
  | @step v w _ leads ih =>
      obtain ⟨enough, ih⟩ := ih
      -- Enough for the place before, no fewer than in the options, and more than the round at hand.
      refine ⟨max enough (max options.maxRounds (v.station.round + 1)), ?_⟩
      intro rounds hrounds e he h
      have hlimits : options.AtMost { options with maxRounds := rounds } :=
        Options.atMost_withRounds (by omega)
      refine ih rounds (by omega) e he (Setting.Leads.fails he ?_ h (leads.under hlimits))
      show v.station.round < rounds
      omega

theorem Reached.fails {v : Visit} (hv : schema.Reached options buffer v)
    (he : (.error e : Failure).IsPlaced) :
    ∃ enough, ∀ rounds ≥ enough,
      v.Fails (schema.setting { options with maxRounds := rounds } buffer) (.error e) →
        ∃ warnings, schema.decode { options with maxRounds := rounds } buffer =
          .ok (failed e warnings) := by
  obtain ⟨enough, hrounds⟩ := hv.exists_rounds
  exact ⟨enough, fun rounds hle => hrounds rounds hle e he⟩

end Schema

end ByteSchema
