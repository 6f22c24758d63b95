import ByteSchema.Proofs.Order

/-!
# ByteSchema.Proofs.Distinct

A decode that succeeds comes to each field, and to the end of each array, once.

A field is written under its path when its value is complete, and only if nothing is written there
yet. Of two places with a field of one path the later one stands inside the value of the other or
behind it: inside, its path would be written before that of the field around; behind, it would be
found written. So there is one such place (`Setting.writes_unique`). From there one way leads into
the elements of an array, and one way on from each, so the array also ends at one place only
(`Schema.closes_unique`).
-/

namespace ByteSchema

theorem Progress.Extends.get?_eq_none {p p' : Progress} {path : String} (h : p'.Extends p)
    (hnew : p'.values.get? path = none) : p.values.get? path = none := by
  cases hx : p.values.get? path with
  | none => rfl
  | some x =>
      rw [h.kept path x hx] at hnew
      cases hnew

/-- The first field at the place is decoded, and `id` is its path. -/
inductive Visit.Writes (s : Setting) (id : String) : Visit → Prop
  | field {depth : Nat} {outer : List Frame} {ctx : Context} {f : Field} {rest : List Field}
      {p : Progress} (present : (s.isPresent ctx f).Yields p true p)
      (named : ctx.childId f.id = id) : Writes s id ⟨depth, outer, ctx, .fields (f :: rest), p⟩

namespace Setting

variable {s : Setting} {u v w first : Visit} {id : String} {nodes : List Node} {p p' : Progress}

/-! ## Along a run -/

theorem extends_of_goes (h : Relation.ReflTransGen s.Leads v w) :
    w.progress.Extends v.progress := by
  induction h with
  | refl => exact .refl _
  | tail _ leads ih => exact leads.extends.trans ih

/-- The path of a field is new before the field, and written behind it. -/
theorem written_of_runs (hu : u.Writes s id) (h : u.Runs s nodes p') :
    u.progress.values.get? id = none ∧ p'.values.get? id ≠ none := by
  cases hu with
  | field present named =>
      obtain ⟨fields, stop, hrun⟩ := h
      obtain ⟨o, p₁, later, decoded, new, tail, -⟩ := hrun.of_present present
      have hid : o.node.id = id := (decodeField_named decoded).1.trans named
      rw [hid] at new tail
      refine ⟨(decodeField_extends extendsCustom_nested decoded).get?_eq_none new, fun hnone => ?_⟩
      have hwrite := (sequence_extends extendsCustom_nested tail).get?_eq_none hnone
      rw [Progress.get?_write] at hwrite
      cases hwrite

/-- Behind a field its path is written. -/
theorem written_of_passes (hu : u.Writes s id) (passes : s.Leads u w)
    (beside : u.station.isBeside w.station = true) : w.progress.values.get? id ≠ none := by
  cases hu with
  | field present named =>
      cases passes with
      | skip absent => cases (absent.unique present).1
      | past _ decoded _ =>
          have hid : _ = id := (decodeField_named decoded).1.trans named
          rw [hid, Progress.get?_write]
          exact Option.some_ne_none _
      | value | array => cases beside

/-- Inside the value of a field its path is not written. -/
theorem new_of_enters (hu : u.Writes s id) (h : u.Runs s nodes p') (enters : s.Leads u first)
    (within : u.station.isBeside first.station = false) :
    ∃ inside q, first.Runs s inside q ∧ q.values.get? id = none := by
  cases hu with
  | field present named =>
      obtain ⟨fields, stop, hrun⟩ := h
      obtain ⟨o, p₁, later, decoded, new, -, -⟩ := hrun.of_present present
      have hid : o.node.id = id := (decodeField_named decoded).1.trans named
      rw [hid] at new
      cases enters with
      | skip | past => cases within
      | value _ placed once =>
          exact ⟨_, p₁, ⟨o, decodeField_of_once decoded placed once, rfl⟩, new⟩
      | array _ placed repeated counted =>
          obtain ⟨items, stop, helements, -⟩ :=
            decodeField_of_repeated decoded placed repeated counted
          exact ⟨items, p₁, ⟨stop, helements⟩, new⟩

/-- Behind a field no other field has its path, and neither has one inside its value. -/
theorem not_writes_of_goes (hu : u.Writes s id) (h : u.Runs s nodes p') (leads : s.Leads u first)
    (goes : Relation.ReflTransGen s.Leads first w) : ¬ w.Writes s id := by
  intro hw
  cases hfirst : u.station.isBeside first.station with
  | false =>
      obtain ⟨inside, q, hinside, hnew⟩ := new_of_enters hu h leads hfirst
      obtain ⟨_, q', hruns, hlater⟩ := runs_of_goes hinside goes
      exact (written_of_runs hw hruns).2 (hlater.get?_eq_none hnew)
  | true =>
      obtain ⟨_, _, hruns, -⟩ := runs_of_goes h (.head leads goes)
      have hnew := (extends_of_goes goes).get?_eq_none (written_of_runs hw hruns).1
      exact written_of_passes hu leads hfirst hnew

/-- A field inside of what has been passed has another path than the fields behind. -/
theorem not_writes_of_passed {within : List Node} (hv : v.Writes s id)
    (enters : s.Leads u first) (hfirst : u.station.isBeside first.station = false)
    (goes : Relation.ReflTransGen s.Leads first v) {other : Visit} (passes : s.Leads u other)
    (hother : u.station.isBeside other.station = true)
    (behind : Relation.ReflTransGen s.Leads other w) (hw : w.Runs s within p') :
    ¬ w.Writes s id := by
  intro hwrites
  obtain ⟨inside, q, hinside, hlater⟩ := enters.runs_inside hfirst passes hother
  obtain ⟨_, q', hruns, hq⟩ := runs_of_goes hinside goes
  have hnew := ((extends_of_goes behind).trans hlater).get?_eq_none (written_of_runs hwrites hw).1
  exact (written_of_runs hv hruns).2 (hq.get?_eq_none hnew)

/-- **One place a path.** A run comes to one place only at which a field of the path is decoded. -/
theorem writes_unique (h : u.Runs s nodes p') (hv : Relation.ReflTransGen s.Leads u v)
    (hw : Relation.ReflTransGen s.Leads u w) (hvwrites : v.Writes s id)
    (hwwrites : w.Writes s id) : v = w := by
  induction hv using Relation.ReflTransGen.head_induction_on generalizing nodes p' with
  | refl =>
      rcases hw.cases_head with rfl | ⟨other, leads, hw⟩
      · rfl
      · exact absurd hwwrites (not_writes_of_goes hvwrites h leads hw)
  | head leads hv ih =>
      rename_i u first
      rcases hw.cases_head with rfl | ⟨other, leads', hw⟩
      · exact absurd hvwrites (not_writes_of_goes hwwrites h leads hv)
      obtain ⟨_, _, hfirstRuns, -⟩ := leads.runs h
      obtain ⟨_, _, hotherRuns, -⟩ := leads'.runs h
      -- As in `ordered_of_goes`, the two ways part at `u`, or go on together.
      cases hfirst : u.station.isBeside first.station <;>
        cases hother : u.station.isBeside other.station
      · obtain rfl := leads.unique leads' (hfirst.trans hother.symm)
        exact ih hfirstRuns hw
      · obtain ⟨_, _, hruns, -⟩ := runs_of_goes hotherRuns hw
        exact absurd hwwrites
          (not_writes_of_passed hvwrites leads hfirst hv leads' hother hw hruns)
      · obtain ⟨_, _, hruns, -⟩ := runs_of_goes hfirstRuns hv
        exact absurd hvwrites
          (not_writes_of_passed hwwrites leads' hother hw leads hfirst hv hruns)
      · obtain rfl := leads.unique leads' (hfirst.trans hother.symm)
        exact ih hfirstRuns hw

/-! ## The end of an array -/

/-- The decode goes on beside the place. -/
def Passes (s : Setting) (v w : Visit) : Prop :=
  s.Leads v w ∧ v.station.isBeside w.station = true

theorem passes_rightUnique : Relator.RightUnique s.Passes := by
  rintro u v w ⟨hv, hbeside⟩ ⟨hw, hbeside'⟩
  exact hv.unique hw (hbeside.trans hbeside'.symm)

end Setting

/-- The element at the place is the last one of the array with the path `id`, for the condition of
the repetition then holds (or does not, but the element took up no bytes). -/
inductive Visit.Closes (s : Setting) (id : String) (met : Bool) : Visit → Prop
  | last {depth : Nat} {outer : List Frame} {ctx : Context} {f : Field} {r : Repetition}
      {count : Option Int} {index : Nat} {cursor : Int} {p p₁ : Progress} {o : Outcome}
      (named : ctx.childId f.id = id) (more : s.isComplete r count index cursor = false)
      (decoded : (s.decodeSingle (s.nested depth) (ctx.moveTo cursor) f
        (Setting.elementName f.id index)).Yields p o p₁)
      (asked : (s.isSatisfied r ctx index o.node.value o.next).Yields p₁ met p₁)
      (ends : met = true ∨ (count.isNone ∧ o.next ≤ cursor)) :
      Closes s id met ⟨depth, outer, ctx, .elements f r count index cursor, p⟩

namespace Visit

variable {s : Setting} {v w : Visit} {id : String} {met : Bool}

/-- There is nothing beside the last element. -/
theorem Closes.not_passes (h : v.Closes s id met) : ¬ s.Passes v w := by
  rintro ⟨leads, beside⟩
  cases h with
  | last named more decoded asked ends =>
      cases leads with
      | element => cases beside
      | next _ decoded' fails moves =>
          obtain ⟨rfl, rfl⟩ := decoded.unique decoded'
          obtain ⟨rfl, -⟩ := asked.unique fails
          exact ends.elim nofun moves

theorem Closes.unique {met' : Bool} (h : v.Closes s id met) (h' : v.Closes s id met') :
    met = met' := by
  cases h with
  | last _ _ decoded asked =>
      cases h' with
      | last _ _ decoded' asked' =>
          obtain ⟨rfl, rfl⟩ := decoded.unique decoded'
          exact (asked'.unique asked).1

end Visit

namespace Schema

variable {schema : Schema} {options : Options} {buffer : Buffer} {result : Result} {root : Node}
  {v w : Visit} {id : String}

/-- The end of an array is come to from its field, one element after the other. -/
theorem Reached.exists_array {met : Bool} (hv : schema.Reached options buffer v)
    (hcloses : v.Closes (schema.setting options buffer) id met) :
    ∃ u start, schema.Reached options buffer u ∧ u.Writes (schema.setting options buffer) id ∧
      (schema.setting options buffer).Leads u start ∧ u.station.isBeside start.station = false ∧
      Relation.ReflTransGen (schema.setting options buffer).Passes start v := by
  obtain ⟨f, r, count, index, cursor, hstation, hname⟩ : ∃ f r count index cursor,
      v.station = .elements f r count index cursor ∧ v.ctx.childId f.id = id := by
    cases hcloses with
    | last named => exact ⟨_, _, _, _, _, rfl, named⟩
  clear hcloses
  induction hv generalizing index cursor with
  | root => cases hstation
  | step reached leads ih =>
      cases leads with
      | @array _ _ _ _ _ _ _ _ _ present placed repeated counted =>
          obtain ⟨-, ⟨offset, rfl⟩, -⟩ := Setting.placed_inv placed
          cases hstation
          exact ⟨_, _, reached, .field present hname, .array present placed repeated counted, rfl,
            .refl⟩
      | next more decoded fails moves =>
          cases hstation
          obtain ⟨u, start, hu, hwrites, enters, within, hpasses⟩ := ih _ _ rfl hname
          exact ⟨u, start, hu, hwrites, enters, within,
            hpasses.tail ⟨.next more decoded fails moves, rfl⟩⟩
      | skip | past | value | element | enter => cases hstation

/-- **One end an array.** In a decode that succeeds an array ends at one place, so in one way. -/
theorem closes_unique {met met' : Bool} (h : schema.decode options buffer = .ok result)
    (hroot : result.root = some root) (hv : schema.Reached options buffer v)
    (hw : schema.Reached options buffer w)
    (hvcloses : v.Closes (schema.setting options buffer) id met)
    (hwcloses : w.Closes (schema.setting options buffer) id met') : met = met' := by
  obtain ⟨definition, o, p, hdefinition, hrun, rfl⟩ := decode_inv h hroot
  obtain ⟨depth, children, fields, stop, hdepth, hseq, rfl⟩ := Setting.decodeInstance_inv hrun
  have hruns : Visit.Runs ⟨depth, [], Setting.inside { endian := schema.endian }
      (schema.rootInstance definition), .fields definition.seq, {}⟩
      (schema.setting options buffer) children p := ⟨fields, stop, hseq⟩
  -- It is enough to show that both are the same place.
  suffices hsame : v = w by
    subst hsame
    exact hvcloses.unique hwcloses
  obtain ⟨u, start, hu, huwrites, huenters, huwithin, hpasses⟩ := hv.exists_array hvcloses
  obtain ⟨u', start', hu', hwrites', henters', hwithin', hpasses'⟩ := hw.exists_array hwcloses
  obtain rfl := Setting.writes_unique hruns (hu.goes hdefinition hdepth)
    (hu'.goes hdefinition hdepth) huwrites hwrites'
  obtain rfl := huenters.unique henters' (huwithin.trans hwithin'.symm)
  -- From the start of the array there is one way on, and both places are the last one on it.
  rcases Relation.ReflTransGen.total_of_right_unique Setting.passes_rightUnique hpasses hpasses'
    with hgoes | hgoes
  · rcases hgoes.cases_head with rfl | ⟨_, hnext, -⟩
    · rfl
    · exact absurd hnext hvcloses.not_passes
  · rcases hgoes.cases_head with rfl | ⟨_, hnext, -⟩
    · rfl
    · exact absurd hnext hwcloses.not_passes

end Schema

end ByteSchema
