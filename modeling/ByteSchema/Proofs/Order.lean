import Mathlib.Logic.Relation
import ByteSchema.Proofs.Visit

/-!
# ByteSchema.Proofs.Order

The order in which a decode comes to its places.

From a place there are at most two ways: into what is decoded next, and on to what stands behind it.
All places inside come before the one behind. That makes an order of time (`Setting.Before`), in which
any two places of one decode stand (`Schema.Reached.ordered`). Along it the table of values only
grows (`Setting.Before.extends`).
-/

namespace ByteSchema

/-- Does the second station stand beside the first, among the same fields or elements? -/
def Station.isBeside : Station → Station → Bool
  | .fields _, .fields _ => true
  | .elements .., .elements .. => true
  | _, _ => false

namespace Setting

variable {s : Setting} {u v w first : Visit}

/-- The decode comes to the first place before it comes to the second. -/
inductive Before (s : Setting) : Visit → Visit → Prop
  | leads {v w : Visit} (leads : s.Leads v w) : Before s v w
  /-- A place in the value or the elements at `u`, which the decode has gone through when it comes to
  the place beside `u`. -/
  | inside {u first v w : Visit} (enters : s.Leads u first)
      (within : u.station.isBeside first.station = false)
      (goes : Relation.ReflTransGen s.Leads first v) (passes : s.Leads u w)
      (beside : u.station.isBeside w.station = true) : Before s v w
  | trans {u v w : Visit} (first : Before s u v) (second : Before s v w) : Before s u w

theorem selects_unique {ctx : Context} {f : Field} {p : Progress} {typeName other : String}
    (h : s.Selects ctx f p typeName) (h' : s.Selects ctx f p other) : other = typeName := by
  unfold Selects at h h'
  split at h
  case h_1 => cases h
  case h_2 named htype =>
      simp only [htype] at h'
      exact h'.trans h.symm
  case h_3 sw htype =>
      simp only [htype] at h'
      exact (h.unique h').1

/-- There is one way into the next value, and one way past it. -/
theorem Leads.unique (h : s.Leads u v) (h' : s.Leads u w)
    (same : u.station.isBeside v.station = u.station.isBeside w.station) : v = w := by
  cases h with
  -- A field is present or it is not; what follows depends on that alone.
  | skip absent =>
      cases h' with
      | skip => rfl
      | past present => cases (absent.unique present).1
      | value | array => cases same
  | past present decoded =>
      cases h' with
      | skip absent => cases (absent.unique present).1
      | past _ decoded' =>
          obtain ⟨rfl, rfl⟩ := decoded.unique decoded'
          rfl
      | value | array => cases same
  | value _ placed once =>
      cases h' with
      | skip | past => cases same
      | value _ placed' =>
          obtain ⟨rfl, -⟩ := placed.unique placed'
          rfl
      | array _ _ repeated =>
          rw [once] at repeated
          cases repeated
  | array _ placed repeated counted =>
      cases h' with
      | skip | past => cases same
      | value _ _ once =>
          rw [repeated] at once
          cases once
      | array _ placed' repeated' counted' =>
          obtain ⟨rfl, -⟩ := placed.unique placed'
          rw [repeated] at repeated'
          cases repeated'
          obtain ⟨rfl, -⟩ := counted.unique counted'
          rfl
  | element =>
      cases h' with
      | element => rfl
      | next => cases same
  | next _ decoded =>
      cases h' with
      | element => cases same
      | next _ decoded' =>
          obtain ⟨rfl, rfl⟩ := decoded.unique decoded'
          rfl
  | enter selected _ found =>
      cases h' with
      | enter selected' _ found' =>
          obtain rfl := selects_unique selected selected'
          rw [found] at found'
          cases found'
          rfl

/-! ## Any two places stand in order -/

theorem before_of_goes (h : Relation.ReflTransGen s.Leads v w) : v = w ∨ s.Before v w := by
  induction h with
  | refl => exact .inl rfl
  | tail _ leads ih =>
      rcases ih with rfl | hbefore
      · exact .inr (.leads leads)
      · exact .inr (.trans hbefore (.leads leads))

/-- What a decode goes through from one place on stands in order. -/
theorem ordered_of_goes (hv : Relation.ReflTransGen s.Leads u v)
    (hw : Relation.ReflTransGen s.Leads u w) : v = w ∨ s.Before v w ∨ s.Before w v := by
  induction hv using Relation.ReflTransGen.head_induction_on with
  | refl => exact (before_of_goes hw).imp_right .inl
  | head leads hv ih =>
      rename_i u first
      rcases hw.cases_head with rfl | ⟨other, leads', hw⟩
      · rcases before_of_goes (.head leads hv) with rfl | hbefore
        · exact .inl rfl
        · exact .inr (.inr hbefore)
      -- The two ways part at `u`, or go on together.
      cases hfirst : u.station.isBeside first.station <;>
        cases hother : u.station.isBeside other.station
      · obtain rfl := leads.unique leads' (hfirst.trans hother.symm)
        exact ih hw
      · have hbefore : s.Before v other := .inside leads hfirst hv leads' hother
        rcases before_of_goes hw with rfl | hrest
        · exact .inr (.inl hbefore)
        · exact .inr (.inl (.trans hbefore hrest))
      · have hbefore : s.Before w first := .inside leads' hother hw leads hfirst
        rcases before_of_goes hv with rfl | hrest
        · exact .inr (.inr hbefore)
        · exact .inr (.inr (.trans hbefore hrest))
      · obtain rfl := leads.unique leads' (hfirst.trans hother.symm)
        exact ih hw

/-! ## The table grows in this order -/

theorem Leads.extends (h : s.Leads v w) : w.progress.Extends v.progress := by
  cases h with
  | past _ decoded new =>
      exact (Progress.Extends.write new).trans (decodeField_extends extendsCustom_nested decoded)
  | next _ decoded => exact decodeSingle_extends extendsCustom_nested decoded
  | skip | value | array | element | enter => exact .refl _

/-- When the decode has passed a value or an element, it has gone through all of it. -/
theorem Leads.runs_inside (enters : s.Leads u first)
    (within : u.station.isBeside first.station = false) (passes : s.Leads u w)
    (beside : u.station.isBeside w.station = true) :
    ∃ nodes p', first.Runs s nodes p' ∧ w.progress.Extends p' := by
  cases passes with
  -- A field that is skipped has no way in.
  | skip absent =>
      cases enters with
      | skip | past => cases within
      | value present | array present => cases (absent.unique present).1
  | past _ decoded new =>
      cases enters with
      | skip | past => cases within
      | value _ placed once =>
          exact ⟨_, _, ⟨_, decodeField_of_once decoded placed once, rfl⟩, .write new⟩
      | array _ placed repeated counted =>
          obtain ⟨items, stop, helements, -⟩ :=
            decodeField_of_repeated decoded placed repeated counted
          exact ⟨items, _, ⟨stop, helements⟩, .write new⟩
  | next _ decoded =>
      cases enters with
      | element => exact ⟨_, _, ⟨_, decoded, rfl⟩, .refl _⟩
      | next => cases within
  | value | array | element | enter => cases beside

/-- A run comes through all places that the decode goes to from its start. -/
theorem runs_of_goes {nodes : List Node} {p' : Progress} (h : v.Runs s nodes p')
    (goes : Relation.ReflTransGen s.Leads v w) :
    ∃ within q, w.Runs s within q ∧ p'.Extends q := by
  induction goes with
  | refl => exact ⟨nodes, p', h, .refl _⟩
  | tail _ leads ih =>
      obtain ⟨within, q, hwithin, hlater⟩ := ih
      obtain ⟨inner, q', hinner, hq, -⟩ := leads.runs hwithin
      exact ⟨inner, q', hinner, hlater.trans hq⟩

/-- What a run leaves extends what there is at all places that it comes through. -/
theorem extends_of_runs {nodes : List Node} {p' : Progress} (h : v.Runs s nodes p')
    (goes : Relation.ReflTransGen s.Leads v w) : p'.Extends w.progress := by
  obtain ⟨within, q, hwithin, hlater⟩ := runs_of_goes h goes
  exact hlater.trans hwithin.extends

/-- **Growth.** What the table holds at one place it holds at all later ones. -/
theorem Before.extends (h : s.Before v w) : w.progress.Extends v.progress := by
  induction h with
  | leads leads => exact leads.extends
  | inside enters within goes passes beside =>
      obtain ⟨nodes, p', hrun, hlater⟩ := enters.runs_inside within passes beside
      exact hlater.trans (extends_of_runs hrun goes)
  | trans _ _ ihfirst ihsecond => exact ihsecond.trans ihfirst

end Setting

namespace Schema.Reached

variable {schema : Schema} {options : Options} {buffer : Buffer} {v w : Visit}

theorem exists_root (h : schema.Reached options buffer v) :
    ∃ definition depth, schema.rootType? = some definition ∧
      options.maxDepth.toNat = depth + 1 := by
  induction h with
  | root isRoot allowed => exact ⟨_, _, isRoot, allowed⟩
  | step _ _ ih => exact ih

theorem goes {definition : TypeDef} {depth : Nat} (isRoot : schema.rootType? = some definition)
    (allowed : options.maxDepth.toNat = depth + 1) (h : schema.Reached options buffer v) :
    Relation.ReflTransGen (schema.setting options buffer).Leads
      ⟨depth, [], Setting.inside { endian := schema.endian } (schema.rootInstance definition),
        .fields definition.seq, {}⟩ v := by
  induction h with
  | root isRoot' allowed' =>
      rw [isRoot] at isRoot'
      rw [allowed] at allowed'
      cases isRoot'
      cases allowed'
      exact .refl
  | step _ leads ih => exact ih.tail leads

/-- Of any two places of a decode it comes to one before the other. -/
theorem ordered (hv : schema.Reached options buffer v) (hw : schema.Reached options buffer w) :
    v = w ∨ (schema.setting options buffer).Before v w ∨
      (schema.setting options buffer).Before w v := by
  obtain ⟨definition, depth, isRoot, allowed⟩ := hv.exists_root
  exact Setting.ordered_of_goes (hv.goes isRoot allowed) (hw.goes isRoot allowed)

end Schema.Reached

end ByteSchema
