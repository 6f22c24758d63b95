import ByteSchema.Proofs.Causes
import ByteSchema.Proofs.Failing

/-!
# ByteSchema.Proofs.Selection

Which type a switch selects.

The cases are tried in order, and each key either passes, matches, or cannot be read at all. What
the keys stand for (`View.KeyStandsFor`) and which of them comes first decide what the switch gives
(`View.Chooses`) or how it fails (`View.Refuses`). Keys in front that pass are as good as absent
(`Setting.selectCase_append`), so the search is settled by the first key that does not; and there is
such a key or all pass (`View.search_cases`), so nothing else can come of a switch.
-/

namespace ByteSchema

/-- The value is neither a truth value nor a number, so that as a case key it counts by its text. -/
def Value.isWords : Value → Bool
  | .bool _ | .int _ | .float _ => false
  | _ => true

/-! ## What a key stands for -/

/-- What number the text of a case key stands for: none if it is blank or that of the default case,
else its value as an expression, else as a decimal fraction. -/
inductive View.TextStandsFor (view : View) (text : String) : Option Number → Prop
  | blank (hblank : text = "" ∨ text = defaultKey) : TextStandsFor view text none
  | expression {n : Number} (hwords : ¬ (text = "" ∨ text = defaultKey))
      (hvalue : view.evaluate (.str text) = .ok (some n)) : TextStandsFor view text (some n)
  | numeral {x : Float} (hwords : ¬ (text = "" ∨ text = defaultKey))
      (hvalue : view.evaluate (.str text) = .ok none) (hread : Numeral.readFraction text = some x) :
      TextStandsFor view text (some (Number.float x).normalize)
  | nothing (hwords : ¬ (text = "" ∨ text = defaultKey))
      (hvalue : view.evaluate (.str text) = .ok none) (hread : Numeral.readFraction text = none) :
      TextStandsFor view text none

/-- What number a case key stands for: a truth value 0 or 1, a number itself, any other key what its
text does. -/
inductive View.KeyStandsFor (view : View) : Value → Option Number → Prop
  | flag {b : Bool} : KeyStandsFor view (.bool b) (some (.int (Number.ofFlag b)))
  | int {n : Int} : KeyStandsFor view (.int n) (some (.int n))
  | float {x : Float} : KeyStandsFor view (.float x) (some (.float x))
  | words {key : Value} {n : Option Number} (hkey : key.isWords = true)
      (hshort : key.hasOverlong = false) (htext : view.TextStandsFor (Text.strip key.text) n) :
      KeyStandsFor view key n

/-- The key cannot be read: it has no text, for an integer in it is too long to be written, or its
text cannot be evaluated. -/
inductive View.KeyEscapes (view : View) (key : Value) : Escape → Prop
  | unwritten (hkey : key.isWords = true) (hlong : key.hasOverlong = true) :
      KeyEscapes view key .longInteger
  | expression {e : Escape} (hkey : key.isWords = true) (hshort : key.hasOverlong = false)
      (hwords : ¬ (Text.strip key.text = "" ∨ Text.strip key.text = defaultKey))
      (hvalue : view.evaluate (.str (Text.strip key.text)) = .error e) : KeyEscapes view key e

/-- The key is not that of the default case, and stands for the number `d`. -/
structure View.Matches (view : View) (d : Number) (key : Value) : Prop where
  proper : isDefaultKey key = false
  equal : ∃ n, view.KeyStandsFor key (some n) ∧ Number.equal n d = true

/-- The search for the number `d` goes on behind the key. -/
inductive View.Passes (view : View) (d : Number) (key : Value) : Prop
  | default (hkey : isDefaultKey key = true)
  | valueless (hnone : view.KeyStandsFor key none)
  | differs {n : Number} (hn : view.KeyStandsFor key (some n)) (hne : Number.equal n d = false)

/-- The search for the number `d` breaks off at the key. -/
structure View.Breaks (view : View) (key : Value) (e : Escape) : Prop where
  proper : isDefaultKey key = false
  escapes : view.KeyEscapes key e

/-! ## What a switch gives -/

/-- No case of the switch is for its discriminant, which may have no value. -/
inductive View.NoCase (view : View) (sw : Switch) : Prop
  | unresolved (hvalue : view.evaluate sw.discriminant = .ok none)
  | unmatched {d : Number} (hvalue : view.evaluate sw.discriminant = .ok (some d))
      (hpass : ∀ c ∈ sw.cases, view.Passes d c.1)

/-- The type that the switch selects: that of the first case whose key is the discriminant, or that
of the default case if there is none. -/
inductive View.Chooses (view : View) (sw : Switch) : String → Prop
  | first {d : Number} {front back : List (Value × String)} {key : Value} {name : String}
      (hvalue : view.evaluate sw.discriminant = .ok (some d))
      (hcases : sw.cases = front ++ (key, name) :: back)
      (hpass : ∀ c ∈ front, view.Passes d c.1) (hmatch : view.Matches d key) :
      Chooses view sw name
  | default {name : String} (hnone : view.NoCase sw) (hdefault : sw.default? = some name) :
      Chooses view sw name

/-- How the switch of the field `id` fails: for want of a case, or because the discriminant or a key
that is tried cannot be read. -/
inductive View.Refuses (view : View) (id : String) (sw : Switch) : Failure → Prop
  | unresolved (hvalue : view.evaluate sw.discriminant = .ok none) (hdefault : sw.default? = none) :
      Refuses view id sw (.ofCause (.switchUnresolved id sw.discriminant))
  | unmatched {d : Number} (hvalue : view.evaluate sw.discriminant = .ok (some d))
      (hpass : ∀ c ∈ sw.cases, view.Passes d c.1) (hdefault : sw.default? = none) :
      Refuses view id sw (.ofCause (.switchWithoutCase id d))
  | discriminant {e : Escape} (hvalue : view.evaluate sw.discriminant = .error e) :
      Refuses view id sw (.escape e)
  | key {d : Number} {front back : List (Value × String)} {key : Value} {name : String} {e : Escape}
      (hvalue : view.evaluate sw.discriminant = .ok (some d))
      (hcases : sw.cases = front ++ (key, name) :: back)
      (hpass : ∀ c ∈ front, view.Passes d c.1) (hbreaks : view.Breaks key e) :
      Refuses view id sw (.escape e)

namespace View

variable {view : View} {d : Number} {key : Value}

/-- A key stands for something, or cannot be read. -/
theorem key_cases (view : View) (key : Value) :
    (∃ n, view.KeyStandsFor key n) ∨ ∃ e, view.KeyEscapes key e := by
  cases hkey : key.isWords with
  | false =>
      cases key with
      | bool b => exact .inl ⟨_, .flag⟩
      | int n => exact .inl ⟨_, .int⟩
      | float x => exact .inl ⟨_, .float⟩
      | _ => cases hkey
  | true =>
      cases hlong : key.hasOverlong with
      | true => exact .inr ⟨_, .unwritten hkey hlong⟩
      | false =>
          -- A key that is not blank is an expression, and if that has no value, a fraction.
          by_cases hblank : Text.strip key.text = "" ∨ Text.strip key.text = defaultKey
          · exact .inl ⟨_, .words hkey hlong (.blank hblank)⟩
          · cases hvalue : view.evaluate (.str (Text.strip key.text)) with
            | error e => exact .inr ⟨e, .expression hkey hlong hblank hvalue⟩
            | ok value =>
                cases value with
                | some n => exact .inl ⟨_, .words hkey hlong (.expression hblank hvalue)⟩
                | none =>
                    cases hread : Numeral.readFraction (Text.strip key.text) with
                    | some x => exact .inl ⟨_, .words hkey hlong (.numeral hblank hvalue hread)⟩
                    | none => exact .inl ⟨_, .words hkey hlong (.nothing hblank hvalue hread)⟩

/-- A key passes, matches, or breaks the search off. -/
theorem try_cases (view : View) (d : Number) (key : Value) :
    view.Passes d key ∨ view.Matches d key ∨ ∃ e, view.Breaks key e := by
  cases hdefault : isDefaultKey key with
  | true => exact .inl (.default hdefault)
  | false =>
      rcases view.key_cases key with ⟨n, hn⟩ | ⟨e, he⟩
      · cases n with
        | none => exact .inl (.valueless hn)
        | some n =>
            cases hequal : Number.equal n d with
            | true => exact .inr (.inl ⟨hdefault, n, hn, hequal⟩)
            | false => exact .inl (.differs hn hequal)
      · exact .inr (.inr ⟨e, hdefault, he⟩)

/-- All keys pass, or there is a first one that does not. -/
theorem search_cases (view : View) (d : Number) (cases : List (Value × String)) :
    (∀ c ∈ cases, view.Passes d c.1) ∨ ∃ front key name back,
      cases = front ++ (key, name) :: back ∧ (∀ c ∈ front, view.Passes d c.1) ∧
        (view.Matches d key ∨ ∃ e, view.Breaks key e) := by
  induction cases with
  | nil => exact .inl nofun
  | cons entry rest ih =>
      obtain ⟨key, name⟩ := entry
      rcases view.try_cases d key with hpass | hstop
      · rcases ih with hall | ⟨front, stop, found, back, rfl, hfront, hstop⟩
        · exact .inl (List.forall_mem_cons.2 ⟨hpass, hall⟩)
        · exact .inr ⟨(key, name) :: front, stop, found, back, rfl,
            List.forall_mem_cons.2 ⟨hpass, hfront⟩, hstop⟩
      · exact .inr ⟨[], key, name, rest, rfl, nofun, hstop⟩

/-- Without a case it is left to the default. -/
theorem NoCase.settled {sw : Switch} (h : view.NoCase sw) (id : String) :
    (∃ name, view.Chooses sw name) ∨ ∃ e, view.Refuses id sw e := by
  cases hdefault : sw.default? with
  | some name => exact .inl ⟨name, .default h hdefault⟩
  | none =>
      cases h with
      | unresolved hvalue => exact .inr ⟨_, .unresolved hvalue hdefault⟩
      | unmatched hvalue hpass => exact .inr ⟨_, .unmatched hvalue hpass hdefault⟩

/-- A switch selects a type or fails. -/
theorem switch_cases (view : View) (id : String) (sw : Switch) :
    (∃ name, view.Chooses sw name) ∨ ∃ e, view.Refuses id sw e := by
  cases hvalue : view.evaluate sw.discriminant with
  | error e => exact .inr ⟨_, .discriminant hvalue⟩
  | ok value =>
      cases value with
      | none => exact NoCase.settled (.unresolved hvalue) id
      | some d =>
          rcases view.search_cases d sw.cases with
            hall | ⟨front, key, name, back, hcases, hfront, hmatch | ⟨e, hbreaks⟩⟩
          · exact NoCase.settled (.unmatched hvalue hall) id
          · exact .inl ⟨name, .first hvalue hcases hfront hmatch⟩
          · exact .inr ⟨_, .key hvalue hcases hfront hbreaks⟩

/-- The errors of a switch are of the resolution of types and name no path, and there is no default
then. -/
theorem Refuses.error_inv {id : String} {sw : Switch} {e : DecodeError}
    (h : view.Refuses id sw (.error e)) :
    view.NoCase sw ∧ sw.default? = none ∧
      ∃ c : Cause, e = ⟨c, none⟩ ∧ c.kind = .typeResolution := by
  generalize hfailure : Failure.error e = failure at h
  cases h with
  | unresolved hvalue hdefault =>
      have he := Failure.ofCause_eq_error hfailure.symm
      exact ⟨.unresolved hvalue, hdefault, _, he, rfl⟩
  | unmatched hvalue hpass hdefault =>
      have he := Failure.ofCause_eq_error hfailure.symm
      exact ⟨.unmatched hvalue hpass, hdefault, _, he, rfl⟩
  | discriminant => cases hfailure
  | key => cases hfailure

end View

namespace Setting

variable {s : Setting} {place : Place} {p p' : Progress} {d : Number} {key : Value}
  {front rest : List (Value × String)} {name id : String} {sw : Switch}

/-! ## One key -/

theorem yields_caseNumber {n : Option Number}
    (h : (s.view place p.values).KeyStandsFor key n) : (s.caseNumber place key).Yields p n p := by
  cases h with
  | flag | int | float => exact Decoder.yields_pure.2 ⟨rfl, rfl⟩
  | words hkey hshort htext =>
      unfold caseNumber
      split
      case h_1 | h_2 | h_3 => cases hkey
      case h_4 =>
          rw [if_neg (by simp [hshort])]
          dsimp only
          cases htext with
          | blank hblank =>
              rw [if_pos hblank]
              exact Decoder.yields_pure.2 ⟨rfl, rfl⟩
          | expression hwords hvalue =>
              rw [if_neg hwords]
              exact Decoder.yields_bind.2 ⟨_, p, yields_evaluate.2 ⟨hvalue, rfl⟩, rfl⟩
          | numeral hwords hvalue hread | nothing hwords hvalue hread =>
              rw [if_neg hwords, hread]
              exact Decoder.yields_bind.2 ⟨_, p, yields_evaluate.2 ⟨hvalue, rfl⟩, rfl⟩

theorem evaluate_fails {expr : Value} {e : Escape}
    (h : (s.view place p.values).evaluate expr = .error e) :
    (s.evaluate place expr).Fails p (.escape e) := by
  refine Decoder.Yields.bind_fails (Decoder.yields_get.2 ⟨rfl, rfl⟩) ?_
  rw [h]
  rfl

theorem caseNumber_fails {e : Escape} (h : (s.view place p.values).KeyEscapes key e) :
    (s.caseNumber place key).Fails p (.escape e) := by
  unfold caseNumber
  cases h with
  | unwritten hkey hlong =>
      split
      case h_1 | h_2 | h_3 => cases hkey
      case h_4 =>
          rw [if_pos hlong]
          rfl
  | expression hkey hshort hwords hvalue =>
      split
      case h_1 | h_2 | h_3 => cases hkey
      case h_4 =>
          rw [if_neg (by simp [hshort])]
          dsimp only
          rw [if_neg hwords]
          exact (evaluate_fails hvalue).bind_left _

/-! ## The search -/

/-- A key that passes is as good as absent. -/
theorem selectCase_of_passes (h : (s.view place p.values).Passes d key) :
    (s.selectCase place d ((key, name) :: rest)).run.run p =
      (s.selectCase place d rest).run.run p := by
  rw [selectCase]
  cases h with
  | default hkey => rw [if_pos hkey]
  | valueless hnone =>
      split
      · rfl
      · rw [Decoder.run_bind, yields_caseNumber hnone]
  | differs hn hne =>
      split
      · rfl
      · rw [Decoder.run_bind, yields_caseNumber hn]
        simp only [hne, Bool.false_eq_true, if_false]

/-- So are all keys of a front. -/
theorem selectCase_append (hfront : ∀ c ∈ front, (s.view place p.values).Passes d c.1) :
    (s.selectCase place d (front ++ rest)).run.run p = (s.selectCase place d rest).run.run p := by
  induction front with
  | nil => rfl
  | cons entry front ih =>
      obtain ⟨hkey, hrest⟩ := List.forall_mem_cons.1 hfront
      exact (selectCase_of_passes hkey).trans (ih hrest)

theorem yields_selectCase_none (hall : ∀ c ∈ rest, (s.view place p.values).Passes d c.1) :
    (s.selectCase place d rest).Yields p none p := by
  have hrun : (s.selectCase place d (rest ++ [])).run.run p = (.ok none, p) :=
    selectCase_append hall
  rwa [List.append_nil] at hrun

theorem yields_selectCase_first (hfront : ∀ c ∈ front, (s.view place p.values).Passes d c.1)
    (hmatch : (s.view place p.values).Matches d key) :
    (s.selectCase place d (front ++ (key, name) :: rest)).Yields p (some name) p := by
  obtain ⟨hproper, n, hn, hequal⟩ := hmatch
  refine (selectCase_append hfront).trans ?_
  rw [selectCase, if_neg (by simp [hproper])]
  refine Decoder.yields_bind.2 ⟨_, p, yields_caseNumber hn, ?_⟩
  dsimp only
  rw [if_pos hequal]
  rfl

theorem selectCase_fails {e : Escape}
    (hfront : ∀ c ∈ front, (s.view place p.values).Passes d c.1)
    (hbreaks : (s.view place p.values).Breaks key e) :
    (s.selectCase place d (front ++ (key, name) :: rest)).Fails p (.escape e) := by
  unfold Decoder.Fails
  rw [selectCase_append hfront, selectCase, if_neg (by simp [hbreaks.proper])]
  exact (caseNumber_fails hbreaks.escapes).bind_left _

/-! ## The switch -/

theorem yields_selectType (h : (s.view place p.values).Chooses sw name) :
    (s.selectType place id sw).Yields p name p := by
  unfold selectType
  cases h with
  | first hvalue hcases hpass hmatch =>
      rw [hcases]
      refine Decoder.yields_bind.2 ⟨_, p, yields_evaluate.2 ⟨hvalue, rfl⟩, ?_⟩
      exact Decoder.yields_bind.2 ⟨_, p, yields_selectCase_first hpass hmatch, rfl⟩
  | default hnone hdefault =>
      rw [hdefault]
      cases hnone with
      | unresolved hvalue =>
          exact Decoder.yields_bind.2 ⟨_, p, yields_evaluate.2 ⟨hvalue, rfl⟩, rfl⟩
      | unmatched hvalue hpass =>
          refine Decoder.yields_bind.2 ⟨_, p, yields_evaluate.2 ⟨hvalue, rfl⟩, ?_⟩
          exact Decoder.yields_bind.2 ⟨_, p, yields_selectCase_none hpass, rfl⟩

theorem selectType_fails {e : Failure} (h : (s.view place p.values).Refuses id sw e) :
    (s.selectType place id sw).Fails p e := by
  unfold selectType
  cases h with
  | unresolved hvalue hdefault =>
      rw [hdefault]
      exact (yields_evaluate.2 ⟨hvalue, rfl⟩).bind_fails rfl
  | unmatched hvalue hpass hdefault =>
      rw [hdefault]
      exact (yields_evaluate.2 ⟨hvalue, rfl⟩).bind_fails
        ((yields_selectCase_none hpass).bind_fails rfl)
  | discriminant hvalue => exact (evaluate_fails hvalue).bind_left _
  | key hvalue hcases hpass hbreaks =>
      rw [hcases]
      exact (yields_evaluate.2 ⟨hvalue, rfl⟩).bind_fails
        ((selectCase_fails hpass hbreaks).bind_left _)

/-- Nothing else comes of a switch, for it selects a type or fails. -/
theorem yields_selectType_iff :
    (s.selectType place id sw).Yields p name p' ↔
      (s.view place p.values).Chooses sw name ∧ p' = p := by
  constructor
  · intro h
    rcases (s.view place p.values).switch_cases id sw with ⟨chosen, hchosen⟩ | ⟨e, he⟩
    · obtain ⟨rfl, rfl⟩ := (yields_selectType hchosen).unique h
      exact ⟨hchosen, rfl⟩
    · exact absurd (selectType_fails he) h.not_fails
  · rintro ⟨hchosen, rfl⟩
    exact yields_selectType hchosen

theorem selectType_fails_iff {e : Failure} :
    (s.selectType place id sw).Fails p e ↔ (s.view place p.values).Refuses id sw e := by
  refine ⟨fun h => ?_, selectType_fails⟩
  rcases (s.view place p.values).switch_cases id sw with ⟨chosen, hchosen⟩ | ⟨e', he'⟩
  · exact absurd h (yields_selectType hchosen).not_fails
  · obtain rfl := Except.error.inj ((selectType_fails he').symm.trans h)
    exact he'

/-! ## The default case -/

/-- The default case may stand anywhere, as far as the search is concerned. -/
theorem selectCase_default {back : List (Value × String)} (hkey : isDefaultKey key = true) :
    s.selectCase place d (front ++ (key, name) :: back) = s.selectCase place d (front ++ back) := by
  induction front with
  | nil => rw [List.nil_append, List.nil_append, selectCase, if_pos hkey]
  | cons entry front ih =>
      obtain ⟨other, typeName⟩ := entry
      simp only [List.cons_append, selectCase, ih]

theorem default?_append {back : List (Value × String)} {discriminant : Value}
    (hkey : isDefaultKey key = true) (hfront : ∀ c ∈ front, isDefaultKey c.1 = false) :
    (Switch.mk discriminant (front ++ (key, name) :: back)).default? = some name := by
  have hnone : front.find? (fun c => isDefaultKey c.1) = none :=
    List.find?_eq_none.2 fun c hc => by simp [hfront c hc]
  simp [Switch.default?, List.find?_append, hnone, hkey]

/-- The only default case can be moved. -/
theorem selectType_move {discriminant : Value} {back front' back' : List (Value × String)}
    (hkey : isDefaultKey key = true) (hothers : ∀ c ∈ front ++ back, isDefaultKey c.1 = false)
    (hsame : front' ++ back' = front ++ back) :
    s.selectType place id ⟨discriminant, front' ++ (key, name) :: back'⟩ =
      s.selectType place id ⟨discriminant, front ++ (key, name) :: back⟩ := by
  have hfront : ∀ c ∈ front, isDefaultKey c.1 = false :=
    fun c hc => hothers c (List.mem_append_left _ hc)
  have hfront' : ∀ c ∈ front', isDefaultKey c.1 = false :=
    fun c hc => hothers c (hsame ▸ List.mem_append_left _ hc)
  simp only [selectType, selectCase_default hkey, hsame, default?_append hkey hfront,
    default?_append hkey hfront']

/-! ## The selected type -/

/-- With a type that is named, the field is read as if it had that type. -/
theorem decodeNamed_retype {depth : Nat} {ctx : Context} {f : Field} {label : String}
    (hf : f.type = .switched sw) :
    s.decodeNamed (s.nested depth) ctx f label name =
      s.decodeNamed (s.nested depth) ctx { f with type := .named name } label name := by
  unfold decodeNamed
  split
  case h_3 =>
      unfold readBytes
      rw [hf]
      rfl
  all_goals rfl

theorem run_decodeField_retype {depth : Nat} {ctx ctx' : Context} {f : Field}
    (hf : f.type = .switched sw) (honce : f.repetition = none)
    (hplaced : (s.placed ctx f).Yields p ctx' p)
    (hselect : (s.selectType ctx'.toPlace f.id sw).Yields p name p) :
    (s.decodeField (s.nested depth) ctx f).run.run p =
      (s.decodeField (s.nested depth) ctx { f with type := .named name }).run.run p := by
  have hretyped := @run_decodeField s (s.nested depth) ctx { f with type := .named name } p ctx'
    hplaced honce
  rw [run_decodeField hplaced honce, hretyped]
  unfold decodeSingle
  rw [hf, Decoder.run_located, Decoder.run_located, Decoder.run_bind, hselect]
  dsimp only
  rw [decodeNamed_retype hf]

/-! ## Putting it together -/

/-- What a switch gives, by its cases. -/
structure DecidesSwitch (s : Setting) (place : Place) (p : Progress) (id : String) (sw : Switch) :
    Prop where
  /-- It selects the type of the first case for the discriminant, else that of the default case. -/
  chooses : ∀ name p', (s.selectType place id sw).Yields p name p' ↔
    (s.view place p.values).Chooses sw name ∧ p' = p
  /-- It fails where there is neither, or where the discriminant or a key that is tried cannot be
  read. -/
  refuses : ∀ e, (s.selectType place id sw).Fails p e ↔ (s.view place p.values).Refuses id sw e
  /-- Where there is neither, the error is one of the resolution of types, unless its words have an
  integer in them that is too long. -/
  missing : (s.view place p.values).NoCase sw → sw.default? = none →
    (∃ e, e.kind = .typeResolution ∧ (s.selectType place id sw).Fails p (.error e)) ∨
      (s.selectType place id sw).Fails p (.escape .longInteger) ∧
        (sw.discriminant.hasOverlong = true ∨ ∃ d,
          (s.view place p.values).evaluate sw.discriminant = .ok (some d) ∧
            d.toValue.hasOverlong = true)
  /-- And there are no other errors. -/
  error : ∀ e, (s.selectType place id sw).Fails p (.error e) →
    (s.view place p.values).NoCase sw ∧ sw.default? = none ∧ e.kind = .typeResolution
  /-- The default case may stand at any place among the others. -/
  moves : ∀ front back front' back' key name, sw.cases = front ++ (key, name) :: back →
    isDefaultKey key = true → (∀ c ∈ front ++ back, isDefaultKey c.1 = false) →
    front' ++ back' = front ++ back →
    s.selectType place id { sw with cases := front' ++ (key, name) :: back' } =
      s.selectType place id sw
  /-- The cases behind the first match may be any. -/
  first : ∀ d front key name back, (s.view place p.values).evaluate sw.discriminant = .ok (some d) →
    sw.cases = front ++ (key, name) :: back →
    (∀ c ∈ front, (s.view place p.values).Passes d c.1) →
    (s.view place p.values).Matches d key →
    ∀ back', (s.selectType place id { sw with cases := front ++ (key, name) :: back' }).Yields p
      name p
  /-- A field that is not repeated is decoded as if it had the selected type. -/
  retypes : ∀ depth ctx ctx' (f : Field) name, f.type = .switched sw → f.repetition = none →
    (s.placed ctx f).Yields p ctx' p → (s.view ctx'.toPlace p.values).Chooses sw name →
    (s.decodeField (s.nested depth) ctx f).run.run p =
      (s.decodeField (s.nested depth) ctx { f with type := .named name }).run.run p

/-- Without a case and a default, a switch fails by a cause of the resolution of types. -/
theorem selectType_missing (hnone : (s.view place p.values).NoCase sw)
    (hdefault : sw.default? = none) :
    ∃ c : Cause, c.kind = .typeResolution ∧ (s.selectType place id sw).Fails p (.ofCause c) ∧
      (c.hasOverlong = true → sw.discriminant.hasOverlong = true ∨ ∃ d,
        (s.view place p.values).evaluate sw.discriminant = .ok (some d) ∧
          d.toValue.hasOverlong = true) := by
  cases hnone with
  | unresolved hvalue => exact ⟨_, rfl, selectType_fails (.unresolved hvalue hdefault), .inl⟩
  | @unmatched d hvalue hpass =>
      exact ⟨_, rfl, selectType_fails (.unmatched hvalue hpass hdefault),
        fun hlong => .inr ⟨d, hvalue, hlong⟩⟩

/-- **Switches.** A type is selected by these rules, whatever the switch, the place and the values
that are decoded before. -/
theorem selectType_decides (s : Setting) (place : Place) (p : Progress) (id : String)
    (sw : Switch) : s.DecidesSwitch place p id sw where
  chooses _ _ := yields_selectType_iff
  refuses _ := selectType_fails_iff
  missing hnone hdefault := by
    obtain ⟨c, hkind, hfails, hlong⟩ := @selectType_missing s place p id sw hnone hdefault
    unfold Failure.ofCause at hfails
    split at hfails
    case isTrue hc => exact .inr ⟨hfails, hlong hc⟩
    case isFalse => exact .inl ⟨⟨c, none⟩, hkind, hfails⟩
  error e he := by
    obtain ⟨hnone, hdefault, c, rfl, hkind⟩ := (selectType_fails_iff.1 he).error_inv
    exact ⟨hnone, hdefault, hkind⟩
  moves front back front' back' key name hcases hkey hothers hsame := by
    obtain ⟨discriminant, cases⟩ := sw
    subst hcases
    exact selectType_move hkey hothers hsame
  first d front key name back hvalue _ hpass hmatch back' :=
    yields_selectType (.first hvalue rfl hpass hmatch)
  retypes depth ctx ctx' f name hf honce hplaced hchosen :=
    run_decodeField_retype hf honce hplaced (yields_selectType hchosen)

/-- The default case does not hide the ones behind it, and a truth value is the number 1. -/
example : ((default : Setting).selectType {} "a"
    ⟨.int 2, [(.str "_", "u1"), (.bool true, "u4"), (.int 2, "u2")]⟩).run.run {} = (.ok "u2", {}) :=
  rfl

end Setting

namespace Schema

/-- A switch without cases on a number. -/
def undecided (n : Int) : Schema where
  seq := some [{ id := "a", type := .switched { discriminant := .int n, cases := [] } }]

theorem undecided_decode {n : Int} (h : Value.isOverlong n = true) :
    (undecided n).decode {} [] = .error .longInteger := by
  have hcause : Failure.ofCause (.switchWithoutCase "a" (.int n)) = .escape .longInteger :=
    if_pos h
  have hroot : (undecided n).rootType? = some { seq := (undecided n).seq.getD [] } := rfl
  have hfails : ((undecided n).decodeRoot {} { seq := (undecided n).seq.getD [] } []).Fails {}
      ((Failure.ofCause (.switchWithoutCase "a" (.int n))).withPath "root.a") := rfl
  rw [hcause] at hfails
  exact decode_of_escapes hroot hfails

/-- No case is for the number and there is no default, and yet there is no error of the resolution
of types, nor any other one. -/
theorem decode_undecided :
    ∃ n, Value.isOverlong n = true ∧ (∀ view : View, view.NoCase ⟨.int n, []⟩) ∧
      (Switch.mk (.int n) []).default? = none ∧
      (undecided n).decode {} [] = .error .longInteger := by
  have hlong := Value.isOverlong_pow
  exact ⟨_, hlong, fun view => .unmatched rfl nofun, rfl, undecided_decode hlong⟩

end Schema

end ByteSchema
