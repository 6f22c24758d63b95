import ByteSchema.CommandLine.Run
import ByteSchema.Proofs.Json

/-!
# ByteSchema.Proofs.Printing

What can be printed.

Whatever characters and surrogates stand in the texts of a report, its JSON form has only characters of
ASCII: other signs are written by escapes (`Json.isAscii_quote`), numbers by digits and signs
(`isAscii_floatText`), and the rest are brackets and blanks (`Json.isAscii_ofValue`). Every host prints
these, so a report in JSON is printed if there is one (`Host.exists_printJson_iff`). The lines of a tree
or of a list hold texts of the schema as they are, and each of them has to be one that the host prints
(`Result.exists_print_iff`).
-/

namespace ByteSchema

open Text

variable {s t : String} {cs ds : List Char}

@[simp] theorem isAscii_ofList : IsAscii (String.ofList cs) ↔ ∀ c ∈ cs, c.toNat < 128 := by
  simp [IsAscii]

@[simp] theorem isAscii_append : IsAscii (s ++ t) ↔ IsAscii s ∧ IsAscii t := by
  simp [IsAscii, or_imp, forall_and]

/-- By induction on the parts, with the separator between two of them. -/
theorem isAscii_intercalate {parts : List String} (hs : IsAscii s)
    (hparts : ∀ part ∈ parts, IsAscii part) : IsAscii (String.intercalate s parts) := by
  induction parts with
  | nil => simp [IsAscii]
  | cons part rest ih =>
    rw [List.forall_mem_cons] at hparts
    cases rest with
    | nil => simpa using hparts.1
    | cons next more =>
      rw [String.intercalate_cons_of_ne_nil (List.cons_ne_nil _ _)]
      simp [hparts.1, hs, ih hparts.2]

/-! ## Digits -/

theorem digitChar_lt : ∀ d < 16, d.digitChar.toNat < 128 := by decide

/-- Digits are ASCII in the bases up to 16, which have letters for their larger digits. -/
theorem toDigits_lt {base : Nat} (hbase : 1 < base) (hletters : base ≤ 16) (n : Nat) :
    ∀ c ∈ Nat.toDigits base n, c.toNat < 128 := by
  induction n using Nat.strongRecOn with
  | _ n ih =>
    intro c hc
    rw [Nat.toDigits_eq_if hbase] at hc
    split at hc
    case isTrue hsmall =>
      rw [List.mem_singleton.1 hc]
      exact digitChar_lt n (by omega)
    case isFalse hlarge =>
      rcases List.mem_append.1 hc with hfront | hlast
      · exact ih _ (Nat.div_lt_self (by omega) hbase) c hfront
      · rw [List.mem_singleton.1 hlast]
        exact digitChar_lt _ (by have := Nat.mod_lt n (show base > 0 by omega); omega)

@[simp] theorem isAscii_nat (n : Nat) : IsAscii (toString n) := by
  rw [Nat.toString_eq_ofList_toDigits, isAscii_ofList]
  exact toDigits_lt (by decide) (by decide) n

@[simp] theorem isAscii_int (n : Int) : IsAscii (toString n) := by
  cases n with
  | ofNat n => exact isAscii_nat n
  | negSucc n =>
    have hminus : IsAscii ("-" ++ toString (n + 1)) := isAscii_append.2 ⟨by decide, isAscii_nat _⟩
    exact hminus

/-! ## Doubles -/

theorem isAscii_padZeros (width : Nat) (hs : IsAscii s) : IsAscii (padZeros width s) := by
  simp [padZeros, hs]

/-- Digits, a dot, zeros and an exponent are all there is. -/
theorem isAscii_layoutDigits (layout : FloatLayout) (hds : ∀ c ∈ ds, c.toNat < 128) (lead : Int) :
    IsAscii (layoutDigits layout ds lead) := by
  have hzeros (n : Nat) : ∀ c ∈ List.replicate n '0', c.toNat < 128 := by simp
  have hfront (n : Nat) : ∀ c ∈ ds.take n, c.toNat < 128 := fun c hc => hds c (List.mem_of_mem_take hc)
  have hback (n : Nat) : ∀ c ∈ ds.drop n, c.toNat < 128 := fun c hc => hds c (List.mem_of_mem_drop hc)
  unfold layoutDigits
  split
  · split
    · simp only [isAscii_append, isAscii_ofList, List.forall_mem_append]
      exact ⟨by decide, hzeros _, hds⟩
    · simp only [isAscii_append, isAscii_ofList, List.forall_mem_append]
      refine ⟨⟨⟨hfront _, hzeros _⟩, by decide⟩, ?_⟩
      split
      · decide
      · exact isAscii_ofList.2 (hback _)
  · simp only [isAscii_append]
    refine ⟨⟨⟨?_, by decide⟩, by split <;> decide⟩, isAscii_padZeros _ (isAscii_nat _)⟩
    split
    · exact isAscii_ofList.2 hds
    · rw [List.forall_mem_cons] at hds
      simp only [isAscii_ofList, List.forall_mem_cons]
      exact ⟨hds.1, by decide, hds.2⟩
    · decide

/-- The text of a double has digits, signs and a few letters. -/
theorem isAscii_floatText (x : Float) : IsAscii (floatText x) := by
  unfold floatText
  split
  · split
    · decide
    · split <;> decide
  · rename_i d _
    have hsign : IsAscii (if d.negative then "-" else "") := by split <;> decide
    dsimp only
    split
    · exact isAscii_append.2 ⟨hsign, by decide⟩
    · refine isAscii_append.2 ⟨hsign, isAscii_layoutDigits _ (fun c hc => ?_) _⟩
      -- The digits are those of a number, without the zeros at the end.
      have hmem := (List.dropWhile_suffix _).subset (List.mem_reverse.1 hc)
      exact isAscii_nat _ c (List.mem_reverse.1 hmem)

/-! ## JSON -/

namespace Json

theorem unitEscape_lt (n : Nat) : ∀ c ∈ unitEscape n, c.toNat < 128 := by
  unfold unitEscape padDigits hexDigits
  simp only [List.forall_mem_cons, List.forall_mem_append]
  exact ⟨by decide, by decide, by simp, toDigits_lt (by decide) (by decide) n⟩

/-- A character that is not ASCII is escaped. -/
theorem escapeChar_lt (c : Char) : ∀ d ∈ escapeChar c, d.toNat < 128 := by
  unfold escapeChar
  split
  case isTrue hquote =>
    rw [Bool.or_eq_true, beq_iff_eq, beq_iff_eq] at hquote
    rcases hquote with rfl | rfl <;> simp
  iterate 5
    split
    case isTrue => simp
  split
  case isTrue hshown =>
    rw [Bool.and_eq_true, decide_eq_true_eq, decide_eq_true_eq] at hshown
    have hlast : c.toNat ≤ ('~').toNat := hshown.2
    have htilde : ('~').toNat = 126 := by decide
    rw [List.forall_mem_singleton]
    omega
  split
  · exact unitEscape_lt _
  · exact List.forall_mem_append.2 ⟨unitEscape_lt _, unitEscape_lt _⟩

theorem isAscii_quote (s : String) : IsAscii (quote s) := by
  have hsign (sign : Sign) : ∀ c ∈ escapeSign sign, c.toNat < 128 := by
    cases sign with
    | char c => exact escapeChar_lt c
    | surrogate low => exact unitEscape_lt _
  unfold quote
  simp only [isAscii_ofList, List.forall_mem_append, List.forall_mem_cons]
  refine ⟨⟨by decide, fun c hc => ?_⟩, by simp⟩
  obtain ⟨sign, -, hmem⟩ := List.mem_flatMap.1 hc
  exact hsign sign c hmem

theorem isAscii_number (x : Float) : IsAscii (number x) := by
  unfold number
  split
  · exact isAscii_floatText x
  · split
    · decide
    · split <;> decide

theorem isAscii_enclose {left right : String} {parts : List String} (depth : Nat)
    (hleft : IsAscii left) (hright : IsAscii right) (hparts : ∀ part ∈ parts, IsAscii part) :
    IsAscii (enclose left right depth parts) := by
  have hnewline (depth : Nat) : IsAscii (newline depth) := by
    rw [newline, isAscii_ofList, List.forall_mem_cons]
    exact ⟨by decide, by simp⟩
  unfold enclose
  split
  · exact isAscii_append.2 ⟨hleft, hright⟩
  · have hcomma : IsAscii ("," ++ newline (depth + 1)) :=
      isAscii_append.2 ⟨by decide, hnewline _⟩
    simp only [isAscii_append]
    exact ⟨⟨⟨⟨hleft, hnewline _⟩, isAscii_intercalate hcomma hparts⟩, hnewline _⟩, hright⟩

/-- The induction is on collections: what they hold is written at the next depth. -/
theorem isAscii_render (v : Value) :
    ∀ {depth : Nat} {text : String}, render depth v = .ok text → IsAscii text := by
  induction v using Value.collection_induction with
  | atom v hv =>
    intro depth text h
    cases v with
    | null => cases h; decide
    | bool b => cases h; cases b <;> decide
    | float x => cases h; exact isAscii_number x
    | str s => cases h; exact isAscii_quote s
    | int n =>
      rw [render] at h
      split at h <;> cases h
      exact isAscii_int n
    | bytes | set | date | moment | endian => cases h
    | list | tuple | map | record | cycle | back => cases hv
  | list vs ih =>
    intro depth text h
    obtain ⟨parts, hparts, h⟩ := bind_eq_ok h
    cases h
    rw [renderItems_eq] at hparts
    exact isAscii_enclose depth (by decide) (by decide)
      (forall_of_mapM hparts fun hv hpart => ih _ hv hpart)
  | record fs ih =>
    intro depth text h
    obtain ⟨parts, hparts, h⟩ := bind_eq_ok h
    cases h
    rw [renderFields_eq] at hparts
    refine isAscii_enclose depth (by decide) (by decide) (forall_of_mapM hparts ?_)
    intro field part hfield hpart
    obtain ⟨value, hvalue, hpart⟩ := bind_eq_ok hpart
    cases hpart
    simp only [isAscii_append]
    exact ⟨⟨isAscii_quote _, by decide⟩, ih field.1 field.2 hfield hvalue⟩
  | tuple | map | cycle | back =>
    intro depth text h
    cases h

/-- **Reports are ASCII.** Whatever a value holds, its JSON text has only characters of ASCII. -/
theorem isAscii_ofValue {v : Value} {text : String} (h : ofValue v = .ok text) : IsAscii text := by
  obtain ⟨w, -, hrender⟩ := bind_eq_ok h
  exact isAscii_render w hrender

end Json

/-! ## Lines -/

section Results

variable {α β γ ε : Type}

theorem exists_bind_iff {x : Except ε α} {f : α → Except ε β} :
    (∃ b, (x >>= f) = .ok b) ↔ ∃ a, x = .ok a ∧ ∃ b, f a = .ok b := by
  cases x with
  | error e => exact ⟨nofun, nofun⟩
  | ok a => exact ⟨fun h => ⟨a, rfl, h⟩, fun ⟨_, ha, h⟩ => Except.ok.inj ha ▸ h⟩

/-- There are results of all items, all with a property, when each item has such a result. -/
theorem exists_mapM_forall_iff {f : α → Except ε β} {P : β → Prop} {items : List α} :
    (∃ results, items.mapM f = .ok results ∧ ∀ b ∈ results, P b) ↔
      ∀ a ∈ items, ∃ b, f a = .ok b ∧ P b := by
  induction items with
  | nil => exact ⟨fun _ => nofun, fun _ => ⟨[], rfl, nofun⟩⟩
  | cons a rest ih =>
    rw [List.forall_mem_cons, ← ih]
    constructor
    · rintro ⟨results, h, hall⟩
      rw [List.mapM_cons] at h
      obtain ⟨b, hb, h⟩ := bind_eq_ok h
      obtain ⟨later, hlater, h⟩ := bind_eq_ok h
      cases h
      rw [List.forall_mem_cons] at hall
      exact ⟨⟨b, hb, hall.1⟩, later, hlater, hall.2⟩
    · rintro ⟨⟨b, hb, hP⟩, later, hlater, hall⟩
      refine ⟨b :: later, ?_, List.forall_mem_cons.2 ⟨hP, hall⟩⟩
      rw [List.mapM_cons, hb, hlater]
      rfl

/-- Whether each item goes through two steps, or all of them through the first step before the second,
there are results of all in the same cases. -/
theorem exists_mapM_bind_iff {f : α → Except ε β} {g : β → Except ε γ} {items : List α} :
    (∃ results, (items.mapM fun a => f a >>= g) = .ok results) ↔
      ∃ middle, items.mapM f = .ok middle ∧ ∀ b ∈ middle, ∃ c, g b = .ok c := by
  rw [exists_mapM_iff, exists_mapM_forall_iff]
  simp only [exists_bind_iff]

end Results

namespace Host

variable {host : Host} {line : String}

/-- The host can print a line. -/
def Prints (host : Host) (line : String) : Prop := host.refusal? line = none

/-- A line is printed unless the host refuses it. -/
theorem exists_print_iff : (∃ out, host.print line = .ok out) ↔ host.Prints line := by
  unfold print Prints
  cases host.refusal? line <;> simp

/-- The text of a value in JSON is ASCII, so the host prints it. -/
theorem exists_printJson_iff {v : Value} : (∃ out, host.printJson v = .ok out) ↔ v.HasJson := by
  rw [← Json.exists_ofValue_iff]
  unfold printJson
  rw [exists_bind_iff]
  refine exists_congr fun text => and_iff_left_of_imp fun htext => ?_
  exact exists_print_iff.2 (host.prints_ascii text (Json.isAscii_ofValue htext))

/-- In UTF-8 every line can be printed but one with a surrogate. -/
theorem prints_utf8_iff {files : FileReader} :
    (utf8 files).Prints line ↔ ∀ s ∈ signs line.toList, s.char?.isSome :=
  Repertoire.refusal?_eq_none_iff

end Host

/-- The lines that show a tree: one for each node, indented or not. -/
def Node.shownLines? (root : Node) (flat : Bool) : Except Escape (List String) :=
  if flat then root.flatten.mapM Node.flatLine? else root.lines? 0

/-- A tree is printed when its lines can be made and each of them can be printed. -/
theorem Result.exists_print_iff {result : Result} {host : Host} {root : Node}
    (hnodes : result.nodes = root.flatten) (flat : Bool) :
    (∃ out, result.print host root flat = .ok out) ↔
      ∃ lines, root.shownLines? flat = .ok lines ∧ ∀ line ∈ lines, host.Prints line := by
  unfold Result.print Node.shownLines?
  cases flat with
  | true =>
    rw [if_pos rfl, if_pos rfl, hnodes, exists_mapM_bind_iff]
    simp only [Host.exists_print_iff]
  | false =>
    rw [if_neg (by decide), if_neg (by decide), exists_bind_iff]
    simp only [exists_mapM_iff, Host.exists_print_iff]

end ByteSchema
