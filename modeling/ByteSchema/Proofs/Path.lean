import Mathlib.Data.List.TakeWhile
import ByteSchema.Decode.Instance

/-!
# ByteSchema.Proofs.Path

Paths of names and the dotted texts that stand for them.

The text of a path that ends in a name is a lead, which depends on the names before only, and the
name itself. All ids of the children of an instance thus have one lead, the id of the instance and a
dot behind it.

Behind a name, the text of a path goes on with a dot or, for the elements of an array, with a
bracket. Names that have neither (`IsPlain`) can be read off such texts again.
-/

namespace ByteSchema

/-- What stands before the last name in the text of a path. -/
def pathLead : List String → String
  | [] => ""
  | name :: rest => if name = "" then pathLead rest else name ++ "." ++ pathLead rest

theorem pathLead_append (path more : List String) :
    pathLead (path ++ more) = pathLead path ++ pathLead more := by
  induction path with
  | nil => simp [pathLead]
  | cons name rest ih =>
      by_cases hname : name = ""
      · simp [pathLead, hname, ih]
      · simp [pathLead, hname, ih, String.append_assoc]

/-- The lead within an instance. -/
theorem pathLead_concat {path : List String} {name : String} (h : name ≠ "") :
    pathLead (path ++ [name]) = pathLead path ++ name ++ "." := by
  rw [pathLead_append]
  simp [pathLead, h, String.append_assoc]

theorem intercalate_concat {path : List String} {name : String} (h : name ≠ "") :
    String.intercalate "." ((path ++ [name]).filter (· ≠ "")) = pathLead path ++ name := by
  induction path with
  | nil => simp [pathLead, h]
  | cons first rest ih =>
      by_cases hfirst : first = ""
      · simpa [pathLead, hfirst] using ih
      · have hne : (rest ++ [name]).filter (· ≠ "") ≠ [] := by simp [h]
        have hcons : (first :: rest ++ [name]).filter (· ≠ "") =
            first :: (rest ++ [name]).filter (· ≠ "") := by simp [hfirst]
        rw [hcons, String.intercalate_cons_of_ne_nil hne, ih]
        simp [pathLead, hfirst, String.append_assoc]

/-- The id of a node is the lead of the place where it is decoded, and its name. -/
theorem nodeIdOf_concat {path : List String} {name : String} (h : name ≠ "") :
    nodeIdOf (path ++ [name]) = pathLead path ++ name := by
  unfold nodeIdOf
  rw [intercalate_concat h, if_neg (by simp [h])]

theorem Place.childId_eq {place : Place} {name : String} (h : name ≠ "") :
    place.childId name = pathLead place.path ++ name :=
  nodeIdOf_concat h

/-- Inside the instance `name`, ids start with the id of the instance. -/
theorem childId_inside {path : List String} {name child : String} (h : name ≠ "")
    (hchild : child ≠ "") :
    nodeIdOf (path ++ [name] ++ [child]) = nodeIdOf (path ++ [name]) ++ "." ++ child := by
  rw [nodeIdOf_concat hchild, nodeIdOf_concat h, pathLead_concat h]

/-! ## Elements -/

theorem elementName_ne_empty {id : String} {index : Nat} : Setting.elementName id index ≠ "" := by
  simp [Setting.elementName]

/-- The id of an element is that of its array with the index behind it. -/
theorem elementName_append (lead id : String) (index : Nat) :
    lead ++ Setting.elementName id index = Setting.elementName (lead ++ id) index := by
  simp [Setting.elementName, String.append_assoc]

/-! ## Plain names -/

/-- A name without the signs that stand between names. -/
def IsPlain (name : String) : Prop := '.' ∉ name.toList ∧ '[' ∉ name.toList

instance (name : String) : Decidable (IsPlain name) := inferInstanceAs (Decidable (_ ∧ _))

/-- What stands behind a name where a path goes on. -/
def GoesOn (t : String) : Prop := ∃ c rest, t.toList = c :: rest ∧ (c = '.' ∨ c = '[')

/-- The first name of a path. -/
def frontName (s : String) : String :=
  String.ofList (s.toList.takeWhile fun c => c != '.' && c != '[')

theorem goesOn_dot (t : String) : GoesOn ("." ++ t) := ⟨'.', t.toList, by simp, .inl rfl⟩

theorem goesOn_bracket (t : String) : GoesOn ("[" ++ t) := ⟨'[', t.toList, by simp, .inr rfl⟩

theorem GoesOn.append {t : String} (h : GoesOn t) (u : String) : GoesOn (t ++ u) := by
  obtain ⟨c, rest, ht, hc⟩ := h
  exact ⟨c, rest ++ u.toList, by simp [ht], hc⟩

/-- An element goes on behind the name of its array. -/
theorem elementName_eq (id : String) (index : Nat) :
    Setting.elementName id index = id ++ ("[" ++ (toString index ++ "]")) := by
  simp [Setting.elementName, String.append_assoc]

theorem IsPlain.not_append {x name t : String} (h : IsPlain x) (ht : GoesOn t) : x ≠ name ++ t := by
  obtain ⟨c, rest, ht, hc⟩ := ht
  rintro rfl
  have hmem : c ∈ (name ++ t).toList := by simp [ht]
  rcases hc with rfl | rfl
  · exact h.1 hmem
  · exact h.2 hmem

theorem takeWhile_append_cons {α : Type} {P : α → Bool} {front rest : List α} {a : α}
    (hfront : ∀ b ∈ front, P b = true) (ha : P a = false) :
    (front ++ a :: rest).takeWhile P = front := by
  rw [List.takeWhile_append_of_pos hfront, List.takeWhile_cons, ha]
  exact List.append_nil front

theorem IsPlain.front_all {x : String} (h : IsPlain x) :
    ∀ c ∈ x.toList, (c != '.' && c != '[') = true := by
  intro c hc
  have hdot : c ≠ '.' := fun he => h.1 (he ▸ hc)
  have hbracket : c ≠ '[' := fun he => h.2 (he ▸ hc)
  simp [hdot, hbracket]

theorem frontName_append {x t : String} (h : IsPlain x) (ht : GoesOn t) :
    frontName (x ++ t) = x := by
  obtain ⟨c, rest, ht, hc⟩ := ht
  have hstop : (c != '.' && c != '[') = false := by rcases hc with rfl | rfl <;> rfl
  rw [frontName, String.toList_append, ht, takeWhile_append_cons h.front_all hstop,
    String.ofList_toList]

theorem frontName_plain {x : String} (h : IsPlain x) : frontName x = x := by
  have hall : x.toList.takeWhile (fun c => c != '.' && c != '[') = x.toList :=
    List.takeWhile_eq_self_iff.2 h.front_all
  rw [frontName, hall, String.ofList_toList]

/-- What stands behind a name: nothing at the end of a path, else the rest of it. -/
def IsTail (t : String) : Prop := t = "" ∨ GoesOn t

theorem IsPlain.eq_of_tail {x name t : String} (h : IsPlain x) (ht : IsTail t)
    (heq : x = name ++ t) : x = name := by
  rcases ht with rfl | ht
  · rwa [String.append_empty] at heq
  · exact absurd heq (h.not_append ht)

theorem frontName_tail {x t : String} (h : IsPlain x) (ht : IsTail t) : frontName (x ++ t) = x := by
  rcases ht with rfl | ht
  · rw [String.append_empty]
    exact frontName_plain h
  · exact frontName_append h ht

/-- Behind two plain names that differ, no two paths go on to be the same. -/
theorem IsPlain.append_ne {x y : String} (hx : IsPlain x) (hy : IsPlain y) (hne : x ≠ y) :
    ∀ t u, IsTail t → IsTail u → x ++ t ≠ y ++ u := by
  intro t u ht hu heq
  refine hne ?_
  rw [← frontName_tail hx ht, heq, frontName_tail hy hu]

/-- The index of an element can be read off its name, whatever stands behind. -/
theorem elementName_inj {id t u : String} {i j : Nat}
    (h : Setting.elementName id i ++ t = Setting.elementName id j ++ u) : i = j := by
  have hdigits : Nat.toDigits 10 i ++ ']' :: t.toList = Nat.toDigits 10 j ++ ']' :: u.toList := by
    simpa [elementName_eq, String.append_assoc] using congrArg String.toList h
  have hall (n : Nat) : ∀ c ∈ Nat.toDigits 10 n, c.isDigit = true := fun c hc =>
    Nat.isDigit_of_mem_toDigits (by omega) (by omega) hc
  -- The digits end at the bracket, and they give the number back.
  have hsame := congrArg (List.takeWhile Char.isDigit) hdigits
  rw [takeWhile_append_cons (hall i) rfl, takeWhile_append_cons (hall j) rfl] at hsame
  rw [← Nat.ofDigitChars_ten_toDigits (n := i), hsame, Nat.ofDigitChars_ten_toDigits]

/-! ## Splitting at dots -/

namespace Text

theorem splitListOn_of_not_mem {fuel : Nat} {piece cs : List Char} (h : '.' ∉ cs) :
    splitListOn ['.'] fuel piece cs = [piece.reverse ++ cs] := by
  induction cs generalizing fuel piece with
  | nil => cases fuel <;> simp [splitListOn]
  | cons c rest ih =>
      rw [List.mem_cons, not_or] at h
      cases fuel with
      | zero => rfl
      | succ fuel => simp [splitListOn, h.1, ih h.2]

/-- A text without dots is one piece. -/
theorem splitOn_of_not_mem {s : String} (h : '.' ∉ s.toList) : splitOn "." s = [s] := by
  unfold splitOn
  have hmark : ".".toList = ['.'] := rfl
  rw [hmark, splitListOn_of_not_mem h]
  simp

theorem splitListOn_first {fuel : Nat} {piece cs rest : List Char} (h : '.' ∉ cs)
    (hfuel : cs.length < fuel) :
    ∃ more, splitListOn ['.'] fuel piece (cs ++ '.' :: rest) = (piece.reverse ++ cs) :: more := by
  induction cs generalizing fuel piece with
  | nil =>
      cases fuel with
      | zero => cases hfuel
      | succ fuel => exact ⟨splitListOn ['.'] fuel [] rest, by simp [splitListOn]⟩
  | cons c cs ih =>
      rw [List.mem_cons, not_or] at h
      cases fuel with
      | zero => cases hfuel
      | succ fuel =>
          have hfuel : cs.length < fuel := Nat.lt_of_succ_lt_succ hfuel
          obtain ⟨more, hmore⟩ : ∃ more, splitListOn ['.'] fuel (c :: piece) (cs ++ '.' :: rest) =
              ((c :: piece).reverse ++ cs) :: more := ih h.2 hfuel
          exact ⟨more, by simp [splitListOn, h.1, hmore]⟩

/-- The first piece ends at the first dot. -/
theorem splitOn_first {first : String} (rest : String) (h : '.' ∉ first.toList) :
    ∃ more, splitOn "." (first ++ "." ++ rest) = first :: more := by
  have hmark : ".".toList = ['.'] := rfl
  have hlist : (first ++ "." ++ rest).toList = first.toList ++ '.' :: rest.toList := by simp
  have hfuel : first.toList.length < (first ++ "." ++ rest).length := by
    rw [← String.length_toList, hlist, List.length_append, List.length_cons]
    omega
  obtain ⟨more, hmore⟩ : ∃ more, splitListOn ['.'] (first ++ "." ++ rest).length []
      (first.toList ++ '.' :: rest.toList) = first.toList :: more := splitListOn_first h hfuel
  refine ⟨more.map String.ofList, ?_⟩
  unfold splitOn
  rw [hmark, hlist, hmore]
  simp

end Text

end ByteSchema
