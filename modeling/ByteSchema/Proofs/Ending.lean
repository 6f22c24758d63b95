import ByteSchema.Proofs.Unfolding
import ByteSchema.Schema.Load
import Mathlib.Data.List.Perm.Subperm

/-!
# ByteSchema.Proofs.Ending

Types that hold themselves without end.

The loader unfolds a collection that holds itself as often as a budget allows, and takes a document
that needs more to be endless. Here reading is said without a budget: `ReadsType n raw f` derives
what a value is read as, with `n` as the height of the derivation in unfolded collections. A value
has a derivation or is endless.

The budget of `Types.ofValue` finds each derivation. One of least height meets no collection twice
in the same role, for below the first time less height is left than it takes. So each cell is met at
most once as a type and once as the types of one, and the budget has its label for both.
-/

namespace ByteSchema.Loading

/-! ## Reading without a budget -/

/-- A type of a mapping. `tables` are the types in it, for each name of their owner. -/
def typeOf (entries : List (Value × Value)) (tables : String → Loading Types) (name : String) :
    Loading TypeDef := do
  let owner := "type '" ++ name ++ "'"
  let seq ← fieldsOf (get entries "seq") owner
  let types ← tables owner
  let endian ← Endian.ofValue (typeEndian entries) owner
  return { seq, types, endian }

/-- The types of a mapping of which the first has `key` as its name. -/
def entryOf (key : Value) (first : String → Loading TypeDef) (rest : Types → Loading Types)
    (done : Types) : Loading Types := do
  let name ← textOf key
  let d ← first name
  rest (Types.put done name d)

/-- No types are found further down in the value. -/
def IsEnd : Value → Prop
  | .map _ | .cycle _ _ => False
  | _ => True

mutual

/-- Reading a type gives `f` of its name and unfolds at most `n` collections on the way down. What
stands behind an error is not read. -/
inductive ReadsType : Nat → Value → (String → Loading TypeDef) → Prop
  | last {n raw} (h : IsEnd raw) : ReadsType n raw (TypeDef.ofValueWithin [] raw)
  | map {n entries tables}
      (h : ∀ {owner seq}, fieldsOf (get entries "seq") owner = .ok seq →
        ReadsTable n (get entries "types") tables) :
      ReadsType n (.map entries) (typeOf entries tables)
  | unfold {n label v f} (h : ReadsType n (Value.cycle label v).unfolded f) :
      ReadsType (n + 1) (.cycle label v) f

/-- Reading the types of an owner gives `f` of its name. -/
inductive ReadsTable : Nat → Value → (String → Loading Types) → Prop
  | last {n v} (h : IsEnd v) : ReadsTable n v (Types.ofValueWithin [] v)
  | map {n entries f} (h : ReadsEntries n entries f) : ReadsTable n (.map entries) fun _ => f []
  | unfold {n label v f} (h : ReadsTable n (Value.cycle label v).unfolded f) :
      ReadsTable (n + 1) (.cycle label v) f

/-- Reading the types of a mapping gives `f` of those that are read before. -/
inductive ReadsEntries : Nat → List (Value × Value) → (Types → Loading Types) → Prop
  | nil {n} : ReadsEntries n [] .ok
  | cons {n key body rest f g}
      (hbody : ∀ {name}, textOf key = .ok name → ReadsType n body f)
      (hrest : ∀ {name d}, textOf key = .ok name → f name = .ok d → ReadsEntries n rest g) :
      ReadsEntries n ((key, body) :: rest) (entryOf key f g)

end

mutual

theorem ReadsType.mono {n m : Nat} {v : Value} {f : String → Loading TypeDef} (hnm : n ≤ m) :
    ReadsType n v f → ReadsType m v f
  | .last h => .last h
  | .map h => .map fun hseq => (h hseq).mono hnm
  | .unfold h => by
      obtain ⟨k, rfl⟩ : ∃ k, m = k + 1 := ⟨m - 1, by omega⟩
      exact .unfold (h.mono (Nat.le_of_succ_le_succ hnm))

theorem ReadsTable.mono {n m : Nat} {v : Value} {f : String → Loading Types} (hnm : n ≤ m) :
    ReadsTable n v f → ReadsTable m v f
  | .last h => .last h
  | .map h => .map (h.mono hnm)
  | .unfold h => by
      obtain ⟨k, rfl⟩ : ∃ k, m = k + 1 := ⟨m - 1, by omega⟩
      exact .unfold (h.mono (Nat.le_of_succ_le_succ hnm))

theorem ReadsEntries.mono {n m : Nat} {es : List (Value × Value)} {f : Types → Loading Types}
    (hnm : n ≤ m) : ReadsEntries n es f → ReadsEntries m es f
  | .nil => .nil
  | .cons hbody hrest =>
      .cons (fun hkey => (hbody hkey).mono hnm) fun hkey hd => (hrest hkey hd).mono hnm

end

section Steps

variable {entries : List (Value × Value)} {name : String} {seq : List Field} {key : Value}

theorem typeOf_ok (hseq : fieldsOf (get entries "seq") ("type '" ++ name ++ "'") = .ok seq)
    (tables : String → Loading Types) :
    typeOf entries tables name = tables ("type '" ++ name ++ "'") >>= fun types => do
      let endian ← Endian.ofValue (typeEndian entries) ("type '" ++ name ++ "'")
      return { seq, types, endian } := by
  simp only [typeOf, hseq]
  rfl

theorem entryOf_ok (hkey : textOf key = .ok name) (first : String → Loading TypeDef)
    (rest : Types → Loading Types) (done : Types) :
    entryOf key first rest done = first name >>= fun d => rest (Types.put done name d) := by
  simp only [entryOf, hkey]
  rfl

/-- What is read behind an error does not matter. -/
theorem typeOf_congr {tables tables' : String → Loading Types}
    (h : ∀ {owner seq}, fieldsOf (get entries "seq") owner = .ok seq → tables = tables') :
    typeOf entries tables = typeOf entries tables' := by
  funext name
  cases hseq : fieldsOf (get entries "seq") ("type '" ++ name ++ "'") with
  | ok seq => rw [h hseq]
  | error e => simp only [typeOf, hseq]; rfl

theorem entryOf_congr {f f' : String → Loading TypeDef} {g g' : Types → Loading Types}
    (hf : ∀ {name}, textOf key = .ok name → f = f')
    (hg : ∀ {name d}, textOf key = .ok name → f name = .ok d → g = g') :
    entryOf key f g = entryOf key f' g' := by
  funext done
  cases hkey : textOf key with
  | error e => simp only [entryOf, hkey]; rfl
  | ok name =>
      rw [entryOf_ok hkey, entryOf_ok hkey, ← hf hkey]
      cases hd : f name with
      | error e => rfl
      | ok d => rw [hg hkey hd]

end Steps

mutual

/-- A value is read in one way only. -/
theorem ReadsType.unique {n m : Nat} {v : Value} {f g : String → Loading TypeDef} :
    ReadsType n v f → ReadsType m v g → f = g
  | .last _, .last _ => rfl
  | .map h, .map h' => typeOf_congr fun hseq => (h hseq).unique (h' hseq)
  | .unfold h, .unfold h' => h.unique h'

theorem ReadsTable.unique {n m : Nat} {v : Value} {f g : String → Loading Types} :
    ReadsTable n v f → ReadsTable m v g → f = g
  | .last _, .last _ => rfl
  | .map h, .map h' => h.unique h' ▸ rfl
  | .unfold h, .unfold h' => h.unique h'

theorem ReadsEntries.unique {n m : Nat} {es : List (Value × Value)} {f g : Types → Loading Types} :
    ReadsEntries n es f → ReadsEntries m es g → f = g
  | .nil, .nil => rfl
  | .cons hbody hrest, .cons hbody' hrest' =>
      have hf {name : String} (hkey : textOf _ = .ok name) := (hbody hkey).unique (hbody' hkey)
      entryOf_congr hf fun hkey hd => (hrest hkey hd).unique (hrest' hkey (hf hkey ▸ hd))

end

/-! ## What is read is derived -/

section Equations

variable (left : List Nat)

theorem type_last {v : Value} (h : IsEnd v) :
    TypeDef.ofValueWithin left v = TypeDef.ofValueWithin [] v := by
  funext name
  cases v <;> first | exact False.elim h | simp only [TypeDef.ofValueWithin]

theorem table_last {v : Value} (h : IsEnd v) :
    Types.ofValueWithin left v = Types.ofValueWithin [] v := by
  funext owner
  cases v <;> first | exact False.elim h | simp only [Types.ofValueWithin]

/-- A mapping is no collection to unfold, so its budget is that of the types in it. -/
theorem type_map (entries : List (Value × Value)) :
    TypeDef.ofValueWithin left (.map entries) =
      typeOf entries (Types.ofValueWithin left (get entries "types")) := by
  funext name
  rw [TypeDef.ofValueWithin]
  rfl

theorem table_map (entries : List (Value × Value)) :
    Types.ofValueWithin left (.map entries) =
      fun _ => Types.ofEntriesWithin left entries [] := by
  funext owner
  rw [Types.ofValueWithin]

/-- The types of a mapping are read in order, all with the same budget. -/
theorem entries_cons (key body : Value) (rest : List (Value × Value)) :
    Types.ofEntriesWithin left ((key, body) :: rest) =
      entryOf key (TypeDef.ofValueWithin left body) (Types.ofEntriesWithin left rest) := by
  funext done
  rw [Types.ofEntriesWithin]
  rfl

variable {left}

theorem type_cycle {label : Nat} (h : label ∈ left) (v : Value) :
    TypeDef.ofValueWithin left (.cycle label v) =
      TypeDef.ofValueWithin (left.erase label) (Value.cycle label v).unfolded := by
  funext name
  rw [TypeDef.ofValueWithin, if_pos h]

theorem table_cycle {label : Nat} (h : label ∈ left) (v : Value) :
    Types.ofValueWithin left (.cycle label v) =
      Types.ofValueWithin (left.erase label) (Value.cycle label v).unfolded := by
  funext name
  rw [Types.ofValueWithin, if_pos h]

end Equations

/-- Reading has come to an end. -/
def Ends {α : Type} (x : Loading α) : Prop := x ≠ .error (.escape .endless)

theorem Ends.of_bind {α β : Type} {x : Loading α} {f : α → Loading β} (h : Ends (x >>= f)) :
    Ends x := by
  rintro rfl
  exact h rfl

/-- The owner stands in words only. -/
theorem fieldsOf_owner {v : Value} {owner : String} {seq : List Field}
    (h : fieldsOf v owner = .ok seq) (owner' : String) : fieldsOf v owner' = .ok seq := by
  unfold fieldsOf at h ⊢
  split at h
  · exact h
  · exact h
  · cases h

/-- Reading a type within a budget is derived, if it comes to an end. -/
def TypeDerived (left : List Nat) (raw : Value) (name : String) : Prop :=
  Ends (TypeDef.ofValueWithin left raw name) →
    ∃ n f, ReadsType n raw f ∧ f name = TypeDef.ofValueWithin left raw name

/-- Reading the types of an owner within a budget is derived, if it comes to an end. -/
def TableDerived (left : List Nat) (v : Value) (owner : String) : Prop :=
  Ends (Types.ofValueWithin left v owner) →
    ∃ n f, ReadsTable n v f ∧ f owner = Types.ofValueWithin left v owner

/-- Reading the types of a mapping within a budget is derived, if it comes to an end. -/
def EntriesDerived (left : List Nat) (entries : List (Value × Value)) (done : Types) : Prop :=
  Ends (Types.ofEntriesWithin left entries done) →
    ∃ n f, ReadsEntries n entries f ∧ f done = Types.ofEntriesWithin left entries done

theorem isEnd_of_ne {v : Value} (hmap : ∀ entries, v = .map entries → False)
    (hcycle : ∀ label w, v = .cycle label w → False) : IsEnd v := by
  cases v <;> first | trivial | exact hmap _ rfl | exact hcycle _ _ rfl

section Cases

variable {left : List Nat} {label : Nat} {v key : Value} {entries rest : List (Value × Value)}
  {name owner : String} {done : Types}

namespace TypeDerived

theorem last (h : IsEnd v) : TypeDerived left v name := by
  intro _
  exact ⟨0, _, .last h, by simp only [type_last left h]⟩

/-- Where the fields are refused the types are not read. -/
theorem map (htypes : TableDerived left (get entries "types") ("type '" ++ name ++ "'")) :
    TypeDerived left (.map entries) name := by
  intro h
  rw [type_map] at h ⊢
  cases hseq : fieldsOf (get entries "seq") ("type '" ++ name ++ "'") with
  | error e =>
      refine ⟨0, _, .map fun hok => ?_, rfl⟩
      cases hseq.symm.trans (fieldsOf_owner hok _)
  | ok seq =>
      rw [typeOf_ok hseq] at h ⊢
      obtain ⟨n, tables, hread, heq⟩ := htypes h.of_bind
      exact ⟨n, _, .map fun _ => hread, by rw [typeOf_ok hseq, heq]⟩

theorem cycle (hlabel : label ∈ left)
    (ih : TypeDerived (left.erase label) (Value.cycle label v).unfolded name) :
    TypeDerived left (.cycle label v) name := by
  intro h
  rw [type_cycle hlabel] at h ⊢
  obtain ⟨n, f, hread, heq⟩ := ih h
  exact ⟨n + 1, f, .unfold hread, heq⟩

/-- Without a label left, reading has not come to an end. -/
theorem spent (hlabel : label ∉ left) : TypeDerived left (.cycle label v) name := by
  intro h
  rw [TypeDef.ofValueWithin, if_neg hlabel] at h
  exact absurd rfl h

end TypeDerived

namespace TableDerived

theorem last (h : IsEnd v) : TableDerived left v owner := by
  intro _
  exact ⟨0, _, .last h, by simp only [table_last left h]⟩

theorem map (ih : EntriesDerived left entries []) : TableDerived left (.map entries) owner := by
  intro h
  rw [table_map] at h ⊢
  obtain ⟨n, f, hread, heq⟩ := ih h
  exact ⟨n, _, .map hread, heq⟩

theorem cycle (hlabel : label ∈ left)
    (ih : TableDerived (left.erase label) (Value.cycle label v).unfolded owner) :
    TableDerived left (.cycle label v) owner := by
  intro h
  rw [table_cycle hlabel] at h ⊢
  obtain ⟨n, f, hread, heq⟩ := ih h
  exact ⟨n + 1, f, .unfold hread, heq⟩

/-- Without the label reading does not come to an end, so there is nothing to show. -/
theorem spent (hlabel : label ∉ left) : TableDerived left (.cycle label v) owner := by
  intro h
  rw [Types.ofValueWithin, if_neg hlabel] at h
  exact absurd rfl h

end TableDerived

namespace EntriesDerived

theorem nil : EntriesDerived left [] done := by
  intro _
  exact ⟨0, _, .nil, by rw [Types.ofEntriesWithin]; rfl⟩

/-- A name that is refused ends the reading, and so does a type that cannot be read: what stands
behind them need not be derived. -/
theorem cons (ihType : ∀ name, TypeDerived left v name)
    (ihRest : ∀ name d, EntriesDerived left rest (Types.put done name d)) :
    EntriesDerived left ((key, v) :: rest) done := by
  intro h
  rw [entries_cons] at h ⊢
  cases hkey : textOf key with
  | error e =>
      -- Nothing has to be derived behind a key that has no text.
      refine ⟨0, _, .cons (fun hok => ?_) (fun hok => ?_), rfl⟩
      all_goals cases hkey.symm.trans hok
  | ok name =>
      rw [entryOf_ok hkey] at h ⊢
      obtain ⟨n, f, hbody, heq⟩ := ihType name h.of_bind
      rw [← heq] at h ⊢
      cases hd : f name with
      | error e =>
          refine ⟨n, entryOf key f .ok, .cons (fun _ => hbody) fun hok hf => ?_, ?_⟩
          · cases hkey.symm.trans hok
            cases hd.symm.trans hf
          · rw [entryOf_ok hkey, hd]
            rfl
      | ok d =>
          rw [hd] at h
          obtain ⟨m, g, hrest, heq'⟩ := ihRest name d h
          refine ⟨max n m, entryOf key f g, .cons (fun _ => hbody.mono (Nat.le_max_left n m))
            fun _ _ => hrest.mono (Nat.le_max_right n m), ?_⟩
          rw [entryOf_ok hkey, hd]
          exact heq'

end EntriesDerived

end Cases

/-- Each reading within a budget that comes to an end is derived. By induction on the reading. -/
theorem exists_reads :
    (∀ left raw name, TypeDerived left raw name) ∧
    (∀ left v owner, TableDerived left v owner) ∧
    (∀ left entries done, EntriesDerived left entries done) := by
  apply TypeDef.ofValueWithin.mutual_induct
  -- Types: nothing, a mapping, a value that is met again inside itself, and any other value.
  case case1 => exact fun left name => .last trivial
  case case2 => exact fun left name entries htypes => .map htypes
  case case3 => exact fun left name label v hlabel ih => .cycle hlabel ih
  case case4 => exact fun left name label v hlabel => .spent hlabel
  case case5 => exact fun left raw name _ hmap hcycle => .last (isEnd_of_ne hmap hcycle)
  -- Tables of types: the same four.
  case case6 => exact fun left owner => .last trivial
  case case7 => exact fun left owner entries ih => .map ih
  case case8 => exact fun left owner label v hlabel ih => .cycle hlabel ih
  case case9 => exact fun left owner label v hlabel => .spent hlabel
  case case10 => exact fun left v owner _ hmap hcycle => .last (isEnd_of_ne hmap hcycle)
  -- Entries of a table: none left, and one type put before the rest is read.
  case case11 => exact fun left done => .nil
  case case12 => exact fun left done key body rest ihType ihRest => .cons ihType ihRest

/-! ## The budget is enough -/

/-- A cell, as a type or as the types of one. -/
inductive Visit where
  | type (cell : Value)
  | table (cell : Value)

namespace Visit

def cell : Visit → Value
  | type c => c
  | table c => c

/-- The cell is read, by a derivation of height `n` at most. -/
def EndsBy (n : Nat) : Visit → Prop
  | type c => ∃ f, ReadsType n c f
  | table c => ∃ f, ReadsTable n c f

theorem EndsBy.mono {n m : Nat} (hnm : n ≤ m) : ∀ {visit : Visit}, visit.EndsBy n → visit.EndsBy m
  | type _, ⟨f, h⟩ => ⟨f, h.mono hnm⟩
  | table _, ⟨f, h⟩ => ⟨f, h.mono hnm⟩

/-- There is a derivation of least height. -/
theorem EndsBy.least {visit : Visit} {n : Nat} (h : visit.EndsBy n) :
    ∃ m ≤ n, visit.EndsBy m ∧ ∀ k < m, ¬ visit.EndsBy k := by
  induction n using Nat.strongRecOn with
  | ind n ih =>
      by_cases hless : ∃ k < n, visit.EndsBy k
      · obtain ⟨k, hk, hend⟩ := hless
        obtain ⟨m, hm, hleast⟩ := ih k hk hend
        exact ⟨m, by omega, hleast⟩
      · exact ⟨n, Nat.le_refl n, h, fun k hk hend => hless ⟨k, hk, hend⟩⟩

end Visit

/-- How the labels `left` come about on the way down from `root`, with height `n` to go: each visit
took the label of its cell, and none of the cells is met again in its role. -/
structure OnWay (root : Value) (n : Nat) (visits : List Visit) (left : List Nat) : Prop where
  nodup : visits.Nodup
  known : ∀ visit ∈ visits, visit.cell ∈ root.cells
  taken : ((visits.map fun visit => visit.cell.label) ++ left).Perm (unfoldings root)
  past : ∀ visit ∈ visits, ¬ visit.EndsBy n

theorem OnWay.start (root : Value) (n : Nat) : OnWay root n [] (unfoldings root) :=
  ⟨.nil, nofun, .refl _, nofun⟩

/-- The visits that do not repeat have a label of the budget each. -/
theorem map_label_subperm {root : Value} {visits : List Visit} (hnodup : visits.Nodup)
    (hknown : ∀ visit ∈ visits, visit.cell ∈ root.cells) :
    (visits.map fun visit => visit.cell.label).Subperm (unfoldings root) := by
  have hsub : visits ⊆ root.cells.map .type ++ root.cells.map .table := by
    intro visit hvisit
    have hcell := hknown visit hvisit
    cases visit with
    | type c => exact List.mem_append_left _ (List.mem_map_of_mem hcell)
    | table c => exact List.mem_append_right _ (List.mem_map_of_mem hcell)
  obtain ⟨some, hperm, hsublist⟩ := hnodup.subperm hsub
  have hlabels : ((root.cells.map Visit.type ++ root.cells.map Visit.table).map
      fun visit => visit.cell.label).Sublist (unfoldings root) := by
    simp only [List.map_append, List.map_map]
    exact (Value.map_label_cellsIn root _).append (Value.map_label_cellsIn root _)
  exact ⟨_, hperm.map _, (hsublist.map _).trans hlabels⟩

theorem mem_of_lookupKey {name : String} {v : Value} {es : List (Value × Value)}
    (h : lookupKey name es = some v) : (.str name, v) ∈ es := by
  induction es with
  | nil => cases h
  | cons entry rest ih =>
      obtain ⟨key, w⟩ := entry
      cases key with
      | str k =>
          rw [lookupKey] at h
          split at h
          case isTrue hk =>
              cases h
              exact hk ▸ List.mem_cons_self
          case isFalse => exact List.mem_cons_of_mem _ (ih h)
      | _ => exact List.mem_cons_of_mem _ (ih (by simpa [lookupKey] using h))

/-- What is found in a mapping is null or one of its values. -/
theorem get_induction {P : Value → Prop} {es : List (Value × Value)} (hnull : P .null)
    (hmem : ∀ {k v}, (k, v) ∈ es → P v) (key : String) : P (get es key) := by
  unfold Loading.get
  cases hlookup : lookupKey key es with
  | none => exact hnull
  | some v => exact hmem (mem_of_lookupKey hlookup)

theorem isClosed_get {es : List (Value × Value)} (h : (Value.map es).IsClosed) (key : String) :
    (get es key).IsClosed :=
  get_induction ⟨rfl⟩ (fun hmem => h.of_mem hmem) key

/-- The value is closed and brings up cells of `root` only. -/
structure Inside (root v : Value) : Prop where
  closed : v.IsClosed
  cells : v.cells ⊆ root.cells

namespace Inside

variable {root v : Value}

theorem unfolded (h : Inside root v) : Inside root v.unfolded :=
  ⟨h.closed.unfolded, fun _ hc => h.cells (Value.cells_unfolded h.closed hc)⟩

theorem of_mem {es : List (Value × Value)} {k : Value} (h : Inside root (.map es))
    (hmem : (k, v) ∈ es) : Inside root v :=
  ⟨h.closed.of_mem hmem, fun _ hc => h.cells (Value.cells_of_mem hmem hc)⟩

theorem get {es : List (Value × Value)} (h : Inside root (.map es)) (key : String) :
    Inside root (get es key) :=
  get_induction ⟨⟨rfl⟩, nofun⟩ (fun hmem => h.of_mem hmem) key

end Inside

/-- A cell that is met has its label left. By a derivation of least height it is not met again in
this role further down. -/
theorem OnWay.unfold {root : Value} {n : Nat} {visits : List Visit} {left : List Nat}
    {visit : Visit} {label : Nat} {v : Value} (h : OnWay root n visits left)
    (hin : Inside root (.cycle label v)) (hcell : visit.cell = .cycle label v)
    (hend : visit.EndsBy n) :
    ∃ m ≤ n, visit.EndsBy m ∧ label ∈ left ∧
      ∀ k < m, OnWay root k (visit :: visits) (left.erase label) := by
  have hlabel : visit.cell.label = label := by rw [hcell]; rfl
  have hnodup : (visit :: visits).Nodup :=
    List.nodup_cons.2 ⟨fun hmem => h.past visit hmem hend, h.nodup⟩
  have hknown : ∀ w ∈ visit :: visits, w.cell ∈ root.cells :=
    List.forall_mem_cons.2 ⟨hin.cells (hcell ▸ Value.mem_cells_self label v), h.known⟩
  have hsub := (map_label_subperm hnodup hknown).trans h.taken.symm.subperm
  rw [List.map_cons, hlabel] at hsub
  have hleft : label ∈ left := by
    have hlast := (List.perm_append_singleton label _).subperm.trans hsub
    exact List.singleton_subperm_iff.1 ((List.subperm_append_left _).1 hlast)
  have htaken := (List.perm_middle.symm.trans
    ((List.perm_cons_erase hleft).symm.append_left _)).trans h.taken
  obtain ⟨m, hm, hread, hleast⟩ := hend.least
  refine ⟨m, hm, hread, hleft, fun k hk => ⟨hnodup, hknown, by simpa [hlabel] using htaken, ?_⟩⟩
  exact List.forall_mem_cons.2
    ⟨hleast k hk, fun w hw hend => h.past w hw (hend.mono (Nat.le_trans (Nat.le_of_lt hk) hm))⟩

/-- The budget of `root` finds what derivations of height `n` give. -/
structure Suffices (root : Value) (n : Nat) : Prop where
  type : ∀ {v f visits left}, ReadsType n v f → Inside root v → OnWay root n visits left →
    TypeDef.ofValueWithin left v = f
  table : ∀ {v f visits left}, ReadsTable n v f → Inside root v → OnWay root n visits left →
    Types.ofValueWithin left v = f

section Found

variable {root : Value} {visits : List Visit} {left : List Nat}

mutual

/-- By induction on the derivation. Where a collection is unfolded, the derivation is exchanged for
one of least height first. -/
theorem ReadsType.found {n : Nat} {v : Value} {f : String → Loading TypeDef} :
    ReadsType n v f → (∀ k < n, Suffices root k) → Inside root v → OnWay root n visits left →
      TypeDef.ofValueWithin left v = f
  | .last h, _, _, _ => type_last left h
  | .map h, ih, hin, hway =>
      (type_map left _).trans (typeOf_congr fun hseq => (h hseq).found ih (hin.get "types") hway)
  | @ReadsType.unfold n label v f h, ih, hin, hway => by
      have hend : (Visit.type (.cycle label v)).EndsBy (n + 1) := ⟨f, .unfold h⟩
      obtain ⟨m, hm, ⟨f', hread⟩, hleft, hway'⟩ := hway.unfold hin rfl hend
      cases hread with
      | last h => cases h
      | unfold hread =>
          obtain rfl := h.unique hread
          rw [type_cycle hleft]
          exact (ih _ hm).type hread hin.unfolded (hway' _ (Nat.lt_succ_self _))

/-- Each step down is one in the derivation, and the budget allows for it. -/
theorem ReadsTable.found {n : Nat} {v : Value} {f : String → Loading Types} :
    ReadsTable n v f → (∀ k < n, Suffices root k) → Inside root v → OnWay root n visits left →
      Types.ofValueWithin left v = f
  | .last h, _, _, _ => table_last left h
  | .map h, ih, hin, hway =>
      (table_map left _).trans (h.found ih (fun hmem => hin.of_mem hmem) hway ▸ rfl)
  | @ReadsTable.unfold n label v f h, ih, hin, hway => by
      have hend : (Visit.table (.cycle label v)).EndsBy (n + 1) := ⟨f, .unfold h⟩
      obtain ⟨m, hm, ⟨f', hread⟩, hleft, hway'⟩ := hway.unfold hin rfl hend
      cases hread with
      | last h => cases h
      | unfold hread =>
          obtain rfl := h.unique hread
          rw [table_cycle hleft]
          exact (ih _ hm).table hread hin.unfolded (hway' _ (Nat.lt_succ_self _))

theorem ReadsEntries.found {n : Nat} {es : List (Value × Value)} {f : Types → Loading Types} :
    ReadsEntries n es f → (∀ k < n, Suffices root k) → (∀ {k v}, (k, v) ∈ es → Inside root v) →
      OnWay root n visits left → Types.ofEntriesWithin left es = f
  | .nil, _, _, _ => by
      funext done
      rw [Types.ofEntriesWithin]
      rfl
  | .cons hbody hrest, ih, hin, hway => by
      rw [entries_cons]
      have htype {name : String} (hkey : textOf _ = .ok name) :=
        (hbody hkey).found ih (hin List.mem_cons_self) hway
      refine entryOf_congr htype fun hkey hd => ?_
      exact (hrest hkey (htype hkey ▸ hd)).found ih (fun hmem => hin (List.mem_cons_of_mem _ hmem))
        hway

end

end Found

/-- By strong induction on the height: cells that are met further down have lower derivations. -/
theorem budget_suffices (root : Value) (n : Nat) : Suffices root n := by
  induction n using Nat.strongRecOn with
  | ind n ih => exact ⟨fun h hin hway => h.found ih hin hway, fun h hin hway => h.found ih hin hway⟩

/-- The types of a closed value are what they are read as. -/
theorem ReadsTable.eq_ofValue {n : Nat} {v : Value} {f : String → Loading Types}
    (h : ReadsTable n v f) (hv : v.IsClosed) : Types.ofValue v = f :=
  (budget_suffices v n).table h ⟨hv, List.Subset.refl _⟩ (.start v n)

/-- No budget finds types where that of the loader takes a closed value to be endless. -/
theorem ofValue_eq_within {v : Value} (hv : v.IsClosed) {left : List Nat} {owner : String}
    (h : Ends (Types.ofValueWithin left v owner)) :
    Types.ofValue v owner = Types.ofValueWithin left v owner := by
  obtain ⟨n, f, hread, heq⟩ := exists_reads.2.1 left v owner h
  rw [hread.eq_ofValue hv, heq]

end ByteSchema.Loading
