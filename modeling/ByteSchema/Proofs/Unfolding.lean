import ByteSchema.Value.Cycle
import ByteSchema.Value.Text
import Mathlib.Data.List.Basic
import Mathlib.Data.List.Flatten
import Mathlib.Logic.Function.Basic

/-!
# ByteSchema.Proofs.Unfolding

Collections that hold themselves have finitely many parts. Unfolding such a collection puts the
whole in the place of what refers back to it, so terms grow without end; but each collection that is
met on the way down is one of those that the term had from the start, closed by the collections
around it. `cells` lists these. Unfolding a cell finds no new one (`cells_unfolded`), and there are
no more of them than labels (`map_label_cellsIn`).
-/

namespace ByteSchema.Value

/-! ## Collections as lists -/

section Lists

variable (label : Nat) (whole : Value)

@[simp] theorem fillItems_eq (vs : List Value) :
    fillItems label whole vs = vs.map (fill label whole) := by
  induction vs with
  | nil => rfl
  | cons v rest ih => rw [fillItems, ih, List.map_cons]

@[simp] theorem fillEntries_eq (es : List (Value × Value)) :
    fillEntries label whole es = es.map fun entry => (entry.1, fill label whole entry.2) := by
  induction es with
  | nil => rfl
  | cons entry rest ih => rw [fillEntries, ih, List.map_cons]

@[simp] theorem fillFields_eq (fs : List (String × Value)) :
    fillFields label whole fs = fs.map fun field => (field.1, fill label whole field.2) := by
  induction fs with
  | nil => rfl
  | cons field rest ih => rw [fillFields, ih, List.map_cons]

end Lists

@[simp] theorem hasOverlongItem_eq (vs : List Value) :
    hasOverlongItem vs = vs.any hasOverlong := by
  induction vs with
  | nil => rfl
  | cons v rest ih => rw [hasOverlongItem, ih, List.any_cons]

@[simp] theorem hasOverlongEntry_eq (es : List (Value × Value)) :
    hasOverlongEntry es = es.any fun entry => entry.1.hasOverlong || entry.2.hasOverlong := by
  induction es with
  | nil => rfl
  | cons entry rest ih => rw [hasOverlongEntry, ih, List.any_cons]

@[simp] theorem hasOverlongField_eq (fs : List (String × Value)) :
    hasOverlongField fs = fs.any fun field => field.2.hasOverlong := by
  induction fs with
  | nil => rfl
  | cons field rest ih => rw [hasOverlongField, ih, List.any_cons]

@[simp] theorem openLabelsOfItems_eq (vs : List Value) :
    openLabelsOfItems vs = vs.flatMap openLabels := by
  induction vs with
  | nil => rfl
  | cons v rest ih => rw [openLabelsOfItems, ih, List.flatMap_cons]

@[simp] theorem openLabelsOfEntries_eq (es : List (Value × Value)) :
    openLabelsOfEntries es = es.flatMap fun entry => openLabels entry.2 := by
  induction es with
  | nil => rfl
  | cons entry rest ih => rw [openLabelsOfEntries, ih, List.flatMap_cons]

@[simp] theorem openLabelsOfFields_eq (fs : List (String × Value)) :
    openLabelsOfFields fs = fs.flatMap fun field => openLabels field.2 := by
  induction fs with
  | nil => rfl
  | cons field rest ih => rw [openLabelsOfFields, ih, List.flatMap_cons]

/-- A value in which no collection can stand. The elements of a set are none. -/
def IsAtom : Value → Prop
  | list _ | tuple _ | map _ | record _ | cycle _ _ | back _ _ => False
  | _ => True

/-- A value in a mapping is smaller than the entries, so recursion on it ends. -/
theorem sizeOf_snd_lt {α : Type} [SizeOf α] {k : α} {v : Value} {es : List (α × Value)}
    (h : (k, v) ∈ es) : sizeOf v < sizeOf es := by
  have := List.sizeOf_lt_of_mem h
  simp only [Prod.mk.sizeOf_spec] at this
  omega

/-- Entries are changed alike when their values are. -/
theorem map_snd_congr {α : Type} {es : List (α × Value)} {f g : Value → Value}
    (h : ∀ k v, (k, v) ∈ es → f v = g v) :
    es.map (fun entry => (entry.1, f entry.2)) = es.map fun entry => (entry.1, g entry.2) :=
  List.map_congr_left fun entry hentry => congrArg (Prod.mk entry.1) (h entry.1 entry.2 hentry)

/-- What holds of a collection when it holds of what is in it holds of all values. -/
theorem collection_induction {P : Value → Prop} (atom : ∀ v, v.IsAtom → P v)
    (list : ∀ vs, (∀ v ∈ vs, P v) → P (list vs)) (tuple : ∀ vs, (∀ v ∈ vs, P v) → P (tuple vs))
    (map : ∀ es, (∀ k v, (k, v) ∈ es → P v) → P (map es))
    (record : ∀ fs, (∀ k v, (k, v) ∈ fs → P v) → P (record fs))
    (cycle : ∀ n v, P v → P (cycle n v)) (back : ∀ n isMap, P (back n isMap)) (v : Value) : P v :=
  have below (w : Value) (_ : sizeOf w < sizeOf v) : P w :=
    collection_induction atom list tuple map record cycle back w
  match v with
  | .list vs => list vs fun w hw => below w (by
      have := List.sizeOf_lt_of_mem hw
      simp only [Value.list.sizeOf_spec]
      omega)
  | .tuple vs => tuple vs fun w hw => below w (by
      have := List.sizeOf_lt_of_mem hw
      simp only [Value.tuple.sizeOf_spec]
      omega)
  | .map es => map es fun k w hw => below w (by
      have := sizeOf_snd_lt hw
      simp only [Value.map.sizeOf_spec]
      omega)
  | .record fs => record fs fun k w hw => below w (by
      have := sizeOf_snd_lt hw
      simp only [Value.record.sizeOf_spec]
      omega)
  | .cycle n w => cycle n w (below w (by
      simp only [Value.cycle.sizeOf_spec]
      omega))
  | .back n isMap => back n isMap
  | .null | .bool _ | .int _ | .float _ | .str _ | .bytes _ | .set _ | .date _ | .moment _
  | .endian _ => atom _ trivial
termination_by sizeOf v

/-! ## Closing a value -/

mutual

/-- Put a collection in the place of what refers back to each label that has one. -/
def fillAll (whole : Nat → Option Value) : Value → Value
  | list vs => list (fillAllItems whole vs)
  | tuple vs => tuple (fillAllItems whole vs)
  | map es => map (fillAllEntries whole es)
  | record fs => record (fillAllFields whole fs)
  | cycle n v => cycle n (fillAll (Function.update whole n none) v)
  | back n isMap => (whole n).getD (back n isMap)
  | v => v

/-- Fill in some items. -/
def fillAllItems (whole : Nat → Option Value) : List Value → List Value
  | [] => []
  | v :: rest => fillAll whole v :: fillAllItems whole rest

/-- Fill in the values of some entries. -/
def fillAllEntries (whole : Nat → Option Value) : List (Value × Value) → List (Value × Value)
  | [] => []
  | (k, v) :: rest => (k, fillAll whole v) :: fillAllEntries whole rest

/-- Fill in some fields. -/
def fillAllFields (whole : Nat → Option Value) : List (String × Value) → List (String × Value)
  | [] => []
  | (k, v) :: rest => (k, fillAll whole v) :: fillAllFields whole rest

end

section Lists

variable (whole : Nat → Option Value)

@[simp] theorem fillAllItems_eq (vs : List Value) :
    fillAllItems whole vs = vs.map (fillAll whole) := by
  induction vs with
  | nil => rfl
  | cons v rest ih => rw [fillAllItems, ih, List.map_cons]

@[simp] theorem fillAllEntries_eq (es : List (Value × Value)) :
    fillAllEntries whole es = es.map fun entry => (entry.1, fillAll whole entry.2) := by
  induction es with
  | nil => rfl
  | cons entry rest ih => rw [fillAllEntries, ih, List.map_cons]

@[simp] theorem fillAllFields_eq (fs : List (String × Value)) :
    fillAllFields whole fs = fs.map fun field => (field.1, fillAll whole field.2) := by
  induction fs with
  | nil => rfl
  | cons field rest ih => rw [fillAllFields, ih, List.map_cons]

end Lists

namespace IsAtom

variable {v : Value}

theorem fill_eq (h : v.IsAtom) (label : Nat) (whole : Value) : fill label whole v = v := by
  cases v <;> first | rfl | cases h

theorem fillAll_eq (h : v.IsAtom) (whole : Nat → Option Value) : fillAll whole v = v := by
  cases v <;> first | rfl | cases h

theorem openLabels_eq (h : v.IsAtom) : openLabels v = [] := by
  cases v <;> first | rfl | cases h

end IsAtom

/-- The value refers back to no collection around it. -/
structure IsClosed (v : Value) : Prop where
  eq : openLabels v = []

/-- Only the labels that a value refers back to matter. -/
theorem fillAll_congr (v : Value) : ∀ {f g : Nat → Option Value},
    (∀ n ∈ openLabels v, f n = g n) → fillAll f v = fillAll g v := by
  induction v using collection_induction with
  | atom v hv => simp [hv.fillAll_eq]
  | list vs ih | tuple vs ih =>
      intro f g h
      simp only [openLabels, openLabelsOfItems_eq, List.mem_flatMap] at h
      simpa [fillAll] using fun v hv => ih v hv fun n hn => h n ⟨v, hv, hn⟩
  | map es ih | record fs ih =>
      intro f g h
      simp only [openLabels, openLabelsOfEntries_eq, openLabelsOfFields_eq, List.mem_flatMap] at h
      simpa only [fillAll, fillAllEntries_eq, fillAllFields_eq] using
        congrArg _ (map_snd_congr fun k v hv => ih k v hv fun n hn => h n ⟨(k, v), hv, hn⟩)
  | cycle n v ih =>
      intro f g h
      refine congrArg (cycle n) (ih fun m hm => ?_)
      -- The label of the collection itself is not filled in below it.
      by_cases hmn : m = n
      · simp [hmn]
      · simpa [hmn] using h m (by simp [openLabels, hm, hmn])
  | back n isMap =>
      intro f g h
      simp [fillAll, h n (by simp [openLabels])]

theorem fillAll_none (v : Value) : fillAll (fun _ => none) v = v := by
  induction v using collection_induction with
  | atom v hv => exact hv.fillAll_eq _
  | list vs ih | tuple vs ih => simpa [fillAll] using List.map_congr_left ih
  | map es ih | record fs ih => simpa [fillAll] using map_snd_congr ih
  | cycle n v ih => simpa [fillAll, Function.update_eq_self_iff] using ih
  | back n isMap => rfl

/-- A closed value has no place to fill in. -/
theorem fillAll_closed {v : Value} (h : v.IsClosed) (whole : Nat → Option Value) :
    fillAll whole v = v := by
  rw [fillAll_congr v (g := fun _ => none) (by simp [h.eq]), fillAll_none]

/-- To fill in one collection that is closed, and then others, is to fill in all of them. -/
theorem fillAll_fill {label : Nat} {whole : Value} (hwhole : whole.IsClosed) (v : Value) :
    ∀ f, fillAll f (fill label whole v) = fillAll (Function.update f label (some whole)) v := by
  induction v using collection_induction with
  | atom v hv => simp [hv.fill_eq, hv.fillAll_eq]
  | list vs ih | tuple vs ih => simpa [fill, fillAll] using fun f v hv => ih v hv f
  | map es ih | record fs ih => simpa [fill, fillAll] using fun f k v hv => ih k v hv f
  | cycle n v ih =>
      intro f
      by_cases hn : n = label
      · simp [fill, fillAll, hn]
      · simp [fill, fillAll, hn, ih, Function.update_comm (Ne.symm hn)]
  | back n isMap =>
      intro f
      by_cases hn : n = label
      · simp [fill, fillAll, hn, fillAll_closed hwhole]
      · simp [fill, fillAll, hn]

/-- Filling in a closed collection leaves no reference to it. -/
theorem openLabels_fill {label : Nat} {whole : Value} (hwhole : whole.IsClosed) (v : Value) :
    openLabels (fill label whole v) = (openLabels v).filter (· ≠ label) := by
  induction v using collection_induction with
  | atom v hv => simp [hv.fill_eq, hv.openLabels_eq]
  | list vs ih | tuple vs ih =>
      simp only [fill, openLabels, fillItems_eq, openLabelsOfItems_eq, List.flatMap_map,
        List.filter_flatMap]
      exact List.flatMap_congr ih
  | map es ih | record fs ih =>
      simp only [fill, openLabels, fillEntries_eq, fillFields_eq, openLabelsOfEntries_eq,
        openLabelsOfFields_eq, List.flatMap_map, List.filter_flatMap]
      exact List.flatMap_congr fun entry hentry => ih entry.1 entry.2 hentry
  | cycle n v ih =>
      by_cases hn : n = label
      · simp [fill, openLabels, hn]
      · simp [fill, openLabels, hn, ih, Bool.and_comm]
  -- A reference to the label becomes the whole, which refers back to nothing.
  | back n isMap =>
      by_cases hn : n = label
      · simp [fill, openLabels, hn, hwhole.eq]
      · simp [fill, openLabels, hn]

namespace IsClosed

variable {v : Value}

/-- What is unfolded is closed. -/
theorem unfolded (h : v.IsClosed) : v.unfolded.IsClosed := by
  cases v with
  | cycle n v => exact ⟨(openLabels_fill h v).trans h.eq⟩
  | _ => exact h

theorem of_mem {es : List (Value × Value)} {k : Value} (h : (map es).IsClosed)
    (hmem : (k, v) ∈ es) : v.IsClosed := by
  have hnil := h.eq
  simp only [openLabels, openLabelsOfEntries_eq, List.flatMap_eq_nil_iff] at hnil
  exact ⟨hnil _ hmem⟩

end IsClosed

/-! ## Cells -/

mutual

/-- The collections that hold themselves and that are met in a value on the way down through
mappings, each closed. `whole` closes what refers back from the value. -/
def cellsIn (whole : Nat → Option Value) : Value → List Value
  | map es => cellsOfEntries whole es
  | cycle n v =>
      fillAll whole (cycle n v) ::
        cellsIn (Function.update whole n (some (fillAll whole (cycle n v)))) v
  | _ => []

/-- The cells in some entries. -/
def cellsOfEntries (whole : Nat → Option Value) : List (Value × Value) → List Value
  | [] => []
  | (_, v) :: rest => cellsIn whole v ++ cellsOfEntries whole rest

end

/-- The cells of a value that is closed. -/
def cells (v : Value) : List Value := cellsIn (fun _ => none) v

/-- The label of a cell. -/
def label : Value → Nat
  | cycle n _ => n
  | _ => 0

@[simp] theorem cellsOfEntries_eq (whole : Nat → Option Value) (es : List (Value × Value)) :
    cellsOfEntries whole es = es.flatMap fun entry => cellsIn whole entry.2 := by
  induction es with
  | nil => rfl
  | cons entry rest ih => rw [cellsOfEntries, ih, List.flatMap_cons]

@[simp] theorem labelsOfItems_eq (vs : List Value) : labelsOfItems vs = vs.flatMap labels := by
  induction vs with
  | nil => rfl
  | cons v rest ih => rw [labelsOfItems, ih, List.flatMap_cons]

@[simp] theorem labelsOfEntries_eq (es : List (Value × Value)) :
    labelsOfEntries es = es.flatMap fun entry => labels entry.2 := by
  induction es with
  | nil => rfl
  | cons entry rest ih => rw [labelsOfEntries, ih, List.flatMap_cons]

@[simp] theorem labelsOfFields_eq (fs : List (String × Value)) :
    labelsOfFields fs = fs.flatMap fun field => labels field.2 := by
  induction fs with
  | nil => rfl
  | cons field rest ih => rw [labelsOfFields, ih, List.flatMap_cons]

theorem IsAtom.cellsIn_eq {v : Value} (h : v.IsAtom) (whole : Nat → Option Value) :
    cellsIn whole v = [] := by
  cases v <;> first | rfl | cases h

/-- Only the labels that a value refers back to matter. -/
theorem cellsIn_congr (v : Value) : ∀ {f g : Nat → Option Value},
    (∀ n ∈ openLabels v, f n = g n) → cellsIn f v = cellsIn g v := by
  induction v using collection_induction with
  | atom v hv => simp [hv.cellsIn_eq]
  | list | tuple | record | back => simp [cellsIn]
  | map es ih =>
      intro f g h
      simp only [openLabels, openLabelsOfEntries_eq, List.mem_flatMap] at h
      simp only [cellsIn, cellsOfEntries_eq]
      exact List.flatMap_congr fun entry hentry =>
        ih entry.1 entry.2 hentry fun n hn => h n ⟨entry, hentry, hn⟩
  | cycle n v ih =>
      intro f g h
      have hwhole : fillAll f (cycle n v) = fillAll g (cycle n v) := fillAll_congr _ h
      rw [cellsIn, cellsIn, hwhole]
      refine congrArg _ (ih fun m hm => ?_)
      by_cases hmn : m = n
      · simp [hmn]
      · simpa [hmn] using h m (by simp [openLabels, hm, hmn])

/-- A closed collection that is filled in adds its own cells only. -/
theorem cellsIn_fill {label : Nat} {whole : Value} (hwhole : whole.IsClosed) (v : Value) :
    ∀ f, cellsIn f (fill label whole v) ⊆
      cellsIn (Function.update f label (some whole)) v ++ cells whole := by
  induction v using collection_induction with
  | atom v hv => simp [hv.fill_eq, hv.cellsIn_eq]
  | list | tuple | record => simp [fill, cellsIn]
  | map es ih =>
      intro f c hc
      simp only [fill, cellsIn, fillEntries_eq, cellsOfEntries_eq, List.flatMap_map,
        List.mem_flatMap] at hc
      obtain ⟨entry, hentry, hc⟩ := hc
      simp only [cellsIn, cellsOfEntries_eq, List.mem_append, List.mem_flatMap]
      exact (List.mem_append.1 (ih entry.1 entry.2 hentry f hc)).imp_left
        fun hc => ⟨entry, hentry, hc⟩
  | cycle n v ih =>
      intro f
      by_cases hn : n = label
      · simp [fill, cellsIn, fillAll, hn]
      · have hsame : fillAll f (fill label whole (cycle n v)) =
            fillAll (Function.update f label (some whole)) (cycle n v) := fillAll_fill hwhole _ f
        simp only [fill, if_neg hn] at hsame ⊢
        rw [cellsIn, cellsIn, hsame, List.cons_append]
        refine List.cons_subset_cons _ ?_
        rw [Function.update_comm (Ne.symm hn)]
        exact ih _
  | back n isMap =>
      intro f
      by_cases hn : n = label
      · have hcells : cellsIn f whole = cells whole := cellsIn_congr whole (by simp [hwhole.eq])
        simp [fill, hn, hcells]
      · simp [fill, cellsIn, hn]

theorem mem_cells_self (n : Nat) (v : Value) : cycle n v ∈ cells (cycle n v) := by
  rw [cells, cellsIn, fillAll_none]
  exact List.mem_cons_self

/-- Unfolding brings up no new cell. -/
theorem cells_unfolded {v : Value} (h : v.IsClosed) : cells v.unfolded ⊆ cells v := by
  cases v with
  | cycle n v =>
      refine List.Subset.trans (cellsIn_fill h v _)
        (List.append_subset.2 ⟨?_, List.Subset.refl _⟩)
      rw [cells, cellsIn, fillAll_none]
      exact List.subset_cons_self _ _
  | _ => exact List.Subset.refl _

theorem cells_of_mem {es : List (Value × Value)} {k v : Value} (h : (k, v) ∈ es) :
    cells v ⊆ cells (map es) := by
  intro c hc
  simp only [cells, cellsIn, cellsOfEntries_eq, List.mem_flatMap]
  exact ⟨(k, v), h, hc⟩

/-- Each cell has a label of the value to itself. -/
theorem map_label_cellsIn (v : Value) : ∀ f, ((cellsIn f v).map label).Sublist (labels v) := by
  induction v using collection_induction with
  | atom v hv => simp [hv.cellsIn_eq]
  | list | tuple | record | back => simp [cellsIn]
  | map es ih =>
      intro f
      simp only [cellsIn, labels, cellsOfEntries_eq, labelsOfEntries_eq, List.map_flatMap]
      exact .flatMap_right es fun entry hentry => ih entry.1 entry.2 hentry f
  | cycle n v ih =>
      intro f
      exact (ih _).cons_cons n

end ByteSchema.Value
