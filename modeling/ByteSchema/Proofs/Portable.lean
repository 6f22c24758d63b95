import ByteSchema.Proofs.Fields
import ByteSchema.Proofs.Unfolding
import ByteSchema.Report.Portable

/-!
# ByteSchema.Proofs.Portable

The portable form of a value is a normal form: there is nothing in it that other programs do not
know (`isPortable_portable`), and a value of that sort is its own portable form
(`IsPortable.portable_eq`). Where all keys are texts, it shows the value entry by entry and in order
(`HasTextKeys.portrays`).

Keys that have the same text share an entry, so the names of a record are distinct however its
mapping was keyed. This is what makes the form stable: when it is taken again, each name is put
where it stands.
-/

namespace ByteSchema.Value

/-! ## Normal forms -/

/-- A value that is neither a collection nor a byte string. -/
def IsScalar : Value → Prop
  | bytes _ => False
  | v => v.IsAtom

/-- Scalars, lists, and records with distinct names: what other programs know. -/
inductive IsPortable : Value → Prop
  | scalar {v : Value} (h : v.IsScalar) : IsPortable v
  | list {vs : List Value} (items : ∀ v ∈ vs, IsPortable v) : IsPortable (list vs)
  | record {fs : Fields} (distinct : (fs.map Prod.fst).Nodup)
      (values : ∀ k v, (k, v) ∈ fs → IsPortable v) : IsPortable (record fs)

theorem portableEntries_eq (es : List (Value × Value)) (done : Fields) :
    portableEntries es done =
      Fields.putAll done (es.map fun entry => (entry.1.text, entry.2.portable)) := by
  induction es generalizing done with
  | nil => rfl
  | cons entry rest ih => rw [portableEntries, ih, List.map_cons]; rfl

theorem portableFields_eq (fs done : Fields) :
    portableFields fs done =
      Fields.putAll done (fs.map fun field => (field.1, field.2.portable)) := by
  induction fs generalizing done with
  | nil => rfl
  | cons field rest ih => rw [portableFields, ih, List.map_cons]; rfl

@[simp] theorem portable_map (es : List (Value × Value)) :
    portable (map es) =
      record (Fields.putAll [] (es.map fun entry => (entry.1.text, entry.2.portable))) := by
  rw [portable, portableEntries_eq]

@[simp] theorem portable_record (fs : Fields) :
    portable (record fs) =
      record (Fields.putAll [] (fs.map fun field => (field.1, field.2.portable))) := by
  rw [portable, portableFields_eq]

theorem IsScalar.portable_eq {v : Value} (h : v.IsScalar) : v.portable = v := by
  cases v <;> first | rfl | cases h

/-- Whatever entries are put together, the names come out distinct. -/
theorem isPortable_putAll {fs : Fields} (h : ∀ k v, (k, v) ∈ fs → IsPortable v) :
    IsPortable (record (Fields.putAll [] fs)) := by
  refine .record (Fields.nodup_putAll fs List.nodup_nil) ?_
  intro k v hmem
  rcases Fields.mem_putAll hmem with hmem | hmem
  · cases hmem
  · exact h k v hmem

/-- By induction on the value: whatever it is, it becomes what other programs know. -/
theorem isPortable_portable (v : Value) : v.portable.IsPortable := by
  induction v using collection_induction with
  | atom v hv =>
      cases v with
      | bytes bs =>
          rw [portable_bytes]
          refine .list fun w hw => ?_
          obtain ⟨b, -, rfl⟩ := List.mem_map.1 hw
          exact .scalar trivial
      | _ => first | exact .scalar trivial | cases hv
  | list vs ih =>
      rw [portable_list]
      exact .list (List.forall_mem_map.2 ih)
  | tuple vs ih =>
      rw [portable_tuple]
      exact .list (List.forall_mem_map.2 ih)
  | map es ih =>
      rw [portable_map]
      -- Keys with one text share an entry, so the names are distinct.
      refine isPortable_putAll fun k v hmem => ?_
      obtain ⟨entry, hentry, heq⟩ := List.mem_map.1 hmem
      cases heq
      exact ih entry.1 entry.2 hentry
  | record fs ih =>
      rw [portable_record]
      refine isPortable_putAll fun k v hmem => ?_
      obtain ⟨field, hfield, heq⟩ := List.mem_map.1 hmem
      cases heq
      exact ih field.1 field.2 hfield
  | cycle n v ih => exact ih
  | back n isMap => exact .scalar trivial

/-- A value of that sort is its own portable form. -/
theorem IsPortable.portable_eq {v : Value} (h : v.IsPortable) : v.portable = v := by
  induction h with
  | scalar h => exact h.portable_eq
  | @list vs _ ih => rw [portable_list, List.map_congr_left ih, List.map_id']
  | @record fs distinct _ ih =>
      have hsame : (fs.map fun field => (field.1, field.2.portable)) = fs := by
        rw [map_snd_congr (g := id) ih]
        exact List.map_id' fs
      have hput : Fields.putAll [] fs = [] ++ fs := Fields.putAll_of_nodup (by simpa using distinct)
      rw [portable_record, hsame, hput, List.nil_append]

/-! ## What has no portable form -/

@[simp] theorem obstacleInItems_eq (vs : List Value) :
    obstacleInItems vs = vs.findSome? obstacle := by
  induction vs with
  | nil => rfl
  | cons v rest ih =>
      rw [obstacleInItems, ih, List.findSome?_cons]
      cases v.obstacle <;> rfl

@[simp] theorem obstacleInEntries_eq (es : List (Value × Value)) :
    obstacleInEntries es = es.findSome? fun entry =>
      (if entry.1.hasOverlong then some Escape.longInteger else none).or entry.2.obstacle := by
  induction es with
  | nil => rfl
  | cons entry rest ih =>
      rw [obstacleInEntries, ih, List.findSome?_cons]
      cases (if entry.1.hasOverlong then some Escape.longInteger else none).or
        entry.2.obstacle <;> rfl

@[simp] theorem obstacleInFields_eq (fs : Fields) :
    obstacleInFields fs = fs.findSome? fun field => field.2.obstacle := by
  induction fs with
  | nil => rfl
  | cons field rest ih =>
      rw [obstacleInFields, ih, List.findSome?_cons]
      cases field.2.obstacle <;> rfl

theorem IsAtom.obstacle_eq {v : Value} (h : v.IsAtom) : v.obstacle = none := by
  cases v <;> first | rfl | cases h

theorem IsScalar.isAtom {v : Value} (h : v.IsScalar) : v.IsAtom := by
  cases v with
  | bytes bs => trivial
  | _ => exact h

/-- A portable form is made of scalars, lists and records, which are all let through. -/
theorem IsPortable.obstacle_eq {v : Value} (h : v.IsPortable) : v.obstacle = none := by
  induction h with
  | scalar h => exact h.isAtom.obstacle_eq
  | list _ ih =>
      rw [obstacle, obstacleInItems_eq, List.findSome?_eq_none_iff]
      exact ih
  | record _ _ ih =>
      rw [obstacle, obstacleInFields_eq, List.findSome?_eq_none_iff]
      exact fun field hfield => ih field.1 field.2 hfield

/-- The values right inside a collection. -/
def parts : Value → List Value
  | list vs | tuple vs => vs
  | map es => es.map Prod.snd
  | record fs => fs.map Prod.snd
  | cycle _ v => [v]
  | _ => []

/-- The value `k` is a key of a mapping that stands in a value, at any depth. -/
inductive HasKey (k : Value) : Value → Prop
  | key {v : Value} {es : List (Value × Value)} (h : (k, v) ∈ es) : HasKey k (map es)
  | inside {u v : Value} (hu : u ∈ v.parts) (h : HasKey k u) : HasKey k v

theorem obstacle_of_mem_parts {u v : Value} (h : v.obstacle = none) (hu : u ∈ v.parts) :
    u.obstacle = none := by
  cases v with
  | list vs | tuple vs =>
      simp only [obstacle, obstacleInItems_eq, List.findSome?_eq_none_iff] at h
      exact h u hu
  | map es =>
      simp only [obstacle, obstacleInEntries_eq, List.findSome?_eq_none_iff,
        Option.or_eq_none_iff] at h
      obtain ⟨entry, hentry, rfl⟩ := List.mem_map.1 hu
      exact (h entry hentry).2
  | record fs =>
      simp only [obstacle, obstacleInFields_eq, List.findSome?_eq_none_iff] at h
      obtain ⟨field, hfield, rfl⟩ := List.mem_map.1 hu
      exact h field hfield
  | cycle n v => cases List.mem_singleton.1 hu; exact h
  | _ => cases hu

/-- Where nothing stands in the way each key can be worded. -/
theorem HasKey.short {k v : Value} (hk : HasKey k v) (h : v.obstacle = none) :
    k.hasOverlong = false := by
  induction hk with
  | key hmem =>
      simp only [obstacle, obstacleInEntries_eq, List.findSome?_eq_none_iff,
        Option.or_eq_none_iff] at h
      simpa using (h _ hmem).1
  | inside hu _ ih => exact ih (obstacle_of_mem_parts h hu)

/-- In a value without end nothing but a key can stand in the way. -/
theorem exists_key_of_obstacle {v : Value} {e : Escape} (hlabels : v.labels = [])
    (h : v.obstacle = some e) :
    e = .longInteger ∧ ∃ k, HasKey k v ∧ k.hasOverlong = true := by
  induction v using collection_induction with
  | atom v hv =>
      rw [hv.obstacle_eq] at h
      cases h
  | list vs ih | tuple vs ih =>
      simp only [labels, labelsOfItems_eq, List.flatMap_eq_nil_iff] at hlabels
      rw [obstacle, obstacleInItems_eq] at h
      obtain ⟨u, hu, he⟩ := List.exists_of_findSome?_eq_some h
      obtain ⟨heq, k, hk, hlong⟩ := ih u hu (hlabels u hu) he
      exact ⟨heq, k, .inside hu hk, hlong⟩
  | map es ih =>
      simp only [labels, labelsOfEntries_eq, List.flatMap_eq_nil_iff] at hlabels
      rw [obstacle, obstacleInEntries_eq] at h
      obtain ⟨⟨k, u⟩, hentry, he⟩ := List.exists_of_findSome?_eq_some h
      -- The key comes before the value under it.
      by_cases hlong : k.hasOverlong = true
      · rw [if_pos hlong] at he
        cases he
        exact ⟨rfl, k, .key hentry, hlong⟩
      · rw [if_neg hlong, Option.none_or] at he
        obtain ⟨heq, l, hl, hlong⟩ := ih k u hentry (hlabels _ hentry) he
        exact ⟨heq, l, .inside (List.mem_map_of_mem hentry) hl, hlong⟩
  | record fs ih =>
      simp only [labels, labelsOfFields_eq, List.flatMap_eq_nil_iff] at hlabels
      rw [obstacle, obstacleInFields_eq] at h
      obtain ⟨⟨name, u⟩, hfield, he⟩ := List.exists_of_findSome?_eq_some h
      obtain ⟨heq, k, hk, hlong⟩ := ih name u hfield (hlabels _ hfield) he
      exact ⟨heq, k, .inside (List.mem_map_of_mem hfield) hk, hlong⟩
  | cycle n v => cases hlabels
  | back n isMap => cases hlabels

/-! ## Entries and order -/

/-- All keys in a value are texts, and no mapping has one of them twice. -/
inductive HasTextKeys : Value → Prop
  | atom {v : Value} (h : v.IsAtom) : HasTextKeys v
  | list {vs : List Value} (items : ∀ v ∈ vs, HasTextKeys v) : HasTextKeys (list vs)
  | tuple {vs : List Value} (items : ∀ v ∈ vs, HasTextKeys v) : HasTextKeys (tuple vs)
  | map {es : List (Value × Value)} {names : List String} (keys : es.map Prod.fst = names.map str)
      (distinct : names.Nodup) (values : ∀ k v, (k, v) ∈ es → HasTextKeys v) :
      HasTextKeys (map es)
  | record {fs : Fields} (distinct : (fs.map Prod.fst).Nodup)
      (values : ∀ k v, (k, v) ∈ fs → HasTextKeys v) : HasTextKeys (record fs)

/-- One value shows another part by part: the same scalars, the bytes of byte strings as numbers, as
many items in the same order, and the same keys in the same order. -/
inductive Portrays : Value → Value → Prop
  | scalar {v : Value} (h : v.IsScalar) : Portrays v v
  | bytes {bs : List UInt8} : Portrays (bytes bs) (list (bs.map fun b => int b.toNat))
  | list {vs ws : List Value} (items : List.Forall₂ Portrays vs ws) : Portrays (list vs) (list ws)
  | tuple {vs ws : List Value} (items : List.Forall₂ Portrays vs ws) :
      Portrays (tuple vs) (list ws)
  | map {es : List (Value × Value)} {fs : Fields}
      (keys : es.map Prod.fst = fs.map fun field => str field.1)
      (values : List.Forall₂ Portrays (es.map Prod.snd) (fs.map Prod.snd)) :
      Portrays (map es) (record fs)
  | record {fs gs : Fields} (names : fs.map Prod.fst = gs.map Prod.fst)
      (values : List.Forall₂ Portrays (fs.map Prod.snd) (gs.map Prod.snd)) :
      Portrays (record fs) (record gs)

theorem forall₂_map_of_forall {α : Type} {R : Value → Value → Prop} {items : List α}
    {f g : α → Value} (h : ∀ a ∈ items, R (f a) (g a)) :
    List.Forall₂ R (items.map f) (items.map g) := by
  rw [List.forall₂_map_left_iff, List.forall₂_map_right_iff, List.forall₂_same]
  exact h

/-- Keys that are texts keep their words, so distinct keys stay distinct. -/
theorem HasTextKeys.portrays {v : Value} (h : v.HasTextKeys) : v.Portrays v.portable := by
  induction h with
  | @atom v h =>
      cases v with
      | bytes bs => rw [portable_bytes]; exact .bytes
      | _ => first | exact .scalar trivial | cases h
  | @list vs _ ih =>
      rw [portable_list]
      exact .list (by simpa using forall₂_map_of_forall (f := id) ih)
  | @tuple vs _ ih =>
      rw [portable_tuple]
      exact .tuple (by simpa using forall₂_map_of_forall (f := id) ih)
  | @map es names keys distinct _ ih =>
      have htexts : es.map (fun entry => entry.1.text) = names := by
        have h := congrArg (List.map text) keys
        simpa [Function.comp_def] using h
      have hkeys : es.map Prod.fst = es.map fun entry => str entry.1.text := by
        rw [keys, ← htexts, List.map_map]
        rfl
      rw [portable_map, Fields.putAll_of_nodup (by simpa [Function.comp_def, htexts] using distinct),
        List.nil_append]
      refine .map (by simpa [Function.comp_def] using hkeys) ?_
      rw [List.map_map]
      exact forall₂_map_of_forall fun entry hentry => ih entry.1 entry.2 hentry
  | @record fs distinct _ ih =>
      rw [portable_record, Fields.putAll_of_nodup (by simpa [Function.comp_def] using distinct),
        List.nil_append]
      refine .record (by simp [Function.comp_def]) ?_
      rw [List.map_map]
      exact forall₂_map_of_forall fun field hfield => ih field.1 field.2 hfield

/-- **Portable forms.** A value has no portable form if one of its keys, at any depth, cannot be
worded. Otherwise it has one, which holds no byte string, no tuple and no mapping with other keys
than texts, and which is its own portable form; and when all keys of the value are texts, it shows
each entry and each item of the value in its place. -/
theorem portable?_normalizes {v : Value} (h : v.labels = []) :
    (v.portable? = .error .longInteger ∧ ∃ k, HasKey k v ∧ k.hasOverlong = true) ∨
      (∀ k, HasKey k v → k.hasOverlong = false) ∧
        ∃ w, v.portable? = .ok w ∧ w.IsPortable ∧ w.portable? = .ok w ∧
          (v.HasTextKeys → v.Portrays w) := by
  cases hobstacle : v.obstacle with
  | some e =>
      obtain ⟨rfl, hkey⟩ := exists_key_of_obstacle h hobstacle
      exact .inl ⟨by rw [portable?, hobstacle], hkey⟩
  | none =>
      have hportable := isPortable_portable v
      refine .inr ⟨fun k hk => hk.short hobstacle, v.portable, by rw [portable?, hobstacle],
        hportable, ?_, HasTextKeys.portrays⟩
      rw [portable?, hportable.obstacle_eq, hportable.portable_eq]

theorem portable?_normalizes_nested :
    let v := map [(str "a", tuple [bytes [1, 255], null]), (str "b", record [("c", list [])])]
    v.labels = [] ∧ v.HasTextKeys ∧
      ∃ w, v.portable? = .ok w ∧ w.IsPortable ∧ w.portable? = .ok w ∧ v.Portrays w := by
  intro v
  have htexts : v.HasTextKeys := by
    have htuple : (tuple [bytes [1, 255], null]).HasTextKeys :=
      .tuple (by simpa using ⟨.atom trivial, .atom trivial⟩)
    have hrecord : (record [("c", list [])]).HasTextKeys :=
      .record (by decide) (by simpa using .list nofun)
    have hkeys : [str "a", str "b"] = ["a", "b"].map str := rfl
    refine .map hkeys (by decide) ?_
    intro k w hmem
    rcases List.mem_cons.1 hmem with heq | hmem
    · cases heq
      exact htuple
    · cases List.mem_singleton.1 hmem
      exact hrecord
  refine ⟨rfl, htexts, ?_⟩
  rcases portable?_normalizes (v := v) rfl with ⟨hlong, -⟩ | ⟨-, w, hw, hportable, hagain, hshows⟩
  · cases hlong
  · exact ⟨w, hw, hportable, hagain, hshows htexts⟩

/-- Keys that have the same text share an entry. -/
example : (map [(bool true, bytes [7]), (str "a", null), (str "True", tuple [])]).portable =
    record [("True", list []), ("a", null)] := rfl

/-- The key of this mapping cannot be worded. -/
theorem portable?_overlong :
    ∃ n, isOverlong n = true ∧ (map [(int n, null)]).labels = [] ∧
      ∀ w, (map [(int n, null)]).portable? ≠ .ok w := by
  obtain ⟨n, hlong⟩ : ∃ n, isOverlong n = true := ⟨_, isOverlong_pow⟩
  refine ⟨n, hlong, rfl, ?_⟩
  intro w h
  have hobstacle : (map [(int n, null)]).obstacle = some .longInteger := by
    simp [obstacle, hasOverlong, hlong]
  rw [portable?, hobstacle] at h
  cases h

end ByteSchema.Value
