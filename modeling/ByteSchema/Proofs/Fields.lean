import ByteSchema.Value.Basic
import Mathlib.Data.List.Nodup

/-!
# ByteSchema.Proofs.Fields

Named values that are put one after the other. A name that is there keeps its place and takes the
new value; a new one goes to the end. So names that are distinct stay so (`nodup_putAll`), and
entries with new, distinct names are appended as they are (`putAll_of_nodup`).
-/

namespace ByteSchema.Fields

theorem mem_put {fields : Fields} {name : String} {v : Value} {entry : String × Value}
    (h : entry ∈ Fields.put fields name v) : entry = (name, v) ∨ entry ∈ fields := by
  induction fields with
  | nil => exact .inl (List.mem_singleton.1 h)
  | cons first rest ih =>
      unfold Fields.put at h
      split at h
      case isTrue hname =>
          rcases List.mem_cons.1 h with rfl | h
          · exact .inl (by rw [hname])
          · exact .inr (List.mem_cons_of_mem _ h)
      case isFalse =>
          rcases List.mem_cons.1 h with rfl | h
          · exact .inr List.mem_cons_self
          · exact (ih h).imp_right (List.mem_cons_of_mem _)

/-- A new name is put behind all others. -/
theorem put_of_not_mem {fields : Fields} {name : String} {v : Value}
    (h : name ∉ fields.map Prod.fst) : Fields.put fields name v = fields ++ [(name, v)] := by
  induction fields with
  | nil => rfl
  | cons entry rest ih =>
      obtain ⟨n, w⟩ := entry
      rw [List.map_cons, List.mem_cons, not_or] at h
      rw [Fields.put, if_neg (Ne.symm h.1), ih h.2, List.cons_append]

/-- A name that is there keeps its place: only its value changes. -/
theorem names_put_of_mem {fields : Fields} {name : String} (v : Value)
    (h : name ∈ fields.map Prod.fst) :
    (Fields.put fields name v).map Prod.fst = fields.map Prod.fst := by
  induction fields with
  | nil => cases h
  | cons entry rest ih =>
      obtain ⟨n, w⟩ := entry
      unfold Fields.put
      by_cases hn : n = name
      · rw [if_pos hn, List.map_cons, List.map_cons]
      · rw [if_neg hn, List.map_cons, List.map_cons]
        rcases List.mem_cons.1 h with heq | h
        · exact absurd heq.symm hn
        · rw [ih h]

/-- Putting a value does not repeat a name, whether the name is new or not. -/
theorem nodup_put {fields : Fields} (name : String) (v : Value) (h : (fields.map Prod.fst).Nodup) :
    ((Fields.put fields name v).map Prod.fst).Nodup := by
  by_cases hname : name ∈ fields.map Prod.fst
  · rwa [names_put_of_mem v hname]
  · rw [put_of_not_mem hname, List.map_append, List.nodup_append_comm]
    exact List.nodup_cons.2 ⟨hname, h⟩

/-- Put some entries, one after the other. -/
def putAll (fields entries : Fields) : Fields :=
  entries.foldl (fun done entry => Fields.put done entry.1 entry.2) fields

theorem mem_putAll {fields entries : Fields} {entry : String × Value}
    (h : entry ∈ putAll fields entries) : entry ∈ fields ∨ entry ∈ entries := by
  induction entries generalizing fields with
  | nil => exact .inl h
  | cons first rest ih =>
      rcases ih h with h | h
      · rcases mem_put h with rfl | h
        · exact .inr List.mem_cons_self
        · exact .inl h
      · exact .inr (List.mem_cons_of_mem _ h)

theorem nodup_putAll {fields : Fields} (entries : Fields) (h : (fields.map Prod.fst).Nodup) :
    ((putAll fields entries).map Prod.fst).Nodup := by
  induction entries generalizing fields with
  | nil => exact h
  | cons entry rest ih => exact ih (nodup_put entry.1 entry.2 h)

/-- Where all names are new and differ, putting entries is appending them. -/
theorem putAll_of_nodup {fields entries : Fields}
    (h : (fields.map Prod.fst ++ entries.map Prod.fst).Nodup) :
    putAll fields entries = fields ++ entries := by
  induction entries generalizing fields with
  | nil => exact (List.append_nil fields).symm
  | cons entry rest ih =>
      -- A new name is put at the end, where the next ones find it.
      have hnew : entry.1 ∉ fields.map Prod.fst := fun hmem =>
        (List.nodup_append.1 h).2.2 _ hmem _ List.mem_cons_self rfl
      have hrest : ((fields ++ [entry]).map Prod.fst ++ rest.map Prod.fst).Nodup := by
        simpa using h
      show putAll (Fields.put fields entry.1 entry.2) rest = fields ++ entry :: rest
      rw [put_of_not_mem hnew, ih hrest, List.append_assoc, List.singleton_append]

end ByteSchema.Fields
