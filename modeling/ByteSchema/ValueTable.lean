import ByteSchema.Fault

/-!
# ByteSchema.ValueTable

The values decoded so far, by the path of their field. A path is written at most once: a second
write is an error, so an entry never changes.
-/

namespace ByteSchema

/-- Values by path, the latest first. -/
structure ValueTable where
  entries : Fields := []
  deriving Inhabited

namespace ValueTable

/-- The table without entries. -/
def empty : ValueTable := ⟨[]⟩

/-- The value at a path, if one was written. -/
def get? (t : ValueTable) (path : String) : Option Value := t.entries.lookup path

/-- Write the value of a path, which must be new. -/
def record (t : ValueTable) (path : String) (value : Value) : Except DecodeError ValueTable :=
  match t.get? path with
  | some _ => throw ⟨.decodedTwice path, some path⟩
  | none => return ⟨(path, value) :: t.entries⟩

/-- The entries in the order in which they were written. -/
def toList (t : ValueTable) : Fields := t.entries.reverse

/-- The table with the given entries, written in order. -/
def ofList (fields : Fields) : ValueTable := ⟨fields.reverse⟩

@[simp] theorem get?_empty (path : String) : empty.get? path = none := rfl

theorem record_eq_ok_iff {t u : ValueTable} {path : String} {value : Value} :
    t.record path value = .ok u ↔ t.get? path = none ∧ u = ⟨(path, value) :: t.entries⟩ := by
  unfold record
  cases h : t.get? path <;> simp [pure, Except.pure, throw, throwThe, MonadExceptOf.throw, eq_comm]

/-- A later write leaves what is there. -/
theorem get?_record_of_some {t u : ValueTable} {path other : String} {value v : Value}
    (h : t.record path value = .ok u) (hv : t.get? other = some v) : u.get? other = some v := by
  obtain ⟨hn, rfl⟩ := record_eq_ok_iff.1 h
  have hne : other ≠ path := by
    rintro rfl
    rw [hn] at hv
    cases hv
  have hb : (other == path) = false := by simpa using hne
  simpa [get?, List.lookup_cons, hb] using hv

@[simp] theorem toList_ofList (fields : Fields) : (ofList fields).toList = fields := by
  simp [toList, ofList]

end ValueTable

end ByteSchema
