import ByteSchema.Proofs.Faithful
import ByteSchema.Schema.Describe

/-!
# ByteSchema.Proofs.Summary

The short description of a schema and the root of a tree that is decoded with it.

Both take the root from the schema itself or from the type that is named like it, each in its own
way. They agree on the id and on the fields. The byte order of the description is that of the schema
as a whole: a type that the root is borrowed from may have another one, and then the tree has that
(`Schema.decode_overridden`).
-/

namespace ByteSchema

namespace Schema

variable {schema : Schema} {options : Options} {buffer : Buffer} {result : Result}

/-- The fields of the root's type are those of the description. -/
theorem fields_describe {definition : TypeDef} (h : schema.rootType? = some definition) :
    schema.describe.fields = definition.seq.map Field.id := by
  have hsequence : schema.rootSequence? = some definition.seq := by
    unfold rootType? at h
    unfold rootSequence?
    split at h
    case h_1 seq _ =>
        cases h
        rfl
    case h_2 =>
        obtain ⟨d, hd, rfl⟩ := Option.map_eq_some_iff.1 h
        rw [hd]
        rfl
  rw [describe, hsequence, Option.getD_some]

/-- **The description of a schema.** The root of a tree that is decoded has the id of the
description, and its children are named like fields of the description, in their order. Its byte
order is that of the description, unless the root is borrowed from a type with a byte order of its
own. -/
theorem describe_agrees (h : schema.decode options buffer = .ok result)
    (hsuccess : result.success = true) :
    ∃ root, result.root = some root ∧ root.id = schema.describe.id ∧
      root.endian = some (schema.rootOverride?.getD schema.describe.endian) ∧
      (root.children.map Node.name).Sublist schema.describe.fields := by
  obtain ⟨root, hroot⟩ := Result.exists_root hsuccess
  refine ⟨root, hroot, ?_⟩
  obtain ⟨definition, o, p, hdefinition, hrun, rfl⟩ := decode_inv h hroot
  cases hroot
  obtain ⟨depth, children, fields, stop, -, hseq, rfl⟩ := Setting.decodeInstance_inv hrun
  have hendian : definition.endian.getD schema.endian =
      schema.rootOverride?.getD schema.describe.endian := by
    rw [endian_of_rootType hdefinition]
    cases schema.rootOverride? <;> rfl
  have hid : nodeIdOf ([] ++ [schema.rootId]) = schema.rootId := by
    rw [nodeIdOf_concat schema.rootId_ne_empty]
    exact String.empty_append
  refine ⟨hid, congrArg some hendian, ?_⟩
  rw [fields_describe hdefinition]
  exact hseq.names_sublist

/-- The fields of the root are those of the type `m`, which is little endian. The field between is
absent. -/
def overridden : Schema where
  info := { id := some "m", endian := some .big }
  types := [
    ("m", {
      seq := [
        { id := "a", type := .named "u2" },
        { id := "b", type := .named "u1", condition := .str "a == 0" },
        { id := "c", type := .named "u1" }]
      endian := some .little })]

theorem describe_agrees_overridden :
    ∃ result root, overridden.decode {} [1, 2, 3] = .ok result ∧ result.success = true ∧
      result.root = some root ∧ root.id = overridden.describe.id ∧
      root.endian = some (overridden.rootOverride?.getD overridden.describe.endian) ∧
      (root.children.map Node.name).Sublist overridden.describe.fields := by
  have hrun : overridden.succeeds {} [1, 2, 3] = true := by decide +kernel
  obtain ⟨result, hresult, hsuccess⟩ := exists_of_succeeds hrun
  obtain ⟨root, hroot, hagrees⟩ := describe_agrees hresult hsuccess
  exact ⟨result, root, hresult, hsuccess, hroot, hagrees⟩

/-- The description has the byte order of the schema, the tree that of the type. -/
theorem decode_overridden :
    overridden.describe.endian = .big ∧
      (overridden.decode {} [1, 2, 3]).toOption.map
        (fun result => (result.success, result.root.bind Node.endian)) =
          some (true, some .little) := by
  decide +kernel

end Schema

end ByteSchema
