import ByteSchema.Proofs.Coherence
import ByteSchema.Proofs.Faithful
import ByteSchema.Proofs.Limits

/-!
# ByteSchema.Proofs.Guards

What the guards on nesting and on counts do, and what they promise.

A guard does nothing but fail: a decode that no guard ends gives the same result under all higher
limits. This is `Decoder.Loosens`, read off at the root. What the guards promise of a tree is read off
its run: an instance in which `depth` more may be nested has at most that many below it on any path
(`Node.NestsWithin`), and a counted array has no more elements than its count, which was checked.
-/

namespace ByteSchema

/-! ## The failures of the guards -/

/-- The causes that the guards raise: an instance is nested too deep, or a count is over its limit. -/
inductive Cause.IsGuard : Cause → Prop
  | depth {limit : Int} {typeName : String} : IsGuard (.tooDeep limit typeName)
  | count {n limit : Int} : IsGuard (.countOverLimit n limit)

/-- The result is the failure that a guard raises. -/
def Result.IsGuarded (r : Result) : Prop :=
  ∃ e : DecodeError, e.cause.IsGuard ∧ r.errors = [e.diagnostic]

theorem Result.not_isGuarded_of_success {r : Result} (h : r.success = true) : ¬ r.IsGuarded := by
  rintro ⟨e, -, herrors⟩
  simp [success, herrors] at h

namespace Schema

variable {schema : Schema} {options : Options} {buffer : Buffer} {result : Result}

/-- Under higher limits the root is decoded as before, unless a limit stops it. -/
theorem decodeRoot_loosens {definition : TypeDef} {d r : Int} (hd : options.maxDepth ≤ d)
    (hr : options.maxCount ≤ r) :
    (schema.decodeRoot options definition buffer).Loosens
      (schema.decodeRoot { options with maxDepth := d, maxCount := r } definition buffer) := by
  have hlimits : (schema.setting options buffer).options.AtMost
      { options with maxDepth := d, maxCount := r } := ⟨hr, Nat.le_refl _⟩
  exact Setting.decodeInstance_loosens hlimits (Int.toNat_le_toNat hd)

/-- A result that no guard raises is the result under all higher limits. -/
theorem decode_of_not_isGuarded (h : schema.decode options buffer = .ok result)
    (hguard : ¬ result.IsGuarded) {d r : Int} (hd : options.maxDepth ≤ d)
    (hr : options.maxCount ≤ r) :
    schema.decode { options with maxDepth := d, maxCount := r } buffer = .ok result := by
  unfold decode at h ⊢
  split at h
  case h_1 => exact h
  case h_2 definition _ =>
      have hloosens : (schema.decodeRoot options definition buffer).Loosens
          (schema.decodeRoot { options with maxDepth := d, maxCount := r } definition buffer) :=
        decodeRoot_loosens hd hr
      -- Both runs agree unless the first one stops at a limit; its result, if any, is guarded then.
      rcases hloosens {} with ⟨e, p, hstopped, hlimit⟩ | hsame
      · rw [hstopped] at h
        cases hlimit with
        | depth =>
            cases h
            exact absurd ⟨_, .depth, rfl⟩ hguard
        | count =>
            cases h
            exact absurd ⟨_, .count, rfl⟩ hguard
        | longCount | rounds => cases h
      · rw [← hsame] at h
        exact h

end Schema

/-! ## Nesting -/

/-- The nodes on the way from a node down to a leaf. -/
inductive Node.PathToLeaf : Node → List Node → Prop
  | leaf {n : Node} (last : n.children = []) : PathToLeaf n [n]
  | step {n c : Node} {path : List Node} (child : c ∈ n.children) (below : PathToLeaf c path) :
      PathToLeaf n (n :: path)

/-- No path from the node down to a leaf comes through more than `depth` instances. -/
def Node.NestsWithin (depth : Nat) (n : Node) : Prop :=
  ∀ path, n.PathToLeaf path → path.countP (fun m => m.value.isRecord) ≤ depth

theorem Node.nestsWithin_of_children {n : Node} {depth : Nat}
    (h : ∀ c ∈ n.children, c.NestsWithin depth) (hn : n.value.isRecord = false) :
    n.NestsWithin depth := by
  intro path hpath
  cases hpath with
  | leaf => simp [hn]
  | step child below => simpa [hn] using h _ child _ below

/-- An instance is one more. -/
theorem Node.nestsWithin_succ {n : Node} {depth : Nat}
    (h : ∀ c ∈ n.children, c.NestsWithin depth) : n.NestsWithin (depth + 1) := by
  intro path hpath
  cases hpath with
  | leaf => exact Nat.le_trans List.countP_le_length (Nat.succ_le_succ (Nat.zero_le depth))
  | step child below =>
      have hbelow := h _ child _ below
      rw [List.countP_cons]
      split <;> omega

theorem Value.isRecord_of_not_isComposite {v : Value} (h : v.isComposite = false) :
    v.isRecord = false := by
  cases v with
  | record => cases h
  | _ => rfl

namespace Setting

variable {s : Setting} {custom : CustomDecoder} {ctx : Context} {f : Field} {name : String}
  {p p' : Progress} {o : Outcome} {depth : Nat}

theorem IsLeaf.nestsWithin (h : s.IsLeaf ctx name o) : o.node.NestsWithin depth := by
  refine Node.nestsWithin_of_children ?_ (Value.isRecord_of_not_isComposite h.scalar)
  rw [h.children_eq]
  exact fun _ hc => absurd hc List.not_mem_nil

/-- What is asked of the decoder of nested instances. -/
def NestsCustom (custom : CustomDecoder) (depth : Nat) : Prop :=
  ∀ {ctx : Context} {f : Field} {typeName name : String} {p p' : Progress} {o : Outcome},
    (custom ctx f typeName name).Yields p o p' → o.node.NestsWithin depth

theorem decodeSingle_nests (hcustom : NestsCustom custom depth)
    (h : (s.decodeSingle custom ctx f name).Yields p o p') : o.node.NestsWithin depth := by
  rcases decodeSingle_inv h with ⟨hleaf, -⟩ | ⟨typeName, -, -, hrun⟩
  · exact hleaf.nestsWithin
  · exact hcustom hrun

theorem elements_nest {r : Repetition} {count : Option Int} {index : Nat} {cursor stop : Int}
    {items : List Node} (hcustom : NestsCustom custom depth)
    (h : Elements s custom ctx f r count index cursor p items stop p') :
    ∀ c ∈ items, c.NestsWithin depth := by
  induction h with
  | complete => simp
  | satisfied _ single | stuck _ single =>
      exact List.forall_mem_singleton.2 (decodeSingle_nests hcustom single)
  | next _ single _ _ _ ih =>
      exact List.forall_mem_cons.2 ⟨decodeSingle_nests hcustom single, ih⟩

theorem decodeField_nests (hcustom : NestsCustom custom depth)
    (h : (s.decodeField custom ctx f).Yields p o p') : o.node.NestsWithin depth := by
  obtain ⟨ctx', -, hrun⟩ := decodeField_inv h
  rcases hrun with ⟨-, hsingle⟩ | ⟨r, count, items, stop, -, -, helements, rfl⟩
  · exact decodeSingle_nests hcustom hsingle
  · exact Node.nestsWithin_of_children (elements_nest hcustom helements) rfl

theorem sequence_nests {seq : List Field} {nodes : List Node} {fields : Fields} {stop : Int}
    (hcustom : NestsCustom custom depth)
    (h : Sequence s custom seq ctx p nodes fields stop p') : ∀ c ∈ nodes, c.NestsWithin depth := by
  induction h with
  | nil => simp
  | skip _ _ ih => exact ih
  | field _ decoded _ _ ih =>
      exact List.forall_mem_cons.2 ⟨decodeField_nests hcustom decoded, ih⟩

/-- The depth that is allowed is the depth that is reached at most. -/
theorem decodeInstance_nests {i : Instance} (h : (s.decodeInstance depth ctx i).Yields p o p') :
    o.node.NestsWithin depth := by
  induction depth generalizing ctx i p o p' with
  | zero => exact absurd h Decoder.not_yields_fail
  | succ depth ih =>
      obtain ⟨left, children, fields, stop, hleft, hrun, rfl⟩ := decodeInstance_inv h
      cases hleft
      have hcustom : NestsCustom (s.nested depth) depth := by
        intro ctx f typeName name p p' o hnested
        obtain ⟨definition, chain, -, hinstance⟩ := nested_inv hnested
        exact ih hinstance
      exact Node.nestsWithin_succ (sequence_nests hcustom hrun)

/-! ## Counts -/

/-- A count is checked before there are elements. -/
theorem repeatCount_count {expr : Value} {count : Option Int}
    (h : (s.repeatCount ctx f (.count expr)).Yields p count p') :
    ∃ n, count = some n ∧ 0 ≤ n ∧ n ≤ s.options.maxCount := by
  simp only [repeatCount, Decoder.yields_bind, yields_requireInt] at h
  obtain ⟨n, _, ⟨-, rfl⟩, h⟩ := h
  split at h
  · exact absurd h Decoder.not_yields_fail
  split at h
  · exact absurd h Decoder.not_yields_fail
  · obtain ⟨rfl, -⟩ := Decoder.yields_pure.1 h
    exact ⟨n, rfl, by omega, by omega⟩

/-- There are no more elements than the count says. -/
theorem elements_length_le {r : Repetition} {n : Int} {index : Nat} {cursor stop : Int}
    {items : List Node} (h : Elements s custom ctx f r (some n) index cursor p items stop p')
    (hindex : index ≤ n) : index + items.length ≤ n := by
  have hmore {index : Nat} {cursor : Int} (h : s.isComplete r (some n) index cursor = false) :
      (index : Int) < n := by
    simpa [isComplete] using h
  induction h with
  | complete => simpa using hindex
  | satisfied more | stuck more =>
      have hlt := hmore more
      simp only [List.length_singleton]
      omega
  | next more _ _ _ _ ih =>
      have hlt := hmore more
      have hrest := ih (by omega)
      simp only [List.length_cons]
      omega

end Setting

/-- The node is an array whose elements were counted beforehand. -/
def Node.IsCounted (n : Node) : Prop := n.value.isTuple = true ∧ n.repetition? = some "expr"

/-- Only a counted repetition makes such an array. -/
theorem Setting.exists_count_of_isCounted {ctx : Context} {f : Field} {r : Repetition}
    {items : List Node} {stop : Int} (h : (arrayNode ctx f r items stop).IsCounted) :
    ∃ expr, r = .count expr := by
  have hname := h.2
  rw [repetition?_arrayNode] at hname
  cases r with
  | count expr => exact ⟨expr, rfl⟩
  | toEnd | untilTrue => simp [Repetition.name] at hname

namespace Setting

variable {s : Setting} {depth : Nat} {ctx : Context} {f : Field} {name : String}
  {p p' : Progress} {o : Outcome}

/-- The counted arrays of a decode have no more elements than are allowed. -/
theorem explores_counted {R : Visit → Prop} (hkeeps : s.Keeps R) :
    s.Explores R fun n => n.IsCounted → n.children.length ≤ s.options.maxCount := by
  refine ⟨hkeeps, ?_, ?_⟩
  · intro depth outer ctx f rest p p' o _ _ hrun hcounted
    obtain ⟨ctx', -, hrun⟩ := decodeField_inv hrun
    rcases hrun with ⟨-, hsingle⟩ | ⟨r, count, items, stop, -, hcount, helements, rfl⟩
    · have hsingle := not_isTuple_of_single hsingle
      simp [hcounted.1] at hsingle
    · obtain ⟨expr, rfl⟩ := exists_count_of_isCounted hcounted
      obtain ⟨n, rfl, hpos, hle⟩ := repeatCount_count hcount
      have hlength := elements_length_le helements (by simpa using hpos)
      simp only [arrayNode]
      omega
  · intro depth outer ctx f r count index cursor p p' o _ _ hsingle hcounted
    have hsingle := not_isTuple_of_single hsingle
    simp [hcounted.1] at hsingle

end Setting

/-! ## Whole decodes -/

namespace Schema

variable {schema : Schema} {options : Options} {buffer : Buffer} {result : Result} {root : Node}

/-- A decode that gives a tree was allowed some depth, the root being an instance. -/
theorem nestsWithin_of_decode (h : schema.decode options buffer = .ok result)
    (hroot : result.root = some root) :
    root.NestsWithin options.maxDepth.toNat ∧ 0 ≤ options.maxDepth := by
  obtain ⟨definition, o, p, -, hrun, rfl⟩ := decode_inv h hroot
  cases hroot
  refine ⟨Setting.decodeInstance_nests hrun, ?_⟩
  obtain ⟨left, _, _, _, hleft, -, -⟩ := Setting.decodeInstance_inv hrun
  omega

theorem length_le_of_isCounted (h : schema.decode options buffer = .ok result)
    (hroot : result.root = some root) :
    ∀ n ∈ result.nodes, n.IsCounted → n.children.length ≤ options.maxCount := by
  have hbelow := forall_nodes
    (Setting.explores_counted (s := schema.setting options buffer) fun _ _ => .step) h hroot
  obtain ⟨definition, o, p, -, hrun, rfl⟩ := decode_inv h hroot
  obtain ⟨_, _, _, _, -, -, rfl⟩ := Setting.decodeInstance_inv hrun
  cases hroot
  refine Node.forall_flatten.2 ⟨fun hcounted => ?_, hbelow⟩
  cases hcounted.1

end Schema

/-- **Limits.** A result that no guard raises is the result under all higher limits too. In a tree no
path comes through more instances than may be nested, and no counted array has more elements than
are allowed. -/
theorem decode_guards {source : Source} {options : Options} {buffer : Buffer} {result : Result}
    (h : decode source options buffer = .ok result) :
    (¬ result.IsGuarded → ∀ d r, options.maxDepth ≤ d → options.maxCount ≤ r →
      decode source { options with maxDepth := d, maxCount := r } buffer = .ok result) ∧
    ∀ root, result.root = some root →
      (∀ path, root.PathToLeaf path →
        (path.countP (fun n => n.value.isRecord) : Int) ≤ options.maxDepth) ∧
      ∀ n ∈ result.nodes, n.IsCounted → n.children.length ≤ options.maxCount := by
  rcases decode_source_inv h with ⟨schema, hload, hschema⟩ | ⟨e, hload, rfl⟩
  · refine ⟨fun hguard d r hd hr => ?_, fun root hroot => ⟨fun path hpath => ?_, ?_⟩⟩
    · rw [decode_of_load hload]
      exact Schema.decode_of_not_isGuarded hschema hguard hd hr
    · obtain ⟨hnests, hallowed⟩ := Schema.nestsWithin_of_decode hschema hroot
      have hpath := hnests path hpath
      omega
    · exact Schema.length_le_of_isCounted hschema hroot
  · refine ⟨fun _ d r _ _ => ?_, nofun⟩
    unfold decode Source.prepare
    rw [hload]
    rfl

/-- The scene with two shapes, decoded with just the limits that it needs. -/
theorem decode_guards_scene :
    ∃ result, decode (.schema .scene) { maxDepth := 3, maxCount := 2 }
        [2, 0, 1, 2, 9, 3, 4, 255] = .ok result ∧ ¬ result.IsGuarded ∧
      (∀ d r, 3 ≤ d → 2 ≤ r → decode (.schema .scene) { maxDepth := d, maxCount := r }
        [2, 0, 1, 2, 9, 3, 4, 255] = .ok result) ∧
      ∃ root, result.root = some root ∧
        (∀ path, root.PathToLeaf path → path.countP (fun n => n.value.isRecord) ≤ 3) ∧
        ∀ n ∈ result.nodes, n.IsCounted → n.children.length ≤ 2 := by
  have hrun : Schema.scene.succeeds { maxDepth := 3, maxCount := 2 }
      [2, 0, 1, 2, 9, 3, 4, 255] = true := by decide +kernel
  obtain ⟨result, h, hsuccess⟩ := Schema.exists_of_succeeds hrun
  obtain ⟨root, hroot⟩ := Result.exists_root hsuccess
  have hguard := Result.not_isGuarded_of_success hsuccess
  rw [← decode_schema] at h
  obtain ⟨hsame, htree⟩ := decode_guards h
  obtain ⟨hnests, hcounts⟩ := htree root hroot
  refine ⟨result, h, hguard, hsame hguard, root, hroot, fun path hpath => ?_, fun n hn hcounted => ?_⟩
  · exact Int.ofNat_le.1 (hnests path hpath)
  · exact Int.ofNat_le.1 (hcounts n hn hcounted)

end ByteSchema
