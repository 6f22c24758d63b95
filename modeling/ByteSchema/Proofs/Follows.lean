import ByteSchema.Proofs.Failing

/-!
# ByteSchema.Proofs.Follows

Decoders that follow a reader.

A reader takes a value off the front of some bytes, if there are enough of them. A step of decoding
follows it when it succeeds where the reader does, with what the reader gives, and otherwise fails at
a part that goes past the end of the buffer (`Setting.Follows`). Steps one after another follow
readers one after another (`Setting.Follows.bind`), so a decoder is compared with a reader part by
part, its success and its failure in one.
-/

namespace ByteSchema

/-- Of two paths that a failure is given the first one counts. -/
theorem Failure.withPath_ofCause (c : Cause) (path : Option String) (q : String) :
    (ofCause c path).withPath q = ofCause c (some (path.getD q)) := by
  unfold ofCause
  split <;> rfl

namespace Setting

/-- The step fails at a read of one of the lengths, which goes past the end of the buffer. -/
def StopsShort {α : Type} (s : Setting) (step : Decoder α) (p : Progress) (lengths : List Nat) :
    Prop :=
  ∃ offset length path, length ∈ lengths ∧ offset ≤ s.buffer.length ∧
    s.buffer.length < offset + length ∧
    step.Fails p (.ofCause (.pastEnd offset length (s.buffer.length - offset)) path)

/-- The step succeeds as `post` says when something is read, and else stops short at a part of one of
the lengths. -/
def Follows {α β : Type} (s : Setting) (step : Decoder α) (p : Progress) (lengths : List Nat)
    (read : Option β) (post : α → β → Prop) : Prop :=
  match read with
  | some b => ∃ a p', step.Yields p a p' ∧ post a b
  | none => s.StopsShort step p lengths

section

variable {α β γ δ : Type} {s : Setting} {step : Decoder α} {p p' : Progress}
  {lengths more : List Nat} {read : Option β} {post : α → β → Prop}

theorem StopsShort.mono (h : s.StopsShort step p lengths) (hsub : ∀ n ∈ lengths, n ∈ more) :
    s.StopsShort step p more := by
  obtain ⟨offset, length, path, hmem, hshort⟩ := h
  exact ⟨offset, length, path, hsub _ hmem, hshort⟩

/-- A step that stops short leaves nothing to do for the next one. -/
theorem StopsShort.bind_left (h : s.StopsShort step p lengths) (f : α → Decoder γ) :
    s.StopsShort (step >>= f) p lengths := by
  obtain ⟨offset, length, path, hmem, hle, hlt, hfails⟩ := h
  exact ⟨offset, length, path, hmem, hle, hlt, hfails.bind_left f⟩

theorem stopsShort_bind {f : α → Decoder γ} {a : α} (h : step.Yields p a p')
    (hf : s.StopsShort (f a) p' lengths) : s.StopsShort (step >>= f) p lengths := by
  obtain ⟨offset, length, path, hmem, hle, hlt, hfails⟩ := hf
  exact ⟨offset, length, path, hmem, hle, hlt, h.bind_fails hfails⟩

theorem StopsShort.located (h : s.StopsShort step p lengths) (path : String) :
    s.StopsShort (Decoder.located path step) p lengths := by
  obtain ⟨offset, length, inner, hmem, hle, hlt, hfails⟩ := h
  -- The path of the field around is taken up only by an error that names none yet.
  refine ⟨offset, length, some (inner.getD path), hmem, hle, hlt, ?_⟩
  rw [← Failure.withPath_ofCause]
  exact hfails.located path

/-- What is asked before a step changes nothing about it. -/
theorem Follows.behind {f : α → Decoder γ} {a : α} {post : γ → β → Prop} (h : step.Yields p a p')
    (hf : s.Follows (f a) p' lengths read post) : s.Follows (step >>= f) p lengths read post := by
  cases read with
  | none => exact stopsShort_bind h hf
  | some b =>
      obtain ⟨c, p₁, hrun, hpost⟩ := hf
      exact ⟨c, p₁, Decoder.yields_bind.2 ⟨a, p', h, hrun⟩, hpost⟩

/-- One step after another reads one part after another. -/
theorem Follows.bind {f : α → Decoder γ} {k : β → Option δ} {post' : γ → δ → Prop}
    (h : s.Follows step p lengths read post)
    (hf : ∀ {a b p'}, step.Yields p a p' → post a b → s.Follows (f a) p' more (k b) post') :
    s.Follows (step >>= f) p (lengths ++ more) (read.bind k) post' := by
  cases read with
  | none => exact (StopsShort.bind_left h f).mono fun n hn => List.mem_append_left more hn
  | some b =>
      obtain ⟨a, p', hrun, hpost⟩ := h
      -- The first part is read, so it is the second step that follows or stops short.
      have hrest := Follows.behind hrun (hf hrun hpost)
      rw [Option.bind_some]
      cases hk : k b with
      | none =>
          rw [hk] at hrest
          exact StopsShort.mono hrest fun n hn => List.mem_append_right lengths hn
      | some d =>
          rw [hk] at hrest
          exact hrest

/-- What is made of the value of a step is made of what is read. -/
theorem Follows.map {f : α → γ} {g : β → δ} {post' : γ → δ → Prop}
    (h : s.Follows step p lengths read post) (hpost : ∀ {a b}, post a b → post' (f a) (g b)) :
    s.Follows (step >>= fun a => pure (f a)) p lengths (read.map g) post' := by
  cases read with
  | none => exact StopsShort.bind_left h _
  | some b =>
      obtain ⟨a, p', hrun, hb⟩ := h
      exact ⟨f a, p', Decoder.yields_bind.2 ⟨a, p', hrun, Decoder.yields_pure.2 ⟨rfl, rfl⟩⟩,
        hpost hb⟩

/-- What is read may be put into another form, with the condition on it. -/
theorem Follows.map_read {g : β → δ} {post' : α → δ → Prop} (h : s.Follows step p lengths read post)
    (hpost : ∀ {a b}, post a b → post' a (g b)) :
    s.Follows step p lengths (read.map g) post' := by
  cases read with
  | none => exact h
  | some b =>
      obtain ⟨a, p', hrun, hb⟩ := h
      exact ⟨a, p', hrun, hpost hb⟩

theorem Follows.located (h : s.Follows step p lengths read post) (path : String) :
    s.Follows (Decoder.located path step) p lengths read post := by
  cases read with
  | none => exact StopsShort.located h path
  | some b =>
      obtain ⟨a, p', hrun, hpost⟩ := h
      exact ⟨a, p', Decoder.yields_located.2 hrun, hpost⟩

end

end Setting

end ByteSchema
