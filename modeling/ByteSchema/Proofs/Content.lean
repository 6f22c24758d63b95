import ByteSchema.Proofs.Run
import ByteSchema.Proofs.Tokens

/-!
# ByteSchema.Proofs.Content

The result and the errors of a session, over any run of requests.

Both are those of results that were taken over, but not of the same ones: the errors are replaced by
each result, the tree by a tree only, and a decode without buffer or schema clears both. What a run
has taken over since then is read off its steps (`Session.recent`). The session shows the errors of
the last of these results, and the last of them that has a tree (`Session.Content`).

A decode that a failure leaves takes nothing over, so nothing needs to be assumed about failures.
-/

namespace ByteSchema

namespace Session

/-! ## Decoding -/

/-- What decoding does to a session: all that it answers, and all that it leaves. -/
inductive Decoding (s : Session) : Except Escape (Option Result) → Session → Prop
  /-- Something is missing. -/
  | cleared (missing : s.buffer = none ∨ s.source = none) :
      Decoding s (.ok none)
        { s with issued := s.issued + 1, latest := none, result := none, errors := [] }
  /-- The result of the decode is taken over. -/
  | finished {source : Source} {buffer : Buffer} {r : Result} (hasSource : s.source = some source)
      (hasBuffer : s.buffer = some buffer) (decoded : ByteSchema.decode source s.options buffer = .ok r) :
      Decoding s (.ok (some r))
        { s with
          issued := s.issued + 1
          latest := none
          errors := r.errors
          result := if r.root.isSome then some r else s.result }
  /-- A failure leaves the decode, and its request stays under way. -/
  | left {source : Source} {buffer : Buffer} {e : Escape} (hasSource : s.source = some source)
      (hasBuffer : s.buffer = some buffer) (failed : ByteSchema.decode source s.options buffer = .error e) :
      Decoding s (.error e) { s with issued := s.issued + 1, latest := some (s.issued + 1) }

theorem decoding (s : Session) : s.Decoding s.decode.1 s.decode.2 := by
  obtain ⟨source, buffer, result, errors, issued, latest, hosts⟩ := s
  cases buffer with
  | none => exact .cleared (.inl rfl)
  | some buffer =>
      cases source with
      | none => exact .cleared (.inr rfl)
      | some source =>
          unfold decode begin options
          dsimp only
          cases hdecode : ByteSchema.decode source { hosts } buffer with
          | ok r =>
              have hlatest : ((issued + 1 : Nat) : Int) = Int.ofNat (issued + 1) := rfl
              simp only [complete, Option.map_some, hlatest, ne_eq, not_true_eq_false, if_false]
              exact .finished rfl rfl hdecode
          | error e => exact .left rfl rfl hdecode

/-- A result that is accepted replaces the errors, and the result if it has a tree. -/
theorem complete_of_accepted {s : Session} {token : Option Int} {r : Result}
    (h : (s.complete token r).1 = true) :
    (s.complete token r).2.errors = r.errors ∧
      (s.complete token r).2.result = if r.root.isSome then some r else s.result := by
  unfold complete at h ⊢
  split
  case isTrue hstale =>
      rw [if_pos hstale] at h
      cases h
  case isFalse => exact ⟨rfl, rfl⟩

/-- Does a request decode? -/
def Request.decodes : Request → Bool
  | .begin => false
  | .complete _ _ => false
  | _ => true

/-- The session that a request to decode decodes in: with the buffer or the schema that it brings. -/
def Request.prepare (s : Session) : Request → Session
  | .setBuffer buffer => { s with buffer := some buffer }
  | .setSchema source => { s with source }
  | _ => s

theorem Request.result_prepare (request : Request) (s : Session) :
    (request.prepare s).result = s.result := by
  cases request <;> rfl

theorem Request.errors_prepare (request : Request) (s : Session) :
    (request.prepare s).errors = s.errors := by
  cases request <;> rfl

theorem Request.options_prepare (request : Request) (s : Session) :
    (request.prepare s).options = s.options := by
  cases request <;> rfl

end Session

namespace Step

/-- All requests to decode end with the same decoding. -/
theorem decoding_of_decodes {step : Step} (h : step.request.decodes = true) :
    ∃ outcome, step.reply = .decoded outcome ∧
      (step.request.prepare step.before).Decoding outcome step.after := by
  obtain ⟨s, request⟩ := step
  refine ⟨(request.prepare s).decode.1, ?_⟩
  cases request with
  | begin | complete => cases h
  | decode | setBuffer | setSchema => exact ⟨rfl, Session.decoding _⟩

/-- Only requests to decode are answered in this way. -/
theorem decodes_of_decoded {step : Step} {outcome : Except Escape (Option Result)}
    (h : step.reply = .decoded outcome) : step.request.decodes = true := by
  obtain ⟨s, request⟩ := step
  cases request with
  | begin | complete => cases h
  | decode | setBuffer | setSchema => rfl

/-- The answer of a decode, and what is left behind it. -/
theorem decoding_of_decoded {step : Step} {outcome : Except Escape (Option Result)}
    (h : step.reply = .decoded outcome) :
    (step.request.prepare step.before).Decoding outcome step.after := by
  obtain ⟨_, hreply, hdecoding⟩ := decoding_of_decodes (decodes_of_decoded h)
  rw [h] at hreply
  cases hreply
  exact hdecoding

/-! ## One request -/

/-- The result that is taken over. -/
def published (step : Step) : Option Result :=
  match step.request, step.reply with
  | .complete _ result, .taken true => some result
  | _, .decoded (.ok (some result)) => some result
  | _, _ => none

/-- Is it a decode without buffer or without schema? -/
def clears (step : Step) : Bool :=
  step.request.decodes && ((step.request.prepare step.before).buffer.isNone ||
    (step.request.prepare step.before).source.isNone)

/-- What a request does to the result and the errors. -/
inductive Change (step : Step) : Prop
  | kept (published : step.published = none) (clears : step.clears = false)
      (errors : step.after.errors = step.before.errors)
      (result : step.after.result = step.before.result)
  | published {r : Result} (published : step.published = some r) (clears : step.clears = false)
      (errors : step.after.errors = r.errors)
      (result : step.after.result = if r.root.isSome then some r else step.before.result)
  | cleared (published : step.published = none) (clears : step.clears = true)
      (errors : step.after.errors = []) (result : step.after.result = none)

/-- A decode publishes what it answers. -/
theorem published_of_decoded {step : Step} {outcome : Except Escape (Option Result)}
    (h : step.reply = .decoded outcome) :
    step.published = outcome.toOption.join := by
  unfold published
  rw [h]
  rcases outcome with e | (_ | result) <;> cases step.request <;> rfl

theorem change (step : Step) : step.Change := by
  by_cases hdecodes : step.request.decodes = true
  · obtain ⟨outcome, hreply, hdecoding⟩ := decoding_of_decodes hdecodes
    have hpublished := published_of_decoded hreply
    have hresult := step.request.result_prepare step.before
    have herrors := step.request.errors_prepare step.before
    generalize hafter : step.after = after at hdecoding
    cases hdecoding with
    | cleared missing =>
        refine .cleared hpublished ?_ (congrArg Session.errors hafter) (congrArg Session.result hafter)
        unfold clears
        rcases missing with hmissing | hmissing <;> simp [hdecodes, hmissing]
    | finished hasSource hasBuffer =>
        refine .published hpublished ?_ (congrArg Session.errors hafter) ?_
        · simp [clears, hasSource, hasBuffer]
        · rw [hafter, ← hresult]
    | left hasSource hasBuffer =>
        refine .kept hpublished ?_ ?_ ?_
        · simp [clears, hasSource, hasBuffer]
        · rw [hafter, ← herrors]
        · rw [hafter, ← hresult]
  -- A request that does not decode can only hand in a result.
  · obtain ⟨s, request⟩ := step
    cases request with
    | decode | setBuffer | setSchema => exact absurd rfl hdecodes
    | begin => exact .kept rfl rfl rfl rfl
    | complete token r =>
        cases haccepted : (s.complete token r).1 with
        | true =>
            obtain ⟨herrors, hresult⟩ := Session.complete_of_accepted haccepted
            refine .published ?_ rfl herrors hresult
            simp only [published, reply, Session.ask, haccepted]
        | false =>
            have hsame : (s.complete token r).2 = s := Session.complete_of_refused haccepted
            refine .kept ?_ rfl (congrArg Session.errors hsame) (congrArg Session.result hsame)
            simp only [published, reply, Session.ask, haccepted]

end Step

namespace Session

/-- The results that a run has taken over since the last decode that lacked a buffer or a schema, the
latest first. -/
def recent (past : List Step) : List Result :=
  (past.reverse.takeWhile fun step => !step.clears).filterMap Step.published

/-- Only the results behind the last decode without input are recent. -/
theorem recent_concat {past : List Step} {step : Step} :
    recent (past ++ [step]) =
      if step.clears then [] else step.published.toList ++ recent past := by
  unfold recent
  rw [List.reverse_append, List.reverse_singleton, List.singleton_append, List.takeWhile_cons]
  cases step.clears <;> cases hpublished : step.published <;> simp [hpublished]

/-- What a session shows behind a run. -/
structure Content (past : List Step) (s : Session) : Prop where
  /-- The errors of the result that was taken over last. -/
  errors : s.errors = ((recent past).head?.map Result.errors).getD []
  /-- The last result with a tree that was taken over. -/
  result : s.result = (recent past).find? fun r => r.root.isSome

/-- What one step keeps. -/
theorem Content.step {past : List Step} {made : Step} (h : Content past made.before) :
    Content (past ++ [made]) made.after := by
  constructor <;> rw [recent_concat]
  · cases made.change with
    | kept published clears errors =>
        rw [errors, h.errors, clears, published]
        rfl
    | published published clears errors =>
        rw [errors, clears, published]
        rfl
    | cleared _ clears errors =>
        rw [errors, clears]
        rfl
  · cases made.change with
    | kept published clears _ result =>
        rw [result, h.result, clears, published]
        rfl
    | @published r published clears _ result =>
        rw [result, clears, published, h.result]
        -- The tree that is shown is that of the latest result with a tree.
        show _ = (r :: recent past).find? fun r => r.root.isSome
        rw [List.find?_cons]
        cases r.root <;> rfl
    | cleared _ clears _ result =>
        rw [result, clears]
        rfl

variable {source : Option Source} {past : List Step} {s : Session}

/-- What a whole run keeps. -/
theorem Run.content (h : Run source past s) : Content past s := by
  induction h with
  | start => exact ⟨rfl, rfl⟩
  | @step past s _ request ih => exact @Content.step past ⟨s, request⟩ ih

/-- What a session shows has a tree. -/
theorem Content.hasTree (h : Content past s) {r : Result} (hr : s.result = some r) :
    r.root.isSome = true := by
  rw [h.result] at hr
  exact List.find?_some (p := fun r : Result => r.root.isSome) hr

/-- A result without tree leaves the one that is shown. -/
theorem result_of_failed {step : Step} {r : Result} (hpublished : step.published = some r)
    (hroot : r.root = none) : step.after.result = step.before.result := by
  cases step.change with
  | @published r' published _ _ result =>
      rw [published] at hpublished
      cases hpublished
      rw [result, hroot]
      rfl
  | kept published | cleared published =>
      rw [published] at hpublished
      cases hpublished

/-- So does a failure that leaves the decode. -/
theorem result_of_left {step : Step} {e : Escape} (h : step.reply = .decoded (.error e)) :
    step.after.result = step.before.result := by
  have hdecoding := Step.decoding_of_decoded h
  generalize step.after = after at hdecoding ⊢
  cases hdecoding with
  | left => exact step.request.result_prepare step.before

/-- A decode that succeeds is the one of the schema and the buffer that are there then. -/
theorem result_of_success {step : Step} {r : Result}
    (h : step.reply = .decoded (.ok (some r))) (hsuccess : r.success = true) :
    ∃ source buffer, step.after.source = some source ∧ step.after.buffer = some buffer ∧
      ByteSchema.decode source step.before.options buffer = .ok r ∧
      step.after.result = some r := by
  have hdecoding := Step.decoding_of_decoded h
  obtain ⟨root, hroot⟩ := Result.exists_root hsuccess
  generalize step.after = after at hdecoding ⊢
  cases hdecoding with
  | finished hasSource hasBuffer decoded =>
      rw [step.request.options_prepare step.before] at decoded
      refine ⟨_, _, hasSource, hasBuffer, decoded, ?_⟩
      rw [hroot]
      rfl

/-- **Content.** Whatever is asked of a session, it shows the errors of the result that was taken over
last, and the last tree that was taken over, both since the last decode without buffer or schema. So
it never shows a result without tree, a decode that fails leaves the tree that is shown, and behind a
decode that succeeds the result is that of the schema and the buffer of the session. -/
theorem shows_latest (h : Run source past s) :
    s.errors = ((recent past).head?.map Result.errors).getD [] ∧
    s.result = ((recent past).find? fun r => r.root.isSome) ∧
    (∀ r, s.result = some r → r.root.isSome = true) ∧
    ∀ request,
      (∀ r, Step.published ⟨s, request⟩ = some r → r.root = none →
        (Step.after ⟨s, request⟩).result = s.result) ∧
      (∀ e, Step.reply ⟨s, request⟩ = .decoded (.error e) →
        (Step.after ⟨s, request⟩).result = s.result) ∧
      ∀ r, Step.reply ⟨s, request⟩ = .decoded (.ok (some r)) → r.success = true →
        ∃ current buffer, (Step.after ⟨s, request⟩).source = some current ∧
          (Step.after ⟨s, request⟩).buffer = some buffer ∧
          ByteSchema.decode current s.options buffer = .ok r ∧
          (Step.after ⟨s, request⟩).result = some r := by
  have hcontent := h.content
  refine ⟨hcontent.errors, hcontent.result, fun r => hcontent.hasTree, fun request => ?_⟩
  exact ⟨fun r => result_of_failed, fun e => result_of_left, fun r => result_of_success⟩

/-- Behind a tree there is a decode that fails, a result that comes too late, and one with an error
that is taken over: the session shows the tree, and this error. -/
theorem shows_latest_late :
    ∃ past s, Run byteSource past s ∧
      past.map Step.request = [.setBuffer [65], .setBuffer [], .begin, .complete 2 {},
        .complete 3 { errors := [⟨"late", none, "DecodeError"⟩] }] ∧
      s.errors = [⟨"late", none, "DecodeError"⟩] ∧
      (s.result.map fun r => r.nodes.map Node.id) = some ["root", "root.a"] ∧
      s.errors = ((recent past).head?.map Result.errors).getD [] ∧
      s.result = ((recent past).find? fun r => r.root.isSome) ∧
      (∀ r, s.result = some r → r.root.isSome = true) ∧
      ∀ request,
        (∀ r, Step.published ⟨s, request⟩ = some r → r.root = none →
          (Step.after ⟨s, request⟩).result = s.result) ∧
        (∀ e, Step.reply ⟨s, request⟩ = .decoded (.error e) →
          (Step.after ⟨s, request⟩).result = s.result) ∧
        ∀ r, Step.reply ⟨s, request⟩ = .decoded (.ok (some r)) → r.success = true →
          ∃ current buffer, (Step.after ⟨s, request⟩).source = some current ∧
            (Step.after ⟨s, request⟩).buffer = some buffer ∧
            ByteSchema.decode current s.options buffer = .ok r ∧
            (Step.after ⟨s, request⟩).result = some r := by
  have hstart : Run byteSource [] { source := byteSource } := .start
  have hrun : Run byteSource _ _ :=
    .step (.step (.step (.step (.step hstart (.setBuffer [65])) (.setBuffer [])) .begin)
      (.complete 2 {})) (.complete 3 { errors := [⟨"late", none, "DecodeError"⟩] })
  refine ⟨_, _, hrun, rfl, ?_, ?_, shows_latest hrun⟩
  · decide +kernel
  · decide +kernel

end Session

end ByteSchema
