import ByteSchema.Proofs.Content
import ByteSchema.Proofs.Escape

/-!
# ByteSchema.Proofs.Interrupted

What becomes of the request that a decode makes for itself.

When the decode returns, its request is over, and no token is left that a result could be handed in
for. When a failure leaves the decode, the request stays: the session counts as parsing though nothing
is under way, and the token of the request is still good. That happens for the failures that no result
reports, which loading the schema can have, and otherwise the fields that the decode comes to
(`Source.Explains`). Among them is `Escape.unfinished`, which stands for a decode that is never over.
-/

namespace ByteSchema

/-- The failure comes from loading the schema, or a place that the decode comes to is to blame. -/
def Source.Explains (source : Source) (options : Options) (buffer : Buffer) (e : Escape) : Prop :=
  source.load = .error (.escape e) ∨
    ∃ schema, source.load = .ok schema ∧
      (schema.setting options buffer).Explains (schema.Reached options buffer) e

theorem Source.explains_of_decode {source : Source} {options : Options} {buffer : Buffer}
    {e : Escape} (h : decode source options buffer = .error e) : source.Explains options buffer e := by
  cases hload : source.load with
  | ok schema =>
      rw [decode_of_load hload] at h
      exact .inr ⟨schema, hload, Schema.decode_escape h⟩
  | error failure =>
      unfold decode prepare at h
      rw [hload] at h
      cases failure with
      | error e' => cases h
      | escape e' =>
          cases h
          exact .inl hload

namespace Session

/-- No result is taken over when no request is under way. -/
theorem complete_of_idle {s : Session} (h : s.latest = none) (t : Int) (r : Result) :
    (s.complete (some t) r).1 = false := by
  refine Bool.eq_false_iff.2 fun htrue => ?_
  have hlatest := complete_eq_true_iff.1 htrue
  rw [h] at hlatest
  cases hlatest

/-- **The request of a decode.** Behind a decode that returns the session is not parsing, and takes
over no result for any token. Behind one that a failure leaves it is parsing, and takes over a result
for the token of that decode; the failure is one of loading the schema or of a field. -/
theorem request_over (s : Session) (request : Request) (hdecodes : request.decodes = true) :
    ((∃ outcome, Step.reply ⟨s, request⟩ = .decoded (.ok outcome)) ∧
      (Step.after ⟨s, request⟩).isParsing = false ∧
      ∀ t r, ((Step.after ⟨s, request⟩).complete (some t) r).1 = false) ∨
    ∃ e source buffer, Step.reply ⟨s, request⟩ = .decoded (.error e) ∧
      (Step.after ⟨s, request⟩).source = some source ∧
      (Step.after ⟨s, request⟩).buffer = some buffer ∧
      source.Explains s.options buffer e ∧
      (Step.after ⟨s, request⟩).isParsing = true ∧
      ∀ t r, ((Step.after ⟨s, request⟩).complete (some t) r).1 = true ↔
        t = (Step.after ⟨s, request⟩).issued := by
  obtain ⟨outcome, hreply, hdecoding⟩ :=
    @Step.decoding_of_decodes ⟨s, request⟩ hdecodes
  generalize Step.after ⟨s, request⟩ = after at hdecoding ⊢
  cases hdecoding with
  | cleared => exact .inl ⟨⟨none, hreply⟩, rfl, complete_of_idle rfl⟩
  | @finished _ _ r => exact .inl ⟨⟨some r, hreply⟩, rfl, complete_of_idle rfl⟩
  | left hasSource hasBuffer failed =>
      rw [request.options_prepare s] at failed
      refine .inr ⟨_, _, _, hreply, hasSource, hasBuffer,
        Source.explains_of_decode failed, rfl, fun t r => ?_⟩
      rw [complete_eq_true_iff]
      exact ⟨fun h => (Option.some.inj h).symm, fun h => congrArg some h.symm⟩

theorem request_over_bytes :
    (Request.setBuffer [65]).decodes = true ∧
      (Step.after ⟨{ source := byteSource }, .setBuffer [65]⟩).isParsing = false ∧
      ∀ t r, ((Step.after ⟨{ source := byteSource }, .setBuffer [65]⟩).complete (some t) r).1 =
        false := by
  refine ⟨rfl, ?_⟩
  rcases request_over { source := byteSource } (.setBuffer [65]) rfl with
    ⟨-, hover⟩ | ⟨e, _, _, hreply, -⟩
  · exact hover
  · cases hreply

/-- A digit that makes no byte is a failure that leaves the decode, and the token of the request
stays good. -/
theorem request_left_digits :
    ∃ past s, Run (some (.schema .digits)) past s ∧
      past.map Step.request = [.setBuffer [0x41]] ∧ past.filterMap Step.issued = [1] ∧
      past.map Step.reply = [.decoded (.error .oddHexText)] ∧
      s.isParsing = true ∧ (s.complete (some 1) {}).1 = true := by
  have hstart : Run (some (.schema .digits)) [] { source := some (.schema .digits) } := .start
  exact ⟨_, _, .step hstart (.setBuffer [0x41]), rfl, rfl, rfl, rfl, rfl⟩

end Session

end ByteSchema
