import Mathlib.Data.List.Pairwise
import ByteSchema.Session

/-!
# ByteSchema.Proofs.Tokens

The tokens of a session, over any run of requests.

A token is *issued* when a request to decode starts, and *settled* when a result is taken over for it
or when the decode that it was issued for is over. What one request does to the tokens is one of four
things (`Step.Effect`). From it follows what a run keeps (`Ledger`): the tokens that were issued are
1, 2, …, the ones that were settled increase, and the request that is under way is the last one
issued, as long as that is not settled.

A decode whose failure leaves it is over for the caller, but not for the session: its request stays
under way, and its token counts as not settled.
-/

namespace ByteSchema

/-- What can be asked of a session. -/
inductive Session.Request where
  /-- Start a request to decode. -/
  | begin
  /-- Hand in a result for a token. -/
  | complete (token : Int) (result : Result)
  | decode
  | setBuffer (buffer : Buffer)
  | setSchema (source : Option Source)

/-- The token that a result is handed in for. -/
def Session.Request.token? : Session.Request → Option Int
  | .complete token _ => some token
  | _ => none

/-- The answer to a request. -/
inductive Session.Reply where
  | token (t : Nat)
  /-- Was the result taken over? -/
  | taken (accepted : Bool)
  | decoded (outcome : Except Escape (Option Result))

namespace Session

/-- The answer to a request, and the session behind it. -/
def ask (s : Session) : Request → Reply × Session
  | .begin => (.token s.begin.1, s.begin.2)
  | .complete token result => (.taken (s.complete token result).1, (s.complete token result).2)
  | .decode => (.decoded s.decode.1, s.decode.2)
  | .setBuffer buffer => (.decoded (s.setBuffer buffer).1, (s.setBuffer buffer).2)
  | .setSchema source => (.decoded (s.setSchema source).1, (s.setSchema source).2)

end Session

/-- A request, and the session that it is made to. -/
structure Step where
  before : Session
  request : Session.Request

namespace Step

/-- The answer to the request. -/
def reply (step : Step) : Session.Reply := (step.before.ask step.request).1

/-- The session behind the request. -/
def after (step : Step) : Session := (step.before.ask step.request).2

/-- The token that is handed out. All requests but one start with handing out a token, and keep it
to themselves if they decode. -/
def issued (step : Step) : Option Int :=
  match step.request with
  | .complete _ _ => none
  | _ => some (step.before.begin.1 : Int)

/-- The token whose result is taken over by a request to complete it. -/
def accepted (step : Step) : Option Int :=
  match step.reply with
  | .taken true => step.request.token?
  | _ => none

/-- The token that is completed: one whose result is taken over, or that of a decode that is over. -/
def settled (step : Step) : Option Int :=
  match step.reply with
  | .decoded (.ok _) => some (step.before.begin.1 : Int)
  | _ => step.accepted

end Step

namespace Session

/-- A run of requests to a new session: the steps in order, and the session behind them. -/
inductive Run (source : Option Source) : List Step → Session → Prop
  | start {hosts : HostEncodings} : Run source [] { source, hosts }
  | step {past : List Step} {s : Session} (run : Run source past s) (request : Request) :
      Run source (past ++ [⟨s, request⟩]) (Step.after ⟨s, request⟩)

end Session

/-! ## One request -/

/-- What a request does to the tokens. -/
inductive Step.Effect (step : Step) : Prop
  /-- A token is handed out, and its request is under way. -/
  | started (issued : step.issued = some ((step.before.issued + 1 : Nat) : Int))
      (settled : step.settled = none) (count : step.after.issued = step.before.issued + 1)
      (latest : step.after.latest = some (step.before.issued + 1))
      (result : step.after.result = step.before.result)
      (errors : step.after.errors = step.before.errors)
  /-- A token is handed out, and its decode is over. -/
  | decoded (issued : step.issued = some ((step.before.issued + 1 : Nat) : Int))
      (settled : step.settled = some ((step.before.issued + 1 : Nat) : Int))
      (count : step.after.issued = step.before.issued + 1) (latest : step.after.latest = none)
  /-- The result of the request under way is taken over. -/
  | taken {t : Nat} (issued : step.issued = none) (settled : step.settled = some (t : Int))
      (pending : step.before.latest = some t) (count : step.after.issued = step.before.issued)
      (latest : step.after.latest = none)
  /-- A result is turned away. -/
  | refused (issued : step.issued = none) (settled : step.settled = none)
      (unchanged : step.after = step.before)

namespace Session

variable {s : Session}

/-- A result is taken over for the request under way, and for no other. -/
theorem complete_eq_true_iff {t : Int} {r : Result} :
    (s.complete t r).1 = true ↔ s.latest.map Int.ofNat = some t := by
  unfold complete
  split
  case isTrue h => simpa using Ne.symm h
  case isFalse h => simpa using (not_not.1 h).symm

/-- A result that is turned away changes nothing. -/
theorem complete_of_refused {token : Option Int} {r : Result} (h : (s.complete token r).1 = false) :
    (s.complete token r).2 = s := by
  unfold complete at h ⊢
  split
  case isTrue => rfl
  case isFalse hsame =>
      rw [if_neg hsame] at h
      cases h

/-- Decoding hands out a token, and settles it unless a failure leaves the decode. -/
theorem decode_cases :
    (∃ outcome, s.decode.1 = .ok outcome ∧ s.decode.2.issued = s.issued + 1 ∧
      s.decode.2.latest = none) ∨
    ∃ e, s.decode = (.error e, s.begin.2) := by
  unfold decode
  dsimp only
  split
  case h_1 =>
      split
      case h_1 result _ => exact .inl ⟨some result, rfl, by simp [begin, complete], by simp [begin, complete]⟩
      case h_2 e _ => exact .inr ⟨e, rfl⟩
  case h_2 => exact .inl ⟨none, rfl, rfl, rfl⟩

end Session

namespace Step

theorem effect (step : Step) : step.Effect := by
  obtain ⟨s, request⟩ := step
  -- Changing the buffer or the schema leaves the tokens and the result to the decode behind it.
  have hdecode (changed : Session) (hcount : changed.issued = s.issued)
      (hresult : changed.result = s.result) (herrors : changed.errors = s.errors)
      (hissued : (⟨s, request⟩ : Step).issued = some (s.begin.1 : Int))
      (hask : s.ask request = (.decoded changed.decode.1, changed.decode.2)) :
      Effect ⟨s, request⟩ := by
    rcases changed.decode_cases with ⟨outcome, hok, hafter, hlatest⟩ | ⟨e, herror⟩
    · refine .decoded hissued ?_ ?_ ?_
      · simp only [settled, reply, hask, hok]
        rfl
      · simp only [after, hask, hafter, hcount]
      · simp only [after, hask, hlatest]
    · refine .started hissued ?_ ?_ ?_ ?_ ?_
      · simp only [settled, accepted, reply, hask, herror]
      all_goals simp only [after, hask, herror, Session.begin, hcount, hresult, herrors]
  cases request with
  | begin => exact .started rfl rfl rfl rfl rfl rfl
  | decode => exact hdecode s rfl rfl rfl rfl rfl
  | setBuffer buffer => exact hdecode { s with buffer := some buffer } rfl rfl rfl rfl rfl
  | setSchema source => exact hdecode { s with source } rfl rfl rfl rfl rfl
  | complete token result =>
      cases haccepted : (s.complete token result).1 with
      | true =>
          obtain ⟨t, hlatest, rfl⟩ := Option.map_eq_some_iff.1
            (Session.complete_eq_true_iff.1 haccepted)
          refine .taken rfl ?_ hlatest ?_ ?_
          · simp only [settled, Step.accepted, reply, Session.ask, haccepted]
            rfl
          all_goals simp [after, Session.ask, Session.complete, hlatest]
      | false =>
          refine .refused rfl ?_ (Session.complete_of_refused haccepted)
          simp only [settled, Step.accepted, reply, Session.ask, haccepted]

end Step

/-! ## A run -/

/-- What the steps of a run tell about the tokens of the session behind it. -/
structure Session.Ledger (past : List Step) (s : Session) : Prop where
  /-- The tokens that were issued. -/
  issued : past.filterMap Step.issued = (List.range' 1 s.issued).map Int.ofNat
  increasing : (past.filterMap Step.settled).Pairwise (· < ·)
  settled_le : ∀ t ∈ past.filterMap Step.settled, t ≤ s.issued
  /-- The request under way is that of the last token, which is not settled. -/
  pending : ∀ t ∈ s.latest, t = s.issued ∧ 0 < t ∧
    ∀ u ∈ past.filterMap Step.settled, u < (t : Int)
  /-- Between requests the last token is settled. -/
  idle : s.latest = none → s.issued = 0 ∨ (s.issued : Int) ∈ past.filterMap Step.settled

namespace Session.Ledger

variable {past : List Step} {made : Step} {s : Session}

theorem start {source : Option Source} {hosts : HostEncodings} : Ledger [] { source, hosts } where
  issued := rfl
  increasing := .nil
  settled_le := by simp
  pending := by simp
  idle := fun _ => .inl rfl

theorem append_issued (h : Ledger past s) {t : Int} (ht : t = ((s.issued + 1 : Nat) : Int))
    (hstep : made.issued = some t) :
    (past ++ [made]).filterMap Step.issued = (List.range' 1 (s.issued + 1)).map Int.ofNat := by
  rw [List.filterMap_append, h.issued, List.range'_concat, List.map_append]
  simp [hstep, ht, Nat.add_comm]

/-- A token that is settled is later than all that were settled before. -/
theorem append_increasing (h : Ledger past s) {t : Int}
    (hlt : ∀ u ∈ past.filterMap Step.settled, u < t) (hstep : made.settled = some t) :
    ((past ++ [made]).filterMap Step.settled).Pairwise (· < ·) := by
  rw [List.filterMap_append, List.pairwise_append]
  refine ⟨h.increasing, by simp [hstep], ?_⟩
  simpa [hstep] using hlt

theorem filterMap_concat_of_none {f : Step → Option Int} (hnone : f made = none) :
    (past ++ [made]).filterMap f = past.filterMap f := by
  simp [List.filterMap_append, hnone]

theorem mem_concat_of_settled {t u : Int} (hstep : made.settled = some t) :
    u ∈ (past ++ [made]).filterMap Step.settled ↔ u ∈ past.filterMap Step.settled ∨ u = t := by
  simp [List.filterMap_append, hstep]

/-- A new token is under way, and all that are settled are older. -/
theorem started (h : Ledger past made.before)
    (issued : made.issued = some ((made.before.issued + 1 : Nat) : Int))
    (settled : made.settled = none) (count : made.after.issued = made.before.issued + 1)
    (latest : made.after.latest = some (made.before.issued + 1)) :
    Ledger (past ++ [made]) made.after := by
  have hsame : (past ++ [made]).filterMap Step.settled = _ := filterMap_concat_of_none settled
  refine ⟨count ▸ h.append_issued rfl issued, hsame ▸ h.increasing, ?_, ?_, ?_⟩
  · intro t ht
    have hle := h.settled_le t (hsame ▸ ht)
    omega
  · intro t ht
    obtain rfl : made.before.issued + 1 = t := by simpa [latest] using ht
    refine ⟨count.symm, Nat.succ_pos _, fun u hu => ?_⟩
    have hle := h.settled_le u (hsame ▸ hu)
    omega
  · intro hnone
    rw [latest] at hnone
    cases hnone

/-- A new token is settled at once, and no request is under way. -/
theorem decoded (h : Ledger past made.before)
    (issued : made.issued = some ((made.before.issued + 1 : Nat) : Int))
    (settled : made.settled = some ((made.before.issued + 1 : Nat) : Int))
    (count : made.after.issued = made.before.issued + 1) (latest : made.after.latest = none) :
    Ledger (past ++ [made]) made.after := by
  have hlt : ∀ u ∈ past.filterMap Step.settled, u < ((made.before.issued + 1 : Nat) : Int) := by
    intro u hu
    have hle := h.settled_le u hu
    omega
  refine ⟨count ▸ h.append_issued rfl issued, h.append_increasing hlt settled, ?_, ?_, ?_⟩
  · intro t ht
    rcases (mem_concat_of_settled settled).1 ht with ht | rfl
    · have hle := h.settled_le t ht
      omega
    · omega
  · intro t ht
    rw [latest] at ht
    cases ht
  · intro _
    exact .inr ((mem_concat_of_settled settled).2 (.inr (by rw [count])))

/-- The token under way is settled, which is newer than all others that are. -/
theorem taken {t : Nat} (h : Ledger past made.before) (issued : made.issued = none)
    (settled : made.settled = some (t : Int)) (pending : made.before.latest = some t)
    (count : made.after.issued = made.before.issued) (latest : made.after.latest = none) :
    Ledger (past ++ [made]) made.after := by
  obtain ⟨rfl, -, hlt⟩ := h.pending t pending
  refine ⟨?_, h.append_increasing hlt settled, ?_, ?_, ?_⟩
  · rw [filterMap_concat_of_none issued, count]
    exact h.issued
  · intro u hu
    rw [count]
    rcases (mem_concat_of_settled settled).1 hu with hu | rfl
    · exact h.settled_le u hu
    · exact Int.le_refl _
  · intro u hu
    rw [latest] at hu
    cases hu
  · intro _
    exact .inr ((mem_concat_of_settled settled).2 (.inr (by rw [count])))

/-- What one step keeps. -/
theorem step (h : Ledger past made.before) : Ledger (past ++ [made]) made.after := by
  cases made.effect with
  | started issued settled count latest => exact h.started issued settled count latest
  | decoded issued settled count latest => exact h.decoded issued settled count latest
  | taken issued settled pending count latest => exact h.taken issued settled pending count latest
  | refused issued settled unchanged =>
      rw [unchanged]
      constructor <;> simp only [filterMap_concat_of_none issued, filterMap_concat_of_none settled]
      exacts [h.issued, h.increasing, h.settled_le, h.pending, h.idle]

end Session.Ledger

namespace Session

variable {source : Option Source} {past : List Step} {s : Session}

/-- What a whole run keeps. -/
theorem Run.ledger (h : Run source past s) : Ledger past s := by
  induction h with
  | start => exact .start
  | @step past s _ request ih => exact @Ledger.step past ⟨s, request⟩ ih

/-- The result and the errors are replaced only for a token that is newer than all settled before. -/
theorem Ledger.replaced (h : Ledger past s) (request : Request)
    (hchanged : (Step.after ⟨s, request⟩).result ≠ s.result ∨
      (Step.after ⟨s, request⟩).errors ≠ s.errors) :
    ∃ t, Step.settled ⟨s, request⟩ = some t ∧ ∀ u ∈ past.filterMap Step.settled, u < t := by
  cases (Step.mk s request).effect with
  | started _ _ _ _ result errors => exact absurd hchanged (by simp [result, errors])
  | decoded _ settled _ _ =>
      refine ⟨_, settled, fun u hu => ?_⟩
      have hle := h.settled_le u hu
      dsimp only
      omega
  | taken _ settled pending _ _ => exact ⟨_, settled, (h.pending _ pending).2.2⟩
  | refused _ _ unchanged => exact absurd hchanged (by simp [unchanged])

/-- A result is taken over for the last token that was issued, as long as that is not settled. -/
theorem Ledger.complete_iff (h : Ledger past s) {t : Int} {r : Result} :
    (s.complete t r).1 = true ↔ (past.filterMap Step.issued).getLast? = some t ∧
      t ∉ past.filterMap Step.settled := by
  have hlast : (past.filterMap Step.issued).getLast? = some t ↔ 0 < s.issued ∧ t = s.issued := by
    rw [h.issued, List.getLast?_map, List.getLast?_range']
    split <;> simp <;> omega
  rw [complete_eq_true_iff, hlast]
  cases hlatest : s.latest with
  -- When no request is under way, the last token is settled, if there is one.
  | none =>
      have hidle := h.idle hlatest
      constructor
      · intro hnone
        cases hnone
      · rintro ⟨⟨hpos, rfl⟩, hnot⟩
        rcases hidle with hzero | hmem
        · omega
        · exact absurd hmem hnot
  | some n =>
      obtain ⟨rfl, hpos, hlt⟩ := h.pending n hlatest
      constructor
      · intro hsome
        cases hsome
        exact ⟨⟨hpos, rfl⟩, fun hmem => Int.lt_irrefl _ (hlt _ hmem)⟩
      · rintro ⟨⟨-, rfl⟩, -⟩
        rfl

/-- What is accepted is settled. -/
theorem accepted_increasing {steps : List Step}
    (h : (steps.filterMap Step.settled).Pairwise (· < ·)) :
    (steps.filterMap Step.accepted).Pairwise (· < ·) := by
  have hsettled (step : Step) (t : Int) (ht : step.accepted = some t) : step.settled = some t := by
    unfold Step.settled
    split
    case h_1 hreply => simp [Step.accepted, hreply] at ht
    case h_2 => exact ht
  rw [List.pairwise_filterMap] at h ⊢
  exact h.imp fun hlt t ht u hu => hlt t (hsettled _ t ht) u (hsettled _ u hu)

/-- **Tokens.** Whatever the order of requests to a session: each token that is handed out is larger
than all before, a result is taken over just for the last token handed out, if that is not completed
yet, and changes nothing if it is turned away. So the tokens whose results are taken over increase,
and what was taken over is replaced only for a newer token. -/
theorem token_protocol (h : Run source past s) :
    (past.filterMap Step.issued).Pairwise (· < ·) ∧
    (∀ t r, (s.complete (some t) r).1 = true ↔
      (past.filterMap Step.issued).getLast? = some t ∧ t ∉ past.filterMap Step.settled) ∧
    (∀ t r, (s.complete (some t) r).1 = false → (s.complete (some t) r).2 = s) ∧
    (past.filterMap Step.accepted).Pairwise (· < ·) ∧
    ∀ request, (Step.after ⟨s, request⟩).result ≠ s.result ∨
        (Step.after ⟨s, request⟩).errors ≠ s.errors →
      ∃ t, Step.settled ⟨s, request⟩ = some t ∧ ∀ u ∈ past.filterMap Step.settled, u < t := by
  have hledger := h.ledger
  refine ⟨?_, fun t r => hledger.complete_iff, fun t r => complete_of_refused,
    accepted_increasing hledger.increasing, hledger.replaced⟩
  have hrange : (List.range' 1 s.issued).Pairwise (· < ·) := List.pairwise_lt_range'
  rw [hledger.issued, List.pairwise_map]
  exact hrange.imp fun hlt => Int.ofNat_lt.2 hlt

/-- A session for single bytes. -/
def byteSource : Source := .schema { seq := some [{ id := "a", type := .named "u1" }] }

/-- Two requests at once, of which the first comes back late, then a decode, and one without a
schema, and a request behind them that is not settled yet. -/
theorem token_protocol_overlapping :
    ∃ past s, Run byteSource past s ∧
      past.map Step.request = [.begin, .begin, .complete 1 {}, .complete 2 {}, .setBuffer [65],
        .setSchema none, .begin] ∧
      past.filterMap Step.issued = [1, 2, 3, 4, 5] ∧ past.filterMap Step.settled = [2, 3, 4] ∧
      (past.filterMap Step.issued).Pairwise (· < ·) ∧
      (∀ t r, (s.complete (some t) r).1 = true ↔
        (past.filterMap Step.issued).getLast? = some t ∧ t ∉ past.filterMap Step.settled) ∧
      (∀ t r, (s.complete (some t) r).1 = false → (s.complete (some t) r).2 = s) ∧
      (past.filterMap Step.accepted).Pairwise (· < ·) ∧
      ∀ request, (Step.after ⟨s, request⟩).result ≠ s.result ∨
          (Step.after ⟨s, request⟩).errors ≠ s.errors →
        ∃ t, Step.settled ⟨s, request⟩ = some t ∧ ∀ u ∈ past.filterMap Step.settled, u < t := by
  have hstart : Run byteSource [] { source := byteSource } := .start
  have hearly : Run byteSource _ _ :=
    .step (.step (.step (.step hstart .begin) .begin) (.complete 1 {})) (.complete 2 {})
  have hrun : Run byteSource _ _ :=
    .step (.step (.step hearly (.setBuffer [65])) (.setSchema none)) .begin
  exact ⟨_, _, hrun, rfl, rfl, rfl, token_protocol hrun⟩

end Session

end ByteSchema
