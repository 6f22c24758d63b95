import ByteSchema.Proofs.Printing
import ByteSchema.Proofs.Tightest

/-!
# ByteSchema.Proofs.Status

The exit status of the command line.

A request ends in one of four ways: an input is out of reach, what was read is refused, all goes well,
or there is no answer at all. Each way is described by what the host and its files are like, stage by
stage: what can be read, whether the schema loads, what a decode gives, and whether it can be shown.
Every description settles the status, and an accepted request fits one of them, so each status has
exactly one description (`Request.status?_ofTexts`).

Nothing is said about how the host reads documents, which encodings it adds, and which lines it can
print, except that it prints ASCII.

A summary counts a schema that is not UTF-8 among the refused, though it cannot be read
(`Request.status?_garbled`).
-/

namespace ByteSchema

/-- The status of an answer, if there is one. -/
def statusOf (outcome : Except Escape Answer) : Option Nat := outcome.toOption.map Answer.status

@[simp] theorem statusOf_ok (a : Answer) : statusOf (.ok a) = some a.status := rfl

@[simp] theorem statusOf_error (e : Escape) : statusOf (.error e) = none := rfl

/-- The outcome is an answer with status 0 on a condition, and no answer otherwise. -/
structure ShownWhen (outcome : Except Escape Answer) (condition : Prop) : Prop where
  shown : condition → statusOf outcome = some 0
  hidden : ¬ condition → statusOf outcome = none

/-- What is built from a single output is shown when the output is there. -/
theorem ShownWhen.of_iff {α : Type} {x : Except Escape α} {f : α → Answer} {condition : Prop}
    (hstatus : ∀ a, (f a).status = 0) (h : (∃ a, x = .ok a) ↔ condition) :
    ShownWhen (do return f (← x)) condition := by
  cases x with
  | error e =>
      refine ⟨fun hcondition => ?_, fun _ => rfl⟩
      obtain ⟨a, ha⟩ := h.2 hcondition
      cases ha
  | ok a => exact ⟨fun _ => congrArg some (hstatus a), fun hnot => absurd (h.1 ⟨a, rfl⟩) hnot⟩

theorem exists_of_toOption_any {ε α : Type} {x : Except ε α} {P : α → Bool}
    (h : x.toOption.any P = true) : ∃ a, x = .ok a ∧ P a = true := by
  cases x with
  | error e => cases h
  | ok a => exact ⟨a, rfl, h⟩

theorem exists_ok_and_iff {ε α : Type} {x : Except ε α} {P : α → Prop} :
    (∃ a, x = .ok a ∧ P a) ↔ (∃ a, x = .ok a) ∧ ∀ a, x = .ok a → P a := by
  cases x with
  | error e => simp
  | ok a => simp

/-! ## Results -/

/-- A result without tree is told by its errors. -/
theorem Result.answer_failed {result : Result} (hroot : result.root = none) (host : Host)
    (flat : Bool) :
    result.answer host flat = .ok {
      status := 1
      err := result.warningLines ++ result.errors.map fun e => "ERROR: " ++ e.line } := by
  unfold answer
  rw [hroot]
  rfl

/-- Besides the value a line of its own tells the length. -/
theorem Node.exists_line?_iff {n : Node} (hvalue : n.value.hasOverlong = false) :
    (∃ line, n.line? = .ok line) ↔ Value.isOverlong n.range.length = false := by
  unfold line? Span.shown? Value.shown?
  rw [hvalue, ← exists_decimal?_iff]
  cases decimal? n.range.length <;> simp [bind, Except.bind, pure, Except.pure]

/-- The result of a decode that ends with a tree. -/
structure Result.Holds (result : Result) (root : Node) : Prop where
  root_eq : result.root = some root
  nodes_eq : result.nodes = root.flatten
  errors_eq : result.errors = []
  isData : ∀ n ∈ root.flatten, n.value.IsData

theorem Schema.holds_of_decode {schema : Schema} {options : Options} {bytes : Buffer}
    {result : Result} {root : Node} (h : schema.decode options bytes = .ok result)
    (hroot : result.root = some root) : result.Holds root := by
  have hdata := isData_of_decode h hroot
  obtain ⟨-, o, p, -, -, rfl⟩ := decode_inv h hroot
  cases hroot
  exact ⟨rfl, rfl, rfl, hdata⟩

namespace Result.Holds

variable {result : Result} {root : Node}

theorem success (h : result.Holds root) : result.success = true := by
  simp [Result.success, h.root_eq, h.errors_eq]

theorem hasJson_outline_iff (h : result.Holds root) :
    result.outline.HasJson ↔ ∀ n ∈ root.flatten, n.HasJson := by
  have hvalue : root.value.IsData := h.isData root root.mem_flatten_self
  have hdata : (Value.record result.data).HasJson := by
    unfold Result.data
    rw [h.root_eq]
    dsimp only
    split
    case h_1 fields hfields => exact (hfields ▸ hvalue).hasJson
    case h_2 => simp [Value.hasJson_record]
  rw [Result.hasJson_outline hdata, h.root_eq, ← root.hasJson_outline_iff h.isData]
  simp

/-- Flat or not, every node is told with its length. -/
theorem exists_shownLines?_iff (h : result.Holds root) (flat : Bool) :
    (∃ lines, root.shownLines? flat = .ok lines) ↔
      ∀ n ∈ root.flatten, Value.isOverlong n.range.length = false := by
  unfold Node.shownLines?
  cases flat with
  | false => exact Node.exists_lines?_iff fun n hn => (h.isData n hn).hasOverlong_eq
  | true =>
      rw [if_pos rfl, exists_mapM_iff]
      exact forall₂_congr fun n _ => Node.exists_flatLine?_iff

/-- As lines the tree is shown when all lengths can be told and the lines can be printed. -/
theorem shownWhen_answer (h : result.Holds root) (host : Host) (flat : Bool) :
    ShownWhen (result.answer host flat)
      ((∀ n ∈ root.flatten, Value.isOverlong n.range.length = false) ∧
        ∀ lines, root.shownLines? flat = .ok lines → ∀ line ∈ lines, host.Prints line) := by
  unfold answer
  rw [h.root_eq, h.errors_eq]
  refine .of_iff (fun _ => rfl) ?_
  rw [Result.exists_print_iff h.nodes_eq, exists_ok_and_iff, h.exists_shownLines?_iff]

end Result.Holds

namespace Request

/-! ## What a request meets -/

section

variable (r : Request) (host : Host)

/-- The exit status; none when the request has no answer. -/
def status? : Option Nat := statusOf (r.run host)

/-- The bytes that are to be decoded can be read. A payload takes the place of a data file. -/
inductive HasBytes : Buffer → Prop
  | payload {digits : String} {bytes : Buffer} (hpayload : r.payload = some (.given digits))
      (hread : Payload.read digits = .ok bytes) : HasBytes bytes
  | file {path : String} {bytes : Buffer} (hpayload : r.payload = none) (hdata : r.data = some path)
      (hread : host.files.bytes path = .ok bytes) : HasBytes bytes

/-- A summary is asked for, and the schema's text can be read. -/
structure Summarizes (text : String) : Prop where
  mode : r.describe = true
  schema : host.files.text r.schema = .ok text

/-- A decode is asked for, and both the schema's text and the bytes can be read. -/
structure Decodes (text : String) (bytes : Buffer) : Prop where
  mode : r.describe = false
  schema : host.files.text r.schema = .ok text
  bytes : r.HasBytes host bytes

/-- The decode that is asked for ends with a result. -/
def Gives (result : Result) : Prop :=
  ∃ text bytes schema, r.Decodes host text bytes ∧ host.load text = .ok schema ∧
    schema.decode host.options bytes = .ok result

/-- The decode that is asked for ends with a tree. -/
def GivesTree (root : Node) : Prop := ∃ result, r.Gives host result ∧ result.root = some root

/-- Can a node be told in the form that is asked for? As a line it needs a length of few digits. -/
def Tells (n : Node) : Prop :=
  if r.json then n.HasJson else Value.isOverlong n.range.length = false

/-- The nodes that are told when a node is shown by itself: in JSON also those below it. -/
def told (n : Node) : List Node := if r.json then n.flatten else [n]

/-- The summary of a schema can be shown. -/
def ShowsSummary (schema : Schema) : Prop :=
  r.json = false → ∀ line ∈ schema.describe.lines, host.Prints line

/-- A tree can be shown: each of its nodes can be told, and the lines can be printed. -/
@[mk_iff]
structure ShowsTree (root : Node) : Prop where
  told : ∀ n ∈ root.flatten, r.Tells n
  printed : r.json = false →
    ∀ lines, root.shownLines? r.flat = .ok lines → ∀ line ∈ lines, host.Prints line

/-- A single node can be shown. -/
@[mk_iff]
structure ShowsNode (n : Node) : Prop where
  told : ∀ m ∈ r.told n, r.Tells m
  printed : r.json = false → ∀ line, n.line? = .ok line → host.Prints line

/-! ## The four ways a request ends -/

/-- An input is out of reach. A summary does not count a file here whose bytes are no text. -/
inductive LacksInput : Prop
  | schema {fault : InputFault} (hschema : host.files.text r.schema = .error fault)
      (hreach : r.describe = true → fault.isOutOfReach = true)
  | payload {digits : String} {e : Escape} (hmode : r.describe = false)
      (hpayload : r.payload = some (.given digits)) (hread : Payload.read digits = .error e)
  | data {path : String} {fault : InputFault} (hmode : r.describe = false)
      (hpayload : r.payload = none) (hdata : r.data = some path)
      (hread : host.files.bytes path = .error fault)

/-- What was read is refused: the schema, the bytes, or the offset. -/
inductive Refused : Prop
  /-- A schema to summarise can be reached, but it is no text. -/
  | garbled {fault : InputFault} (hmode : r.describe = true)
      (hschema : host.files.text r.schema = .error fault) (hreach : fault.isOutOfReach = false)
  | summary {text : String} {e : DecodeError} (h : r.Summarizes host text)
      (hload : host.load text = .error (.error e))
  /-- An escape that is about a wrong value is told like an error. -/
  | summaryValue {text : String} {e : Escape} (h : r.Summarizes host text)
      (hload : host.load text = .error (.escape e)) (hvalue : e.isWrongValue = true)
  | schema {text : String} {bytes : Buffer} {e : DecodeError} (h : r.Decodes host text bytes)
      (hload : host.load text = .error (.error e))
  | bytes {result : Result} (h : r.Gives host result) (hroot : result.root = none)
  | offset {root : Node} {offset : Int} (h : r.GivesTree host root)
      (hoffset : r.offset = some (.given offset))
      (huncovered : ∀ n ∈ root.flatten, n.range.contains offset = false)

/-- All goes well. -/
inductive Served : Prop
  | summary {text : String} {schema : Schema} (h : r.Summarizes host text)
      (hload : host.load text = .ok schema) (hshown : r.ShowsSummary host schema)
  | tree {root : Node} (h : r.GivesTree host root) (hoffset : r.offset = none)
      (hshown : r.ShowsTree host root)
  | node {root n : Node} {offset : Int} (h : r.GivesTree host root)
      (hoffset : r.offset = some (.given offset)) (hnode : nodeAt root.flatten offset = some n)
      (hshown : r.ShowsNode host n)

/-- There is no answer. -/
inductive Interrupted : Prop
  | summary {text : String} {e : Escape} (h : r.Summarizes host text)
      (hload : host.load text = .error (.escape e)) (hvalue : e.isWrongValue = false)
  /-- A line of the summary cannot be printed. -/
  | unprinted {text : String} {schema : Schema} (h : r.Summarizes host text)
      (hload : host.load text = .ok schema) (hhidden : ¬ r.ShowsSummary host schema)
  | payload {text : String} (hmode : r.describe = false) (hschema : host.files.text r.schema = .ok text)
      (hpayload : r.payload = some .dropped)
  | schema {text : String} {bytes : Buffer} {e : Escape} (h : r.Decodes host text bytes)
      (hload : host.load text = .error (.escape e))
  | bytes {text : String} {bytes : Buffer} {schema : Schema} {e : Escape}
      (h : r.Decodes host text bytes) (hload : host.load text = .ok schema)
      (hdecode : schema.decode host.options bytes = .error e)
  | offset {root : Node} (h : r.GivesTree host root) (hoffset : r.offset = some .dropped)
  | tree {root : Node} (h : r.GivesTree host root) (hoffset : r.offset = none)
      (hhidden : ¬ r.ShowsTree host root)
  | node {root n : Node} {offset : Int} (h : r.GivesTree host root)
      (hoffset : r.offset = some (.given offset)) (hnode : nodeAt root.flatten offset = some n)
      (hhidden : ¬ r.ShowsNode host n)

end

variable {r : Request} {host : Host} {text : String} {bytes : Buffer} {result : Result}
  {root n : Node}

/-! ## Reading -/

/-- A payload is asked for first, so a data file is read only without one. -/
theorem HasBytes.buffer_eq (h : r.HasBytes host bytes) : r.buffer host.files = .ok (.ok bytes) := by
  cases h with
  | payload hpayload hread => simp [buffer, hpayload, hread, Except.mapError]
  | file hpayload hdata hread => simp [buffer, hpayload, hdata, hread]

theorem run_of_describe (h : r.describe = true) : r.run host = r.summarize host := by
  simp [run, h]

theorem run_of_not_describe (h : r.describe = false) : r.run host = r.decode host := by
  simp [run, h]

/-- A schema that cannot be read ends a summary. -/
theorem run_of_fault {fault : InputFault} (hmode : r.describe = true)
    (h : host.files.text r.schema = .error fault) :
    r.run host =
      .ok (if fault.isOutOfReach then .unreadable fault else .failed fault.message) := by
  rw [run_of_describe hmode]
  unfold summarize
  rw [h]

theorem Summarizes.run_eq (h : r.Summarizes host text) :
    r.run host = r.showSummary host (host.load text) := by
  rw [run_of_describe h.mode]
  unfold summarize
  rw [h.schema]

/-- When all can be read, what a decode with the loaded schema gives is shown. -/
theorem Decodes.run_eq (h : r.Decodes host text bytes) :
    r.run host = (host.load text).settle >>= fun schema =>
      decodePrepared schema host.options bytes >>= r.showResult host := by
  rw [run_of_not_describe h.mode]
  unfold Request.decode
  rw [h.schema]
  dsimp only
  rw [h.bytes.buffer_eq]
  rfl

theorem Decodes.run_of_load {schema : Schema} (h : r.Decodes host text bytes)
    (hload : host.load text = .ok schema) :
    r.run host = schema.decode host.options bytes >>= r.showResult host := by
  rw [h.run_eq, hload]
  rfl

theorem Gives.run_eq (h : r.Gives host result) : r.run host = r.showResult host result := by
  obtain ⟨text, bytes, schema, hdecodes, hload, hdecode⟩ := h
  rw [hdecodes.run_of_load hload, hdecode]
  rfl

/-! ## Showing -/

/-- Without a tree the form of the output does not matter: the errors are told. -/
theorem statusOf_showResult (hroot : result.root = none) :
    statusOf (r.showResult host result) = some 1 := by
  have hsuccess : result.success = false := by simp [Result.success, hroot]
  unfold showResult
  cases r.offset with
  | some offset =>
      unfold showAt
      dsimp only
      rw [hsuccess, Result.answer_failed hroot]
      rfl
  | none =>
      dsimp only
      cases r.json with
      | false =>
          rw [if_neg (by decide), Result.answer_failed hroot]
          rfl
      -- In JSON the errors are told, too, and their texts have a JSON form.
      | true =>
          have hdata : (Value.record result.data).HasJson := by
            simp [Result.data, hroot, Value.hasJson_record]
          have hroots : ∀ n, result.root = some n → n.outline.HasJson := by simp [hroot]
          obtain ⟨line, hline⟩ : ∃ line, host.printJson result.outline = .ok line :=
            Host.exists_printJson_iff.2 ((Result.hasJson_outline hdata).2 hroots)
          rw [if_pos rfl, hline, hsuccess]
          rfl

theorem GivesTree.exists_holds (h : r.GivesTree host root) :
    ∃ result, r.run host = r.showResult host result ∧ result.Holds root := by
  obtain ⟨result, hgives, hroot⟩ := h
  have hrun := hgives.run_eq
  obtain ⟨text, bytes, schema, -, -, hdecode⟩ := hgives
  exact ⟨result, hrun, Schema.holds_of_decode hdecode hroot⟩

/-- A summary is a text of JSON or a few lines, and both have to be printed. -/
theorem shownWhen_summary (schema : Schema) :
    ShownWhen (r.showSummary host (.ok schema)) (r.ShowsSummary host schema) := by
  unfold showSummary ShowsSummary
  cases r.json with
  | false =>
      refine .of_iff (fun _ => rfl) ?_
      simp [exists_mapM_iff, Host.exists_print_iff]
  | true =>
      refine .of_iff (fun _ => rfl) ?_
      simp [Host.exists_printJson_iff, schema.describe.hasJson_outline]

theorem shownWhen_tree (h : r.GivesTree host root) (hoffset : r.offset = none) :
    ShownWhen (r.run host) (r.ShowsTree host root) := by
  obtain ⟨result, hrun, hholds⟩ := h.exists_holds
  rw [hrun, showsTree_iff]
  unfold showResult Tells
  rw [hoffset]
  dsimp only
  cases r.json with
  | false => simpa using hholds.shownWhen_answer host r.flat
  | true =>
      rw [if_pos rfl, hholds.success]
      refine .of_iff (fun _ => rfl) ?_
      rw [Host.exists_printJson_iff, hholds.hasJson_outline_iff]
      simp

theorem shownWhen_node {offset : Int} (h : r.GivesTree host root)
    (hoffset : r.offset = some (.given offset)) (hnode : nodeAt root.flatten offset = some n) :
    ShownWhen (r.run host) (r.ShowsNode host n) := by
  obtain ⟨result, hrun, hholds⟩ := h.exists_holds
  have hbelow : n.flatten ⊆ root.flatten :=
    Node.flatten_subset root (nodeAt_eq_some_iff.1 hnode).mem
  have hdata : ∀ m ∈ n.flatten, m.value.IsData := fun m hm => hholds.isData m (hbelow hm)
  rw [hrun, showsNode_iff]
  unfold showResult showAt Tells told
  rw [hoffset]
  dsimp only
  rw [hholds.success, hholds.nodes_eq, hnode]
  cases r.json with
  | false =>
      refine .of_iff (fun _ => rfl) ?_
      simp only [exists_bind_iff, Host.exists_print_iff]
      rw [exists_ok_and_iff, Node.exists_line?_iff (hdata n n.mem_flatten_self).hasOverlong_eq]
      simp
  | true =>
      refine .of_iff (fun _ => rfl) ?_
      rw [Host.exists_printJson_iff, n.hasJson_outline_iff hdata]
      simp

/-! ## Each way settles the status -/

/-- Inputs are asked for in order: the schema first, then the bytes. -/
theorem LacksInput.status?_eq (h : r.LacksInput host) : r.status? host = some 2 := by
  unfold status?
  -- To decode, the schema is read first; when it is at fault, that is what counts.
  have hdecode (fault : InputFault) (hmode : r.describe = false)
      (hbuffer : r.buffer host.files = .ok (.error fault)) : statusOf (r.run host) = some 2 := by
    rw [run_of_not_describe hmode]
    unfold Request.decode
    cases host.files.text r.schema with
    | error fault => rfl
    | ok text =>
        dsimp only
        rw [hbuffer]
        rfl
  cases h with
  | schema hschema hreach =>
      cases hmode : r.describe with
      | true => simp [run_of_fault hmode hschema, hreach hmode, Answer.unreadable]
      | false =>
          rw [run_of_not_describe hmode]
          unfold Request.decode
          rw [hschema]
          rfl
  | @payload digits e hmode hpayload hread =>
      exact hdecode (.payload e) hmode (by simp [buffer, hpayload, hread, Except.mapError])
  | @data path fault hmode hpayload hdata hread =>
      exact hdecode fault hmode (by simp [buffer, hpayload, hdata, hread])

/-- A refusal is told on the error output or in JSON, and the host prints both. -/
theorem Refused.status?_eq (h : r.Refused host) : r.status? host = some 1 := by
  unfold status?
  cases h with
  | garbled hmode hschema hreach =>
      simp [run_of_fault hmode hschema, hreach, Answer.failed]
  | summary h hload =>
      simp [h.run_eq, hload, showSummary, Answer.failed]
  | summaryValue h hload hvalue =>
      simp [h.run_eq, hload, showSummary, hvalue, Answer.failed]
  | schema h hload =>
      rw [h.run_eq, hload]
      exact statusOf_showResult rfl
  | bytes h hroot =>
      rw [h.run_eq]
      exact statusOf_showResult hroot
  | offset h hoffset huncovered =>
      obtain ⟨result, hrun, hholds⟩ := h.exists_holds
      rw [hrun, showResult, hoffset]
      dsimp only
      rw [showAt, hholds.success, hholds.nodes_eq, nodeAt_eq_none_iff.2 huncovered]
      rfl

theorem Served.status?_eq (h : r.Served host) : r.status? host = some 0 := by
  unfold status?
  cases h with
  | summary h hload hshown =>
      rw [h.run_eq, hload]
      exact (shownWhen_summary _).shown hshown
  | tree h hoffset hshown => exact (shownWhen_tree h hoffset).shown hshown
  | node h hoffset hnode hshown => exact (shownWhen_node h hoffset hnode).shown hshown

theorem Interrupted.status?_eq (h : r.Interrupted host) : r.status? host = none := by
  unfold status?
  cases h with
  | summary h hload hvalue =>
      simp [h.run_eq, hload, showSummary, hvalue]
  | unprinted h hload hhidden =>
      rw [h.run_eq, hload]
      exact (shownWhen_summary _).hidden hhidden
  | payload hmode hschema hpayload =>
      rw [run_of_not_describe hmode]
      unfold Request.decode buffer
      rw [hschema, hpayload]
      rfl
  | schema h hload =>
      rw [h.run_eq, hload]
      rfl
  | bytes h hload hdecode =>
      rw [h.run_of_load hload, hdecode]
      rfl
  | offset h hoffset =>
      obtain ⟨result, hrun, hholds⟩ := h.exists_holds
      rw [hrun, showResult, hoffset]
      dsimp only
      rw [showAt, hholds.success]
      rfl
  | tree h hoffset hhidden => exact (shownWhen_tree h hoffset).hidden hhidden
  | node h hoffset hnode hhidden => exact (shownWhen_node h hoffset hnode).hidden hhidden

/-! ## There is no other way -/

/-- An accepted request for a decode names its bytes. -/
theorem exists_data_of_ofTexts {texts : List String} (h : ofTexts texts = .ok r)
    (hmode : r.describe = false) (hpayload : r.payload = none) : ∃ path, r.data = some path := by
  unfold ofTexts at h
  split at h
  case h_1 => cases h
  case h_2 =>
      obtain ⟨d, -, h⟩ := bind_eq_ok h
      dsimp only at h
      split at h
      case isTrue => cases h
      split at h
      case isTrue => cases h
      split at h
      case isTrue => cases h
      case isFalse hinput =>
          cases h
          exact Option.ne_none_iff_exists'.1 (by simpa [hmode, hpayload] using hinput)

/-- A request ends in one of the four ways. -/
inductive Ends (r : Request) (host : Host) : Prop
  | lacksInput (h : r.LacksInput host)
  | refused (h : r.Refused host)
  | served (h : r.Served host)
  | interrupted (h : r.Interrupted host)

theorem ends_of_describe (hmode : r.describe = true) : r.Ends host := by
  cases hschema : host.files.text r.schema with
  | error fault =>
      cases hreach : fault.isOutOfReach with
      | true => exact .lacksInput (.schema hschema fun _ => hreach)
      | false => exact .refused (.garbled hmode hschema hreach)
  | ok text =>
      have h : r.Summarizes host text := ⟨hmode, hschema⟩
      cases hload : host.load text with
      | ok schema =>
          by_cases hshown : r.ShowsSummary host schema
          · exact .served (.summary h hload hshown)
          · exact .interrupted (.unprinted h hload hshown)
      | error failure =>
          cases failure with
          | error e => exact .refused (.summary h hload)
          | escape e =>
              cases hvalue : e.isWrongValue with
              | true => exact .refused (.summaryValue h hload hvalue)
              | false => exact .interrupted (.summary h hload hvalue)

theorem GivesTree.ends (h : r.GivesTree host root) : r.Ends host := by
  cases hoffset : r.offset with
  | none =>
      by_cases hshown : r.ShowsTree host root
      · exact .served (.tree h hoffset hshown)
      · exact .interrupted (.tree h hoffset hshown)
  | some operand =>
      cases operand with
      | dropped => exact .interrupted (.offset h hoffset)
      | given offset =>
          cases hnode : nodeAt root.flatten offset with
          | none => exact .refused (.offset h hoffset (nodeAt_eq_none_iff.1 hnode))
          | some n =>
              by_cases hshown : r.ShowsNode host n
              · exact .served (.node h hoffset hnode hshown)
              · exact .interrupted (.node h hoffset hnode hshown)

theorem Decodes.ends {text : String} {bytes : Buffer} (h : r.Decodes host text bytes) :
    r.Ends host := by
  cases hload : host.load text with
  | error failure =>
      cases failure with
      | error e => exact .refused (.schema h hload)
      | escape e => exact .interrupted (.schema h hload)
  | ok schema =>
      cases hdecode : schema.decode host.options bytes with
      | error e => exact .interrupted (.bytes h hload hdecode)
      | ok result =>
          have hgives : r.Gives host result := ⟨text, bytes, schema, h, hload, hdecode⟩
          cases hroot : result.root with
          | none => exact .refused (.bytes hgives hroot)
          | some root =>
              have htree : r.GivesTree host root := ⟨result, hgives, hroot⟩
              exact htree.ends

theorem ends_of_not_describe (hmode : r.describe = false)
    (hinput : r.payload = none → ∃ path, r.data = some path) : r.Ends host := by
  cases hschema : host.files.text r.schema with
  | error fault => exact .lacksInput (.schema hschema (by simp [hmode]))
  | ok text =>
      -- With the bytes at hand the decode settles what becomes of the request.
      have hdecodes {bytes : Buffer} (hbytes : r.HasBytes host bytes) : r.Ends host :=
        Decodes.ends ⟨hmode, hschema, hbytes⟩
      cases hpayload : r.payload with
      | some operand =>
          cases operand with
          | dropped => exact .interrupted (.payload hmode hschema hpayload)
          | given digits =>
              cases hread : Payload.read digits with
              | error e => exact .lacksInput (.payload hmode hpayload hread)
              | ok bytes => exact hdecodes (.payload hpayload hread)
      | none =>
          obtain ⟨path, hdata⟩ := hinput hpayload
          cases hread : host.files.bytes path with
          | error fault => exact .lacksInput (.data hmode hpayload hdata hread)
          | ok bytes => exact hdecodes (.file hpayload hdata hread)

/-- **Exit status.** A request that is accepted has the status 2 exactly when an input is out of reach,
1 exactly when what was read is refused, 0 exactly when all goes well, and no answer exactly when it is
interrupted. -/
theorem status?_ofTexts {texts : List String} (h : ofTexts texts = .ok r) (host : Host) :
    (r.status? host = some 2 ↔ r.LacksInput host) ∧
      (r.status? host = some 1 ↔ r.Refused host) ∧
      (r.status? host = some 0 ↔ r.Served host) ∧
      (r.status? host = none ↔ r.Interrupted host) := by
  have hends : r.Ends host := by
    cases hmode : r.describe with
    | true => exact ends_of_describe hmode
    | false => exact ends_of_not_describe hmode (exists_data_of_ofTexts h hmode)
  -- Each way has an outcome of its own, so from the outcome the way can be told.
  cases hends <;>
    grind [LacksInput.status?_eq, Refused.status?_eq, Served.status?_eq, Interrupted.status?_eq]

theorem status?_ofTexts_malformed :
    ∃ r, ofTexts ["s.ksy", "--hex=0x5", "--json"] = .ok r ∧ r.LacksInput (.utf8 fun _ => .ok []) ∧
      r.status? (.utf8 fun _ => .ok []) = some 2 := by
  obtain ⟨r, hr, hfields⟩ := exists_of_toOption_any (show
    ((ofTexts ["s.ksy", "--hex=0x5", "--json"]).toOption.any fun r =>
      !r.describe && r.payload == some (.given "0x5")) = true by decide +kernel)
  obtain ⟨e, hread⟩ : ∃ e, Payload.read "0x5" = .error e := ⟨.payload 1, by rfl⟩
  have hlacks : r.LacksInput (.utf8 fun _ => .ok []) :=
    .payload (by simp_all) (by simp_all) hread
  exact ⟨r, hr, hlacks, (status?_ofTexts hr _).1.2 hlacks⟩

/-- Every file holds one byte, which is no text. -/
def garbled : Host := .utf8 fun _ => .ok [0xff]

/-- The text of the schema cannot be read, and yet the status is not 2. -/
theorem status?_garbled :
    ∃ r fault, ofTexts ["s.ksy", "--describe"] = .ok r ∧
      garbled.files.text r.schema = .error fault ∧ r.status? garbled = some 1 := by
  obtain ⟨r, hr, hfields⟩ := exists_of_toOption_any (show
    ((ofTexts ["s.ksy", "--describe"]).toOption.any fun r =>
      r.describe && r.schema == "s.ksy") = true by decide +kernel)
  obtain ⟨hmode, hschema⟩ : r.describe = true ∧ r.schema = "s.ksy" := by simpa using hfields
  obtain ⟨bytes, hbytes, heq⟩ := exists_of_toOption_any (show
    ((garbled.files.bytes "s.ksy").toOption.any (· == [0xff])) = true by decide +kernel)
  cases eq_of_beq heq
  cases hdecoded : Encoding.utf8Text [0xff] with
  | ok text =>
      have hfails : (Encoding.utf8Text [0xff]).isOk = false := by decide +kernel
      rw [hdecoded] at hfails
      cases hfails
  | error detail =>
      have hfault : garbled.files.text r.schema = .error (.notUtf8 detail) := by
        rw [hschema, FileReader.text, hbytes]
        show fileText [0xff] = _
        rw [fileText, hdecoded]
      have hrefused : r.Refused garbled := .garbled hmode hfault rfl
      exact ⟨r, _, hr, hfault, hrefused.status?_eq⟩

end Request

end ByteSchema
