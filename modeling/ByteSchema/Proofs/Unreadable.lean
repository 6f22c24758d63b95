import ByteSchema.Encoding.Basic

/-!
# ByteSchema.Proofs.Unreadable

The failures of text in an encoding.

Bytes that are not text are mended, so most encodings read all bytes. What remains are the names that
cannot be looked up, hexadecimal digits, which write bytes and no text (`Encoding.decode_escape`), and
the encodings of the host, which fail as the host has it (`HostEncoding.decode_eq_error_iff`).
`Encoding.Unreadable` lists these failures, and the list is exact: each of them is the failure of some
bytes, and no bytes fail otherwise (`Encoding.unreadable_iff`).
-/

namespace ByteSchema

/-! ## Encodings of the host -/

namespace HostEncoding

/-- An encoding of the host does not read the bytes: at once, or leniently when they are no text. -/
inductive Fails (h : HostEncoding) (bytes : List UInt8) (e : HostError) : Prop
  | strict (hstrict : h.strict bytes = .error (.other e))
  | lenient {reason : String} (hstrict : h.strict bytes = .error (.malformed reason))
      (hlenient : h.lenient bytes = .error e)

variable {h : HostEncoding} {bytes : List UInt8} {e : Escape}

/-- Bytes that are no text are a failure only if they cannot be mended either. -/
theorem decode_eq_error_iff :
    h.decode bytes = .error e ↔ ∃ cause, h.Fails bytes cause ∧ e = .host cause := by
  constructor
  · intro hdecode
    unfold decode at hdecode
    split at hdecode
    case h_1 => cases hdecode
    case h_2 cause hstrict =>
        cases hdecode
        exact ⟨cause, .strict hstrict, rfl⟩
    case h_3 hstrict =>
        split at hdecode
        case h_1 => cases hdecode
        case h_2 cause hlenient =>
            cases hdecode
            exact ⟨cause, .lenient hstrict hlenient, rfl⟩
  · rintro ⟨cause, hfails, rfl⟩
    cases hfails with
    | strict hstrict => rw [decode, hstrict]
    | lenient hstrict hlenient => rw [decode, hstrict]; dsimp only; rw [hlenient]

end HostEncoding

namespace Encoding

/-! ## The library's own encodings -/

variable {hosts : HostEncodings} {c : Encoding} {name : String} {bytes : List UInt8} {e : Escape}

/-- Text in all encodings can be mended, but hexadecimal digits write no text. -/
theorem eq_hex_of_reading?_eq_none (h : c.reading? bytes = none) : c = .hex := by
  cases c with
  | hex => rfl
  | utf16 order | utf32 order => cases order <;> cases h
  | _ => cases h

/-- Hexadecimal text has an odd number of digits, or a character that is none. -/
theorem unhex_escape (h : unhex bytes = .error e) : e = .oddHexText ∨ e = .notHexText := by
  unfold unhex at h
  split at h
  · cases h
    exact .inl rfl
  · split at h <;> cases h
    exact .inr rfl

/-- Of the library's own encodings only hexadecimal digits have failures. -/
theorem decode_escape (h : c.decode bytes = .error e) :
    c = .hex ∧ (e = .oddHexText ∨ e = .notHexText) := by
  unfold decode at h
  split at h
  case h_1 hreading =>
      have hunhex : unhex bytes = .error e := by
        cases hread : unhex bytes with
        | ok bs =>
            rw [hread] at h
            cases h
        | error e' =>
            rw [hread] at h
            cases h
            rfl
      exact ⟨eq_hex_of_reading?_eq_none hreading, unhex_escape hunhex⟩
  case h_2 => split at h <;> cases h

/-! ## Names -/

/-- The name is one that can be looked up: it has no surrogates and no character NUL. -/
structure IsName (name : String) : Prop where
  written : Repertoire.utf8.refusal? (plainName name) = none
  noNul : (plainName name).toList.contains '\x00' = false

/-- The name of an encoding is written in UTF-8 before it is looked up. -/
theorem decodeNamed_unwritten (hrefused : Repertoire.utf8.refusal? (plainName name) = some e) :
    decodeNamed hosts (some name) bytes = .error e := by
  unfold decodeNamed
  dsimp only
  rw [hrefused]

theorem decodeNamed_nul (hwritten : Repertoire.utf8.refusal? (plainName name) = none)
    (hnul : (plainName name).toList.contains '\x00' = true) :
    decodeNamed hosts (some name) bytes = .error .nulInEncodingName := by
  unfold decodeNamed
  dsimp only
  rw [hwritten]
  exact if_pos hnul

theorem decodeNamed_of_isName (hname : IsName name) :
    decodeNamed hosts (some name) bytes = decodeFound hosts name bytes := by
  unfold decodeNamed
  dsimp only
  rw [hname.written]
  dsimp only
  rw [hname.noNul, if_neg Bool.false_ne_true]

/-- Encodings that are known by themselves go before those of the host. -/
theorem decodeFound_own (hown : ofName? name = some c) :
    decodeFound hosts name bytes = c.decode bytes := by
  unfold decodeFound
  rw [hown]

theorem decodeFound_host {h : HostEncoding} (hown : ofName? name = none)
    (hhost : hosts (normalizedName name) = some h) :
    decodeFound hosts name bytes = h.decode bytes := by
  unfold decodeFound
  rw [hown]
  dsimp only
  rw [hhost]

/-- A name that nobody knows is read as ISO 8859-1, which reads all bytes. -/
theorem exists_decodeFound (bytes : List UInt8) (hown : ofName? name = none)
    (hhost : hosts (normalizedName name) = none) :
    ∃ r, decodeFound hosts name bytes = .ok r := by
  unfold decodeFound
  rw [hown]
  dsimp only
  rw [hhost]
  exact ⟨_, rfl⟩

/-- The failures of text in an encoding, of whatever bytes. -/
inductive Unreadable (hosts : HostEncodings) : Option String → Escape → Prop
  | absent : Unreadable hosts none .noEncoding
  /-- The name has a surrogate. -/
  | unwritten {name : String} {e : Escape}
      (refused : Repertoire.utf8.refusal? (plainName name) = some e) :
      Unreadable hosts (some name) e
  | nul {name : String} (written : Repertoire.utf8.refusal? (plainName name) = none)
      (found : (plainName name).toList.contains '\x00' = true) :
      Unreadable hosts (some name) .nulInEncodingName
  | oddHex {name : String} (isName : IsName name) (hex : ofName? name = some .hex) :
      Unreadable hosts (some name) .oddHexText
  | notHex {name : String} (isName : IsName name) (hex : ofName? name = some .hex) :
      Unreadable hosts (some name) .notHexText
  /-- The encoding is one of the host, and there are bytes that it does not read. -/
  | host {name : String} {h : HostEncoding} {bytes : List UInt8} {e : HostError}
      (isName : IsName name) (own : ofName? name = none)
      (known : hosts (normalizedName name) = some h) (fails : h.Fails bytes e) :
      Unreadable hosts (some name) (.host e)

/-- Giving up is no failure of text. -/
theorem Unreadable.ne_unfinished {name : Option String} (h : Unreadable hosts name e) :
    e ≠ .unfinished := by
  cases h with
  | unwritten refused =>
      obtain ⟨_, -, rfl⟩ := Option.map_eq_some_iff.1 refused
      exact nofun
  | absent | nul | oddHex | notHex | host => exact nofun

/-- Under a name that can be looked up, only the encoding itself can fail. -/
theorem unreadable_of_decodeFound (hname : IsName name)
    (h : decodeFound hosts name bytes = .error e) : Unreadable hosts (some name) e := by
  cases hown : ofName? name with
  | some c =>
      rw [decodeFound_own hown] at h
      obtain ⟨rfl, rfl | rfl⟩ := decode_escape h
      · exact .oddHex hname hown
      · exact .notHex hname hown
  | none =>
      cases hhost : hosts (normalizedName name) with
      | some host =>
          rw [decodeFound_host hown hhost] at h
          obtain ⟨cause, hfails, rfl⟩ := HostEncoding.decode_eq_error_iff.1 h
          exact .host hname hown hhost hfails
      | none =>
          obtain ⟨r, hr⟩ := exists_decodeFound bytes hown hhost
          rw [h] at hr
          cases hr

/-- No other failure happens, whatever stands for the name. -/
theorem unreadable_of_decodeNamed {name : Option String}
    (h : decodeNamed hosts name bytes = .error e) : Unreadable hosts name e := by
  cases name with
  | none =>
      cases h
      exact .absent
  | some name =>
      cases hwritten : Repertoire.utf8.refusal? (plainName name) with
      | some refusal =>
          rw [decodeNamed_unwritten hwritten] at h
          cases h
          exact .unwritten hwritten
      | none =>
          cases hnul : (plainName name).toList.contains '\x00' with
          | true =>
              rw [decodeNamed_nul hwritten hnul] at h
              cases h
              exact .nul hwritten hnul
          | false =>
              have hname : IsName name := ⟨hwritten, hnul⟩
              rw [decodeNamed_of_isName hname] at h
              exact unreadable_of_decodeFound hname h

/-- **Failures of text.** Text in an encoding fails in just the ways listed. -/
theorem unreadable_iff {name : Option String} :
    Unreadable hosts name e ↔ ∃ bytes, decodeNamed hosts name bytes = .error e := by
  refine ⟨fun h => ?_, fun ⟨bytes, h⟩ => unreadable_of_decodeNamed h⟩
  cases h with
  | absent => exact ⟨[], rfl⟩
  | unwritten refused => exact ⟨[], decodeNamed_unwritten refused⟩
  | nul written found => exact ⟨[], decodeNamed_nul written found⟩
  | oddHex isName hex =>
      exact ⟨[0x41], by rw [decodeNamed_of_isName isName, decodeFound_own hex]; rfl⟩
  | notHex isName hex =>
      exact ⟨[0x5A, 0x5A], by rw [decodeNamed_of_isName isName, decodeFound_own hex]; rfl⟩
  | @host name h bytes cause isName own known fails =>
      refine ⟨bytes, ?_⟩
      rw [decodeNamed_of_isName isName, decodeFound_host own known]
      exact HostEncoding.decode_eq_error_iff.2 ⟨cause, fails, rfl⟩

end Encoding

end ByteSchema
