import ByteSchema.Decode
import ByteSchema.Lookup

/-!
# ByteSchema.Session

A session decodes a buffer that changes. Each request to decode gets a token, and only the result of
the latest request is taken over, so a late result never replaces a newer one. A failed decode keeps
the last good tree and shows the new errors.
-/

namespace ByteSchema

/-- A buffer, a schema, and the latest result taken over. -/
structure Session where
  /-- Where the schema comes from, if there is one. -/
  source : Option Source := none
  buffer : Option Buffer := none
  result : Option Result := none
  errors : List Diagnostic := []
  /-- How many tokens were handed out. -/
  issued : Nat := 0
  /-- The token of the request that is under way. -/
  latest : Option Nat := none
  /-- The encodings of the host. -/
  hosts : HostEncodings := fun _ => none
  deriving Inhabited

namespace Session

/-- The options of each decode. -/
def options (s : Session) : Options := { hosts := s.hosts }

/-- Is a request under way? -/
def isParsing (s : Session) : Bool := s.latest.isSome

/-- Start a request; earlier ones become stale. The answer is its token. -/
def begin (s : Session) : Nat × Session :=
  (s.issued + 1, { s with issued := s.issued + 1, latest := some (s.issued + 1) })

/-- Take over a result if it belongs to the latest request. A result without tree replaces the
errors only. The answer tells whether it was taken over. -/
def complete (s : Session) (token : Option Int) (result : Result) : Bool × Session :=
  if token ≠ s.latest.map Int.ofNat then (false, s)
  else
    (true, { s with
      latest := none
      errors := result.errors
      result := if result.root.isSome then some result else s.result })

/-- Decode the buffer with the schema. Without one of them there is no result any more. When the
decode fails otherwise, the request stays under way. -/
def decode (s : Session) : Except Escape (Option Result) × Session :=
  let (token, s) := s.begin
  match s.buffer, s.source with
  | some buffer, some source =>
      match ByteSchema.decode source s.options buffer with
      | .ok result => (.ok (some result), (s.complete (some (token : Int)) result).2)
      | .error e => (.error e, s)
  | _, _ => (.ok none, { s with latest := none, result := none, errors := [] })

/-- Change the buffer, and decode. -/
def setBuffer (s : Session) (buffer : Buffer) : Except Escape (Option Result) × Session :=
  { s with buffer := some buffer }.decode

/-- Change the schema, and decode. -/
def setSchema (s : Session) (source : Option Source) : Except Escape (Option Result) × Session :=
  { s with source }.decode

/-- Forget the buffer, without decoding. -/
def clearBuffer (s : Session) : Session := { s with buffer := none }

/-- The smallest node of the current result that holds the byte at `offset`. -/
def nodeAt (s : Session) (offset : Int) : Option Node :=
  s.result.bind fun r => ByteSchema.nodeAt r.nodes offset

end Session

end ByteSchema
