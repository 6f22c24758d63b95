import ByteSchema.Expression.Names
import ByteSchema.Expression.Reader

/-!
# ByteSchema.Expression.Evaluate

Evaluation of what a schema gives as an expression: a number stands for itself, a truth value for 0
or 1, a text is read as an expression, and all else has no value.
-/

namespace ByteSchema

/-- A digit limit and a mismatch are the failures of an expression that are more than having no
value. The operands of a schema's expressions are numbers, and never a mismatch. -/
def Expression.Reading.outcome {α : Type} (r : Expression.Reading α) : Except Escape (Option α) :=
  match r.value with
  | .ok n => .ok (some n)
  | .error .noValue => .ok none
  | .error (.longNumeral digits) => .error (.longNumeral digits)
  | .error .mismatch => .error .mismatch

namespace View

/-- The value of an expression, if it has one. -/
def evaluate (view : View) : Value → Except Escape (Option Number)
  | .bool b => .ok (some (.int (Number.ofFlag b)))
  | .int n => .ok (some (.int n))
  | .float x => .ok (some (.float x))
  | .str s => (Expression.read s view.resolve).outcome
  | _ => .ok none

@[simp] theorem evaluate_null (view : View) : view.evaluate .null = .ok none := rfl

@[simp] theorem evaluate_int (view : View) (n : Int) :
    view.evaluate (.int n) = .ok (some (.int n)) := rfl

/-- The integer that a number is, or the cause why it is none. -/
def integerOf (what : String) (expr : Value) : Option Number → Except Cause Int
  | none => .error (.noValue what expr)
  | some (.int n) => .ok n
  | some (.flag b) => .ok (Number.ofFlag b)
  | some (.float x) =>
      match Dyadic.ofFloat? x with
      | none => .error (.notFinite what expr x)
      | some d =>
        match d.toInt? with
        | none => .error (.notIntegral what expr x)
        | some n => .ok n

@[simp] theorem integerOf_int (what : String) (expr : Value) (n : Int) :
    integerOf what expr (some (.int n)) = .ok n := rfl

/-- The value of an expression that must be an integer. `what` names its use in messages. -/
def requireInt (view : View) (what : String) (expr : Value) (path : Option String := none) :
    Except Failure Int :=
  match view.evaluate expr with
  | .error e => .error (.escape e)
  | .ok number =>
    match integerOf what expr number with
    | .ok n => .ok n
    | .error cause => .error (.ofCause cause path)

@[simp] theorem requireInt_int (view : View) (what : String) (n : Int) (path : Option String) :
    view.requireInt what (.int n) path = .ok n := rfl

end View

end ByteSchema
