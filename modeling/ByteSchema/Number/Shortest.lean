import ByteSchema.Number.Dyadic

/-!
# ByteSchema.Number.Shortest

The decimal text of a double: the fewest digits that read back as the same double, and of several
such numbers the one nearest to it. Positional notation is used from `0.0001` up to below
`10 ^ 16`, an exponent of at least two digits outside.

A double stands for all reals that round to it. That interval is symmetric around the double,
except that it is half as wide below a power of two, and it holds its two ends when the mantissa
is even. For each count of digits the two neighbours of the double on the decimal grid are tried;
17 digits always suffice.
-/

namespace ByteSchema

/-- A positive decimal `digits * 10 ^ exponent`. -/
structure Decimal where
  digits : Nat
  exponent : Int
  deriving Repr, DecidableEq

namespace Decimal

/-- Four times the double and the two ends of its interval, in units of `2 ^ (exponent - 2)`. -/
structure Interval where
  low : Nat
  mid : Nat
  high : Nat
  /-- Do the ends belong to the interval? -/
  closed : Bool
  exponent : Int

/-- The reals that round to the double `mantissa * 2 ^ exponent`. -/
def Interval.ofDyadic (mantissa : Nat) (exponent : Int) : Interval :=
  let narrow := mantissa = Nat.pow 2 52 ∧ -1074 < exponent
  { low := 4 * mantissa - (if narrow then 1 else 2)
    mid := 4 * mantissa
    high := 4 * mantissa + 2
    closed := mantissa % 2 == 0
    exponent := exponent - 2 }

/-- The largest `e` with `10 ^ e ≤ num / den`, looked for upward from `e`. -/
def log10From (num den : Nat) : Nat → Int → Int
  | 0, e => e
  | steps + 1, e =>
      let next := e + 1
      let fits :=
        if 0 ≤ next then den * Nat.pow 10 next.toNat ≤ num
        else den ≤ num * Nat.pow 10 (-next).toNat
      if fits then log10From num den steps next else e

/-- The shortest decimal in the interval with at most `count` more digits than `tried`. The double
is `num / den`, `unit` the scale of the interval's ends. -/
def search (i : Interval) (num den : Nat) (lead : Int) : Nat → Nat → Decimal
  | 0, tried =>
      let e := lead - tried
      ⟨if 0 ≤ e then num / (den * Nat.pow 10 e.toNat)
        else num * Nat.pow 10 (-e).toNat / den, e⟩
  | count + 1, tried =>
      let e := lead - tried
      -- the double on the grid of `10 ^ e`, as a quotient
      let gridNum := if 0 ≤ e then num else num * Nat.pow 10 (-e).toNat
      let gridDen := if 0 ≤ e then den * Nat.pow 10 e.toNat else den
      let below := gridNum / gridDen
      let rest := gridNum % gridDen
      -- `k * 10 ^ e` against an end of the interval, both over the double's own scale
      let inside (k : Nat) : Bool :=
        let scaled := k * gridDen * i.mid
        let lowEnd := gridNum * i.low
        let highEnd := gridNum * i.high
        if i.closed then lowEnd ≤ scaled && scaled ≤ highEnd
        else lowEnd < scaled && scaled < highEnd
      let lowIn := inside below && below != 0
      let highIn := inside (below + 1)
      if lowIn && highIn then
        ⟨if 2 * rest < gridDen || (2 * rest == gridDen && below % 2 == 0) then below
          else below + 1, e⟩
      else if lowIn then ⟨below, e⟩
      else if highIn then ⟨below + 1, e⟩
      else search i num den lead count (tried + 1)

/-- The shortest decimal that reads back as `mantissa * 2 ^ exponent`; `mantissa` is positive. -/
def shortest (mantissa : Nat) (exponent : Int) : Decimal :=
  let num := if 0 ≤ exponent then mantissa * Nat.pow 2 exponent.toNat else mantissa
  let den := if 0 ≤ exponent then 1 else Nat.pow 2 (-exponent).toNat
  -- a little below the decimal logarithm; `log10From` climbs the rest
  let lead := log10From num den 4 (quotientLog2 num den * 30103 / 100000 - 1)
  search (.ofDyadic mantissa exponent) num den lead 17 0

end Decimal

/-- Where the text of a double changes form. -/
structure FloatLayout where
  /-- Positional notation is used while the leading digit stands for `10 ^ e` with `e` at least
  this … -/
  minPositional : Int
  /-- … and at most this. -/
  maxPositional : Int
  /-- Fewest digits of an exponent. -/
  exponentDigits : Nat

/-- The layout of numbers in reports. -/
def reportLayout : FloatLayout := ⟨-4, 15, 2⟩

/-- `text` filled up with zeros on the left to `width` characters. -/
def padZeros (width : Nat) (text : String) : String :=
  String.ofList (List.replicate (width - text.length) '0') ++ text

/-- Write the digits `ds` whose first stands for `10 ^ lead`. -/
def layoutDigits (layout : FloatLayout) (ds : List Char) (lead : Int) : String :=
  if layout.minPositional ≤ lead ∧ lead ≤ layout.maxPositional then
    if lead < 0 then
      "0." ++ String.ofList (List.replicate (-lead - 1).toNat '0' ++ ds)
    else
      let whole := lead.toNat + 1
      let front := ds.take whole ++ List.replicate (whole - ds.length) '0'
      let back := ds.drop whole
      String.ofList front ++ "." ++ (if back.isEmpty then "0" else String.ofList back)
  else
    let mantissa :=
      match ds with
      | [d] => String.ofList [d]
      | d :: rest => String.ofList (d :: '.' :: rest)
      | [] => ""
    mantissa ++ "e" ++ (if lead < 0 then "-" else "+") ++
      padZeros layout.exponentDigits (toString lead.natAbs)

/-- The text of a double in reports. -/
def floatText (x : Float) : String :=
  match Dyadic.ofFloat? x with
  | none => if x > 0 then "inf" else if x < 0 then "-inf" else "nan"
  | some d =>
      let sign := if d.negative then "-" else ""
      if d.mantissa = 0 then sign ++ "0.0"
      else
        let s := Decimal.shortest d.mantissa d.exponent
        let ds := ((toString s.digits).toList.reverse.dropWhile (· == '0')).reverse
        sign ++ layoutDigits reportLayout ds (s.exponent + ((toString s.digits).length - 1 : Nat))

end ByteSchema
