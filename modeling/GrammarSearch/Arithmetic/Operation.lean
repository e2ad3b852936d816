import GrammarSearch.Grammar.Production

/-!
# Integer operations

Meanings of productions over signed 64-bit integers. Every operation is checked:
it fails as soon as a step of it, from left to right, leaves the 64 bits.
-/

namespace GrammarSearch

/-- An operation on any number of integers and named parameters. -/
inductive Operation
  | const (value : Int64)
  | sum
  | product
  /-- The first input less all others. -/
  | sub
  | neg
  | first
  | max
  /-- The first input divided by the second, toward zero. -/
  | div
  /-- Parameter `a` times the sum of the inputs plus parameter `b`. -/
  | affine
  /-- The sum of the inputs plus the sum of the parameters. -/
  | parameterSum
  /-- No value, for the given cause. -/
  | fail (cause : String)
deriving DecidableEq

namespace Operation

/-- An integer as a 64-bit value, if it fits. -/
def checked (n : Int) : Except String Int64 :=
  if -0x8000000000000000 ≤ n ∧ n < 0x8000000000000000 then .ok (.ofInt n) else .error "overflow"

/-- The checked sum of values, added to a first one from left to right. -/
def checkedSum (initial : Int64) (xs : List Int64) : Except String Int64 :=
  xs.foldlM (fun total x => checked (total.toInt + x.toInt)) initial

/-- The first input and the others. -/
def splitInputs : List Int64 → Except String (Int64 × List Int64)
  | [] => .error "missing input"
  | x :: xs => .ok (x, xs)

/-- The value of a parameter. -/
def parameter (name : String) (params : Params Int64) : Except String Int64 :=
  match params.lookup name with
  | some value => .ok value
  | none => .error ("missing param " ++ name)

/-- The value of an operation on inputs and parameters. -/
def compute (operation : Operation) (inputs : List Int64) (params : Params Int64) :
    Except String Int64 := do
  match operation with
  | .const value => return value
  | .sum => checkedSum 0 inputs
  | .product => inputs.foldlM (fun total x => checked (total.toInt * x.toInt)) 1
  | .sub =>
    let (x, xs) ← splitInputs inputs
    xs.foldlM (fun total x => checked (total.toInt - x.toInt)) x
  | .neg =>
    let (x, _) ← splitInputs inputs
    checked (-x.toInt)
  | .first =>
    let (x, _) ← splitInputs inputs
    return x
  | .max =>
    let (x, xs) ← splitInputs inputs
    return xs.foldl (fun greatest x => if greatest < x then x else greatest) x
  | .div =>
    let (x, xs) ← splitInputs inputs
    let (y, _) ← splitInputs xs
    if y = 0 then throw "division by zero" else checked (x.toInt.tdiv y.toInt)
  | .affine =>
    let a ← parameter "a" params
    let b ← parameter "b" params
    let sum ← checkedSum 0 inputs
    let scaled ← checked (a.toInt * sum.toInt)
    checked (scaled.toInt + b.toInt)
  | .parameterSum =>
    let sum ← checkedSum 0 inputs
    let offset ← checkedSum 0 (params.map (·.2))
    checked (sum.toInt + offset.toInt)
  | .fail cause => throw cause

/-- Where the value of a parameter comes from. -/
inductive Source
  | fixed (value : Int64)
  /-- The number of times parameters were made before. -/
  | serial
deriving DecidableEq

/-- The value of a source when parameters were made `serial` times before. -/
def Source.value (serial : Nat) : Source → Int64
  | .fixed value => value
  | .serial => .ofNat serial

/-- The production of a symbol that means an operation. With sources of parameters it is
parameterized; without, it is stateless and sees no parameters. -/
def production (operation : Operation) (symbol : String) (signature : Signature)
    (sources? : Option (List (String × Source))) : Production Int64 where
  symbol
  signature
  meaning :=
    match sources? with
    | none => .stateless fun inputs => operation.compute inputs []
    | some sources =>
      .parameterized
        (fun serial => (Keyed.sort sources).map fun source => (source.1, source.2.value serial))
        operation.compute

end Operation

end GrammarSearch
