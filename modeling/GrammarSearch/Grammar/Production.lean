import GrammarSearch.Grammar.Error
import GrammarSearch.Keyed
import GrammarSearch.Ty.Signature

/-!
# Productions

A production is a rule of a grammar: a symbol, a signature and a meaning. The
meaning of a stateless production is a function of its inputs. A parameterized
one also reads parameters, which are made anew for every use of the production
in a program and belong to that use alone.

Meanings come from outside the library, so what the library does with them is
observable: `Traced` pairs the outcome of an evaluation with the calls made on
the way. Making parameters may give another result each time; the number of
parameters made before is passed in to tell the times apart.
-/

namespace GrammarSearch

/-- Named parameters, in ascending order of name. -/
abbrev Params (V : Type) := List (String × V)

/-- The state of one use of a production in a program. -/
inductive UseState (V : Type)
  | stateless
  | parameterized (params : Params V)
deriving DecidableEq

/-- A state holds parameters. -/
def UseState.isParameterized {V : Type} : UseState V → Bool
  | .stateless => false
  | .parameterized _ => true

/-- What a production means. A computation fails with the cause it gives. -/
inductive Meaning (V : Type)
  | stateless (compute : List V → Except String V)
  | parameterized (initial : Nat → Params V)
      (compute : List V → Params V → Except String V)

/-- A rule of a grammar. -/
structure Production (V : Type) where
  symbol : String
  signature : Signature
  meaning : Meaning V

/-! ## Calls -/

/-- A call into the meaning of a production. -/
inductive Call (V : Type)
  /-- Parameters were made for a use of the production. -/
  | prepared (symbol : String)
  /-- The production was computed on inputs, with parameters if it has any. -/
  | computed (symbol : String) (inputs : List V) (params : Option (Params V))
deriving DecidableEq

/-- An outcome with the calls that led to it, in order. -/
structure Traced (V α : Type) where
  calls : List (Call V)
  outcome : Except GrammarError α

namespace Traced

variable {V α β : Type}

/-- An outcome that took no call. -/
def ofExcept (outcome : Except GrammarError α) : Traced V α := ⟨[], outcome⟩

/-- Goes on with a value; after a failure nothing more is called. -/
def bind (x : Traced V α) (f : α → Traced V β) : Traced V β :=
  match x.outcome with
  | .ok a =>
    let y := f a
    ⟨x.calls ++ y.calls, y.outcome⟩
  | .error e => ⟨x.calls, .error e⟩

/-- Changes the value of an outcome. -/
def map (f : α → β) (x : Traced V α) : Traced V β := ⟨x.calls, x.outcome.map f⟩

/-- The number of times parameters were made. -/
def preparations (x : Traced V α) : Nat :=
  x.calls.countP fun
    | .prepared _ => true
    | .computed .. => false

end Traced

/-! ## Use -/

namespace Production

variable {V : Type}

/-- The number of inputs. -/
def arity (p : Production V) : Nat := p.signature.arity

/-- The production has parameters. -/
def isParameterized (p : Production V) : Bool :=
  match p.meaning with
  | .stateless _ => false
  | .parameterized .. => true

/-- Fresh state for one use, when parameters were made `serial` times before. -/
def prepare (p : Production V) (serial : Nat) : Traced V (UseState V) :=
  match p.meaning with
  | .stateless _ => ⟨[], .ok .stateless⟩
  | .parameterized initial _ => ⟨[.prepared p.symbol], .ok (.parameterized (initial serial))⟩

/-- The value of the production on inputs, in a state of one of its uses. -/
def compute (p : Production V) (state : UseState V) (inputs : List V) : Traced V V :=
  if inputs.length ≠ p.arity then
    .ofExcept (.error (.arityMismatch p.symbol p.arity inputs.length))
  else
    match p.meaning, state with
    | .stateless compute, .stateless =>
      ⟨[.computed p.symbol inputs none], (compute inputs).mapError (.computeFailed p.symbol)⟩
    | .parameterized _ compute, .parameterized params =>
      ⟨[.computed p.symbol inputs (some params)],
        (compute inputs params).mapError (.computeFailed p.symbol)⟩
    | _, _ => .ofExcept (.error (.stateMismatch p.symbol))

/-- What a diagnostic shows of a production. -/
def description (p : Production V) : String :=
  "Production \x7b symbol: " ++ quoted p.symbol ++ ", signature: " ++ quoted p.signature.text ++
    ", parameterized: " ++ toString p.isParameterized ++ ", .. \x7d"

end Production

end GrammarSearch
