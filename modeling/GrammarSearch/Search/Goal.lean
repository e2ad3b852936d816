import GrammarSearch.Grammar.Evaluation
import GrammarSearch.Search.PartialProgram

/-!
# Goals

A goal is a predicate on partial programs that may fail. Some goals evaluate
the program, and an evaluation makes parameters, so a goal reads and changes
the number of times parameters were made.
-/

namespace GrammarSearch

/-- Why a goal predicate gave no answer. -/
inductive GoalError
  /-- The program could not be evaluated. -/
  | evaluation (error : GrammarError)
  /-- The program may not be a goal nor be passed over. -/
  | rejected (program : Program)

/-- A predicate on partial programs. Its state is the number of times parameters were made. -/
abbrev Goal := PartialProgram → StateM Nat (Except GoalError Bool)

namespace Goal

variable {V : Type}

/-- A predicate that evaluates nothing. -/
def ofBool (holds : PartialProgram → Bool) : Goal := fun p => pure (.ok (holds p))

/-- Evaluates the program of a partial program. -/
def evaluate (g : Grammar V) (p : PartialProgram) : StateM Nat (Except GrammarError V) :=
  fun serial =>
    let result := g.evaluate serial p.program
    (result.outcome, serial + result.preparations)

/-- The program has the value, whether or not it is complete. -/
def evaluateAlways [DecidableEq V] (g : Grammar V) (target : V) : Goal := fun p => do
  match ← evaluate g p with
  | .ok value => return .ok (value = target)
  | .error e => return .error (.evaluation e)

/-- The program is complete and has the value. -/
def evaluatesTo [DecidableEq V] (g : Grammar V) (target : V) : Goal := fun p =>
  if p.isComplete then evaluateAlways g target p else pure (.ok false)

/-- The program is complete and has the value; a program without a value is passed over. -/
def evaluatesToQuietly [DecidableEq V] (g : Grammar V) (target : V) : Goal := fun p => do
  if p.isComplete then
    match ← evaluate g p with
    | .ok value => return .ok (value = target)
    | .error _ => return .ok false
  else return .ok false

/-- The program is complete, but a program with the symbol is rejected. -/
def completeWithout (symbol : String) : Goal := fun p =>
  if symbol ∈ p.program.symbols then pure (.error (.rejected p.program))
  else pure (.ok p.isComplete)

/-- Every partial program. -/
def all : Goal := ofBool fun _ => true

/-- No partial program. -/
def never : Goal := ofBool fun _ => false

/-- The program is complete. -/
def complete : Goal := ofBool (·.isComplete)

/-- The program has this many nodes; none has a negative number of them. -/
def hasSize (n : Int) : Goal := ofBool fun p => (p.program.nodeCount : Int) == n

/-- The program has this many open holes; none has a negative number of them. -/
def hasHoles (n : Int) : Goal := ofBool fun p => (p.holes.length : Int) == n

/-- The program has this text. -/
def hasText (text : String) : Goal := ofBool (·.program.text .bare == text)

/-- The program has the symbol. -/
def contains (symbol : String) : Goal := ofBool (·.program.symbols.contains symbol)

end Goal

/-- What a diagnostic says of a rejected program. -/
def rejectedMessage (p : Program) : String := "rejected " ++ p.text .bare

end GrammarSearch
