import GrammarSearch.Text.Quoted

/-!
# Faults of grammars and evaluation

What can go wrong while a grammar is built or a program is evaluated with it.
-/

namespace GrammarSearch

/-- Why a grammar was not built or a program has no value. -/
inductive GrammarError
  /-- Two productions have one symbol. -/
  | duplicateSymbol (symbol : String)
  /-- The program has a symbol that no production has. -/
  | unknownSymbol (symbol : String)
  /-- The program still has a hole. -/
  | holeInProgram (symbol : String)
  /-- A production was applied to the wrong number of inputs. -/
  | arityMismatch (symbol : String) (expected actual : Nat)
  /-- A production received the state of a use of the other kind. -/
  | stateMismatch (symbol : String)
  /-- The production's own computation failed, for the cause it gave. -/
  | computeFailed (symbol : String) (cause : String)
deriving DecidableEq

namespace GrammarError

/-- What a diagnostic says. -/
def message : GrammarError → String
  | .duplicateSymbol symbol => "duplicate production symbol " ++ quoted symbol
  | .unknownSymbol symbol => "unknown production symbol " ++ quoted symbol
  | .holeInProgram symbol => "program contains hole " ++ quoted symbol
  | .arityMismatch symbol expected actual =>
    "production " ++ quoted symbol ++ " expects " ++ toString expected ++ " inputs, got " ++
      toString actual
  | .stateMismatch symbol =>
    "production " ++ quoted symbol ++ " received state it did not initialize"
  | .computeFailed symbol _ => "computing " ++ quoted symbol ++ " failed"

/-- The fault below this one. -/
def cause? : GrammarError → Option String
  | .computeFailed _ cause => some cause
  | _ => none

end GrammarError

end GrammarSearch
