import GrammarSearch.Grammar.Basic

/-!
# Sample grammars

Two grammars of integer arithmetic to search in. Their operations wrap around
in 64 bits.
-/

namespace GrammarSearch

namespace Sample

/-- The type of integers. -/
def int : Ty := .atomic "int"

/-- A meaning without inputs. -/
def constant (value : Int64) : Meaning Int64 :=
  .stateless fun _ => .ok value

/-- A meaning of one input. -/
def unary (f : Int64 → Int64) : Meaning Int64 :=
  .stateless fun
    | [x] => .ok (f x)
    | _ => .error "missing input"

/-- A meaning of two inputs. -/
def binary (f : Int64 → Int64 → Int64) : Meaning Int64 :=
  .stateless fun
    | [x, y] => .ok (f x y)
    | _ => .error "missing input"

/-- The product of an input and the parameter `factor`, which is always three. -/
def scaled : Meaning Int64 :=
  .parameterized (fun _ => [("factor", 3)]) fun inputs params =>
    match inputs, params.lookup "factor" with
    | [x], some factor => .ok (x * factor)
    | _, none => .error "factor missing"
    | _, _ => .error "missing input"

/-- A production from integers to an integer. -/
def production (symbol : String) (arity : Nat) (meaning : Meaning Int64) : Production Int64 :=
  ⟨symbol, ⟨List.replicate arity int, int⟩, meaning⟩

/-- The productions of the small grammar. The argument of `parse_int` has a type that no
production returns. -/
def smallProduction? : String → Option (Production Int64)
  | "one" => some (production "one" 0 (constant 1))
  | "add" => some (production "add" 2 (binary (· + ·)))
  | "scale" => some (production "scale" 1 scaled)
  | "boom" => some (production "boom" 0 (.stateless fun _ => .error "boom cannot be evaluated"))
  | "parse_int" => some ⟨"parse_int", ⟨[.atomic "str"], int⟩, unary id⟩
  | _ => none

/-- The small grammar, with some of its productions in the given order. -/
def small (order : List String) : Except GrammarError (Grammar Int64) :=
  Grammar.ofProductions "arith" (order.filterMap smallProduction?)

/-- The wide grammar, with further constants to choose from. -/
def wide (padding : Nat) : Except GrammarError (Grammar Int64) :=
  Grammar.ofProductions "bench_arith" <|
    [production "one" 0 (constant 1), production "add" 2 (binary (· + ·)),
      production "neg" 1 (unary (- ·)), production "mul" 2 (binary (· * ·))] ++
    (List.range padding).map fun i => production ("zero_" ++ toString i) 0 (constant 0)

end Sample

end GrammarSearch
