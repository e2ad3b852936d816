import GrammarSearch.Grammar.Production
import GrammarSearch.Notice
import GrammarSearch.Program.Basic

/-!
# Grammars

A grammar is a named catalogue of productions with distinct symbols. The order
of declaration is part of it: it is the order in which the productions fill a
hole, and so fixes the order of every search.
-/

namespace GrammarSearch

/-- A named list of productions, no two with one symbol. -/
structure Grammar (V : Type) where
  name : String
  productions : List (Production V)
  distinct : (productions.map (·.symbol)).Nodup

namespace Grammar

variable {V : Type}

/-! ## Building -/

/-- The first of some symbols that occurs before itself or among symbols seen already. -/
def firstRepeated? (seen : List String) : List String → Option String
  | [] => none
  | s :: rest => if s ∈ seen then some s else firstRepeated? (s :: seen) rest

theorem nodup_of_firstRepeated?_eq_none {seen symbols : List String}
    (h : firstRepeated? seen symbols = none) : symbols.Nodup ∧ ∀ s ∈ symbols, s ∉ seen := by
  induction symbols generalizing seen with
  | nil => simp
  | cons s rest ih =>
    unfold firstRepeated? at h
    split at h
    · cases h
    · next fresh =>
      obtain ⟨nodup, unseen⟩ := ih h
      refine ⟨List.nodup_cons.2 ⟨fun hs => unseen s hs (by simp), nodup⟩, ?_⟩
      intro t ht
      rcases List.mem_cons.1 ht with rfl | ht
      · exact fresh
      · exact fun hseen => unseen t ht (List.mem_cons_of_mem _ hseen)

/-- The grammar of some productions, in their order of declaration. -/
def ofProductions (name : String) (productions : List (Production V)) :
    Except GrammarError (Grammar V) :=
  match h : firstRepeated? [] (productions.map (·.symbol)) with
  | some symbol => .error (.duplicateSymbol symbol)
  | none => .ok ⟨name, productions, (nodup_of_firstRepeated?_eq_none h).1⟩

/-- The report of a grammar that was built. -/
def builtNotice (g : Grammar V) : Notice :=
  ⟨.debug, "built DSL " ++ quoted g.name ++ " with " ++ toString g.productions.length ++
    " productions"⟩

/-! ## Looking up -/

/-- The symbols in order of declaration. -/
def symbols (g : Grammar V) : List String := g.productions.map (·.symbol)

/-- The production of a symbol. -/
def production? (g : Grammar V) (symbol : String) : Option (Production V) :=
  g.productions.find? fun p => p.symbol == symbol

/-- The productions that fill a hole of a type, in order of declaration. -/
def returning (g : Grammar V) (t : Ty) : List (Production V) :=
  g.productions.filter fun p => p.signature.returns t

/-- The symbols of the productions without arguments. -/
def nullarySymbols (g : Grammar V) : List String :=
  (g.productions.filter fun p => p.arity == 0).map (·.symbol)

/-- Every symbol of the program is a symbol of the grammar. -/
def covers (g : Grammar V) (p : Program) : Bool :=
  p.symbols.all fun s => (g.production? s).isSome

/-! ## Identity -/

/-- What identifies a production: its symbol, its kind and its signature. -/
def entryJson (p : Production V) : Json :=
  .object [("parameterized", .bool p.isParameterized), ("signature", p.signature.toTy.toJson),
    ("symbol", .text p.symbol)]

/-- What identifies a grammar: its name and its productions in order. -/
def toJson (g : Grammar V) : Json :=
  .object [("entries", .array (g.productions.map entryJson)), ("name", .text g.name)]

/-- The digest of a grammar. -/
def fingerprint (g : Grammar V) : Except Json.CanonicalError Digest :=
  g.toJson.canonical.map fun text => Domain.catalog.digest text.toUTF8

end Grammar

end GrammarSearch
