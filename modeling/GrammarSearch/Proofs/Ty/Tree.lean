import GrammarSearch.Proofs.Ty.Scanning
import GrammarSearch.Ty.Parser

/-!
# The grammar of type texts

A syntax tree is a derivation of the grammar

    T ::= name | [ T ] | { T (, dimension)* } | ( ) -> T | ( T (, T)* ) -> T | ( T )

over the lexemes of a text. A tree yields lexemes and denotes a type, in which parentheses around a
type have left no trace. The grammar is unambiguous: no two trees yield the same lexemes
(`Ty.Tree.lexemes_injective`).
-/

namespace GrammarSearch

namespace Ty

/-- A word that names a type. -/
structure Name where
  text : String
  isName : IsName text

/-- A word that is read as a dimension. -/
structure Numeral where
  text : String
  value : UInt64
  reads : dimension? text = some value

/-- A derivation of the grammar of types. -/
inductive Tree
  | word (name : Name)
  | list (element : Tree)
  | tensor (element : Tree) (shape : List Numeral)
  /-- Inputs, if there are any, and an output. -/
  | arrow (inputs : List Tree) (output : Tree)
  | group (inner : Tree)

namespace Tree

/-! ## What a tree yields and denotes -/

/-- The lexemes of dimensions, each after a comma. -/
def shapeLexemes (shape : List Numeral) : List Lexeme :=
  shape.flatMap fun d => [.comma, .word d.text]

mutual

/-- The lexemes that a tree derives. -/
def lexemes : Tree → List Lexeme
  | .word name => [.word name.text]
  | .list element => .openBracket :: (element.lexemes ++ [.closeBracket])
  | .tensor element shape =>
    .openBrace :: (element.lexemes ++ (shapeLexemes shape ++ [.closeBrace]))
  | .arrow inputs output =>
    .openParen :: (inputsLexemes inputs ++ .closeParen :: .arrow :: output.lexemes)
  | .group inner => .openParen :: (inner.lexemes ++ [.closeParen])

/-- The lexemes of inputs, with commas between them. -/
def inputsLexemes : List Tree → List Lexeme
  | [] => []
  | [t] => t.lexemes
  | t :: ts => t.lexemes ++ .comma :: inputsLexemes ts

end

mutual

/-- The type that a tree denotes. -/
def type : Tree → Ty
  | .word name => .atomic name.text
  | .list element => .list element.type
  | .tensor element shape => .tensor element.type (shape.map Numeral.value)
  | .arrow inputs output => .arrow (types inputs) output.type
  | .group inner => inner.type

/-- The types that trees denote. -/
def types : List Tree → List Ty
  | [] => []
  | t :: ts => t.type :: types ts

end

theorem types_eq_map (ts : List Tree) : types ts = ts.map type := by
  induction ts with
  | nil => rfl
  | cons t ts ih => rw [types, ih, List.map_cons]

theorem shapeLexemes_cons (d : Numeral) (shape : List Numeral) :
    shapeLexemes (d :: shape) = .comma :: .word d.text :: shapeLexemes shape := rfl

theorem inputsLexemes_cons_cons (t u : Tree) (ts : List Tree) :
    inputsLexemes (t :: u :: ts) = t.lexemes ++ .comma :: inputsLexemes (u :: ts) := rfl

/-- Inputs start with what the first of them yields. -/
theorem exists_inputsLexemes_eq (t : Tree) (ts : List Tree) :
    ∃ later, inputsLexemes (t :: ts) = t.lexemes ++ later := by
  cases ts with
  | nil => exact ⟨[], (List.append_nil _).symm⟩
  | cons u ts => exact ⟨_, inputsLexemes_cons_cons t u ts⟩

/-- Inputs without the last of them, each with the comma after it. -/
def begunLexemes (ts : List Tree) : List Lexeme := ts.flatMap fun t => t.lexemes ++ [.comma]

theorem begunLexemes_concat (ts : List Tree) (t : Tree) :
    begunLexemes (ts ++ [t]) = begunLexemes ts ++ t.lexemes ++ [.comma] := by
  simp [begunLexemes]

theorem inputsLexemes_concat (ts : List Tree) (t : Tree) :
    inputsLexemes (ts ++ [t]) = begunLexemes ts ++ t.lexemes := by
  induction ts with
  | nil => rfl
  | cons u ts ih =>
    have more : ts ++ [t] ≠ [] := List.append_ne_nil_of_right_ne_nil ts (List.cons_ne_nil t [])
    obtain ⟨first, others, split⟩ := List.exists_cons_of_ne_nil more
    rw [List.cons_append, split, inputsLexemes_cons_cons, ← split, ih]
    simp [begunLexemes]

/-- No tree yields a closing parenthesis first. -/
theorem exists_lexemes_eq_cons (t : Tree) :
    ∃ first rest, t.lexemes = first :: rest ∧ first ≠ .closeParen := by
  cases t with
  | word name => exact ⟨_, _, by rw [lexemes], by simp⟩
  | list element => exact ⟨_, _, by rw [lexemes], by simp⟩
  | tensor element shape => exact ⟨_, _, by rw [lexemes], by simp⟩
  | arrow inputs output => exact ⟨_, _, by rw [lexemes], by simp⟩
  | group inner => exact ⟨_, _, by rw [lexemes], by simp⟩

theorem lexemes_append_ne_closeParen (t : Tree) (rest others : List Lexeme) :
    t.lexemes ++ rest ≠ .closeParen :: others := by
  obtain ⟨first, later, yields, notClose⟩ := t.exists_lexemes_eq_cons
  intro same
  rw [yields, List.cons_append] at same
  exact notClose (List.cons.inj same).1

/-! ## One tree for every yield -/

theorem numeral_eq {d e : Numeral} (same : d.text = e.text) : d = e := by
  rcases d with ⟨text, value, reads⟩
  rcases e with ⟨_, other, readsOther⟩
  obtain rfl : text = _ := same
  obtain rfl : value = other := Option.some.inj (reads.symm.trans readsOther)
  rfl

theorem name_eq {m n : Name} (same : m.text = n.text) : m = n := by
  rcases m with ⟨text, isName⟩
  rcases n with ⟨_, other⟩
  obtain rfl : text = _ := same
  rfl

theorem shape_append_inj {shape other : List Numeral} {rest others : List Lexeme}
    (same : shapeLexemes shape ++ .closeBrace :: rest =
      shapeLexemes other ++ .closeBrace :: others) : shape = other ∧ rest = others := by
  induction shape generalizing other with
  | nil =>
    cases other with
    | nil => exact ⟨rfl, (List.cons.inj same).2⟩
    | cons e other => cases (List.cons.inj same).1
  | cons d shape ih =>
    cases other with
    | nil => cases (List.cons.inj same).1
    | cons e other =>
      simp only [shapeLexemes_cons, List.cons_append, List.cons.injEq, Lexeme.word.injEq,
        true_and] at same
      obtain ⟨texts, tails⟩ := same
      obtain ⟨rfl, rests⟩ := ih tails
      exact ⟨by rw [numeral_eq texts], rests⟩

/-- No arrow follows an element of a tensor if none follows the dimensions. -/
theorem head?_shape_append {next : Lexeme} (noArrow : next ≠ .arrow) (shape : List Numeral)
    (rest : List Lexeme) : (shapeLexemes shape ++ next :: rest).head? ≠ some .arrow := by
  cases shape <;> simp [shapeLexemes, noArrow]

mutual

/-- A tree is read off the front of lexemes in one way, as long as no arrow follows: an arrow would
make inputs of a type in parentheses. -/
theorem lexemes_append_inj {a b : Tree} {rest others : List Lexeme}
    (same : a.lexemes ++ rest = b.lexemes ++ others) (noArrow : rest.head? ≠ some .arrow)
    (noArrowOther : others.head? ≠ some .arrow) : a = b ∧ rest = others := by
  cases a with
  | word m =>
    cases b with
    | word n =>
      simp only [lexemes, List.cons_append, List.nil_append, List.cons.injEq,
        Lexeme.word.injEq] at same
      exact ⟨by rw [name_eq same.1], same.2⟩
    | _ => simp [lexemes] at same
  | list element =>
    cases b with
    | list other =>
      simp only [lexemes, List.cons_append, List.append_assoc, List.cons.injEq, true_and] at same
      obtain ⟨rfl, tails⟩ := lexemes_append_inj same (by simp) (by simp)
      exact ⟨rfl, by simpa using tails⟩
    | _ => simp [lexemes] at same
  | tensor element shape =>
    cases b with
    | tensor other otherShape =>
      simp only [lexemes, List.cons_append, List.append_assoc, List.cons.injEq, true_and,
        List.nil_append] at same
      obtain ⟨rfl, tails⟩ := lexemes_append_inj same (head?_shape_append (by simp) shape rest)
        (head?_shape_append (by simp) otherShape others)
      obtain ⟨rfl, rests⟩ := shape_append_inj tails
      exact ⟨rfl, rests⟩
    | _ => simp [lexemes] at same
  | arrow inputs output =>
    cases b with
    | arrow otherInputs otherOutput =>
      simp only [lexemes, List.cons_append, List.append_assoc, List.cons.injEq, true_and] at same
      obtain ⟨rfl, tails⟩ := inputs_append_inj same
      obtain ⟨rfl, rests⟩ := lexemes_append_inj (List.cons.inj tails).2 noArrow noArrowOther
      exact ⟨rfl, rests⟩
    | group inner =>
      simp only [lexemes, List.cons_append, List.append_assoc, List.cons.injEq, true_and] at same
      have inside : inputsLexemes inputs ++ .closeParen :: (.arrow :: output.lexemes ++ rest) =
          inputsLexemes [inner] ++ .closeParen :: others := by
        simpa [inputsLexemes] using same
      obtain ⟨-, tails⟩ := inputs_append_inj inside
      exact absurd (by rw [← tails]; rfl) noArrowOther
    | _ => simp [lexemes] at same
  | group inner =>
    cases b with
    | group other =>
      simp only [lexemes, List.cons_append, List.append_assoc, List.cons.injEq, true_and] at same
      obtain ⟨rfl, tails⟩ := lexemes_append_inj same (by simp) (by simp)
      exact ⟨rfl, by simpa using tails⟩
    | arrow inputs output =>
      simp only [lexemes, List.cons_append, List.append_assoc, List.cons.injEq, true_and] at same
      rcases inputs with _ | ⟨t, _ | ⟨u, ts⟩⟩
      · exact (lexemes_append_ne_closeParen inner _ _ same).elim
      · obtain ⟨-, tails⟩ := lexemes_append_inj same (by simp) (by simp)
        have starts := (List.cons.inj tails).2
        exact absurd (by rw [List.nil_append] at starts; rw [starts]; rfl) noArrow
      · rw [inputsLexemes_cons_cons, List.append_assoc] at same
        obtain ⟨-, tails⟩ := lexemes_append_inj same (by simp) (by simp)
        cases (List.cons.inj tails).1
    | _ => simp [lexemes] at same

/-- So are inputs with the parenthesis that closes them. -/
theorem inputs_append_inj : ∀ {ts us : List Tree} {rest others : List Lexeme},
    inputsLexemes ts ++ .closeParen :: rest = inputsLexemes us ++ .closeParen :: others →
      ts = us ∧ rest = others
  | [], [], _, _, same => ⟨rfl, (List.cons.inj same).2⟩
  | [], [u], _, _, same => (lexemes_append_ne_closeParen u _ _ same.symm).elim
  | [], u :: v :: us, _, _, same => by
      rw [inputsLexemes_cons_cons, List.append_assoc] at same
      exact (lexemes_append_ne_closeParen u _ _ same.symm).elim
  | [t], [], _, _, same => (lexemes_append_ne_closeParen t _ _ same).elim
  | t :: w :: ts, [], _, _, same => by
      rw [inputsLexemes_cons_cons, List.append_assoc] at same
      exact (lexemes_append_ne_closeParen t _ _ same).elim
  | [t], [u], _, _, same => by
      obtain ⟨rfl, tails⟩ := lexemes_append_inj same (by simp) (by simp)
      exact ⟨rfl, (List.cons.inj tails).2⟩
  | [t], u :: v :: us, _, _, same => by
      rw [inputsLexemes_cons_cons, List.append_assoc] at same
      obtain ⟨-, tails⟩ := lexemes_append_inj same (by simp) (by simp)
      cases (List.cons.inj tails).1
  | t :: w :: ts, [u], _, _, same => by
      rw [inputsLexemes_cons_cons, List.append_assoc] at same
      obtain ⟨-, tails⟩ := lexemes_append_inj same (by simp) (by simp)
      cases (List.cons.inj tails).1
  | t :: w :: ts, u :: v :: us, _, _, same => by
      rw [inputsLexemes_cons_cons, inputsLexemes_cons_cons, List.append_assoc,
        List.append_assoc] at same
      obtain ⟨rfl, tails⟩ := lexemes_append_inj same (by simp) (by simp)
      obtain ⟨others, rests⟩ := inputs_append_inj (List.cons.inj tails).2
      exact ⟨by rw [others], rests⟩

end

/-- No two derivations yield the same lexemes. -/
theorem lexemes_injective {a b : Tree} (same : a.lexemes = b.lexemes) : a = b :=
  (lexemes_append_inj (congrArg (· ++ []) same) (by simp) (by simp)).1

end Tree

end Ty

end GrammarSearch
