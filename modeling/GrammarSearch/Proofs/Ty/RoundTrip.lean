import GrammarSearch.Proofs.Ty.Outcome
import GrammarSearch.Ty.Printer

/-!
# Reading the text of a type

The printer puts no parentheses around a type, and blanks only behind commas and around arrows. Its
text spells what a tree of the type yields if every name in the type can be read as one word
(`Ty.exists_tree_of_legible`). The types that are read from texts have only such names, so these are
exactly the types that are read back from their texts: `Ty.parse_text_eq_iff`.
-/

namespace GrammarSearch

namespace Ty

variable {c : Char} {chars rest : List Char} {lexeme : Lexeme} {lexemes others : List Lexeme}

/-! ## Legible types -/

mutual

/-- The names in a type. -/
def names : Ty → List String
  | .atomic name => [name]
  | .list element => element.names
  | .tensor element _ => element.names
  | .arrow inputs output => namesList inputs ++ output.names

/-- The names in types. -/
def namesList : List Ty → List String
  | [] => []
  | t :: ts => t.names ++ namesList ts

end

/-- Every name in the type can be read as one word. -/
def Legible (t : Ty) : Prop := ∀ name ∈ t.names, IsName name

/-- Every name in the types can be read as one word. -/
def LegibleList (ts : List Ty) : Prop := ∀ name ∈ namesList ts, IsName name

theorem legible_atomic {name : String} : (Ty.atomic name).Legible ↔ IsName name := by
  simp [Legible, names]

theorem legible_arrow {inputs : List Ty} {output : Ty} :
    (Ty.arrow inputs output).Legible ↔ LegibleList inputs ∧ output.Legible := by
  simp [Legible, LegibleList, names, or_imp, forall_and]

theorem legibleList_cons {t : Ty} {ts : List Ty} :
    LegibleList (t :: ts) ↔ t.Legible ∧ LegibleList ts := by
  simp [Legible, LegibleList, namesList, or_imp, forall_and]

mutual

/-- A tree denotes a type whose names are words. -/
theorem Tree.legible_type (tree : Tree) : tree.type.Legible := by
  cases tree with
  | word name => exact legible_atomic.2 name.isName
  | list element => exact element.legible_type
  | tensor element shape => exact element.legible_type
  | arrow inputs output => exact legible_arrow.2 ⟨Tree.legible_types inputs, output.legible_type⟩
  | group inner => exact inner.legible_type

theorem Tree.legible_types : ∀ trees : List Tree, LegibleList (Tree.types trees)
  | [] => fun _ absent => by cases absent
  | t :: ts => legibleList_cons.2 ⟨t.legible_type, Tree.legible_types ts⟩

end

/-! ## Dimensions -/

theorem isPlain_of_isDigit (digit : c.isDigit = true) : isPlain c = true := by
  have low : 48 ≤ c.toNat ∧ c.toNat ≤ 57 := by
    simpa [Char.isDigit, UInt32.le_iff_toNat_le] using digit
  have unmarked : punctuation? c = none := by
    unfold punctuation?
    split <;> first | cases digit | rfl
  have full : ¬ isBlank c = true := by
    simp only [isBlank, Bool.or_eq_true, Bool.and_eq_true, decide_eq_true_eq, beq_iff_eq]
    omega
  simp [isPlain, unmarked, full]

theorem toList_toString (n : Nat) : (toString n).toList = Nat.toDigits 10 n := Nat.toList_repr

theorem isDigit_of_mem_toString {n : Nat} (member : c ∈ (toString n).toList) :
    c.isDigit = true := by
  rw [toList_toString] at member
  exact Nat.isDigit_of_mem_toDigits (by decide) (by decide) member

theorem isName_toString (n : Nat) : IsName (toString n) where
  ne_empty empty := by
    have none := congrArg String.toList empty
    rw [toList_toString] at none
    exact Nat.toDigits_ne_nil none
  plain _ member := isPlain_of_isDigit (isDigit_of_mem_toString member)
  unbroken inside := by
    have digit : '-'.isDigit = true :=
      isDigit_of_mem_toString (inside.subset List.mem_cons_self)
    cases digit

theorem dimension?_of_unsigned {word : String} (unsigned : ∀ rest, word.toList ≠ '+' :: rest) :
    dimension? word =
      if word.toList ≠ [] ∧ word.toList.all Char.isDigit ∧
        Nat.ofDigitChars 10 word.toList 0 < UInt64.size
      then some (.ofNat (Nat.ofDigitChars 10 word.toList 0)) else none := by
  unfold dimension?
  dsimp only
  split
  · next rest signed => exact absurd signed (unsigned rest)
  · rfl

/-- A number is written as it is read. -/
theorem dimension?_toString (d : UInt64) : dimension? (toString d.toNat) = some d := by
  have digits : ∀ c ∈ (toString d.toNat).toList, c.isDigit = true := fun _ =>
    isDigit_of_mem_toString
  have unsigned : ∀ rest, (toString d.toNat).toList ≠ '+' :: rest := by
    intro rest signed
    have plus := digits '+' (by rw [signed]; exact List.mem_cons_self)
    cases plus
  have value : Nat.ofDigitChars 10 (toString d.toNat).toList 0 = d.toNat := by
    rw [toList_toString, Nat.ofDigitChars_ten_toDigits]
  have some_digit : (toString d.toNat).toList ≠ [] := by
    rw [toList_toString]
    exact Nat.toDigits_ne_nil
  rw [dimension?_of_unsigned unsigned, value,
    if_pos ⟨some_digit, List.all_eq_true.2 digits, d.toNat_lt⟩, UInt64.ofNat_toNat]

/-- A dimension as it is written. -/
def numeral (d : UInt64) : Numeral := ⟨toString d.toNat, d, dimension?_toString d⟩

/-! ## Spelling -/

/-- The characters are divided into these lexemes, wherever they stand. -/
def Spells (chars : List Char) (lexemes : List Lexeme) : Prop :=
  ∀ offset, (scan offset none chars).map Token.lexeme = lexemes

theorem spells_nil : Spells [] [] := fun _ => rfl

theorem Spells.blank (later : Spells rest lexemes) (blank : isBlank c = true) :
    Spells (c :: rest) lexemes := by
  intro offset
  rw [scan_blank blank]
  exact later _

theorem Spells.punctuation (later : Spells rest lexemes) (alone : punctuation? c = some lexeme) :
    Spells (c :: rest) (lexeme :: lexemes) := by
  intro offset
  rw [scan_punctuation alone]
  exact congrArg (lexeme :: ·) (later _)

theorem Spells.arrow (later : Spells rest lexemes) :
    Spells ('-' :: '>' :: rest) (.arrow :: lexemes) := by
  intro offset
  rw [scan_arrow]
  exact congrArg (.arrow :: ·) (later _)

theorem Spells.name {name : String} (later : Spells rest lexemes) (isName : IsName name)
    (ends : Ends rest) : Spells (name.toList ++ rest) (.word name :: lexemes) := by
  intro offset
  rw [scan_name isName ends]
  exact congrArg (.word name :: ·) (later _)

/-- The characters spell the lexemes in front of whatever ends a name. -/
def Writes (chars : List Char) (lexemes : List Lexeme) : Prop :=
  ∀ {rest others}, Ends rest → Spells rest others → Spells (chars ++ rest) (lexemes ++ others)

theorem toList_shapeText_cons (d : UInt64) (shape : List UInt64) :
    (shapeText (d :: shape)).toList =
      ',' :: ' ' :: ((toString d.toNat).toList ++ (shapeText shape).toList) := by
  simp [shapeText]

theorem ends_shapeText (shape : List UInt64) (rest : List Char) :
    Ends ((shapeText shape).toList ++ '\x7d' :: rest) := by
  cases shape with
  | nil => exact ends_cons (by decide) rest
  | cons d shape =>
    rw [toList_shapeText_cons]
    exact ends_cons (by decide) _

theorem spells_shapeText (shape : List UInt64) (later : Spells rest others) :
    Spells ((shapeText shape).toList ++ '\x7d' :: rest)
      (Tree.shapeLexemes (shape.map numeral) ++ .closeBrace :: others) := by
  induction shape with
  | nil => exact later.punctuation rfl
  | cons d shape ih =>
    have named := ih.name (isName_toString d.toNat) (ends_shapeText shape rest)
    have spelled := (named.blank (c := ' ') rfl).punctuation (c := ',') rfl
    rw [toList_shapeText_cons, List.cons_append, List.cons_append, List.append_assoc]
    exact spelled

theorem map_numeral (shape : List UInt64) : (shape.map numeral).map Numeral.value = shape := by
  rw [List.map_map]
  exact List.map_id shape

mutual

/-- The text of a legible type spells what a tree of the type yields. -/
theorem exists_tree_of_legible (t : Ty) (legible : t.Legible) :
    ∃ tree : Tree, tree.type = t ∧ Writes t.text.toList tree.lexemes := by
  cases t with
  | atomic name =>
    have isName := legible_atomic.1 legible
    exact ⟨.word ⟨name, isName⟩, rfl, fun ends later => later.name isName ends⟩
  | list element =>
    obtain ⟨tree, denotes, inner⟩ := exists_tree_of_legible element legible
    refine ⟨.list tree, congrArg Ty.list denotes, fun {rest others} _ later => ?_⟩
    have closed : Spells (']' :: rest) (.closeBracket :: others) := later.punctuation rfl
    have spelled := (inner (ends_cons (by decide) rest) closed).punctuation (c := '[') rfl
    simpa [text, Tree.lexemes] using spelled
  | tensor element shape =>
    obtain ⟨tree, denotes, inner⟩ := exists_tree_of_legible element legible
    refine ⟨.tensor tree (shape.map numeral), ?_, fun {rest others} _ later => ?_⟩
    · rw [Tree.type, denotes, map_numeral]
    · have shaped := inner (ends_shapeText shape rest) (spells_shapeText shape later)
      have spelled := shaped.punctuation (c := '\x7b') rfl
      simpa [text, Tree.lexemes] using spelled
  | arrow inputs output =>
    obtain ⟨legibleInputs, legibleOutput⟩ := legible_arrow.1 legible
    obtain ⟨trees, denote, before⟩ := exists_trees_of_legible inputs legibleInputs
    obtain ⟨tree, denotes, inner⟩ := exists_tree_of_legible output legibleOutput
    refine ⟨.arrow trees tree, ?_, fun {rest others} ends later => ?_⟩
    · rw [Tree.type, denote, denotes]
    · have result := ((inner ends later).blank (c := ' ') rfl).arrow.blank (c := ' ') rfl
      have closed := result.punctuation (c := ')') rfl
      have spelled := (before (ends_cons (by decide) _) closed).punctuation (c := '(') rfl
      simpa [text, Tree.lexemes] using spelled

theorem exists_trees_of_legible : ∀ ts : List Ty, LegibleList ts →
    ∃ trees : List Tree, Tree.types trees = ts ∧
      Writes (inputsText ts).toList (Tree.inputsLexemes trees)
  | [], _ => ⟨[], rfl, fun _ later => later⟩
  | [t], legible => by
      obtain ⟨tree, denotes, inner⟩ := exists_tree_of_legible t (legibleList_cons.1 legible).1
      exact ⟨[tree], congrArg ([·]) denotes, inner⟩
  | t :: u :: ts, legible => by
      obtain ⟨legibleFirst, legibleLater⟩ := legibleList_cons.1 legible
      obtain ⟨tree, denotes, inner⟩ := exists_tree_of_legible t legibleFirst
      obtain ⟨trees, denote, after⟩ := exists_trees_of_legible (u :: ts) legibleLater
      rcases trees with _ | ⟨second, trees⟩
      · cases denote
      · refine ⟨tree :: second :: trees, ?_, fun {rest others} ends later => ?_⟩
        · rw [Tree.types, denotes, denote]
        · have comma := ((after ends later).blank (c := ' ') rfl).punctuation (c := ',') rfl
          have spelled := inner (ends_cons (by decide) _) comma
          simpa [inputsText, Tree.inputsLexemes_cons_cons] using spelled

end

/-! ## Reading texts back -/

theorem parse_eq_ok_of_tree {s : String} {tree : Tree} (spells : Spells s.toList tree.lexemes) :
    parse s = .ok tree.type :=
  (State.run_eq_iff_outcome (proper_of_mem_tokens s)).2 (.derived tree (spells 0).symm)

theorem legible_of_parse {s : String} {t : Ty} (parsed : parse s = .ok t) : t.Legible := by
  have outcome := (State.run_eq_iff_outcome (proper_of_mem_tokens s)).1 parsed
  cases outcome with
  | derived tree yields => exact tree.legible_type

theorem parse_text_of_legible {t : Ty} (legible : t.Legible) : parse t.text = .ok t := by
  obtain ⟨tree, denotes, writes⟩ := exists_tree_of_legible t legible
  have spells := writes ends_nil spells_nil
  rw [List.append_nil, List.append_nil] at spells
  rw [parse_eq_ok_of_tree spells, denotes]

/-- A type is read back from its text exactly if every name in it can be read as one word. So no two
such types have the same text. -/
theorem parse_text_eq_iff :
    (∀ t : Ty, parse t.text = .ok t ↔ t.Legible) ∧ Set.InjOn Ty.text {t | t.Legible} := by
  refine ⟨fun t => ⟨legible_of_parse, parse_text_of_legible⟩, ?_⟩
  intro t legible u legibleOther same
  have read := parse_text_of_legible legible
  rw [same, parse_text_of_legible legibleOther] at read
  exact (Except.ok.inj read).symm

example : parse (Ty.arrow [.atomic "-t-"] (.atomic ">")).text =
    .ok (.arrow [.atomic "-t-"] (.atomic ">")) := by decide +kernel

example : parse (Ty.atomic "t->").text ≠ .ok (.atomic "t->") := by decide +kernel

end Ty

end GrammarSearch
