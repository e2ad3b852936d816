import GrammarSearch.Proofs.Program.Context
import GrammarSearch.Proofs.Program.RoundTrip

/-!
# The normal form of a text

One program has many texts: blanks may be added, a call without arguments may stand in parentheses,
and in the marked style a leaf may be marked or, if it is a variable or a known call, not. The text
that is printed for what was read is the normal form of them all: reading it gives the same program
(`Program.parse_text_of_parse`). Which programs have a text at all is told node by node
(`Program.exists_parse_iff`, `Program.legible_iff`).
-/

namespace GrammarSearch

namespace Program

variable {reading : Reading} {style : Style} {p : Program}

theorem isSeparator_eq_false_iff {c : Char} :
    isSeparator c = false ↔ isBlank c = false ∧ c ≠ '(' ∧ c ≠ ')' := by
  simp [isSeparator, and_comm, and_assoc]

/-- A program can be read if every node can. -/
theorem legible_iff : p.Legible style ↔ ∀ path part, p.subtree? path = some part →
    style.Spells (part.symbol, part.children.length) := by
  constructor
  · intro legible path part found
    refine legible _ (mem_labels_iff.2 ⟨path, ?_⟩)
    rw [rootLabel?, found, Option.map_some]
  · intro nodes label member
    obtain ⟨path, found⟩ := mem_labels_iff.1 member
    obtain ⟨part, at_path, rfl⟩ := Option.map_eq_some_iff.1 found
    exact nodes path part at_path

/-- The symbols of a program that can be read are made of the characters of words. -/
theorem Legible.unseparated (legible : p.Legible style) {symbol : String}
    (member : symbol ∈ p.symbols) : ∀ c ∈ symbol.toList, isSeparator c = false := by
  obtain ⟨path, part, found, rfl⟩ := mem_symbols_iff.1 member
  exact (legible_iff.1 legible path part found).unseparated

/-- Only a leaf of the marked style can be read without a symbol. -/
theorem Legible.symbol_ne_empty (legible : p.Legible style) {path : List Nat} {part : Program}
    (found : p.subtree? path = some part) (other : part.children ≠ [] ∨ style = .bare) :
    part.symbol ≠ "" := by
  intro empty
  obtain ⟨marked, none⟩ := (legible_iff.1 legible path part found).of_empty empty
  rcases other with some_child | bare
  · exact some_child (List.length_eq_zero_iff.1 none)
  · rw [bare] at marked
    cases marked

/-- The programs that texts denote are those that can be read node by node and are not too deep. -/
theorem exists_parse_iff : (∃ text e, parse reading text = .ok e ∧ e.toProgram = p) ↔
    p.Legible reading.style ∧ p.depth ≤ maxNesting + 1 := by
  constructor
  · intro denoted
    obtain ⟨text, e, read, rfl⟩ := denoted
    exact parse_legible read
  · intro written
    exact ⟨p.text reading.style, reading.denoted p, parse_text written.1 written.2,
      reading.toProgram_denoted p⟩

/-- Whatever text was read: the symbols of the program have neither blanks nor parentheses, its
applications have a symbol, and in the bare style its leaves do too; it is at most one level deeper
than lists may be nested; and its own text, which is the normal form of the text, is read as the
same program again. -/
theorem parse_text_of_parse {text : String} {e : Parsed} (read : parse reading text = .ok e) :
    (∀ symbol ∈ e.toProgram.symbols, ∀ c ∈ symbol.toList,
      isBlank c = false ∧ c ≠ '(' ∧ c ≠ ')') ∧
    (∀ path part, e.toProgram.subtree? path = some part →
      part.children ≠ [] ∨ reading.style = .bare → part.symbol ≠ "") ∧
    e.toProgram.depth ≤ maxNesting + 1 ∧
    ∃ again, parse reading (e.toProgram.text reading.style) = .ok again ∧
      again.toProgram = e.toProgram := by
  obtain ⟨legible, shallow⟩ := parse_legible read
  refine ⟨fun symbol member c here => ?_, fun path part => legible.symbol_ne_empty, shallow,
    reading.denoted e.toProgram, parse_text legible shallow, reading.toProgram_denoted _⟩
  exact isSeparator_eq_false_iff.1 (legible.unseparated member c here)

/-- How words are read if texts are marked and `two` is a call. -/
def markedReading : Reading := ⟨.marked, ["two"]⟩

/-- A sum of leaves, one of them without a symbol and one with a symbol that looks marked. -/
def leafSum : Program :=
  .node "leaf-sum" [.leaf "one", .leaf "two", .leaf "leaf-x", .leaf "$y", .node "neg" [.leaf ""]]

theorem leafSum_text_of_parse :
    parse markedReading " (leaf-sum (one)\ttwo leaf-leaf-x leaf-$y\n(neg leaf-) ) " =
        .ok (.program leafSum) ∧
      leafSum.text .marked = "(leaf-sum leaf-one leaf-two leaf-leaf-x $y (neg leaf-))" ∧
      ∃ again, parse markedReading "(leaf-sum leaf-one leaf-two leaf-leaf-x $y (neg leaf-))" =
        .ok again ∧ again.toProgram = leafSum :=
  have read := by decide +kernel
  ⟨read, by decide +kernel, (parse_text_of_parse read).2.2.2⟩

end Program

end GrammarSearch
