import GrammarSearch.Program.Token

/-!
# Words of program texts

The tokens of a text are its parentheses and its words, and a word is a run of
characters between separators. A word that is written into a text is read back as
one token if a separator follows it (`Program.scan_word`), and every word that is
read is one (`Program.isWord_of_mem_scan`).
-/

namespace GrammarSearch

namespace Program

/-- Parentheses and blanks stand between words. -/
def isSeparator (c : Char) : Bool := c == '(' || c == ')' || isBlank c

/-- A text that can be read as one word. -/
structure IsWord (s : String) : Prop where
  ne_empty : s ≠ ""
  unseparated : ∀ c ∈ s.toList, isSeparator c = false

/-- A word ends before these characters: there are none, or the first is a separator. -/
def Closes (rest : List Char) : Prop := ∀ c ∈ rest.head?, isSeparator c = true

theorem closes_nil : Closes [] := fun _ member => by cases member

theorem closes_cons {c : Char} (separator : isSeparator c = true) (rest : List Char) :
    Closes (c :: rest) := by
  intro _ member
  cases member
  exact separator

variable {offset : Nat} {word chars rest : List Char}

/-! ## Reading what was written -/

theorem scan_open (offset : Nat) (rest : List Char) :
    scan offset [] ('(' :: rest) = .openParen offset :: scan (offset + 1) [] rest := rfl

theorem scan_close (offset : Nat) (rest : List Char) :
    scan offset [] (')' :: rest) = .closeParen offset :: scan (offset + 1) [] rest := rfl

theorem scan_space (offset : Nat) (rest : List Char) :
    scan offset [] (' ' :: rest) = scan (offset + 1) [] rest := rfl

/-- Characters of a word are kept until the word ends, and their bytes are counted. -/
theorem scan_plain (offset : Nat) (word rest : List Char)
    (plain : ∀ c ∈ chars, isSeparator c = false) :
    scan offset word (chars ++ rest) =
      scan (offset + (String.ofList chars).utf8ByteSize) (chars.reverse ++ word) rest := by
  induction chars generalizing offset word with
  | nil => simp
  | cons c chars ih =>
    have here := plain c List.mem_cons_self
    simp only [isSeparator, Bool.or_eq_false_iff, beq_eq_false_iff_ne] at here
    rcases here with ⟨⟨noOpen, noClose⟩, noBlank⟩
    have later := ih (offset + c.utf8Size) (c :: word) fun d member =>
      plain d (List.mem_cons_of_mem c member)
    rw [List.cons_append, scan, if_neg noOpen, if_neg noClose, if_neg (by simp [noBlank]), later,
      String.ofList_cons, String.utf8ByteSize_append, String.utf8ByteSize_singleton,
      ← Nat.add_assoc, List.reverse_cons, List.append_assoc]
    rfl

/-- A word that has ended is a token. -/
theorem scan_of_closes (offset : Nat) (word : List Char) (closes : Closes rest) :
    scan offset word rest = wordTokens word ++ scan offset [] rest := by
  cases rest with
  | nil => simp [scan, wordTokens]
  | cons c rest =>
    have separator := closes c rfl
    unfold scan
    by_cases opening : c = '('
    · simp [opening, wordTokens]
    · by_cases closing : c = ')'
      · simp [closing, wordTokens]
      · have blank : isBlank c = true := by simpa [isSeparator, opening, closing] using separator
        simp [opening, closing, blank, wordTokens]

/-- A word is read back where it ends. -/
theorem scan_word_eq {w : String} (isWord : IsWord w) (offset : Nat) (closes : Closes rest) :
    scan offset [] (w.toList ++ rest) = .word w :: scan (offset + w.utf8ByteSize) [] rest := by
  have token : wordTokens (w.toList.reverse ++ []) = [.word w] := by
    simp [wordTokens, isWord.ne_empty]
  rw [scan_plain offset [] rest isWord.unseparated, scan_of_closes _ _ closes, token,
    String.ofList_toList]
  rfl

theorem scan_word {w : String} (isWord : IsWord w) (offset : Nat) (closes : Closes rest) :
    ∃ next, scan offset [] (w.toList ++ rest) = .word w :: scan next [] rest :=
  ⟨_, scan_word_eq isWord offset closes⟩

/-! ## What is read -/

theorem isWord_of_mem_wordTokens {w : String} (plain : ∀ c ∈ word, isSeparator c = false)
    (member : .word w ∈ wordTokens word) : IsWord w := by
  unfold wordTokens at member
  split at member
  · cases member
  · next some_char =>
    obtain rfl : w = String.ofList word.reverse := by simpa using member
    refine ⟨fun empty => some_char ?_, fun c here => plain c (by simpa using here)⟩
    have none := congrArg String.toList empty
    simpa using none

/-- Every word that is read is a word. -/
theorem isWord_of_mem_scan {w : String} (plain : ∀ c ∈ word, isSeparator c = false)
    (member : .word w ∈ scan offset word chars) : IsWord w := by
  induction chars generalizing offset word with
  | nil => exact isWord_of_mem_wordTokens plain member
  | cons c chars ih =>
    have none : ∀ d ∈ ([] : List Char), isSeparator d = false := fun _ absent => by cases absent
    unfold scan at member
    dsimp only at member
    split at member
    · rcases List.mem_append.1 member with before | later
      · exact isWord_of_mem_wordTokens plain before
      · exact ih none (by simpa using later)
    · next noOpen =>
      split at member
      · rcases List.mem_append.1 member with before | later
        · exact isWord_of_mem_wordTokens plain before
        · exact ih none (by simpa using later)
      · next noClose =>
        split at member
        · rcases List.mem_append.1 member with before | later
          · exact isWord_of_mem_wordTokens plain before
          · exact ih none later
        · next noBlank =>
          apply ih _ member
          intro d here
          rcases List.mem_cons.1 here with rfl | before
          · simp [isSeparator, noOpen, noClose, noBlank]
          · exact plain d before

/-! ## The division of a text -/

/-- Characters from an offset on are divided into tokens: parentheses by themselves, and between
parentheses and blanks words, each of them as long as it can be. -/
inductive Divides : Nat → List Char → List Token → Prop
  | nil {offset : Nat} : Divides offset [] []
  | openParen {offset : Nat} {rest : List Char} {tokens : List Token}
      (later : Divides (offset + 1) rest tokens) :
      Divides offset ('(' :: rest) (.openParen offset :: tokens)
  | closeParen {offset : Nat} {rest : List Char} {tokens : List Token}
      (later : Divides (offset + 1) rest tokens) :
      Divides offset (')' :: rest) (.closeParen offset :: tokens)
  | blank {offset : Nat} {c : Char} {rest : List Char} {tokens : List Token}
      (blank : isBlank c = true) (later : Divides (offset + c.utf8Size) rest tokens) :
      Divides offset (c :: rest) tokens
  | word {offset : Nat} {w : String} {rest : List Char} {tokens : List Token}
      (isWord : IsWord w) (closes : Closes rest)
      (later : Divides (offset + w.utf8ByteSize) rest tokens) :
      Divides offset (w.toList ++ rest) (.word w :: tokens)

/-- A word read so far is divided off where it ends. -/
theorem Divides.wordTokens {tokens : List Token} (plain : ∀ c ∈ word, isSeparator c = false)
    (closes : Closes rest)
    (later : Divides (offset + (String.ofList word.reverse).utf8ByteSize) rest tokens) :
    Divides offset (word.reverse ++ rest) (wordTokens word ++ tokens) := by
  unfold Program.wordTokens
  cases word with
  | nil => simpa using later
  | cons c word =>
    have isWord : IsWord (String.ofList (c :: word).reverse) := by
      refine ⟨fun empty => ?_, fun d member => plain d (by simpa [or_comm] using member)⟩
      have none := congrArg String.toList empty
      simp at none
    simpa using Divides.word isWord closes later

/-- The scanner divides what it has read of a word, and what follows. -/
theorem divides_scan {start : Nat} (plain : ∀ c ∈ word, isSeparator c = false)
    (here : offset = start + (String.ofList word.reverse).utf8ByteSize) :
    Divides start (word.reverse ++ chars) (scan offset word chars) := by
  induction chars generalizing offset word start with
  | nil =>
    rw [scan, ← List.append_nil (wordTokens word)]
    exact .wordTokens plain closes_nil .nil
  | cons c chars ih =>
    have none : ∀ d ∈ ([] : List Char), isSeparator d = false := fun _ absent => by cases absent
    unfold scan
    dsimp only
    split
    · next opening =>
      subst opening here
      exact .wordTokens plain (closes_cons rfl chars) (.openParen (ih none (by simp; rfl)))
    · next noOpen =>
      split
      · next closing =>
        subst closing here
        exact .wordTokens plain (closes_cons rfl chars) (.closeParen (ih none (by simp; rfl)))
      · next noClose =>
        split
        · next blank =>
          subst here
          have separator : isSeparator c = true := by simp [isSeparator, blank]
          exact .wordTokens plain (closes_cons separator chars) (.blank blank (ih none (by simp)))
        · next noBlank =>
          have within : ∀ d ∈ c :: word, isSeparator d = false := by
            intro d member
            rcases List.mem_cons.1 member with rfl | before
            · simp [isSeparator, noOpen, noClose, noBlank]
            · exact plain d before
          have counted : offset + c.utf8Size =
              start + (String.ofList (c :: word).reverse).utf8ByteSize := by
            simp [here, Nat.add_assoc]
          simpa using ih within counted

/-- A text is divided into tokens in one way, and so the scanner divides it. -/
theorem divides_iff {tokens : List Token} :
    Divides offset chars tokens ↔ tokens = scan offset [] chars := by
  constructor
  · intro divides
    induction divides with
    | nil => rfl
    | openParen _ ih => rw [ih, scan_open]
    | closeParen _ ih => rw [ih, scan_close]
    | @blank _ c _ _ blank _ ih =>
      have noOpen : c ≠ '(' := fun same => by rw [same] at blank; cases blank
      have noClose : c ≠ ')' := fun same => by rw [same] at blank; cases blank
      rw [ih, scan, if_neg noOpen, if_neg noClose, if_pos blank]
      rfl
    | word isWord closes _ ih => rw [ih, scan_word_eq isWord _ closes]
  · intro scanned
    subst scanned
    have whole : Divides offset (([] : List Char).reverse ++ chars) (scan offset [] chars) :=
      divides_scan (fun _ absent => by cases absent) (by simp)
    exact whole

end Program

end GrammarSearch
