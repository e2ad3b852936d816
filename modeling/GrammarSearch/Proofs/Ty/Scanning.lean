import GrammarSearch.Ty.Token

/-!
# Names in type texts

The tokens of a type text are its punctuation, its arrows and its words, and a word is a run of
characters between blanks, punctuation and arrows: a name. A name that is written into a text is
read back as one token if it ends there (`Ty.scan_name`), and every word that is read is a name.
A text is divided into tokens in one way (`Ty.divides_iff`).
-/

namespace GrammarSearch

namespace Ty

/-! ## Names -/

/-- A character that can stand in a name. -/
def isPlain (c : Char) : Bool := !isBlank c && (punctuation? c).isNone

/-- A text that can be read as one word: hyphens and greater signs belong to it as long as no two
of them make an arrow. -/
structure IsName (s : String) : Prop where
  ne_empty : s ≠ ""
  plain : ∀ c ∈ s.toList, isPlain c = true
  unbroken : ¬ ['-', '>'] <:+: s.toList

/-- An arrow stands here. -/
def startsArrow : List Char → Bool
  | '-' :: '>' :: _ => true
  | _ => false

/-- A name ends before these characters: there are none, or they start with a blank, with
punctuation or with an arrow. -/
def Ends (rest : List Char) : Prop :=
  (∀ c ∈ rest.head?, isPlain c = false) ∨ startsArrow rest = true

variable {offset : Nat} {word : Option Pending} {c : Char} {chars rest : List Char}
  {lexeme : Lexeme}

theorem ends_nil : Ends [] := .inl fun _ absent => by cases absent

theorem ends_cons (stops : isPlain c = false) (rest : List Char) : Ends (c :: rest) := by
  refine .inl fun d here => ?_
  cases here
  exact stops

theorem exists_of_startsArrow (starts : startsArrow chars = true) :
    ∃ rest, chars = '-' :: '>' :: rest := by
  unfold startsArrow at starts
  split at starts
  · exact ⟨_, rfl⟩
  · cases starts

theorem startsArrow_eq_false (apart : ∀ others, c = '-' → rest ≠ '>' :: others) :
    startsArrow (c :: rest) = false := by
  unfold startsArrow
  split
  · next others same =>
    obtain ⟨hyphen, greater⟩ := List.cons.inj same
    exact absurd greater (apart others hyphen)
  · rfl

theorem apart_of_ne (here : c ≠ '-') (rest : List Char) : startsArrow (c :: rest) = false :=
  startsArrow_eq_false fun _ hyphen => absurd hyphen here

/-! ## One character -/

theorem scan_arrow (offset : Nat) (word : Option Pending) (rest : List Char) :
    scan offset word ('-' :: '>' :: rest) =
      Pending.tokens word ++ ⟨.arrow, offset⟩ :: scan (offset + 2) none rest := rfl

theorem scan_cons (apart : startsArrow (c :: rest) = false) :
    scan offset word (c :: rest) =
      if isBlank c then Pending.tokens word ++ scan (offset + c.utf8Size) none rest
      else
        match punctuation? c with
        | some lexeme => Pending.tokens word ++ ⟨lexeme, offset⟩ :: scan (offset + 1) none rest
        | none => scan (offset + c.utf8Size) (some (Pending.push c offset word)) rest := by
  rw [scan.eq_def]
  split
  · next empty => cases empty
  · next others arrow =>
    rw [arrow] at apart
    cases apart
  · next d others _ same =>
    cases same
    rfl

theorem not_plain_of_blank (blank : isBlank c = true) : isPlain c = false := by
  simp [isPlain, blank]

theorem not_plain_of_punctuation (alone : punctuation? c = some lexeme) : isPlain c = false := by
  simp [isPlain, alone]

theorem ne_hyphen_of_not_plain (stops : isPlain c = false) : c ≠ '-' := by
  intro same
  subst same
  cases stops

theorem scan_blank (blank : isBlank c = true) :
    scan offset word (c :: rest) =
      Pending.tokens word ++ scan (offset + c.utf8Size) none rest := by
  rw [scan_cons (apart_of_ne (ne_hyphen_of_not_plain (not_plain_of_blank blank)) rest),
    if_pos blank]

theorem scan_punctuation (alone : punctuation? c = some lexeme) :
    scan offset word (c :: rest) =
      Pending.tokens word ++ ⟨lexeme, offset⟩ :: scan (offset + 1) none rest := by
  have stops := not_plain_of_punctuation alone
  have noBlank : isBlank c = false := by
    unfold punctuation? at alone
    split at alone
    all_goals first | rfl | cases alone
  rw [scan_cons (apart_of_ne (ne_hyphen_of_not_plain stops) rest), if_neg (by simp [noBlank]),
    alone]

theorem scan_plain (plain : isPlain c = true) (apart : startsArrow (c :: rest) = false) :
    scan offset word (c :: rest) =
      scan (offset + c.utf8Size) (some (Pending.push c offset word)) rest := by
  simp only [isPlain, Bool.and_eq_true, Bool.not_eq_true', Option.isNone_iff_eq_none] at plain
  rw [scan_cons apart, if_neg (by simp [plain.1]), plain.2]

/-! ## Whole words -/

/-- A word that has ended is a token. -/
theorem scan_of_ends (ends : Ends rest) :
    scan offset word rest = Pending.tokens word ++ scan offset none rest := by
  rcases ends with stops | starts
  · cases rest with
    | nil => exact (List.append_nil _).symm
    | cons c rest =>
      have here := stops c rfl
      by_cases blank : isBlank c = true
      · rw [scan_blank blank, scan_blank blank]
        rfl
      · obtain ⟨lexeme, alone⟩ : ∃ lexeme, punctuation? c = some lexeme := by
          simpa [isPlain, blank, Option.isSome_iff_exists] using here
        rw [scan_punctuation alone, scan_punctuation alone]
        rfl
  · obtain ⟨others, rfl⟩ := exists_of_startsArrow starts
    rw [scan_arrow, scan_arrow]
    rfl

theorem unbroken_tail {d : Char} {cs : List Char} (unbroken : ¬ ['-', '>'] <:+: d :: cs) :
    ¬ ['-', '>'] <:+: cs :=
  fun inside => unbroken (inside.trans (List.suffix_cons d cs).isInfix)

/-- No arrow starts inside of a name, not even with the last character. -/
theorem apart_of_unbroken {cs : List Char} (unbroken : ¬ ['-', '>'] <:+: c :: cs)
    (ends : Ends rest) : startsArrow (c :: (cs ++ rest)) = false := by
  refine startsArrow_eq_false fun others hyphen tail => ?_
  subst hyphen
  cases cs with
  | nil =>
    rw [List.nil_append] at tail
    subst tail
    rcases ends with stops | starts
    · cases stops '>' rfl
    · cases starts
  | cons d cs =>
    obtain ⟨rfl, -⟩ := List.cons.inj tail
    exact absurd ⟨[], cs, rfl⟩ unbroken

/-- The characters of a name are kept until the name ends, and their bytes are counted. -/
theorem scan_within (start : Nat) (reversed : List Char) (plain : ∀ c ∈ chars, isPlain c = true)
    (unbroken : ¬ ['-', '>'] <:+: chars) (ends : Ends rest) :
    scan offset (some ⟨start, reversed⟩) (chars ++ rest) =
      scan (offset + (String.ofList chars).utf8ByteSize) (some ⟨start, chars.reverse ++ reversed⟩)
        rest := by
  induction chars generalizing offset reversed with
  | nil => simp
  | cons c chars ih =>
    rw [List.cons_append, scan_plain (plain c List.mem_cons_self) (apart_of_unbroken unbroken ends),
      Pending.push, ih _ (fun d member => plain d (List.mem_cons_of_mem c member))
        (unbroken_tail unbroken), String.ofList_cons, String.utf8ByteSize_append,
      String.utf8ByteSize_singleton, ← Nat.add_assoc, List.reverse_cons, List.append_assoc]
    rfl

/-- A name is read back where it ends. -/
theorem scan_name {name : String} (isName : IsName name) (ends : Ends rest) :
    scan offset none (name.toList ++ rest) =
      ⟨.word name, offset⟩ :: scan (offset + name.utf8ByteSize) none rest := by
  have plain := isName.plain
  have unbroken := isName.unbroken
  cases chars : name.toList with
  | nil =>
    rw [String.toList_eq_nil_iff] at chars
    exact absurd chars isName.ne_empty
  | cons c cs =>
    rw [chars] at plain unbroken
    have name_eq : name = String.ofList (c :: cs) := by rw [← chars, String.ofList_toList]
    rw [List.cons_append, scan_plain (plain c List.mem_cons_self) (apart_of_unbroken unbroken ends),
      Pending.push, scan_within _ _ (fun d member => plain d (List.mem_cons_of_mem c member))
        (unbroken_tail unbroken) ends, scan_of_ends ends, name_eq, String.ofList_cons,
      String.utf8ByteSize_append, String.utf8ByteSize_singleton, ← Nat.add_assoc]
    simp [Pending.tokens]

/-! ## The division of a text -/

/-- Characters from an offset on are divided into tokens: punctuation and arrows by themselves, and
between these and blanks names, each of them as long as it can be. -/
inductive Divides : Nat → List Char → List Token → Prop
  | nil {offset : Nat} : Divides offset [] []
  | blank {offset : Nat} {c : Char} {rest : List Char} {tokens : List Token}
      (blank : isBlank c = true) (later : Divides (offset + c.utf8Size) rest tokens) :
      Divides offset (c :: rest) tokens
  | punctuation {offset : Nat} {c : Char} {lexeme : Lexeme} {rest : List Char}
      {tokens : List Token} (alone : punctuation? c = some lexeme)
      (later : Divides (offset + 1) rest tokens) :
      Divides offset (c :: rest) (⟨lexeme, offset⟩ :: tokens)
  | arrow {offset : Nat} {rest : List Char} {tokens : List Token}
      (later : Divides (offset + 2) rest tokens) :
      Divides offset ('-' :: '>' :: rest) (⟨.arrow, offset⟩ :: tokens)
  | name {offset : Nat} {name : String} {rest : List Char} {tokens : List Token}
      (isName : IsName name) (ends : Ends rest)
      (later : Divides (offset + name.utf8ByteSize) rest tokens) :
      Divides offset (name.toList ++ rest) (⟨.word name, offset⟩ :: tokens)

/-- What the scanner has read of a word can be a name, and the character that follows makes no arrow
with it. -/
inductive Pending.Sound (offset : Nat) (chars : List Char) : Option Pending → Prop
  | idle : Sound offset chars none
  | within {start : Nat} {reversed : List Char} (some_char : reversed ≠ [])
      (plain : ∀ c ∈ reversed, isPlain c = true)
      (unbroken : ¬ ['-', '>'] <:+: reversed.reverse ++ chars.take 1)
      (counted : offset = start + (String.ofList reversed.reverse).utf8ByteSize) :
      Sound offset chars (some ⟨start, reversed⟩)

/-- The characters of a word read so far. -/
def Pending.read : Option Pending → List Char
  | none => []
  | some word => word.reversed.reverse

/-- Where a word read so far starts. -/
def Pending.first (offset : Nat) : Option Pending → Nat
  | none => offset
  | some word => word.start

/-- A word read so far is divided off where it ends. -/
theorem Divides.pending {tokens : List Token} (sound : Pending.Sound offset chars word)
    (ends : Ends chars) (later : Divides offset chars tokens) :
    Divides (Pending.first offset word) (Pending.read word ++ chars)
      (Pending.tokens word ++ tokens) := by
  cases sound with
  | idle => exact later
  | @within start reversed some_char plain unbroken counted =>
    have isName : IsName (String.ofList reversed.reverse) := by
      refine ⟨fun empty => some_char ?_, fun c member => plain c (by simpa using member), ?_⟩
      · have none := congrArg String.toList empty
        simpa using none
      · rw [String.toList_ofList]
        exact fun inside => unbroken (inside.trans (List.prefix_append _ _).isInfix)
    rw [counted] at later
    have divided := Divides.name isName ends later
    rwa [String.toList_ofList] at divided

/-- One more character belongs to the word if no arrow starts with it. -/
theorem Pending.Sound.push (sound : Pending.Sound offset (c :: rest) word)
    (plain : isPlain c = true) (apart : startsArrow (c :: rest) = false) :
    Pending.Sound (offset + c.utf8Size) rest (some (Pending.push c offset word)) := by
  cases sound with
  | idle =>
    refine .within (List.cons_ne_nil c []) (by simpa using plain) (fun inside => ?_) (by simp)
    cases rest with
    | nil =>
      have short := inside.length_le
      simp at short
    | cons d rest =>
      have same := inside.eq_of_length rfl
      cases same
      cases apart
  | @within start reversed some_char plains unbroken counted =>
    refine .within (List.cons_ne_nil c reversed) (by simpa using ⟨plain, plains⟩)
      (fun inside => ?_) (by simp [counted, Nat.add_assoc])
    cases rest with
    | nil => exact unbroken (by simpa using inside)
    | cons d rest =>
      have split : (c :: reversed).reverse ++ (d :: rest).take 1 =
          (reversed.reverse ++ [c]) ++ [d] := by simp
      rw [split] at inside
      rcases List.infix_concat_iff.1 inside with last | before
      · have ends := List.reverse_prefix.2 last
        simp only [List.reverse_append, List.reverse_cons, List.reverse_nil, List.nil_append,
          List.cons_append, List.cons_prefix_cons] at ends
        obtain ⟨rfl, rfl, -⟩ := ends
        cases apart
      · exact unbroken before

/-- The scanner divides what it has read of a word, and what follows. -/
theorem divides_scan (sound : Pending.Sound offset chars word) :
    Divides (Pending.first offset word) (Pending.read word ++ chars) (scan offset word chars) := by
  fun_induction scan offset word chars with
  | case1 offset word =>
    rw [← List.append_nil (Pending.tokens word)]
    exact .pending sound ends_nil .nil
  | case2 offset word rest ih => exact .pending sound (.inr rfl) (.arrow (ih .idle))
  | case3 offset word c rest _ blank ih =>
    exact .pending sound (ends_cons (not_plain_of_blank blank) rest) (.blank blank (ih .idle))
  | case4 offset word c rest _ _ lexeme alone ih =>
    have ends := ends_cons (not_plain_of_punctuation alone) rest
    exact .pending sound ends (.punctuation alone (ih .idle))
  | case5 offset word c rest apart noBlank alone ih =>
    have plain : isPlain c = true := by simp [isPlain, noBlank, alone]
    have longer := ih (sound.push plain (startsArrow_eq_false apart))
    cases word with
    | none => exact longer
    | some word => simpa [Pending.read, Pending.first, Pending.push] using longer

/-- A text is divided into tokens in one way, and so the scanner divides it. -/
theorem divides_iff {tokens : List Token} :
    Divides offset chars tokens ↔ tokens = scan offset none chars := by
  constructor
  · intro divides
    induction divides with
    | nil => rfl
    | blank blank _ ih =>
      rw [ih, scan_blank blank]
      rfl
    | punctuation alone _ ih =>
      rw [ih, scan_punctuation alone]
      rfl
    | arrow _ ih =>
      rw [ih, scan_arrow]
      rfl
    | name isName ends _ ih => rw [ih, scan_name isName ends]
  · intro scanned
    subst scanned
    exact divides_scan .idle

/-- Every word of a text is a name. -/
theorem Divides.isName_of_mem {tokens : List Token} {name : String} {start : Nat}
    (divides : Divides offset chars tokens) (member : ⟨.word name, start⟩ ∈ tokens) :
    IsName name := by
  induction divides with
  | nil => cases member
  | blank _ _ ih => exact ih member
  | punctuation alone _ ih =>
    rcases List.mem_cons.1 member with here | later
    · cases here
      unfold punctuation? at alone
      split at alone <;> cases alone
    · exact ih later
  | arrow _ ih =>
    rcases List.mem_cons.1 member with here | later
    · cases here
    · exact ih later
  | name isName _ _ ih =>
    rcases List.mem_cons.1 member with here | later
    · cases here
      exact isName
    · exact ih later

end Ty

end GrammarSearch
