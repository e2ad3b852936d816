import GrammarSearch.Json.Canonical
import GrammarSearch.Json.Token
import Mathlib.Tactic.IntervalCases
import Std.Data.String.ToInt

/-!
# Unique decoding of compact JSON

The compact text of a value tells where it ends and which value it is, as long
as the numbers in it are words: `Json.compact_append_inj`. A number is the one
exception to telling where it ends, so what follows a value must not go on like
a number. Hence values with one canonical text are one value once their members
are sorted.

The proofs run over lists of characters, from left to right, and follow the
printer: every constructor has an opening character of its own.
-/

namespace GrammarSearch

namespace Json

/-! ## Strings -/

/-- Reads one character of a string off the front of a text. -/
def unescape? : List Char → Option (Char × List Char)
  | [] => none
  | c :: rest =>
    if c = '\\' then
      match rest with
      | 'u' :: _ :: _ :: high :: low :: rest => do
        return (Char.ofNat ((← hexValue? high) * 16 + (← hexValue? low)), rest)
      | e :: rest => (escaped? e).map fun c => (c, rest)
      | [] => none
    else some (c, rest)

theorem escapeDigits_of_lt {n : Nat} (control : n < 0x20) :
    ∃ high low, escapeDigits n = ['0', '0', high, low] ∧
      ∃ a b, hexValue? high = some a ∧ hexValue? low = some b ∧ a * 16 + b = n := by
  interval_cases n <;> exact ⟨_, _, rfl, _, _, rfl, rfl, rfl⟩

/-- A character is read back from its escape. -/
theorem unescape?_escapeChar (c : Char) (rest : List Char) :
    unescape? (escapeChar c ++ rest) = some (c, rest) := by
  unfold escapeChar
  split
  all_goals try rfl
  next _ plain _ _ _ _ _ =>
    split
    · next control =>
      obtain ⟨high, low, digits, a, b, atHigh, atLow, value⟩ := escapeDigits_of_lt control
      simp only [digits, unescape?, List.cons_append, List.nil_append, if_true, atHigh, atLow]
      simp [value]
    · have keep : c ≠ '\\' := plain
      simp [unescape?, keep]

theorem escapeChar_append_inj {c d : Char} {rest others : List Char}
    (same : escapeChar c ++ rest = escapeChar d ++ others) : c = d ∧ rest = others := by
  have read := congrArg unescape? same
  rw [unescape?_escapeChar, unescape?_escapeChar] at read
  simpa using read

/-- No escape begins with a quotation mark. -/
theorem escapeChar_append_ne (c : Char) (rest others : List Char) :
    escapeChar c ++ rest ≠ '"' :: others := by
  intro same
  have read := congrArg unescape? same
  rw [unescape?_escapeChar] at read
  obtain ⟨rfl, -⟩ : c = '"' ∧ rest = others := by simpa [unescape?] using read
  cases same

theorem escape_append_inj {cs ds : List Char} {rest others : List Char}
    (same : cs.flatMap escapeChar ++ '"' :: rest = ds.flatMap escapeChar ++ '"' :: others) :
    cs = ds ∧ rest = others := by
  induction cs generalizing ds with
  | nil =>
    cases ds with
    | nil => simpa using same
    | cons d ds =>
      rw [List.flatMap_cons, List.append_assoc] at same
      exact (escapeChar_append_ne _ _ _ same.symm).elim
  | cons c cs ih =>
    rw [List.flatMap_cons, List.append_assoc] at same
    cases ds with
    | nil => exact (escapeChar_append_ne _ _ _ same).elim
    | cons d ds =>
      rw [List.flatMap_cons, List.append_assoc] at same
      obtain ⟨rfl, tails⟩ := escapeChar_append_inj same
      obtain ⟨rfl, rests⟩ := ih tails
      exact ⟨rfl, rests⟩

theorem toList_stringText (s : String) :
    (stringText s).toList = '"' :: (s.toList.flatMap escapeChar ++ ['"']) := by
  simp [stringText]

/-- A string is read off the front of a text in one way. -/
theorem stringText_append_inj {s t : String} {rest others : List Char}
    (same : (stringText s).toList ++ rest = (stringText t).toList ++ others) :
    s = t ∧ rest = others := by
  simp only [toList_stringText, List.cons_append, List.append_assoc, List.nil_append,
    List.cons.injEq, true_and] at same
  obtain ⟨characters, rests⟩ := escape_append_inj same
  exact ⟨String.toList_injective characters, rests⟩

/-! ## Numbers -/

/-- A character of an integer. -/
def isIntegral (c : Char) : Bool := c.isDigit || c == '-'

/-- A text does not go on like an integer. -/
def Closed (rest : List Char) : Prop := ∀ c ∈ rest.head?, isIntegral c = false

theorem Closed.nil : Closed [] := by simp [Closed]

theorem Closed.cons {c : Char} (rest : List Char) (closed : isIntegral c = false) :
    Closed (c :: rest) := by simpa [Closed] using closed

/-- A run of characters of one kind is read off the front of a text in one way. -/
theorem run_append_inj {kind : Char → Bool} {run other rest others : List Char}
    (inRun : ∀ c ∈ run, kind c = true) (inOther : ∀ c ∈ other, kind c = true)
    (afterRun : ∀ c ∈ rest.head?, kind c = false) (afterOther : ∀ c ∈ others.head?, kind c = false)
    (same : run ++ rest = other ++ others) : run = other ∧ rest = others := by
  induction run generalizing other with
  | nil =>
    cases other with
    | nil => exact ⟨rfl, same⟩
    | cons d other =>
      have wrong := afterRun d (by rw [List.nil_append] at same; simp [same])
      simp [inOther d List.mem_cons_self] at wrong
  | cons c run ih =>
    cases other with
    | nil =>
      have wrong := afterOther c (by rw [List.nil_append] at same; simp [← same])
      simp [inRun c List.mem_cons_self] at wrong
    | cons d other =>
      obtain ⟨rfl, tails⟩ := List.cons.inj same
      obtain ⟨rfl, rests⟩ := ih (fun c member => inRun c (List.mem_cons_of_mem _ member))
        (fun c member => inOther c (List.mem_cons_of_mem _ member)) tails
      exact ⟨rfl, rests⟩

theorem isIntegral_of_mem_repr {n : Int} : ∀ c ∈ n.repr.toList, isIntegral c = true := by
  intro c member
  cases n with
  | ofNat n =>
    have digit := Nat.isDigit_of_mem_toDigits (by decide) (by decide)
      (Nat.toList_repr ▸ member : c ∈ Nat.toDigits 10 n)
    simp [isIntegral, digit]
  | negSucc n =>
    simp only [Int.repr, String.toList_append, List.mem_append] at member
    rcases member with sign | digits
    · obtain rfl : c = '-' := by simpa using sign
      rfl
    · rw [Nat.toList_repr] at digits
      simp [isIntegral, Nat.isDigit_of_mem_toDigits (by decide) (by decide) digits]

theorem repr_ne_nil (n : Int) : n.repr.toList ≠ [] := by
  cases n with
  | ofNat n => simp [Int.repr, Nat.toList_repr]
  | negSucc n => simp [Int.repr]

/-- A word is written as an integer. -/
theorem Number.text_of_isWord {n : Number} (word : n.IsWord) :
    ∃ value, n = .integer value ∧ n.text = value.repr := by
  cases n with
  | integer value => exact ⟨value, rfl, by simp [Number.text, word, Int.toString_eq_repr]⟩
  | binary value => exact word.elim

theorem Number.text_append_inj {m n : Number} {rest others : List Char} (wordM : m.IsWord)
    (wordN : n.IsWord) (closed : Closed rest) (closedOther : Closed others)
    (same : m.text.toList ++ rest = n.text.toList ++ others) : m = n ∧ rest = others := by
  obtain ⟨a, rfl, textA⟩ := Number.text_of_isWord wordM
  obtain ⟨b, rfl, textB⟩ := Number.text_of_isWord wordN
  rw [textA, textB] at same
  obtain ⟨digits, rests⟩ := run_append_inj isIntegral_of_mem_repr
    isIntegral_of_mem_repr closed closedOther same
  exact ⟨congrArg Number.integer (Int.repr_injective (String.toList_injective digits)), rests⟩

/-! ## Opening characters -/

/-- What kind of value a character opens; the last kind opens none. -/
def opened (c : Char) : Nat :=
  if c = 'n' then 0
  else if c = 't' ∨ c = 'f' then 1
  else if isIntegral c then 2
  else if c = '"' then 3
  else if c = '[' then 4
  else if c = '\x7b' then 5
  else 6

/-- The kind of a value. -/
def form : Json → Nat
  | .null => 0
  | .bool _ => 1
  | .number _ => 2
  | .text _ => 3
  | .array _ => 4
  | .object _ => 5

theorem opened_of_isIntegral {c : Char} (integral : isIntegral c = true) : opened c = 2 := by
  have notN : c ≠ 'n' := by rintro rfl; cases integral
  have notT : c ≠ 't' := by rintro rfl; cases integral
  have notF : c ≠ 'f' := by rintro rfl; cases integral
  simp [opened, notN, notT, notF, integral]

/-- The first character of a value tells its kind. -/
theorem exists_opening {v : Json} (words : v.firstNonWord? = none) :
    ∃ c rest, v.compact.toList = c :: rest ∧ opened c = v.form := by
  cases v with
  | null => exact ⟨_, _, rfl, rfl⟩
  | bool value => cases value <;> exact ⟨_, _, rfl, rfl⟩
  | number n =>
    have word : n.IsWord := by simpa [firstNonWord?] using words
    obtain ⟨value, rfl, text⟩ := Number.text_of_isWord word
    obtain ⟨c, rest, split⟩ := List.exists_cons_of_ne_nil (repr_ne_nil value)
    refine ⟨c, rest, by rw [compact, text, split], opened_of_isIntegral ?_⟩
    exact isIntegral_of_mem_repr (n := value) c (by simp [split])
  | text value => exact ⟨_, _, by rw [compact, toList_stringText], rfl⟩
  | array items => exact ⟨'[', (compactItems items).toList ++ [']'], by simp [compact], rfl⟩
  | object members =>
    exact ⟨'\x7b', (compactMembers members).toList ++ ['\x7d'], by simp [compact], rfl⟩

theorem form_eq_of_append_eq {v w : Json} {rest others : List Char}
    (wordsV : v.firstNonWord? = none) (wordsW : w.firstNonWord? = none)
    (same : v.compact.toList ++ rest = w.compact.toList ++ others) : v.form = w.form := by
  obtain ⟨c, _, atV, kindV⟩ := exists_opening wordsV
  obtain ⟨d, _, atW, kindW⟩ := exists_opening wordsW
  rw [atV, atW, List.cons_append, List.cons_append] at same
  rw [← kindV, ← kindW, (List.cons.inj same).1]

/-- No value begins with a closing bracket. -/
theorem compact_append_ne_close {v : Json} {rest others : List Char}
    (words : v.firstNonWord? = none) : v.compact.toList ++ rest ≠ ']' :: others := by
  intro same
  obtain ⟨c, _, atV, kind⟩ := exists_opening words
  rw [atV, List.cons_append] at same
  obtain rfl := (List.cons.inj same).1
  cases v <;> cases kind

/-! ## Values -/

/-- What follows the first item of an array, up to the closing bracket. -/
def itemsAfter (items : List Json) (rest : List Char) : List Char :=
  if items.isEmpty then rest else ',' :: ((compactItems items).toList ++ rest)

theorem compactItems_cons_append (item : Json) (items : List Json) (rest : List Char) :
    (compactItems (item :: items)).toList ++ rest =
      item.compact.toList ++ itemsAfter items rest := by
  cases items <;> simp [compactItems, itemsAfter]

theorem Closed.itemsAfter (items : List Json) (rest : List Char) :
    Closed (itemsAfter items (']' :: rest)) := by
  cases items <;> exact .cons _ rfl

/-- What follows the first member of an object, up to the closing brace. -/
def membersAfter (members : List (String × Json)) (rest : List Char) : List Char :=
  if members.isEmpty then rest else ',' :: ((compactMembers members).toList ++ rest)

theorem compactMembers_cons_append (key : String) (value : Json) (members : List (String × Json))
    (rest : List Char) :
    (compactMembers ((key, value) :: members)).toList ++ rest =
      (stringText key).toList ++ ':' :: (value.compact.toList ++ membersAfter members rest) := by
  cases members <;> simp [compactMembers, membersAfter]

theorem Closed.membersAfter (members : List (String × Json)) (rest : List Char) :
    Closed (membersAfter members ('\x7d' :: rest)) := by
  cases members <;> exact .cons _ rfl

mutual

/-- A value whose numbers are words is read off the front of a text in one way. -/
theorem compact_append_inj {v w : Json} {rest others : List Char}
    (wordsV : v.firstNonWord? = none) (wordsW : w.firstNonWord? = none) (closed : Closed rest)
    (closedOther : Closed others) (same : v.compact.toList ++ rest = w.compact.toList ++ others) :
    v = w ∧ rest = others := by
  have forms := form_eq_of_append_eq wordsV wordsW same
  cases v with
  | null =>
    cases w with
    | null => exact ⟨rfl, List.append_cancel_left same⟩
    | _ => cases forms
  | bool a =>
    cases w with
    | bool b => cases a <;> cases b <;> simp_all [compact]
    | _ => cases forms
  | number m =>
    cases w with
    | number n =>
      obtain ⟨rfl, rests⟩ := Number.text_append_inj (by simpa [firstNonWord?] using wordsV)
        (by simpa [firstNonWord?] using wordsW) closed closedOther same
      exact ⟨rfl, rests⟩
    | _ => cases forms
  | text s =>
    cases w with
    | text t =>
      obtain ⟨rfl, rests⟩ := stringText_append_inj same
      exact ⟨rfl, rests⟩
    | _ => cases forms
  | array items =>
    cases w with
    | array otherItems =>
      have inner : (compactItems items).toList ++ ']' :: rest =
          (compactItems otherItems).toList ++ ']' :: others := by
        simpa [compact] using same
      obtain ⟨rfl, rests⟩ := compactItems_append_inj wordsV wordsW inner
      exact ⟨rfl, rests⟩
    | _ => cases forms
  | object members =>
    cases w with
    | object otherMembers =>
      have inner : (compactMembers members).toList ++ '\x7d' :: rest =
          (compactMembers otherMembers).toList ++ '\x7d' :: others := by
        simpa [compact] using same
      obtain ⟨rfl, rests⟩ := compactMembers_append_inj wordsV wordsW inner
      exact ⟨rfl, rests⟩
    | _ => cases forms

/-- So are the items of an array with the bracket that closes it. -/
theorem compactItems_append_inj : ∀ {xs ys : List Json} {rest others : List Char},
    firstNonWordItem? xs = none → firstNonWordItem? ys = none →
      (compactItems xs).toList ++ ']' :: rest = (compactItems ys).toList ++ ']' :: others →
        xs = ys ∧ rest = others
  | [], [], rest, others, _, _, same => ⟨rfl, by simpa [compactItems] using same⟩
  | [], y :: ys, rest, others, _, wordsY, same => by
      rw [compactItems_cons_append] at same
      obtain ⟨wordY, -⟩ := Option.or_eq_none_iff.1 wordsY
      exact (compact_append_ne_close wordY same.symm).elim
  | x :: xs, [], rest, others, wordsX, _, same => by
      rw [compactItems_cons_append] at same
      obtain ⟨wordX, -⟩ := Option.or_eq_none_iff.1 wordsX
      exact (compact_append_ne_close wordX same).elim
  | x :: xs, y :: ys, rest, others, wordsX, wordsY, same => by
      obtain ⟨wordX, wordsXs⟩ := Option.or_eq_none_iff.1 wordsX
      obtain ⟨wordY, wordsYs⟩ := Option.or_eq_none_iff.1 wordsY
      rw [compactItems_cons_append, compactItems_cons_append] at same
      obtain ⟨rfl, tails⟩ := compact_append_inj wordX wordY (.itemsAfter xs rest)
        (.itemsAfter ys others) same
      cases xs with
      | nil =>
        cases ys with
        | nil => exact ⟨rfl, (List.cons.inj tails).2⟩
        | cons y ys => cases (List.cons.inj tails).1
      | cons x xs =>
        cases ys with
        | nil => cases (List.cons.inj tails).1
        | cons y ys =>
          obtain ⟨same, rests⟩ := compactItems_append_inj wordsXs wordsYs (List.cons.inj tails).2
          exact ⟨by rw [same], rests⟩

/-- So are the members of an object with the brace that closes it. -/
theorem compactMembers_append_inj : ∀ {xs ys : List (String × Json)} {rest others : List Char},
    firstNonWordMember? xs = none → firstNonWordMember? ys = none →
      (compactMembers xs).toList ++ '\x7d' :: rest =
        (compactMembers ys).toList ++ '\x7d' :: others → xs = ys ∧ rest = others
  | [], [], rest, others, _, _, same => ⟨rfl, by simpa [compactMembers] using same⟩
  | [], (key, value) :: ys, rest, others, _, _, same => by
      rw [compactMembers_cons_append, toList_stringText] at same
      cases (List.cons.inj same).1
  | (key, value) :: xs, [], rest, others, _, _, same => by
      rw [compactMembers_cons_append, toList_stringText] at same
      cases (List.cons.inj same).1
  | (key, x) :: xs, (other, y) :: ys, rest, others, wordsX, wordsY, same => by
      obtain ⟨wordX, wordsXs⟩ := Option.or_eq_none_iff.1 wordsX
      obtain ⟨wordY, wordsYs⟩ := Option.or_eq_none_iff.1 wordsY
      rw [compactMembers_cons_append, compactMembers_cons_append] at same
      obtain ⟨rfl, values⟩ := stringText_append_inj same
      obtain ⟨rfl, tails⟩ := compact_append_inj wordX wordY (.membersAfter xs rest)
        (.membersAfter ys others) (List.cons.inj values).2
      cases xs with
      | nil =>
        cases ys with
        | nil => exact ⟨rfl, (List.cons.inj tails).2⟩
        | cons y ys => cases (List.cons.inj tails).1
      | cons x xs =>
        cases ys with
        | nil => cases (List.cons.inj tails).1
        | cons y ys =>
          obtain ⟨same, rests⟩ := compactMembers_append_inj wordsXs wordsYs (List.cons.inj tails).2
          exact ⟨by rw [same], rests⟩

end

/-- Values with one canonical text differ in the order of their members only. -/
theorem sorted_eq_of_canonical_eq {v w : Json} {text : String} (textV : v.canonical = .ok text)
    (textW : w.canonical = .ok text) : v.sorted = w.sorted := by
  unfold canonical at textV textW
  cases wordsV : v.sorted.firstNonWord? with
  | some offender => simp [wordsV] at textV
  | none =>
    cases wordsW : w.sorted.firstNonWord? with
    | some offender => simp [wordsW] at textW
    | none =>
      simp only [wordsV, Except.ok.injEq] at textV
      simp only [wordsW, Except.ok.injEq] at textW
      refine (compact_append_inj wordsV wordsW .nil .nil ?_).1
      rw [textV, textW]

end Json

end GrammarSearch
