import GrammarSearch.Program.Parser
import GrammarSearch.Proofs.Program.Preorder
import GrammarSearch.Proofs.Program.Scanning

/-!
# Reading the text of a program

The reader keeps the lists that are open on a stack, the printer recurses. Reading
the text of a program comes to what follows it with the program added to the
innermost list (`Program.run_text`). Conversely a program that was read from any
text is made of words and is not too deep (`Program.parse_legible`). Together they
say which programs are read back from their texts: `Program.parse_text_iff`.
-/

namespace GrammarSearch

namespace Program

/-! ## Legible programs -/

/-- A node with the label can be read: its symbol is a word, or in the marked style the mark of a
leaf and nothing else. -/
structure Style.Spells (style : Style) (label : String × Nat) : Prop where
  unseparated : ∀ c ∈ label.1.toList, isSeparator c = false
  of_empty : label.1 = "" → style = .marked ∧ label.2 = 0

/-- Every node of the program can be read. -/
def Legible (style : Style) (p : Program) : Prop :=
  ∀ label ∈ p.labels, style.Spells label

/-- Every node of the programs can be read. -/
def LegibleList (style : Style) (ps : List Program) : Prop :=
  ∀ label ∈ labelsList ps, style.Spells label

variable {style : Style} {reading : Reading} {symbol : String} {children : List Program}

theorem legible_node : (Program.node symbol children).Legible style ↔
    style.Spells (symbol, children.length) ∧ LegibleList style children := by
  simp [Legible, LegibleList, labels]

theorem legibleList_cons {p : Program} {ps : List Program} :
    LegibleList style (p :: ps) ↔ p.Legible style ∧ LegibleList style ps := by
  simp [Legible, LegibleList, labelsList, or_imp, forall_and]

theorem legibleList_iff {ps : List Program} :
    LegibleList style ps ↔ ∀ p ∈ ps, p.Legible style := by
  induction ps with
  | nil => simp [LegibleList, labelsList]
  | cons p ps ih => rw [legibleList_cons, ih, List.forall_mem_cons]

theorem IsWord.spells (isWord : IsWord symbol) (arguments : Nat) :
    style.Spells (symbol, arguments) :=
  ⟨isWord.unseparated, fun empty => absurd empty isWord.ne_empty⟩

/-- The head of a list is a word. -/
theorem Style.Spells.isWord_of_pos {arguments : Nat} (spells : style.Spells (symbol, arguments))
    (some_argument : arguments ≠ 0) : IsWord symbol :=
  ⟨fun empty => some_argument (spells.of_empty empty).2, spells.unseparated⟩

/-- The text of a leaf is a word. -/
theorem Style.Spells.isWord_leafText (spells : style.Spells (symbol, 0)) :
    IsWord (leafText style symbol) := by
  cases style with
  | bare =>
    refine ⟨fun empty => ?_, spells.unseparated⟩
    exact absurd (spells.of_empty empty).1 (by decide)
  | marked =>
    unfold leafText
    dsimp only
    split
    · next shown =>
      refine ⟨?_, spells.unseparated⟩
      rintro rfl
      cases shown
    · refine ⟨by simp [leafMark], fun c member => ?_⟩
      have plain : leafMark.toList.all (fun d => !isSeparator d) = true := rfl
      rw [String.toList_append] at member
      rcases List.mem_append.1 member with mark | own
      · simpa using List.all_eq_true.1 plain c mark
      · exact spells.unseparated c own

/-! ## Leaves -/

/-- What the text of a program denotes. -/
def Reading.denoted (reading : Reading) : Program → Parsed
  | .node symbol [] => reading.word (leafText reading.style symbol)
  | .node symbol (child :: children) => .program (.node symbol (child :: children))

/-- In the marked style the text of a leaf denotes the leaf. -/
theorem Reading.word_of_marked (marked : reading.style = .marked) (symbol : String) :
    reading.word (leafText .marked symbol) = .program (.leaf symbol) := by
  unfold Reading.word leafText
  rw [marked]
  dsimp only
  cases shown : isVariable symbol with
  | true =>
    have unmarked : leafMark.toList.isPrefixOf symbol.toList = false := by
      unfold isVariable at shown
      cases chars : symbol.toList with
      | nil => rfl
      | cons c rest =>
        rw [chars] at shown
        obtain rfl : c = '$' := by simpa using shown
        rfl
    simp [unmarked, shown]
  | false =>
    have left : (leafMark.toList ++ symbol.toList).drop leafMark.length = symbol.toList :=
      List.drop_left' String.length_toList
    simp [left]

/-- In the bare style it does so if the symbol is listed. -/
theorem Reading.word_of_bare (bare : reading.style = .bare) (symbol : String) :
    reading.word (leafText .bare symbol) =
      if symbol ∈ reading.calls then .program (.leaf symbol) else .atom symbol := by
  rw [Reading.word, bare]
  rfl

theorem Reading.toProgram_denoted (reading : Reading) (p : Program) :
    (reading.denoted p).toProgram = p := by
  rcases p with ⟨symbol, _ | ⟨child, children⟩⟩
  · change (reading.word (leafText reading.style symbol)).toProgram = leaf symbol
    cases style : reading.style with
    | bare =>
      rw [Reading.word_of_bare style]
      split <;> rfl
    | marked => rw [Reading.word_of_marked style, Parsed.toProgram]
  · rfl

/-! ## Reading the text of a program -/

/-- The innermost list, if one is open, has its head. -/
def State.Ready (state : State) : Prop := ∀ list ∈ state.lists.head?, list.head?.isSome = true

theorem State.ready_initial : State.initial.Ready := fun _ member => by cases member

/-- A list opens where an argument may stand. -/
theorem State.step_open {state : State} (ready : state.Ready)
    (room : state.lists.length < maxNesting) (offset : Nat) :
    state.step reading (.openParen offset) =
      .ok { state with lists := ⟨offset, none, []⟩ :: state.lists } := by
  unfold State.step
  dsimp only
  rw [if_neg (Nat.not_le_of_lt room)]
  rcases state with ⟨_ | ⟨⟨outer, _ | head, reversed⟩, lists⟩, found⟩
  · rfl
  · cases ready _ rfl
  · rfl

theorem State.step_word {state : State} (ready : state.Ready) (w : String) :
    state.step reading (.word w) = .ok (state.add (reading.word w)) := by
  rcases state with ⟨_ | ⟨⟨outer, _ | head, reversed⟩, lists⟩, found⟩
  · rfl
  · cases ready _ rfl
  · rfl

/-- The first word of a list is its head. -/
theorem State.step_head (start : Nat) (lists : List OpenList) (found : List Parsed) (w : String) :
    State.step reading ⟨⟨start, none, []⟩ :: lists, found⟩ (.word w) =
      .ok ⟨⟨start, some w, []⟩ :: lists, found⟩ := rfl

/-- A list that is closed becomes an application of its head. -/
theorem State.step_close (start offset : Nat) (head : String) (reversed : List Program)
    (lists : List OpenList) (found : List Parsed) :
    State.step reading ⟨⟨start, some head, reversed⟩ :: lists, found⟩ (.closeParen offset) =
      .ok (State.add ⟨lists, found⟩ (.program (.node head reversed.reverse))) := rfl

theorem State.run_of_step {state after : State} {token : Token} {tokens : List Token}
    (step : state.step reading token = .ok after) :
    state.run reading (token :: tokens) = after.run reading tokens := by
  rw [State.run, step]

theorem depth_pos (p : Program) : 0 < p.depth := by
  cases p
  rw [depth]
  omega

/-- What follows an argument ends a word. -/
theorem closes_argumentsText (style : Style) (ps : List Program) {rest : List Char}
    (closes : Closes rest) : Closes ((argumentsText style ps).toList ++ rest) := by
  cases ps with
  | nil => exact closes
  | cons p ps =>
    rw [argumentsText, String.toList_append, String.toList_append]
    exact closes_cons rfl _

mutual

/-- To read the text of a program is to add the program to what was read. -/
theorem run_text (reading : Reading) : ∀ (p : Program), p.Legible reading.style →
    ∀ (state : State) (offset : Nat) (rest : List Char), state.Ready →
      state.lists.length + p.depth ≤ maxNesting + 1 → Closes rest →
        ∃ next, state.run reading (scan offset [] ((p.text reading.style).toList ++ rest)) =
          (state.add (reading.denoted p)).run reading (scan next [] rest)
  | .node symbol [] => by
      intro legible state offset rest ready room closes
      have spells := (legible_node.1 legible).1
      obtain ⟨next, read⟩ := scan_word spells.isWord_leafText offset closes
      refine ⟨next, ?_⟩
      rw [text, List.isEmpty_nil, if_pos rfl, read, State.run_of_step (State.step_word ready _)]
      rfl
  | .node symbol (child :: children) => by
      intro legible state offset rest ready room closes
      obtain ⟨spells, below⟩ := legible_node.1 legible
      have isWord := spells.isWord_of_pos (by simp)
      have deep := child.depth_pos
      rw [depth, maxDepth] at room
      have written : ((Program.node symbol (child :: children)).text reading.style).toList ++ rest =
          '(' :: (symbol.toList ++
            ((argumentsText reading.style (child :: children)).toList ++ (')' :: rest))) := by
        rw [text]
        simp
      have closing : Closes (')' :: rest) := closes_cons rfl rest
      obtain ⟨start, head⟩ := scan_word isWord (offset + 1)
        (closes_argumentsText reading.style (child :: children) closing)
      obtain ⟨next, arguments⟩ := run_argumentsText reading (child :: children) below offset symbol
        [] state.lists state.found start (')' :: rest) (by rw [maxDepth]; omega) closing
      refine ⟨next + 1, ?_⟩
      rw [written, scan_open, State.run_of_step (State.step_open ready (by omega) offset), head,
        State.run_of_step (State.step_head offset state.lists state.found symbol), arguments,
        scan_close, State.run_of_step (State.step_close _ _ _ _ _ _), List.append_nil,
        List.reverse_reverse]
      rfl

/-- To read the arguments of an application is to add them to its list. -/
theorem run_argumentsText (reading : Reading) : ∀ (ps : List Program),
    LegibleList reading.style ps → ∀ (start : Nat) (head : String) (reversed : List Program)
      (lists : List OpenList) (found : List Parsed) (offset : Nat) (rest : List Char),
      lists.length + 1 + maxDepth ps ≤ maxNesting + 1 → Closes rest →
        ∃ next, State.run reading ⟨⟨start, some head, reversed⟩ :: lists, found⟩
            (scan offset [] ((argumentsText reading.style ps).toList ++ rest)) =
          State.run reading ⟨⟨start, some head, ps.reverse ++ reversed⟩ :: lists, found⟩
            (scan next [] rest)
  | [] => fun _ _ _ _ _ _ offset _ _ _ => ⟨offset, rfl⟩
  | p :: ps => by
      intro legible start head reversed lists found offset rest room closes
      obtain ⟨first, later⟩ := legibleList_cons.1 legible
      rw [maxDepth] at room
      have written : (argumentsText reading.style (p :: ps)).toList ++ rest =
          ' ' :: ((p.text reading.style).toList ++
            ((argumentsText reading.style ps).toList ++ rest)) := by
        rw [argumentsText]
        simp
      have ready : State.Ready ⟨⟨start, some head, reversed⟩ :: lists, found⟩ := by
        intro _ member
        cases member
        rfl
      obtain ⟨middle, here⟩ := run_text reading p first
        ⟨⟨start, some head, reversed⟩ :: lists, found⟩ (offset + 1)
        ((argumentsText reading.style ps).toList ++ rest) ready (by simp; omega)
        (closes_argumentsText reading.style ps closes)
      obtain ⟨next, there⟩ := run_argumentsText reading ps later start head (p :: reversed) lists
        found middle rest (by omega) closes
      refine ⟨next, ?_⟩
      rw [written, scan_space, here, List.reverse_cons, List.append_assoc]
      rw [State.add, reading.toProgram_denoted p]
      exact there

end

/-! ## What can be read -/

/-- An open list with so many lists around it has a word as its head, and its children can be
read and leave room for the lists around them. -/
structure OpenList.Sound (style : Style) (around : Nat) (list : OpenList) : Prop where
  room : around < maxNesting
  head : ∀ w ∈ list.head?, IsWord w
  legible : LegibleList style list.reversed.reverse
  shallow : maxDepth list.reversed.reverse + around ≤ maxNesting

/-- All open lists are sound. -/
def SoundLists (style : Style) : List OpenList → Prop
  | [] => True
  | list :: lists => list.Sound style lists.length ∧ SoundLists style lists

/-- Whatever was read so far can be read and is not too deep. -/
structure State.Sound (style : Style) (state : State) : Prop where
  lists : SoundLists style state.lists
  found : ∀ e ∈ state.found, e.toProgram.Legible style ∧ e.toProgram.depth ≤ maxNesting + 1

theorem State.sound_initial : State.initial.Sound style :=
  ⟨trivial, fun _ absent => by cases absent⟩

theorem SoundLists.length_le {lists : List OpenList} (sound : SoundLists style lists) :
    lists.length ≤ maxNesting := by
  cases lists with
  | nil => exact Nat.zero_le _
  | cons list lists => exact sound.1.room

theorem legible_leaf (spells : style.Spells (symbol, 0)) : (leaf symbol).Legible style :=
  legible_node.2 ⟨spells, fun _ absent => by cases absent⟩

theorem maxDepth_append (ps qs : List Program) :
    maxDepth (ps ++ qs) = max (maxDepth ps) (maxDepth qs) := by
  induction ps with
  | nil => simp [maxDepth]
  | cons p ps ih => simp only [List.cons_append, maxDepth, ih, Nat.max_assoc]

theorem legibleList_concat {ps : List Program} {p : Program} (before : LegibleList style ps)
    (legible : p.Legible style) : LegibleList style (ps ++ [p]) := by
  rw [legibleList_iff] at before ⊢
  intro q member
  rcases List.mem_append.1 member with earlier | here
  · exact before q earlier
  · rw [List.mem_singleton.1 here]
    exact legible

/-- A program that leaves room for the open lists may be added. -/
theorem State.Sound.add {state : State} (sound : state.Sound style) {e : Parsed}
    (legible : e.toProgram.Legible style)
    (room : e.toProgram.depth + state.lists.length ≤ maxNesting + 1) :
    (state.add e).Sound style := by
  rcases state with ⟨_ | ⟨list, lists⟩, found⟩
  · refine ⟨trivial, fun other member => ?_⟩
    rcases List.mem_cons.1 member with rfl | before
    · exact ⟨legible, room⟩
    · exact sound.found other before
  · obtain ⟨inner, outer⟩ := sound.lists
    refine ⟨⟨⟨inner.room, inner.head, ?_, ?_⟩, outer⟩, sound.found⟩
    · rw [List.reverse_cons]
      exact legibleList_concat inner.legible legible
    · have shallow := inner.shallow
      rw [List.length_cons] at room
      rw [List.reverse_cons, maxDepth_append, maxDepth, maxDepth]
      omega

/-- A word denotes a leaf that can be read. -/
theorem Reading.exists_leaf_of_word (reading : Reading) {w : String} (isWord : IsWord w) :
    ∃ symbol, (reading.word w).toProgram = leaf symbol ∧ reading.style.Spells (symbol, 0) := by
  have listed : (if w ∈ reading.calls then Parsed.program (leaf w) else .atom w).toProgram =
      leaf w := by
    split <;> rfl
  unfold Reading.word
  dsimp only
  cases style : reading.style with
  | bare => exact ⟨w, listed, isWord.spells 0⟩
  | marked =>
    dsimp only
    split
    · refine ⟨_, rfl, fun c member => isWord.unseparated c ?_, fun _ => ⟨rfl, rfl⟩⟩
      rw [String.toList_ofList] at member
      exact List.mem_of_mem_drop member
    · split
      · exact ⟨w, rfl, isWord.spells 0⟩
      · exact ⟨w, listed, isWord.spells 0⟩

/-- A list may be opened if there is room for it. -/
theorem State.Sound.opened {lists : List OpenList} {found : List Parsed}
    (sound : State.Sound style ⟨lists, found⟩) (room : lists.length < maxNesting) (offset : Nat) :
    State.Sound style ⟨⟨offset, none, []⟩ :: lists, found⟩ := by
  refine ⟨⟨⟨room, ?_, ?_, ?_⟩, sound.lists⟩, sound.found⟩
  · intro _ absent
    cases absent
  · intro _ absent
    cases absent
  · simpa [maxDepth] using Nat.le_of_lt room

/-- A list may be given a word as its head. -/
theorem State.Sound.headed {start : Nat} {w : String} {reversed : List Program}
    {lists : List OpenList} {found : List Parsed}
    (sound : State.Sound style ⟨⟨start, none, reversed⟩ :: lists, found⟩) (isWord : IsWord w) :
    State.Sound style ⟨⟨start, some w, reversed⟩ :: lists, found⟩ := by
  obtain ⟨inner, outer⟩ := sound.lists
  refine ⟨⟨⟨inner.room, ?_, inner.legible, inner.shallow⟩, outer⟩, sound.found⟩
  intro _ member
  cases member
  exact isWord

/-- A list that is closed becomes a program that is not too deep where the list stood. -/
theorem State.Sound.closed {start : Nat} {head : String} {reversed : List Program}
    {lists : List OpenList} {found : List Parsed}
    (sound : State.Sound style ⟨⟨start, some head, reversed⟩ :: lists, found⟩) :
    (State.add ⟨lists, found⟩ (.program (.node head reversed.reverse))).Sound style := by
  obtain ⟨inner, outer⟩ := sound.lists
  have shallow := inner.shallow
  have around : State.Sound style ⟨lists, found⟩ := ⟨outer, sound.found⟩
  apply around.add
  · exact legible_node.2 ⟨(inner.head head rfl).spells _, inner.legible⟩
  · rw [Parsed.toProgram, depth]
    dsimp only at shallow ⊢
    omega

/-- A word may be added as a leaf. -/
theorem State.Sound.add_word {state : State} (sound : state.Sound reading.style) {w : String}
    (isWord : IsWord w) : (state.add (reading.word w)).Sound reading.style := by
  have nested := sound.lists.length_le
  obtain ⟨symbol, denoted, spells⟩ := reading.exists_leaf_of_word isWord
  apply sound.add <;> rw [denoted]
  · exact legible_leaf spells
  · rw [leaf, depth, maxDepth]
    omega

/-- A token keeps what was read sound. -/
theorem State.Sound.step {state after : State} {token : Token}
    (sound : state.Sound reading.style) (isWord : ∀ w, token = .word w → IsWord w)
    (step : state.step reading token = .ok after) : after.Sound reading.style := by
  rcases state with ⟨lists, found⟩
  cases token with
  | openParen offset =>
    unfold State.step at step
    dsimp only at step
    split at step
    · cases step
    · next room =>
      split at step
      · cases step
      · obtain rfl := Except.ok.inj step
        exact sound.opened (Nat.lt_of_not_le room) offset
  | closeParen offset =>
    rcases lists with _ | ⟨⟨start, _ | head, reversed⟩, lists⟩
    · cases step
    · cases step
    · obtain rfl := Except.ok.inj step
      exact sound.closed
  | word w =>
    -- The first word of a list is its head, every other word is a leaf.
    rcases lists with _ | ⟨⟨start, _ | head, reversed⟩, lists⟩ <;>
      obtain rfl := Except.ok.inj step
    · exact sound.add_word (isWord w rfl)
    · exact sound.headed (isWord w rfl)
    · exact sound.add_word (isWord w rfl)

/-- What is read at last is sound. -/
theorem State.Sound.run {state : State} (sound : state.Sound reading.style) {tokens : List Token}
    (words : ∀ w, .word w ∈ tokens → IsWord w) {e : Parsed}
    (read : state.run reading tokens = .ok e) :
    e.toProgram.Legible reading.style ∧ e.toProgram.depth ≤ maxNesting + 1 := by
  induction tokens generalizing state with
  | nil =>
    rcases state with ⟨_ | ⟨list, lists⟩, _ | ⟨only, _ | ⟨second, more⟩⟩⟩ <;> try cases read
    exact sound.found e List.mem_cons_self
  | cons token tokens ih =>
    rw [State.run] at read
    split at read
    · next after step =>
      have first : ∀ w, token = .word w → IsWord w := fun w same =>
        words w (same ▸ List.mem_cons_self)
      exact ih (sound.step first step)
        (fun w member => words w (List.mem_cons_of_mem token member)) read
    · cases read

/-- A program that was read from a text can be written so that it can be read, and is not too
deep. -/
theorem parse_legible {text : String} {e : Parsed} (read : parse reading text = .ok e) :
    e.toProgram.Legible reading.style ∧ e.toProgram.depth ≤ maxNesting + 1 := by
  refine State.sound_initial.run (fun w member => ?_) read
  exact isWord_of_mem_scan (fun _ absent => by cases absent) member

/-! ## Round trips -/

/-- The text of a program that can be read and is not too deep denotes the program. -/
theorem parse_text {p : Program} (legible : p.Legible reading.style)
    (shallow : p.depth ≤ maxNesting + 1) :
    parse reading (p.text reading.style) = .ok (reading.denoted p) := by
  obtain ⟨next, read⟩ := run_text reading p legible State.initial 0 [] State.ready_initial
    (by simpa [State.initial] using shallow) closes_nil
  rw [List.append_nil] at read
  exact read

/-- A program is read back from its text exactly if its symbols are words, it is not too deep,
and it is not a bare leaf that the reader would take for an atom. In the marked style a leaf may
also be empty. -/
theorem parse_text_iff (reading : Reading) (p : Program) :
    parse reading (p.text reading.style) = .ok (.program p) ↔
      p.Legible reading.style ∧ p.depth ≤ maxNesting + 1 ∧
        (reading.style = .bare → p.isLeaf = true → p.symbol ∈ reading.calls) := by
  have denoted : reading.denoted p = .program p ↔
      (reading.style = .bare → p.isLeaf = true → p.symbol ∈ reading.calls) := by
    rcases p with ⟨symbol, _ | ⟨child, children⟩⟩
    · change reading.word (leafText reading.style symbol) = .program (leaf symbol) ↔
        (reading.style = .bare → true = true → symbol ∈ reading.calls)
      cases style : reading.style with
      | bare => simp [Reading.word_of_bare style]
      | marked => simp [Reading.word_of_marked style]
    · simp [Reading.denoted, isLeaf, Program.children]
  constructor
  · intro read
    obtain ⟨legible, shallow⟩ : p.Legible reading.style ∧ p.depth ≤ maxNesting + 1 :=
      parse_legible read
    rw [parse_text legible shallow] at read
    exact ⟨legible, shallow, denoted.1 (Except.ok.inj read)⟩
  · intro conditions
    obtain ⟨legible, shallow, listed⟩ := conditions
    rw [parse_text legible shallow, denoted.2 listed]

end Program

end GrammarSearch
