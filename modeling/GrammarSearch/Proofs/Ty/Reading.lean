import GrammarSearch.Proofs.Text.Reader
import GrammarSearch.Proofs.Ty.Tree

/-!
# Reading types by the grammar

The reader of types against the grammar. It reads what a tree yields and arrives at the type that
the tree denotes (`Ty.Tree.completes`). Conversely its state tells what was read: for every
construct that is open, the trees of its complete parts (`Ty.State.Reads`). From such a state the
open constructs can always be completed, so the reader recognises the sequences that trees yield
(`Ty.recognizes_sentences`).

After a type in parentheses the reader does not know yet whether the parentheses hold inputs of an
arrow. If no arrow follows they do not, and the state is as after any complete type
(`Ty.State.settle`).
-/

namespace GrammarSearch

namespace Ty

variable {frames : List Frame} {state after : State} {token : Token} {lexeme : Lexeme}
  {lexemes rest : List Lexeme} {t : Ty}

/-! ## States -/

/-- The state as it is if no arrow follows. -/
def State.settle : State → State
  | .grouped frames [t] => .ofType frames t
  | state => state

theorem State.settle_ofType (frames : List Frame) (t : Ty) :
    (State.ofType frames t).settle = .ofType frames t := rfl

theorem State.ofType_arrow (inputs : List Ty) (frames : List Frame) (t : Ty) :
    State.ofType (.arrow inputs :: frames) t = .ofType frames (.arrow inputs t) := rfl

theorem State.step_settle (noArrow : token.lexeme ≠ .arrow) :
    state.settle.step token = state.step token := by
  unfold State.settle
  split
  · simp only [State.step, State.ofType, if_neg noArrow]
  · rfl

theorem State.finish_settle (state : State) : state.settle.finish = state.finish := by
  unfold State.settle
  split
  · next frames t =>
    simp only [State.ofType, State.finish]
    rcases closeArrows frames t with ⟨_ | ⟨frame, outer⟩, u⟩ <;> rfl
  · rfl

/-- The state after one more lexeme, wherever it stands. -/
def State.take (state : State) (lexeme : Lexeme) : Except ParseError State :=
  state.step ⟨lexeme, 0⟩

theorem State.startType_eq_ok_iff {offset : Nat} :
    startType frames ⟨lexeme, offset⟩ = .ok after ↔ startType frames ⟨lexeme, 0⟩ = .ok after := by
  cases lexeme <;> simp [startType]

theorem State.continueShape_eq_ok_iff {offset : Nat} {dimensions : List UInt64} :
    continueShape frames t dimensions ⟨lexeme, offset⟩ = .ok after ↔
      continueShape frames t dimensions ⟨lexeme, 0⟩ = .ok after := by
  cases lexeme <;> simp [continueShape]

theorem State.continueType_eq_ok_iff {offset : Nat} :
    continueType frames t ⟨lexeme, offset⟩ = .ok after ↔
      continueType frames t ⟨lexeme, 0⟩ = .ok after := by
  rcases frames with _ | ⟨_ | _ | _ | _, frames⟩
  · simp [continueType]
  · cases lexeme <;> simp [continueType]
  · simp only [continueType]
    exact continueShape_eq_ok_iff
  · cases lexeme <;> simp [continueType]
  · cases lexeme <;> simp [continueType]

/-- Where a token stands shows in errors only. -/
theorem State.step_eq_ok_iff :
    state.step token = .ok after ↔ state.take token.lexeme = .ok after := by
  rcases token with ⟨lexeme, offset⟩
  unfold State.take State.step
  cases state with
  | wanted frames => exact startType_eq_ok_iff
  | opened frames =>
    dsimp only
    split
    · exact Iff.rfl
    · exact startType_eq_ok_iff
  | complete frames t => exact continueType_eq_ok_iff
  | shaped frames element dimensions => exact continueShape_eq_ok_iff
  | dimension frames element dimensions =>
    dsimp only
    split <;> simp
  | grouped frames inputs =>
    dsimp only
    split
    · exact Iff.rfl
    · split
      · exact continueType_eq_ok_iff
      · simp

theorem State.foldlM_step_eq_ok_iff {tokens : List Token} :
    tokens.foldlM State.step state = .ok after ↔
      (tokens.map Token.lexeme).foldlM State.take state = .ok after := by
  rw [List.foldlM_map]
  exact ⟨foldlM_of_imp fun _ _ _ => State.step_eq_ok_iff.1,
    foldlM_of_imp fun _ _ _ => State.step_eq_ok_iff.2⟩

/-- Lexemes are read as a type where one must follow. -/
def Completes (lexemes : List Lexeme) (frames : List Frame) (t : Ty) : Prop :=
  ∃ state, lexemes.foldlM State.take (.wanted frames) = .ok state ∧
    state.settle = .ofType frames t

/-- What follows is read as after a complete type, unless an arrow follows. -/
theorem Completes.followed (completes : Completes lexemes frames t) (more : rest ≠ [])
    (noArrow : rest.head? ≠ some .arrow) :
    (lexemes ++ rest).foldlM State.take (.wanted frames) =
      rest.foldlM State.take (.ofType frames t) := by
  obtain ⟨state, read, settled⟩ := completes
  cases rest with
  | nil => exact absurd rfl more
  | cons lexeme rest =>
    have other : lexeme ≠ .arrow := fun arrow => noArrow (congrArg some arrow)
    rw [foldlM_append_of_ok read, ← settled, List.foldlM_cons, List.foldlM_cons, State.take,
      State.take, State.step_settle other]

/-! ## Reading what a tree yields -/

/-- After an opening parenthesis a type may follow as one input of some. -/
theorem foldlM_take_opened (tree : Tree) (frames : List Frame) (rest : List Lexeme) :
    (tree.lexemes ++ rest).foldlM State.take (.opened frames) =
      (tree.lexemes ++ rest).foldlM State.take (.wanted (.group [] :: frames)) := by
  obtain ⟨first, later, yields, notClose⟩ := tree.exists_lexemes_eq_cons
  rw [yields, List.cons_append, List.foldlM_cons, List.foldlM_cons]
  simp only [State.take, State.step, if_neg notClose]

/-- Dimensions are read behind an element or another dimension. -/
theorem foldlM_take_shape {element : Ty} (shape : List Numeral) (dimensions : List UInt64)
    (next : Lexeme)
    (inside : ∀ token, state.step token = State.continueShape frames element dimensions token) :
    (Tree.shapeLexemes shape ++ [next]).foldlM State.take state =
      State.continueShape frames element ((shape.map Numeral.value).reverse ++ dimensions)
        ⟨next, 0⟩ := by
  induction shape generalizing dimensions state with
  | nil =>
    have last := inside ⟨next, 0⟩
    rw [← State.take] at last
    simp [Tree.shapeLexemes, last]
  | cons d shape ih =>
    have comma : state.take .comma = .ok (.dimension frames element dimensions) := inside _
    have read : State.take (.dimension frames element dimensions) (.word d.text) =
        .ok (.shaped frames element (d.value :: dimensions)) := by
      simp only [State.take, State.step, Lexeme.text, d.reads]
    rw [Tree.shapeLexemes_cons, List.cons_append, List.cons_append, foldlM_cons_of_ok comma,
      foldlM_cons_of_ok read, ih _ fun _ => rfl]
    simp

mutual

/-- What a tree yields is read where a type must follow, and completes the type that the tree
denotes. -/
theorem Tree.completes (tree : Tree) (frames : List Frame) :
    Completes tree.lexemes frames tree.type := by
  cases tree with
  | word name => exact ⟨.ofType frames (.atomic name.text), rfl, State.settle_ofType _ _⟩
  | list element =>
    have inner := element.completes (.list :: frames)
    have opening : State.take (.wanted frames) .openBracket = .ok (.wanted (.list :: frames)) := rfl
    refine ⟨.ofType frames (.list element.type), ?_, State.settle_ofType _ _⟩
    rw [Tree.lexemes, foldlM_cons_of_ok opening, inner.followed (by simp) (by simp)]
    rfl
  | tensor element shape =>
    have inner := element.completes (.tensor :: frames)
    have opening : State.take (.wanted frames) .openBrace = .ok (.wanted (.tensor :: frames)) := rfl
    refine ⟨.ofType frames (.tensor element.type (shape.map Numeral.value)), ?_,
      State.settle_ofType _ _⟩
    rw [Tree.lexemes, foldlM_cons_of_ok opening,
      inner.followed (by simp) (Tree.head?_shape_append (by simp) shape [])]
    refine (foldlM_take_shape shape [] .closeBrace fun _ => rfl).trans ?_
    simp [State.continueShape]
  | arrow inputs output =>
    obtain ⟨state, read, settled⟩ := output.completes (.arrow (Tree.types inputs) :: frames)
    have opening : State.take (.wanted frames) .openParen = .ok (.opened frames) := rfl
    have grouped : (Tree.inputsLexemes inputs ++ .closeParen :: .arrow :: output.lexemes).foldlM
        State.take (.opened frames) =
          (.arrow :: output.lexemes).foldlM State.take (.grouped frames (Tree.types inputs)) := by
      cases inputs with
      | nil => exact foldlM_cons_of_ok rfl
      | cons t ts =>
        obtain ⟨later, yields⟩ := Tree.exists_inputsLexemes_eq t ts
        rw [yields, List.append_assoc, foldlM_take_opened, ← List.append_assoc, ← yields]
        exact Tree.inputs_read (t :: ts) [] frames _ (List.cons_ne_nil t ts)
    refine ⟨state, ?_, settled⟩
    rw [Tree.lexemes, foldlM_cons_of_ok opening, grouped]
    exact (foldlM_cons_of_ok rfl).trans read
  | group inner =>
    have within := inner.completes (.group [] :: frames)
    have opening : State.take (.wanted frames) .openParen = .ok (.opened frames) := rfl
    refine ⟨.grouped frames [inner.type], ?_, rfl⟩
    rw [Tree.lexemes, foldlM_cons_of_ok opening, foldlM_take_opened,
      within.followed (by simp) (by simp)]
    rfl

/-- Inputs are read behind those before them, up to the parenthesis that closes them. -/
theorem Tree.inputs_read : ∀ (inputs : List Tree) (before : List Ty) (frames : List Frame)
    (rest : List Lexeme), inputs ≠ [] →
    (Tree.inputsLexemes inputs ++ .closeParen :: rest).foldlM State.take
        (.wanted (.group before :: frames)) =
      rest.foldlM State.take (.grouped frames (before.reverse ++ Tree.types inputs))
  | [], _, _, _, some_input => absurd rfl some_input
  | [t], before, frames, rest, _ => by
      have closing : State.take (.ofType (.group before :: frames) t.type) .closeParen =
          .ok (.grouped frames (t.type :: before).reverse) := rfl
      rw [Tree.inputsLexemes, (t.completes _).followed (by simp) (by simp),
        foldlM_cons_of_ok closing, List.reverse_cons]
      rfl
  | t :: u :: ts, before, frames, rest, _ => by
      have comma : State.take (.ofType (.group before :: frames) t.type) .comma =
          .ok (.wanted (.group (t.type :: before) :: frames)) := rfl
      rw [Tree.inputsLexemes_cons_cons, List.append_assoc,
        (t.completes _).followed (by simp) (by simp), List.cons_append, foldlM_cons_of_ok comma,
        Tree.inputs_read (u :: ts) _ _ _ (List.cons_ne_nil u ts), List.reverse_cons,
        List.append_assoc]
      rfl

end

/-! ## What was read -/

/-- What the lexemes were that opened constructs. The innermost construct is the last to be opened,
and its complete parts are trees. -/
inductive Opens : List Frame → List Lexeme → Prop
  | none : Opens [] []
  | list {frames : List Frame} {lexemes : List Lexeme} (around : Opens frames lexemes) :
      Opens (.list :: frames) (lexemes ++ [.openBracket])
  | tensor {frames : List Frame} {lexemes : List Lexeme} (around : Opens frames lexemes) :
      Opens (.tensor :: frames) (lexemes ++ [.openBrace])
  | group {frames : List Frame} {lexemes : List Lexeme} (around : Opens frames lexemes)
      (inputs : List Tree) :
      Opens (.group (Tree.types inputs).reverse :: frames)
        (lexemes ++ .openParen :: Tree.begunLexemes inputs)
  | arrow {frames : List Frame} {lexemes : List Lexeme} (around : Opens frames lexemes)
      (inputs : List Tree) :
      Opens (.arrow (Tree.types inputs) :: frames)
        (lexemes ++ .openParen :: (Tree.inputsLexemes inputs ++ [.closeParen, .arrow]))

/-- What the lexemes were that led to a state. -/
inductive State.Reads : State → List Lexeme → Prop
  | wanted {frames : List Frame} {lexemes : List Lexeme} (opens : Opens frames lexemes) :
      Reads (.wanted frames) lexemes
  | opened {frames : List Frame} {lexemes : List Lexeme} (opens : Opens frames lexemes) :
      Reads (.opened frames) (lexemes ++ [.openParen])
  | complete {frames : List Frame} {lexemes : List Lexeme} (opens : Opens frames lexemes)
      (tree : Tree) : Reads (.complete frames tree.type) (lexemes ++ tree.lexemes)
  | shaped {frames : List Frame} {lexemes : List Lexeme} (opens : Opens frames lexemes)
      (element : Tree) (shape : List Numeral) :
      Reads (.shaped frames element.type (shape.map Numeral.value).reverse)
        (lexemes ++ .openBrace :: (element.lexemes ++ Tree.shapeLexemes shape))
  | dimension {frames : List Frame} {lexemes : List Lexeme} (opens : Opens frames lexemes)
      (element : Tree) (shape : List Numeral) :
      Reads (.dimension frames element.type (shape.map Numeral.value).reverse)
        (lexemes ++ .openBrace :: (element.lexemes ++ (Tree.shapeLexemes shape ++ [.comma])))
  | grouped {frames : List Frame} {lexemes : List Lexeme} (opens : Opens frames lexemes)
      (inputs : List Tree) :
      Reads (.grouped frames (Tree.types inputs))
        (lexemes ++ .openParen :: (Tree.inputsLexemes inputs ++ [.closeParen]))

/-- A complete type is the output of the arrows that end with it. -/
theorem Opens.reads_ofType (opens : Opens frames lexemes) (tree : Tree) :
    (State.ofType frames tree.type).Reads (lexemes ++ tree.lexemes) := by
  induction opens generalizing tree with
  | none => exact .complete .none tree
  | list around => exact .complete (.list around) tree
  | tensor around => exact .complete (.tensor around) tree
  | group around inputs => exact .complete (.group around inputs) tree
  | arrow around inputs ih =>
    rw [State.ofType_arrow]
    simpa [Tree.lexemes, Tree.type] using ih (.arrow inputs tree)

/-- Parentheses around one type leave no trace if no arrow follows. -/
theorem Opens.exists_complete (opens : Opens frames lexemes) (inner : Tree) :
    ∃ outer whole, State.ofType frames inner.type = .complete outer whole ∧
      (State.complete outer whole).Reads
        (lexemes ++ .openParen :: (inner.lexemes ++ [.closeParen])) :=
  ⟨_, _, rfl, opens.reads_ofType (.group inner)⟩

/-- A token that can be one of a text. -/
def Token.Proper (token : Token) : Prop := ∀ name, token.lexeme = .word name → IsName name

theorem Opens.reads_startType (opens : Opens frames lexemes) (proper : token.Proper)
    (step : State.startType frames token = .ok after) :
    after.Reads (lexemes ++ [token.lexeme]) := by
  rcases token with ⟨lexeme, offset⟩
  cases lexeme with
  | openBracket =>
    obtain rfl := Except.ok.inj step
    exact .wanted (.list opens)
  | openBrace =>
    obtain rfl := Except.ok.inj step
    exact .wanted (.tensor opens)
  | openParen =>
    obtain rfl := Except.ok.inj step
    exact .opened opens
  | word name =>
    obtain rfl := Except.ok.inj step
    exact opens.reads_ofType (.word ⟨name, proper name rfl⟩)
  | _ => cases step

theorem Opens.reads_continueShape (opens : Opens frames lexemes) (element : Tree)
    (shape : List Numeral)
    (step : State.continueShape frames element.type (shape.map Numeral.value).reverse token =
      .ok after) :
    after.Reads
      (lexemes ++ .openBrace :: (element.lexemes ++ Tree.shapeLexemes shape) ++
        [token.lexeme]) := by
  rcases token with ⟨lexeme, offset⟩
  cases lexeme with
  | comma =>
    obtain rfl := Except.ok.inj step
    simpa using State.Reads.dimension opens element shape
  | closeBrace =>
    obtain rfl := Except.ok.inj step
    simpa [Tree.lexemes, Tree.type] using opens.reads_ofType (.tensor element shape)
  | _ => cases step

theorem State.Reads.continueType (reads : (State.complete frames t).Reads lexemes)
    (step : State.continueType frames t token = .ok after) :
    after.Reads (lexemes ++ [token.lexeme]) := by
  cases reads with
  | complete opens tree =>
    cases opens with
    | none => cases step
    | list around =>
      rcases token with ⟨lexeme, offset⟩
      cases lexeme with
      | closeBracket =>
        obtain rfl := Except.ok.inj step
        simpa [Tree.lexemes, Tree.type] using around.reads_ofType (.list tree)
      | _ => cases step
    | tensor around =>
      simpa [Tree.shapeLexemes] using around.reads_continueShape tree [] step
    | group around inputs =>
      rcases token with ⟨lexeme, offset⟩
      cases lexeme with
      | comma =>
        obtain rfl := Except.ok.inj step
        have opened := State.Reads.wanted (around.group (inputs ++ [tree]))
        simpa [Tree.begunLexemes_concat, Tree.types_eq_map] using opened
      | closeParen =>
        obtain rfl := Except.ok.inj step
        have closed := State.Reads.grouped around (inputs ++ [tree])
        simpa [Tree.inputsLexemes_concat, Tree.types_eq_map] using closed
      | _ => cases step
    | arrow around inputs => cases step

/-- Only a word is read as a dimension. -/
theorem exists_word_of_dimension? (reads : (dimension? lexeme.text).isSome) :
    ∃ w, lexeme = .word w := by
  cases lexeme with
  | word w => exact ⟨w, rfl⟩
  | _ => exact absurd reads (by decide)

/-- What was read includes the token just read. -/
theorem State.Reads.step (reads : state.Reads lexemes) (proper : token.Proper)
    (step : state.step token = .ok after) : after.Reads (lexemes ++ [token.lexeme]) := by
  cases reads with
  | wanted opens => exact opens.reads_startType proper step
  | @opened frames lexemes opens =>
    unfold State.step at step
    dsimp only at step
    split at step
    · next closing =>
      obtain rfl := Except.ok.inj step
      simpa [closing, Tree.inputsLexemes, Tree.types] using State.Reads.grouped opens []
    · exact (opens.group []).reads_startType proper step
  | complete opens tree => exact State.Reads.continueType (.complete opens tree) step
  | shaped opens element shape => exact opens.reads_continueShape element shape step
  | @dimension frames lexemes opens element shape =>
    unfold State.step at step
    dsimp only at step
    split at step
    · next d reads =>
      obtain rfl := Except.ok.inj step
      obtain ⟨w, word⟩ := exists_word_of_dimension? (Option.isSome_of_eq_some reads)
      rw [word] at reads ⊢
      have longer := State.Reads.shaped opens element (shape ++ [⟨w, d, reads⟩])
      simpa [Tree.shapeLexemes] using longer
    · cases step
  | @grouped frames lexemes opens inputs =>
    by_cases arrow : token.lexeme = .arrow
    · unfold State.step at step
      dsimp only at step
      rw [if_pos arrow] at step
      obtain rfl := Except.ok.inj step
      rw [arrow]
      simpa using State.Reads.wanted (opens.arrow inputs)
    · -- The parentheses held one type, and it is complete.
      rcases inputs with _ | ⟨t, _ | ⟨u, ts⟩⟩
      · simp [State.step, arrow, Tree.types] at step
      · obtain ⟨outer, whole, settled, complete⟩ := opens.exists_complete t
        have step : (State.ofType frames t.type).step token = .ok after :=
          (State.step_settle arrow).trans step
        rw [settled] at step
        exact complete.continueType step
      · simp [State.step, arrow, Tree.types] at step

/-! ## Completing what is open -/

/-- The sequences of tokens that derive a type, wherever the tokens stand. -/
def sentences : Set (List Token) :=
  {tokens | ∃ tree : Tree, tree.lexemes = tokens.map Token.lexeme}

theorem isName_x : IsName "x" where
  ne_empty := by decide
  plain c member := by
    obtain rfl : c = 'x' := by simpa using member
    rfl
  unbroken inside := by
    have short := inside.length_le
    simp at short

/-- A type that any missing part can be. -/
def Tree.filler : Tree := .word ⟨"x", isName_x⟩

/-- Whatever is open around a type, more lexemes complete it. -/
theorem Opens.exists_completion (opens : Opens frames lexemes) (tree : Tree) :
    ∃ more, ∃ whole : Tree, whole.lexemes = lexemes ++ tree.lexemes ++ more := by
  induction opens generalizing tree with
  | none => exact ⟨[], tree, by simp⟩
  | list around ih =>
    obtain ⟨more, whole, yields⟩ := ih (.list tree)
    exact ⟨.closeBracket :: more, whole, by simp [yields, Tree.lexemes]⟩
  | tensor around ih =>
    obtain ⟨more, whole, yields⟩ := ih (.tensor tree [])
    exact ⟨.closeBrace :: more, whole, by simp [yields, Tree.lexemes, Tree.shapeLexemes]⟩
  | group around inputs ih =>
    obtain ⟨more, whole, yields⟩ := ih (.arrow (inputs ++ [tree]) .filler)
    exact ⟨.closeParen :: .arrow :: (Tree.filler.lexemes ++ more), whole,
      by simp [yields, Tree.lexemes, Tree.inputsLexemes_concat]⟩
  | arrow around inputs ih =>
    obtain ⟨more, whole, yields⟩ := ih (.arrow inputs tree)
    exact ⟨more, whole, by simp [yields, Tree.lexemes]⟩

/-- What was read begins the lexemes of a tree. -/
theorem State.Reads.exists_completion (reads : state.Reads lexemes) :
    ∃ more, ∃ whole : Tree, whole.lexemes = lexemes ++ more := by
  cases reads with
  | wanted opens =>
    obtain ⟨more, whole, yields⟩ := opens.exists_completion .filler
    exact ⟨Tree.filler.lexemes ++ more, whole, by simp [yields]⟩
  | opened opens =>
    obtain ⟨more, whole, yields⟩ := opens.exists_completion (.group .filler)
    exact ⟨Tree.filler.lexemes ++ .closeParen :: more, whole, by simp [yields, Tree.lexemes]⟩
  | complete opens tree => exact opens.exists_completion tree
  | shaped opens element shape =>
    obtain ⟨more, whole, yields⟩ := opens.exists_completion (.tensor element shape)
    exact ⟨.closeBrace :: more, whole, by simp [yields, Tree.lexemes]⟩
  | dimension opens element shape =>
    have zero : dimension? "0" = some 0 := by decide
    obtain ⟨more, whole, yields⟩ :=
      opens.exists_completion (.tensor element (shape ++ [⟨"0", 0, zero⟩]))
    exact ⟨.word "0" :: .closeBrace :: more, whole,
      by simp [yields, Tree.lexemes, Tree.shapeLexemes]⟩
  | grouped opens inputs =>
    obtain ⟨more, whole, yields⟩ := opens.exists_completion (.arrow inputs .filler)
    exact ⟨.arrow :: (Tree.filler.lexemes ++ more), whole, by simp [yields, Tree.lexemes]⟩

theorem State.reads_of_foldlM {tokens : List Token} (proper : ∀ token ∈ tokens, token.Proper)
    (read : tokens.foldlM State.step .initial = .ok state) :
    state.Reads (tokens.map Token.lexeme) := by
  refine foldlM_induction Token.Proper
    (motive := fun state tokens => state.Reads (tokens.map Token.lexeme)) (.wanted .none)
    (fun _ _ _ _ proper reads step => ?_) proper read
  rw [List.map_append]
  exact reads.step proper step

/-- The reader recognises the sequences that derive a type. -/
theorem recognizes_sentences : Recognizes State.step .initial Token.Proper sentences where
  reads := by
    intro tokens member
    obtain ⟨tree, yields⟩ := member
    obtain ⟨state, read, -⟩ := tree.completes []
    rw [yields] at read
    exact ⟨state, State.foldlM_step_eq_ok_iff.2 read⟩
  completes := by
    intro tokens state proper read
    obtain ⟨more, whole, yields⟩ := (State.reads_of_foldlM proper read).exists_completion
    refine ⟨more.map fun lexeme => ⟨lexeme, 0⟩, whole, ?_⟩
    rw [yields, List.map_append, List.map_map]
    simp [Function.comp_def]

end Ty

end GrammarSearch
