import GrammarSearch.Proofs.Ty.Reading

/-!
# What reading a type comes to

A text derives a type, or it ends too early, or it has a first token that no text of a type can go
on with. The place of that token says what is wrong with it (`Ty.Blames`): behind a whole type it is
trailing, in the place of a dimension it is no dimension, and anywhere else it is unexpected. There
are no other outcomes, and no text has two of them: `Ty.parse_tells_derivations`.
-/

namespace GrammarSearch

namespace Ty

variable {frames : List Frame} {state : State} {tokens before : List Token} {token : Token}
  {lexemes : List Lexeme} {t : Ty} {fault : ParseError}

/-! ## The last state -/

theorem State.Reads.exists_tree_of_complete {u : Ty}
    (reads : (State.complete frames t).Reads lexemes)
    (finish : (State.complete frames t).finish = .ok u) :
    ∃ tree : Tree, tree.lexemes = lexemes ∧ tree.type = u := by
  cases reads with
  | complete opens tree =>
    cases opens with
    | none => exact ⟨tree, rfl, Except.ok.inj finish⟩
    | _ => cases finish

/-- A state in which the tokens may end has read a tree, which denotes the type. -/
theorem State.Reads.exists_tree (reads : state.Reads lexemes) (finish : state.finish = .ok t) :
    ∃ tree : Tree, tree.lexemes = lexemes ∧ tree.type = t := by
  cases reads with
  | complete opens tree => exact (State.Reads.complete opens tree).exists_tree_of_complete finish
  | @grouped frames lexemes opens inputs =>
    rcases inputs with _ | ⟨inner, _ | ⟨second, later⟩⟩
    · cases finish
    · obtain ⟨outer, whole, settled, complete⟩ := opens.exists_complete inner
      have finish : (State.ofType frames inner.type).finish = .ok t :=
        (State.finish_settle _).trans finish
      rw [settled] at finish
      exact complete.exists_tree_of_complete finish
    · cases finish
  | _ => cases finish

/-- What a tree yields leads to a state in which the tokens may end. -/
theorem Tree.finish_of_read {tree : Tree} (yields : tree.lexemes = tokens.map Token.lexeme)
    (read : tokens.foldlM State.step .initial = .ok state) : state.finish = .ok tree.type := by
  obtain ⟨last, here, settled⟩ := tree.completes []
  rw [yields] at here
  obtain rfl : state = last :=
    Except.ok.inj ((State.foldlM_step_eq_ok_iff.1 read).symm.trans here)
  rw [← State.finish_settle, settled]
  rfl

/-! ## The token at fault -/

/-- A dimension is due: the tokens end inside of a tensor, behind its element, any number of
dimensions and a comma. -/
def AwaitsDimension (before : List Token) : Prop :=
  ∃ (outer : List Lexeme) (element : Tree) (shape : List Numeral),
    before.map Token.lexeme =
      outer ++ .openBrace :: (element.lexemes ++ (Tree.shapeLexemes shape ++ [.comma]))

theorem State.Reads.awaitsDimension {element : Ty} {dimensions : List UInt64}
    (reads : (State.dimension frames element dimensions).Reads (before.map Token.lexeme)) :
    AwaitsDimension before := by
  generalize lexemes_eq : before.map Token.lexeme = lexemes at reads
  cases reads with
  | dimension opens element shape => exact ⟨_, element, shape, lexemes_eq⟩

/-- A brace opens a tensor or is refused. -/
theorem State.exists_wanted_of_take {after : State} (opening : state.take .openBrace = .ok after) :
    ∃ frames, after = .wanted (.tensor :: frames) := by
  have refused (frames : List Frame) (t : Ty) (offset : Nat) :
      ¬ State.continueType frames t ⟨.openBrace, offset⟩ = .ok after := by
    rcases frames with _ | ⟨_ | _ | _ | _, frames⟩ <;> exact fun read => by cases read
  unfold State.take at opening
  cases state with
  | wanted frames => exact ⟨_, (Except.ok.inj opening).symm⟩
  | opened frames => exact ⟨_, (Except.ok.inj opening).symm⟩
  | complete frames t => exact (refused _ _ _ opening).elim
  | shaped frames element dimensions => cases opening
  | dimension frames element dimensions => cases opening
  | grouped frames inputs =>
    rcases inputs with _ | ⟨t, _ | ⟨u, ts⟩⟩
    · cases opening
    · exact (refused _ _ _ opening).elim
    · cases opening

theorem AwaitsDimension.exists_dimension (due : AwaitsDimension before)
    (read : before.foldlM State.step .initial = .ok state) :
    ∃ frames element dimensions, state = .dimension frames element dimensions := by
  obtain ⟨outer, element, shape, ends⟩ := due
  have here := State.foldlM_step_eq_ok_iff.1 read
  rw [ends] at here
  obtain ⟨around, -, later⟩ := foldlM_of_append here
  obtain ⟨inside, opening, rest⟩ := foldlM_of_cons later
  obtain ⟨frames, rfl⟩ := State.exists_wanted_of_take opening
  have noArrow : (Tree.shapeLexemes shape ++ [Lexeme.comma]).head? ≠ some .arrow :=
    Tree.head?_shape_append (by simp) shape []
  have element_read := (element.completes (.tensor :: frames)).followed (by simp) noArrow
  have shape_read : (Tree.shapeLexemes shape ++ [Lexeme.comma]).foldlM State.take
      (.ofType (.tensor :: frames) element.type) =
        .ok (.dimension frames element.type ((shape.map Numeral.value).reverse ++ [])) :=
    foldlM_take_shape shape [] .comma fun _ => rfl
  rw [element_read, shape_read] at rest
  exact ⟨_, _, _, (Except.ok.inj rest).symm⟩

/-- Why a token cannot follow tokens that begin a sentence. -/
inductive Blames (before : List Token) (token : Token) : ParseError → Prop
  /-- Nothing follows a whole type. -/
  | trailing (whole : before ∈ sentences) : Blames before token (.trailingInput token.offset)
  /-- A dimension is due. -/
  | dimension (due : AwaitsDimension before) :
      Blames before token (.invalidDimension token.lexeme.text token.offset)
  /-- Something else is due. -/
  | unexpected (partial_type : before ∉ sentences) (noDimension : ¬ AwaitsDimension before) :
      Blames before token (.unexpectedToken token.lexeme.text token.offset)

/-- What a state says of a token that it refuses. -/
def State.refusal (state : State) (token : Token) : ParseError :=
  match state.finish with
  | .ok _ => .trailingInput token.offset
  | .error _ =>
    match state with
    | .dimension .. => .invalidDimension token.lexeme.text token.offset
    | _ => token.unexpected

theorem State.startType_error (refused : startType frames token = .error fault) :
    fault = token.unexpected := by
  unfold startType at refused
  split at refused <;> cases refused
  rfl

theorem State.continueShape_error {dimensions : List UInt64}
    (refused : continueShape frames t dimensions token = .error fault) :
    fault = token.unexpected := by
  unfold continueShape at refused
  split at refused <;> cases refused
  rfl

theorem State.continueType_error (refused : continueType frames t token = .error fault) :
    fault = State.refusal (.complete frames t) token := by
  rcases token with ⟨lexeme, offset⟩
  rcases frames with _ | ⟨_ | _ | _ | _, frames⟩
  · cases refused
    rfl
  · cases lexeme <;> cases refused <;> rfl
  · exact continueShape_error refused
  · cases lexeme <;> cases refused <;> rfl
  · cases refused
    rfl

theorem State.refusal_grouped (frames : List Frame) (t : Ty) (token : Token) :
    State.refusal (.ofType frames t) token = State.refusal (.grouped frames [t]) token := by
  have same := State.finish_settle (.grouped frames [t])
  unfold State.refusal
  rw [← same]
  rfl

theorem State.step_error (refused : state.step token = .error fault) :
    fault = state.refusal token := by
  unfold State.step at refused
  cases state with
  | wanted frames => exact startType_error refused
  | opened frames =>
    dsimp only at refused
    split at refused
    · cases refused
    · exact startType_error refused
  | complete frames t => exact continueType_error refused
  | shaped frames element dimensions => exact continueShape_error refused
  | dimension frames element dimensions =>
    dsimp only at refused
    split at refused
    · cases refused
    · cases refused
      rfl
  | grouped frames inputs =>
    dsimp only at refused
    split at refused
    · cases refused
    · rcases inputs with _ | ⟨t, _ | ⟨u, ts⟩⟩
      · cases refused
        rfl
      · rw [← State.refusal_grouped]
        exact continueType_error refused
      · cases refused
        rfl

/-- The last state blames a token for what the tokens before it are. -/
theorem blames_iff (proper : ∀ token ∈ before, token.Proper)
    (read : before.foldlM State.step .initial = .ok state) :
    Blames before token fault ↔ fault = state.refusal token := by
  have reads := State.reads_of_foldlM proper read
  constructor
  · intro blames
    cases blames with
    | trailing whole =>
      obtain ⟨tree, yields⟩ := whole
      simp only [State.refusal, Tree.finish_of_read yields read]
    | dimension due =>
      obtain ⟨frames, element, dimensions, rfl⟩ := due.exists_dimension read
      rfl
    | unexpected partial_type noDimension =>
      unfold State.refusal
      split
      · next t finish =>
        obtain ⟨tree, yields, -⟩ := reads.exists_tree finish
        exact absurd ⟨tree, yields⟩ partial_type
      · split
        · exact absurd reads.awaitsDimension noDimension
        · rfl
  · intro same
    subst same
    unfold State.refusal
    split
    · next t finish =>
      obtain ⟨tree, yields, -⟩ := reads.exists_tree finish
      exact .trailing ⟨tree, yields⟩
    · next fault finish =>
      split
      · exact .dimension reads.awaitsDimension
      · next other =>
        refine .unexpected (fun whole => ?_) (fun due => ?_)
        · obtain ⟨tree, yields⟩ := whole
          rw [Tree.finish_of_read yields read] at finish
          cases finish
        · obtain ⟨frames, element, dimensions, rfl⟩ := due.exists_dimension read
          exact other _ _ _ rfl

/-! ## Outcomes -/

/-- What reading tokens comes to, with the result of reading. -/
inductive Outcome (tokens : List Token) : Except ParseError Ty → Prop
  /-- The tokens derive a type. -/
  | derived (tree : Tree) (yields : tree.lexemes = tokens.map Token.lexeme) :
      Outcome tokens (.ok tree.type)
  /-- The tokens begin what derives a type, but derive none. -/
  | unfinished (viable : Viable sentences tokens) (partial_type : tokens ∉ sentences) :
      Outcome tokens (.error .unexpectedEnd)
  /-- No tokens that derive a type begin with the tokens up to one of them. -/
  | halted {before : List Token} {token : Token} {fault : ParseError}
      (halts : Halts sentences tokens before token) (blames : Blames before token fault) :
      Outcome tokens (.error fault)

theorem State.run_eq (state : State) (tokens : List Token) :
    state.run tokens = tokens.foldlM State.step state >>= State.finish := by
  induction tokens generalizing state with
  | nil => rfl
  | cons token tokens ih =>
    rw [State.run, List.foldlM_cons]
    cases state.step token with
    | ok next => exact ih next
    | error fault => rfl

theorem State.run_of_read {after : State} (read : tokens.foldlM State.step state = .ok after) :
    state.run tokens = after.finish := by
  rw [State.run_eq, read]
  rfl

theorem State.finish_error (state : State) (refused : state.finish = .error fault) :
    fault = .unexpectedEnd := by
  unfold State.finish at refused
  split at refused
  · cases refused
  · split at refused <;> cases refused
    rfl
  · cases refused
    rfl

/-- Tokens that are read have an outcome, with what the last state makes of them. -/
theorem outcome_of_read (proper : ∀ token ∈ tokens, token.Proper)
    (read : tokens.foldlM State.step .initial = .ok state) : Outcome tokens state.finish := by
  cases finish : state.finish with
  | ok t =>
    obtain ⟨tree, yields, rfl⟩ := (State.reads_of_foldlM proper read).exists_tree finish
    exact .derived tree yields
  | error fault =>
    rw [state.finish_error finish]
    refine .unfinished (recognizes_sentences.completes tokens state proper read) fun member => ?_
    obtain ⟨tree, yields⟩ := member
    rw [Tree.finish_of_read yields read] at finish
    cases finish

/-- Reading tokens has exactly one outcome. -/
theorem State.run_eq_iff_outcome (proper : ∀ token ∈ tokens, token.Proper)
    {result : Except ParseError Ty} :
    State.initial.run tokens = result ↔ Outcome tokens result := by
  constructor
  · intro run
    subst run
    cases read : tokens.foldlM State.step .initial with
    | ok state =>
      rw [State.run_of_read read]
      exact outcome_of_read proper read
    | error fault =>
      obtain ⟨before, token, state, halts, here, refused⟩ :=
        (recognizes_sentences.refuses_iff proper).1 read
      rw [State.run_eq, read]
      exact .halted halts ((blames_iff (halts.proper proper) here).2 (State.step_error refused))
  · intro outcome
    cases outcome with
    | derived tree yields =>
      obtain ⟨state, read⟩ := recognizes_sentences.reads tokens ⟨tree, yields⟩
      rw [State.run_of_read read, Tree.finish_of_read yields read]
    | unfinished viable partial_type =>
      obtain ⟨state, read⟩ := (recognizes_sentences.viable_iff proper).1 viable
      rw [State.run_of_read read]
      cases finish : state.finish with
      | ok t =>
        obtain ⟨tree, yields, -⟩ := (State.reads_of_foldlM proper read).exists_tree finish
        exact absurd ⟨tree, yields⟩ partial_type
      | error fault => rw [state.finish_error finish]
    | halted halts blames =>
      obtain ⟨-, state, fault, read, refused⟩ := (recognizes_sentences.halts_iff proper).1 halts
      have same := (blames_iff (halts.proper proper) read).1 blames
      rw [← State.step_error refused] at same
      subst same
      rw [State.run_eq, foldlM_of_refused halts.reached read refused]
      rfl

theorem proper_of_mem_tokens (text : String) : ∀ token ∈ Ty.tokens text, token.Proper := by
  intro token member name word
  rcases token with ⟨lexeme, offset⟩
  obtain rfl : lexeme = .word name := word
  exact Divides.isName_of_mem (divides_iff.2 rfl) member

/-- The derivation of a text is unique. A text is divided into tokens in one way, and reading it has
exactly one outcome: it derives a type, or it ends too early, or it has a first token that cannot
follow those before it. -/
theorem parse_tells_derivations :
    Function.Injective Tree.lexemes ∧
      ∀ text : String, ∃ tokens, (∀ others, Divides 0 text.toList others ↔ others = tokens) ∧
        ∀ result, parse text = result ↔ Outcome tokens result :=
  ⟨fun _ _ => Tree.lexemes_injective, fun text => ⟨Ty.tokens text, fun _ => divides_iff,
    fun _ => State.run_eq_iff_outcome (proper_of_mem_tokens text)⟩⟩

example : parse "\x7bé, 2, )" = .error (.invalidDimension ")" 8) := by decide +kernel

example : parse "(t)(" = .error (.trailingInput 3) := by decide +kernel

end Ty

end GrammarSearch
