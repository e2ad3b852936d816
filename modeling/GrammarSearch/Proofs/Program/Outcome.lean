import GrammarSearch.Proofs.Program.Expression

/-!
# What reading a program comes to

A text is one expression, or several, or it ends inside a list, or it has a first token that no
sequence of expressions can go on with, and that token says what is wrong (`Blames`). These are the
outcomes of reading, each with its own result, and there are no others: `parse_eq_iff_outcome`.
-/

namespace GrammarSearch

namespace Program

variable {reading : Reading} {tokens before outer : List Token} {token : Token}
  {state : State} {fault : ParseError} {start : Nat}

/-! ## Open lists -/

/-- The lists that are open after a token, by the offsets where they start, innermost first. -/
def enclose (offsets : List Nat) : Token → List Nat
  | .openParen offset => offset :: offsets
  | .closeParen _ => offsets.tail
  | .word _ => offsets

/-- The offsets of the lists that tokens leave open, innermost first. Parentheses match as brackets
do, whatever stands between them. -/
def unclosed (tokens : List Token) : List Nat := tokens.foldl enclose []

theorem unclosed_concat (tokens : List Token) (token : Token) :
    unclosed (tokens ++ [token]) = enclose (unclosed tokens) token := by
  simp [unclosed]

theorem State.offsets_add (state : State) (e : Parsed) :
    (state.add e).lists.map OpenList.offset = state.lists.map OpenList.offset := by
  rcases state with ⟨_ | ⟨list, lists⟩, found⟩ <;> rfl

theorem State.offsets_step {after : State} (step : state.step reading token = .ok after) :
    after.lists.map OpenList.offset = enclose (state.lists.map OpenList.offset) token := by
  cases token with
  | openParen offset =>
    unfold State.step at step
    dsimp only at step
    split at step
    · cases step
    · split at step
      · cases step
      · obtain rfl := Except.ok.inj step
        rfl
  | closeParen offset =>
    rcases state with ⟨_ | ⟨⟨start, _ | head, reversed⟩, lists⟩, found⟩
    · cases step
    · cases step
    · obtain rfl := Except.ok.inj step
      exact State.offsets_add _ _
  | word w =>
    rcases state with ⟨_ | ⟨⟨start, _ | head, reversed⟩, lists⟩, found⟩ <;>
      obtain rfl := Except.ok.inj step <;> rfl

/-- The lists that the reader has open are those that the tokens leave open. -/
theorem State.offsets_of_read (read : tokens.foldlM (State.step reading) .initial = .ok state) :
    state.lists.map OpenList.offset = unclosed tokens := by
  refine foldlM_induction (fun _ => True)
    (motive := fun state tokens => state.lists.map OpenList.offset = unclosed tokens) rfl
    (fun before tokens token after _ same step => ?_) (fun _ _ => trivial) read
  rw [unclosed_concat, ← same]
  exact State.offsets_step step

theorem State.length_lists_of_read
    (read : tokens.foldlM (State.step reading) .initial = .ok state) :
    state.lists.length = (unclosed tokens).length := by
  rw [← State.offsets_of_read read, List.length_map]

theorem State.Reads.length_lists_le (reads : state.Reads reading tokens) :
    state.lists.length ≤ maxNesting := by
  cases reads with
  | outside => exact Nat.zero_le _
  | opened _ _ room => exact room
  | headed _ _ room => exact room

/-- A list has no head exactly right after its opening parenthesis. -/
theorem State.Reads.exists_concat_of_headless {reversed : List Program} {lists : List OpenList}
    (reads : state.Reads reading tokens)
    (headless : state.lists = ⟨start, none, reversed⟩ :: lists) :
    ∃ outer, tokens = outer ++ [.openParen start] := by
  cases reads with
  | outside => cases headless
  | opened =>
    cases headless
    exact ⟨_, rfl⟩
  | headed => cases headless

theorem State.exists_lists_of_read_open
    (read : (outer ++ [Token.openParen start]).foldlM (State.step reading) .initial = .ok state) :
    ∃ lists, state.lists = ⟨start, none, []⟩ :: lists := by
  obtain ⟨before, here, _⟩ := foldlM_of_append read
  have step := (foldlM_concat_of_ok here).symm.trans read
  unfold State.step at step
  dsimp only at step
  split at step
  · cases step
  · split at step
    · cases step
    · obtain rfl := Except.ok.inj step
      exact ⟨_, rfl⟩

/-! ## The token at fault -/

/-- Why a token cannot follow tokens that begin a sequence of expressions. -/
inductive Blames : List Token → Token → ParseError → Prop
  /-- A list is closed where none is open. -/
  | unopened {before : List Token} {offset : Nat} (closed : unclosed before = []) :
      Blames before (.closeParen offset) (.unexpectedCloseParen offset)
  /-- A list is closed that has no head yet. -/
  | empty {outer : List Token} {start offset : Nat} :
      Blames (outer ++ [.openParen start]) (.closeParen offset) (.emptyList start)
  /-- A list is opened inside as many lists as may be open, whether or not a head is due. -/
  | tooDeep {before : List Token} {offset : Nat}
      (full : (unclosed before).length = maxNesting) :
      Blames before (.openParen offset) (.tooDeep offset)
  /-- A list is opened where the head of another is due. -/
  | listAsHead {outer : List Token} {start offset : Nat}
      (room : (unclosed (outer ++ [.openParen start])).length < maxNesting) :
      Blames (outer ++ [.openParen start]) (.openParen offset) (.listHeadNotSymbol start)

theorem blames_of_step (proper : ∀ token ∈ before, token.Proper)
    (read : before.foldlM (State.step reading) .initial = .ok state)
    (refused : state.step reading token = .error fault) : Blames before token fault := by
  have reads := State.reads_of_foldlM proper read
  have offsets := State.offsets_of_read read
  have depth := State.length_lists_of_read read
  cases token with
  | openParen offset =>
    unfold State.step at refused
    dsimp only at refused
    split at refused
    · next full =>
      cases refused
      have le := reads.length_lists_le
      exact .tooDeep (by omega)
    · next room =>
      split at refused
      · next start reversed lists headless =>
        cases refused
        obtain ⟨outer, rfl⟩ := reads.exists_concat_of_headless headless
        exact .listAsHead (by omega)
      · cases refused
  | closeParen offset =>
    rcases state with ⟨_ | ⟨⟨start, _ | head, reversed⟩, lists⟩, found⟩
    · cases refused
      exact .unopened offsets.symm
    · cases refused
      obtain ⟨outer, rfl⟩ := reads.exists_concat_of_headless rfl
      exact .empty
    · cases refused
  | word w =>
    rcases state with ⟨_ | ⟨⟨start, _ | head, reversed⟩, lists⟩, found⟩ <;> cases refused

theorem step_of_blames (read : before.foldlM (State.step reading) .initial = .ok state)
    (blames : Blames before token fault) : state.step reading token = .error fault := by
  have offsets := State.offsets_of_read read
  have depth := State.length_lists_of_read read
  cases blames with
  | unopened closed =>
    rw [closed] at offsets
    rcases state with ⟨_ | ⟨list, lists⟩, found⟩
    · rfl
    · cases offsets
  | empty =>
    obtain ⟨lists, headless⟩ := State.exists_lists_of_read_open read
    unfold State.step
    rw [headless]
  | tooDeep full =>
    unfold State.step
    dsimp only
    rw [if_pos (by omega)]
  | listAsHead room =>
    obtain ⟨lists, headless⟩ := State.exists_lists_of_read_open read
    unfold State.step
    dsimp only
    rw [if_neg (by omega), headless]

/-! ## Outcomes -/

/-- What reading tokens comes to, with the result of reading. -/
inductive Outcome (reading : Reading) (tokens : List Token) : Except ParseError Parsed → Prop
  /-- The tokens are one expression. -/
  | expression {e : Parsed} (derives : Derives reading maxNesting tokens [e]) :
      Outcome reading tokens (.ok e)
  /-- The tokens are no or several expressions. -/
  | sequence {es : List Parsed} (derives : Derives reading maxNesting tokens es)
      (several : es.length ≠ 1) : Outcome reading tokens (.error (.malformedInput es.length))
  /-- The tokens begin a sequence of expressions and end inside of a list. -/
  | unfinished {start : Nat} {around : List Nat} (viable : Viable (sequences reading) tokens)
      (inside : unclosed tokens = start :: around) :
      Outcome reading tokens (.error (.unbalancedParen start))
  /-- No sequence of expressions begins with the tokens up to one of them. -/
  | halted {before : List Token} {token : Token} {fault : ParseError}
      (halts : Halts (sequences reading) tokens before token) (blames : Blames before token fault) :
      Outcome reading tokens (.error fault)

theorem State.run_eq (state : State) (tokens : List Token) :
    state.run reading tokens = tokens.foldlM (State.step reading) state >>= State.finish := by
  induction tokens generalizing state with
  | nil => rfl
  | cons token tokens ih =>
    rw [State.run, List.foldlM_cons]
    cases state.step reading token with
    | ok next => exact ih next
    | error fault => rfl

theorem State.run_of_read {after : State}
    (read : tokens.foldlM (State.step reading) state = .ok after) :
    state.run reading tokens = after.finish := by
  rw [State.run_eq, read]
  rfl

theorem State.finish_of_several {found : List Parsed} (several : found.length ≠ 1) :
    State.finish ⟨[], found⟩ = .error (.malformedInput found.length) := by
  rcases found with _ | ⟨e, _ | ⟨second, found⟩⟩
  · rfl
  · exact absurd rfl several
  · rfl

/-- Tokens that are read have an outcome, with what the last state makes of them. -/
theorem outcome_of_read (reads : state.Reads reading tokens)
    (read : tokens.foldlM (State.step reading) .initial = .ok state) :
    Outcome reading tokens state.finish := by
  cases open_lists : state.lists with
  | nil =>
    cases reads with
    | @outside _ es derives =>
      by_cases single : es.length = 1
      · obtain ⟨e, rfl⟩ := List.length_eq_one_iff.1 single
        exact .expression derives
      · rw [State.finish_of_several (by rwa [List.length_reverse]), List.length_reverse]
        exact .sequence derives single
    | opened => cases open_lists
    | headed => cases open_lists
  | cons list lists =>
    have offsets := State.offsets_of_read read
    rw [open_lists, List.map_cons] at offsets
    have finished : state.finish = .error (.unbalancedParen list.offset) := by
      rw [State.finish, open_lists]
    rw [finished]
    exact .unfinished reads.viable offsets.symm

/-- Reading tokens has exactly one outcome. -/
theorem State.run_eq_iff_outcome (proper : ∀ token ∈ tokens, token.Proper)
    {result : Except ParseError Parsed} :
    State.initial.run reading tokens = result ↔ Outcome reading tokens result := by
  have recognizes := recognizes_sequences reading
  have atTop (room : Nat) (fits : room ≤ maxNesting) :
      State.initial.lists.length + room ≤ maxNesting := by simpa [State.initial] using fits
  constructor
  · intro run
    subst run
    cases read : tokens.foldlM (State.step reading) .initial with
    | ok state =>
      rw [State.run_of_read read]
      exact outcome_of_read (State.reads_of_foldlM proper read) read
    | error fault =>
      obtain ⟨before, token, state, halts, here, refused⟩ := (recognizes.refuses_iff proper).1 read
      rw [State.run_eq, read]
      exact .halted halts (blames_of_step (halts.proper proper) here refused)
  · intro outcome
    cases outcome with
    | expression derives =>
      rw [State.run_of_read (derives.read State.ready_initial (atTop _ le_rfl))]
      rfl
    | @sequence es derives several =>
      have finished : State.finish ⟨[], es.reverse⟩ = .error (.malformedInput es.reverse.length) :=
        State.finish_of_several (by rwa [List.length_reverse])
      rw [State.run_of_read (derives.read State.ready_initial (atTop _ le_rfl)), State.initial,
        State.addAll_outside, List.append_nil, finished, List.length_reverse]
    | unfinished viable inside =>
      obtain ⟨state, read⟩ := (recognizes.viable_iff proper).1 viable
      have offsets := State.offsets_of_read read
      rw [State.run_of_read read]
      rw [inside] at offsets
      rcases state with ⟨_ | ⟨list, lists⟩, found⟩
      · cases offsets
      · obtain ⟨innermost, -⟩ := List.cons.inj offsets
        rw [← innermost]
        rfl
    | halted halts blames =>
      obtain ⟨-, state, other, read, -⟩ := (recognizes.halts_iff proper).1 halts
      rw [State.run_eq, foldlM_of_refused halts.reached read (step_of_blames read blames)]
      rfl

theorem proper_of_mem_tokens (text : String) : ∀ token ∈ Program.tokens text, token.Proper := by
  intro token member
  cases token with
  | openParen offset => trivial
  | closeParen offset => trivial
  | word w => exact isWord_of_mem_scan (fun _ absent => by cases absent) member

/-- A text is divided into tokens in one way, and reading it has exactly one outcome: it is one
expression and denotes what the expression denotes, or it is another number of expressions, or it
ends inside of a list, or it has a first token that cannot follow those before it. -/
theorem parse_eq_iff_outcome (reading : Reading) (text : String) :
    ∃ tokens, (∀ others, Divides 0 text.toList others ↔ others = tokens) ∧
      ∀ result, parse reading text = result ↔ Outcome reading tokens result :=
  ⟨Program.tokens text, fun _ => divides_iff,
    fun _ => State.run_eq_iff_outcome (proper_of_mem_tokens text)⟩

example : parse ⟨.marked, []⟩ "(é (f" = .error (.unbalancedParen 4) := by decide +kernel

example : parse ⟨.bare, ["f"]⟩ "f (g)" = .error (.malformedInput 2) := by decide +kernel

end Program

end GrammarSearch
