import GrammarSearch.Proofs.Program.RoundTrip
import GrammarSearch.Proofs.Text.Reader

/-!
# Expressions

The grammar of program texts as a relation between tokens and what they denote (`Derives`), and
the reader against it. The reader reads every derived sequence and adds what it denotes
(`Derives.read`). Conversely its state tells what was read (`State.Reads`): the expressions outside
of lists, and of every open list its head and the arguments so far. From such a state the open
lists can always be closed, so the reader recognises sequences of expressions
(`recognizes_sequences`).
-/

namespace GrammarSearch

namespace Program

variable {reading : Reading} {room : Nat} {tokens more inside : List Token}
  {es arguments : List Parsed} {e : Parsed} {state : State} {token : Token}

/-! ## The grammar -/

/-- The tokens of expressions one after the other, with at most `room` lists inside one another, and
what they denote: the head of a list is taken as it stands, any other word as the reading has it.
One expression is a sequence of one. -/
inductive Derives (reading : Reading) : Nat → List Token → List Parsed → Prop
  | nil {room : Nat} : Derives reading room [] []
  | word {room : Nat} {w : String} {tokens : List Token} {es : List Parsed} (isWord : IsWord w)
      (later : Derives reading room tokens es) :
      Derives reading room (.word w :: tokens) (reading.word w :: es)
  | list {room start stop : Nat} {head : String} {inside tokens : List Token}
      {arguments es : List Parsed} (isWord : IsWord head)
      (inner : Derives reading room inside arguments)
      (later : Derives reading (room + 1) tokens es) :
      Derives reading (room + 1)
        (.openParen start :: .word head :: (inside ++ .closeParen stop :: tokens))
        (.program (.node head (arguments.map Parsed.toProgram)) :: es)

theorem Derives.append {others : List Parsed} (first : Derives reading room tokens es)
    (second : Derives reading room more others) :
    Derives reading room (tokens ++ more) (es ++ others) := by
  induction first with
  | nil => exact second
  | word isWord _ ih => exact .word isWord (ih second)
  | list isWord inner _ _ ih =>
    rw [List.cons_append, List.cons_append, List.append_assoc, List.cons_append]
    exact .list isWord inner (ih second)

/-! ## Reading what is derived -/

/-- The state after complete expressions. -/
def State.addAll (state : State) (es : List Parsed) : State := es.foldl State.add state

theorem State.addAll_outside (found : List Parsed) :
    State.addAll ⟨[], found⟩ es = ⟨[], es.reverse ++ found⟩ := by
  induction es generalizing found with
  | nil => rfl
  | cons e es ih =>
    change State.addAll ⟨[], e :: found⟩ es = _
    rw [ih]
    simp

theorem State.addAll_inside (start : Nat) (head? : Option String) (reversed : List Program)
    (lists : List OpenList) (found : List Parsed) :
    State.addAll ⟨⟨start, head?, reversed⟩ :: lists, found⟩ es =
      ⟨⟨start, head?, (es.map Parsed.toProgram).reverse ++ reversed⟩ :: lists, found⟩ := by
  induction es generalizing reversed with
  | nil => rfl
  | cons e es ih =>
    change State.addAll ⟨⟨start, head?, e.toProgram :: reversed⟩ :: lists, found⟩ es = _
    rw [ih]
    simp

theorem State.length_lists_add (state : State) (e : Parsed) :
    (state.add e).lists.length = state.lists.length := by
  rcases state with ⟨_ | ⟨list, lists⟩, found⟩ <;> rfl

theorem State.Ready.add (ready : state.Ready) (e : Parsed) : (state.add e).Ready := by
  rcases state with ⟨_ | ⟨list, lists⟩, found⟩
  · exact ready
  · intro other member
    cases member
    exact ready list rfl

/-- The reader reads expressions where an argument may stand, as long as there is room for their
lists. -/
theorem Derives.read (derives : Derives reading room tokens es) (ready : state.Ready)
    (fits : state.lists.length + room ≤ maxNesting) :
    tokens.foldlM (State.step reading) state = .ok (state.addAll es) := by
  induction derives generalizing state with
  | nil => rfl
  | @word _ w _ _ _ _ ih =>
    rw [foldlM_cons_of_ok (State.step_word ready w)]
    exact ih (ready.add _) (by rwa [State.length_lists_add])
  | @list room start stop head inside tokens arguments es _ _ _ ihInner ihLater =>
    have opening : state.step reading (.openParen start) =
        .ok ⟨⟨start, none, []⟩ :: state.lists, state.found⟩ :=
      State.step_open ready (by omega) start
    have headed : State.Ready ⟨⟨start, some head, []⟩ :: state.lists, state.found⟩ :=
      fun other member => by cases member; rfl
    have inner := ihInner headed (by simp; omega)
    rw [State.addAll_inside, List.append_nil] at inner
    rw [foldlM_cons_of_ok opening, foldlM_cons_of_ok (State.step_head start _ _ head),
      foldlM_append_of_ok inner, foldlM_cons_of_ok (State.step_close start stop head _ _ _),
      List.reverse_reverse]
    exact ihLater (ready.add _) (by rwa [State.length_lists_add])

/-! ## What was read -/

/-- What the tokens were that led to a state. All lists around an open list have their heads. -/
inductive State.Reads (reading : Reading) : State → List Token → Prop
  | outside {tokens : List Token} {es : List Parsed}
      (derives : Derives reading maxNesting tokens es) : Reads reading ⟨[], es.reverse⟩ tokens
  | opened {state : State} {tokens : List Token} (around : Reads reading state tokens)
      (ready : state.Ready) (room : state.lists.length < maxNesting) (start : Nat) :
      Reads reading ⟨⟨start, none, []⟩ :: state.lists, state.found⟩
        (tokens ++ [.openParen start])
  | headed {state : State} {tokens inside : List Token} {head : String} {arguments : List Parsed}
      (around : Reads reading state tokens) (ready : state.Ready)
      (room : state.lists.length < maxNesting) (start : Nat) (isWord : IsWord head)
      (inner : Derives reading (maxNesting - (state.lists.length + 1)) inside arguments) :
      Reads reading
        ⟨⟨start, some head, (arguments.map Parsed.toProgram).reverse⟩ :: state.lists, state.found⟩
        (tokens ++ .openParen start :: .word head :: inside)

/-- An expression may be added where an argument may stand. -/
theorem State.Reads.add (reads : state.Reads reading tokens) (ready : state.Ready)
    (derives : Derives reading (maxNesting - state.lists.length) more [e]) :
    (state.add e).Reads reading (tokens ++ more) := by
  cases reads with
  | @outside _ es before =>
    have whole := before.append derives
    have added : State.add ⟨[], es.reverse⟩ e = ⟨[], (es ++ [e]).reverse⟩ := by
      rw [List.reverse_concat]
      rfl
    rw [added]
    exact .outside whole
  | opened => cases ready _ rfl
  | @headed state outer inside head arguments around outerReady room start isWord inner =>
    have whole := inner.append derives
    have added : State.add
        ⟨⟨start, some head, (arguments.map Parsed.toProgram).reverse⟩ :: state.lists, state.found⟩
        e =
        ⟨⟨start, some head, ((arguments ++ [e]).map Parsed.toProgram).reverse⟩ :: state.lists,
          state.found⟩ := by
      rw [List.map_append, List.map_singleton, List.reverse_concat]
      rfl
    rw [added, List.append_assoc, List.cons_append, List.cons_append]
    exact .headed around outerReady room start isWord whole

/-- A token that can be one of a text. -/
def Token.Proper : Token → Prop
  | .word w => IsWord w
  | _ => True

/-- What was read includes the token just read. -/
theorem State.Reads.step {after : State} (reads : state.Reads reading tokens)
    (proper : token.Proper) (step : state.step reading token = .ok after) :
    after.Reads reading (tokens ++ [token]) := by
  cases token with
  | openParen start =>
    unfold State.step at step
    dsimp only at step
    split at step
    · cases step
    · next room =>
      split at step
      · cases step
      · next headed =>
        obtain rfl := Except.ok.inj step
        refine .opened reads (fun list member => ?_) (Nat.lt_of_not_le room) start
        rcases state with ⟨_ | ⟨⟨outer, _ | head, reversed⟩, lists⟩, found⟩
        · cases member
        · exact (headed outer reversed lists rfl).elim
        · cases member
          rfl
  | closeParen stop =>
    cases reads with
    | outside => cases step
    | opened => cases step
    | @headed state outer inside head arguments around ready room start isWord inner =>
      obtain rfl := Except.ok.inj step
      rw [List.reverse_reverse, List.append_assoc, List.cons_append, List.cons_append]
      apply around.add ready
      have levels : maxNesting - state.lists.length =
          maxNesting - (state.lists.length + 1) + 1 := by omega
      rw [levels]
      exact .list isWord inner .nil
  | word w =>
    cases reads with
    | @outside _ es before =>
      obtain rfl := Except.ok.inj step
      exact State.Reads.add (.outside before) State.ready_initial (.word proper .nil)
    | opened around ready room start =>
      obtain rfl := Except.ok.inj step
      rw [List.append_assoc]
      exact .headed around ready room start proper .nil
    | headed around ready room start isWord inner =>
      obtain rfl := Except.ok.inj step
      exact State.Reads.add (.headed around ready room start isWord inner)
        (fun list member => by cases member; rfl) (.word proper .nil)

theorem State.reads_of_foldlM (proper : ∀ token ∈ tokens, token.Proper)
    (read : tokens.foldlM (State.step reading) .initial = .ok state) :
    state.Reads reading tokens :=
  foldlM_induction Token.Proper (.outside .nil)
    (fun _ _ _ _ proper reads step => reads.step proper step) proper read

/-! ## Closing what is open -/

/-- The sequences of expressions. -/
def sequences (reading : Reading) : Set (List Token) :=
  {tokens | ∃ es, Derives reading maxNesting tokens es}

/-- Where an argument may stand the open lists can be closed. -/
theorem State.Reads.viable_of_ready (reads : state.Reads reading tokens) (ready : state.Ready) :
    Viable (sequences reading) tokens := by
  induction open_lists : state.lists.length generalizing state tokens with
  | zero =>
    cases reads with
    | outside derives => exact viable_of_mem ⟨_, derives⟩
    | opened => cases open_lists
    | headed => cases open_lists
  | succ n ih =>
    cases reads with
    | outside => cases open_lists
    | opened => cases ready _ rfl
    | @headed state outer inside head arguments around outerReady room start isWord inner =>
      have closing : State.step reading
          ⟨⟨start, some head, (arguments.map Parsed.toProgram).reverse⟩ :: state.lists, state.found⟩
          (.closeParen 0) = .ok _ := State.step_close start 0 head _ _ _
      have closed := (State.Reads.headed around outerReady room start isWord inner).step
        (by trivial) closing
      refine (ih closed (outerReady.add _) ?_).of_append
      rw [State.length_lists_add]
      exact Nat.succ.inj open_lists

theorem isWord_x : IsWord "x" where
  ne_empty := by decide
  unseparated c member := by
    obtain rfl : c = 'x' := by simpa using member
    rfl

/-- What was read begins a sequence of expressions: a list without a head may be given one. -/
theorem State.Reads.viable (reads : state.Reads reading tokens) :
    Viable (sequences reading) tokens := by
  rcases state with ⟨_ | ⟨⟨start, _ | head, reversed⟩, lists⟩, found⟩
  · exact reads.viable_of_ready fun list member => by cases member
  · have headed : State.Reads reading _ (tokens ++ [.word "x"]) := reads.step isWord_x rfl
    exact (headed.viable_of_ready fun list member => by cases member; rfl).of_append
  · exact reads.viable_of_ready fun list member => by cases member; rfl

/-- The reader recognises the sequences of expressions. -/
theorem recognizes_sequences (reading : Reading) :
    Recognizes (State.step reading) .initial Token.Proper (sequences reading) where
  reads := by
    intro tokens member
    obtain ⟨es, derives⟩ := member
    exact ⟨_, derives.read State.ready_initial (by simp [State.initial])⟩
  completes := fun _ _ proper read => (State.reads_of_foldlM proper read).viable

end Program

end GrammarSearch
