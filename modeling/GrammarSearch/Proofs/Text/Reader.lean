import Mathlib.Data.List.Induction
import Mathlib.Data.Set.Basic

/-!
# Readers

A reader goes from state to state, one token at a time, and stops at the first token that it
refuses. It recognises a language if it reads every sequence of the language and reads on only
while the tokens so far begin such a sequence (`Recognizes`). Then it refuses a token exactly
where no sequence of the language can go on with it: neither late nor early
(`Recognizes.halts_iff`).
-/

namespace GrammarSearch

variable {τ σ ε : Type}

/-! ## Languages -/

/-- Some sequence of the language begins with these tokens. -/
def Viable (language : Set (List τ)) (tokens : List τ) : Prop :=
  ∃ more, tokens ++ more ∈ language

/-- The token after `before` is the first of the tokens that no sequence of the language has at its
place. -/
structure Halts (language : Set (List τ)) (tokens before : List τ) (token : τ) : Prop where
  reached : before ++ [token] <+: tokens
  viable : Viable language before
  dead : ¬ Viable language (before ++ [token])

variable {language : Set (List τ)} {tokens before more : List τ} {token : τ}

theorem viable_of_mem (member : tokens ∈ language) : Viable language tokens :=
  ⟨[], by rwa [List.append_nil]⟩

theorem Viable.of_append (viable : Viable language (tokens ++ more)) : Viable language tokens := by
  obtain ⟨rest, member⟩ := viable
  exact ⟨more ++ rest, by rwa [← List.append_assoc]⟩

/-! ## Reading on -/

variable {step : σ → τ → Except ε σ} {start state next : σ} {fault : ε}

theorem foldlM_cons_of_ok (here : step state token = .ok next) :
    (token :: tokens).foldlM step state = tokens.foldlM step next := by
  rw [List.foldlM_cons, here]
  rfl

theorem foldlM_append_of_ok (here : tokens.foldlM step start = .ok state) :
    (tokens ++ more).foldlM step start = more.foldlM step state := by
  rw [List.foldlM_append, here]
  rfl

theorem foldlM_concat_of_ok (here : tokens.foldlM step start = .ok state) :
    (tokens ++ [token]).foldlM step start = step state token := by
  rw [foldlM_append_of_ok here, List.foldlM_cons]
  cases step state token <;> rfl

theorem foldlM_of_cons (here : (token :: tokens).foldlM step start = .ok next) :
    ∃ state, step start token = .ok state ∧ tokens.foldlM step state = .ok next := by
  cases first : step start token with
  | ok state => exact ⟨state, rfl, (foldlM_cons_of_ok first).symm.trans here⟩
  | error fault =>
    rw [List.foldlM_cons, first] at here
    cases here

/-- What begins a sequence that is read is read. -/
theorem foldlM_of_append (here : (tokens ++ more).foldlM step start = .ok next) :
    ∃ state, tokens.foldlM step start = .ok state ∧ more.foldlM step state = .ok next := by
  cases read : tokens.foldlM step start with
  | ok state => exact ⟨state, rfl, (foldlM_append_of_ok read).symm.trans here⟩
  | error fault =>
    rw [List.foldlM_append, read] at here
    cases here

/-- A reader that takes every step of another reads what that one reads. -/
theorem foldlM_of_imp {other : σ → τ → Except ε σ}
    (imp : ∀ state token next, step state token = .ok next → other state token = .ok next)
    (here : tokens.foldlM step start = .ok state) : tokens.foldlM other start = .ok state := by
  induction tokens generalizing start with
  | nil => exact here
  | cons token tokens ih =>
    obtain ⟨next, first, later⟩ := foldlM_of_cons here
    rw [foldlM_cons_of_ok (imp _ _ _ first)]
    exact ih later

/-- The fault found at a token is the fault of everything that begins so. -/
theorem foldlM_of_refused (reached : before ++ [token] <+: tokens)
    (here : before.foldlM step start = .ok state) (refused : step state token = .error fault) :
    tokens.foldlM step start = .error fault := by
  obtain ⟨rest, rfl⟩ := reached
  have there := (foldlM_concat_of_ok here).trans refused
  rw [List.foldlM_append, there]
  rfl

/-- A sequence that is not read has a first token that is refused. -/
theorem exists_refused (here : tokens.foldlM step start = .error fault) :
    ∃ before token state, before ++ [token] <+: tokens ∧ before.foldlM step start = .ok state ∧
      step state token = .error fault := by
  induction tokens generalizing start with
  | nil => cases here
  | cons token tokens ih =>
    cases first : step start token with
    | error other =>
      rw [List.foldlM_cons, first] at here
      cases here
      exact ⟨[], token, start, ⟨tokens, rfl⟩, rfl, first⟩
    | ok next =>
      rw [foldlM_cons_of_ok first] at here
      obtain ⟨before, refused, state, reached, read, halt⟩ := ih here
      refine ⟨token :: before, refused, state, ?_, ?_, halt⟩
      · exact List.cons_prefix_cons.2 ⟨rfl, reached⟩
      · rwa [foldlM_cons_of_ok first]

/-- What holds of the first state and is kept by every proper token holds of what was read. -/
theorem foldlM_induction (Proper : τ → Prop) {motive : σ → List τ → Prop} (first : motive start [])
    (grow : ∀ state tokens token next, Proper token → motive state tokens →
      step state token = .ok next → motive next (tokens ++ [token]))
    (proper : ∀ token ∈ tokens, Proper token) (read : tokens.foldlM step start = .ok state) :
    motive state tokens := by
  induction tokens using List.reverseRecOn generalizing state with
  | nil =>
    cases read
    exact first
  | append_singleton tokens token ih =>
    obtain ⟨before, here, _⟩ := foldlM_of_append read
    have step := (foldlM_concat_of_ok here).symm.trans read
    have earlier := ih (fun other member => proper other (List.mem_append_left _ member)) here
    exact grow before tokens token state (proper token (by simp)) earlier step

/-! ## Recognising a language -/

/-- The reader reads every sequence of the language, and while it reads on, proper tokens begin
some sequence of the language. -/
structure Recognizes (step : σ → τ → Except ε σ) (start : σ) (Proper : τ → Prop)
    (language : Set (List τ)) : Prop where
  reads : ∀ tokens ∈ language, ∃ state, tokens.foldlM step start = .ok state
  completes : ∀ tokens state, (∀ token ∈ tokens, Proper token) →
    tokens.foldlM step start = .ok state → Viable language tokens

variable {Proper : τ → Prop}

theorem Recognizes.viable_iff (recognizes : Recognizes step start Proper language)
    (proper : ∀ token ∈ tokens, Proper token) :
    Viable language tokens ↔ ∃ state, tokens.foldlM step start = .ok state := by
  constructor
  · intro viable
    obtain ⟨more, member⟩ := viable
    obtain ⟨last, whole⟩ := recognizes.reads _ member
    obtain ⟨state, read, -⟩ := foldlM_of_append whole
    exact ⟨state, read⟩
  · intro read
    obtain ⟨state, read⟩ := read
    exact recognizes.completes tokens state proper read

/-- The reader refuses a token exactly where nothing in the language can go on with it. -/
theorem Recognizes.halts_iff (recognizes : Recognizes step start Proper language)
    (proper : ∀ token ∈ tokens, Proper token) :
    Halts language tokens before token ↔ before ++ [token] <+: tokens ∧
      ∃ state fault, before.foldlM step start = .ok state ∧ step state token = .error fault := by
  constructor
  · intro halts
    have properHere : ∀ other ∈ before ++ [token], Proper other := fun other member =>
      proper other (halts.reached.subset member)
    have properBefore : ∀ other ∈ before, Proper other := fun other member =>
      properHere other (List.mem_append_left _ member)
    obtain ⟨state, read⟩ := (recognizes.viable_iff properBefore).1 halts.viable
    refine ⟨halts.reached, state, ?_⟩
    cases here : step state token with
    | error fault => exact ⟨fault, read, rfl⟩
    | ok next =>
      have viable := recognizes.completes (before ++ [token]) next properHere
        ((foldlM_concat_of_ok read).trans here)
      exact absurd viable halts.dead
  · intro refused
    obtain ⟨reached, state, fault, read, refused⟩ := refused
    have properHere : ∀ other ∈ before ++ [token], Proper other := fun other member =>
      proper other (reached.subset member)
    refine ⟨reached, ?_, fun viable => ?_⟩
    · exact recognizes.completes before state
        (fun other member => properHere other (List.mem_append_left _ member)) read
    · obtain ⟨next, whole⟩ := (recognizes.viable_iff properHere).1 viable
      rw [foldlM_concat_of_ok read, refused] at whole
      cases whole

/-- Where the reader stops is where it halts. -/
theorem Recognizes.refuses_iff (recognizes : Recognizes step start Proper language)
    (proper : ∀ token ∈ tokens, Proper token) :
    tokens.foldlM step start = .error fault ↔
      ∃ before token state, Halts language tokens before token ∧
        before.foldlM step start = .ok state ∧ step state token = .error fault := by
  constructor
  · intro refused
    obtain ⟨before, token, state, reached, here, halt⟩ := exists_refused refused
    have halts := (recognizes.halts_iff proper).2 ⟨reached, state, fault, here, halt⟩
    exact ⟨before, token, state, halts, here, halt⟩
  · intro halted
    obtain ⟨before, token, state, halts, here, halt⟩ := halted
    exact foldlM_of_refused halts.reached here halt

theorem Halts.proper (halts : Halts language tokens before token)
    (proper : ∀ token ∈ tokens, Proper token) : ∀ token ∈ before, Proper token :=
  fun other member => proper other (halts.reached.subset (List.mem_append_left _ member))

end GrammarSearch
