import GrammarSearch.Search.Traversal

/-!
# Rounds of a search

`Traversal.rounds` runs a search for a number of rounds without looking for
goals, and lists what the rounds did. Every statement about the order or the
extent of a search is one about this list. `Traversal.step_cases` says once what
a round can do; what every round keeps, all rounds keep.
-/

namespace GrammarSearch

variable {F N K : Type}

/-! ## Records of rounds -/

/-- The entry that a round expanded. -/
def Step.expanded? : Step N K → Option (Entry N K)
  | .expanded _ entry _ => some entry
  | .pruned _ => none
  | .finished _ => none

/-- The entry that a round discarded. -/
def Step.pruned? : Step N K → Option (Entry N K)
  | .expanded _ _ _ => none
  | .pruned entry => some entry
  | .finished _ => none

/-- The entry that a round took out of the frontier. -/
def Step.popped? : Step N K → Option (Entry N K)
  | .expanded _ entry _ => some entry
  | .pruned entry => some entry
  | .finished _ => none

/-- The entries that were expanded, in order. -/
def expandedEntries (steps : List (Step N K)) : List (Entry N K) :=
  steps.filterMap Step.expanded?

/-- The entries that were discarded for their depth, in order. -/
def prunedEntries (steps : List (Step N K)) : List (Entry N K) :=
  steps.filterMap Step.pruned?

/-- The entries that came out of the frontier, in order. -/
def poppedEntries (steps : List (Step N K)) : List (Entry N K) :=
  steps.filterMap Step.popped?

/-- The nodes that were expanded, in order. -/
def expandedNodes (steps : List (Step N K)) : List N :=
  (expandedEntries steps).map (·.node)

@[simp] theorem expandedEntries_append (steps more : List (Step N K)) :
    expandedEntries (steps ++ more) = expandedEntries steps ++ expandedEntries more :=
  List.filterMap_append

@[simp] theorem prunedEntries_append (steps more : List (Step N K)) :
    prunedEntries (steps ++ more) = prunedEntries steps ++ prunedEntries more :=
  List.filterMap_append

@[simp] theorem poppedEntries_append (steps more : List (Step N K)) :
    poppedEntries (steps ++ more) = poppedEntries steps ++ poppedEntries more :=
  List.filterMap_append

@[simp] theorem expandedNodes_append (steps more : List (Step N K)) :
    expandedNodes (steps ++ more) = expandedNodes steps ++ expandedNodes more := by
  simp [expandedNodes]

@[simp] theorem expandedEntries_expanded (number : Nat) (entry : Entry N K) (children : List N) :
    expandedEntries [.expanded number entry children] = [entry] := rfl

@[simp] theorem expandedEntries_pruned (entry : Entry N K) :
    expandedEntries [.pruned entry] = [] := rfl

@[simp] theorem expandedEntries_finished (stats : Stats) :
    expandedEntries [(.finished stats : Step N K)] = [] := rfl

@[simp] theorem prunedEntries_expanded (number : Nat) (entry : Entry N K) (children : List N) :
    prunedEntries [.expanded number entry children] = [] := rfl

@[simp] theorem prunedEntries_pruned (entry : Entry N K) :
    prunedEntries [.pruned entry] = [entry] := rfl

@[simp] theorem prunedEntries_finished (stats : Stats) :
    prunedEntries [(.finished stats : Step N K)] = [] := rfl

@[simp] theorem poppedEntries_expanded (number : Nat) (entry : Entry N K) (children : List N) :
    poppedEntries [.expanded number entry children] = [entry] := rfl

@[simp] theorem poppedEntries_pruned (entry : Entry N K) :
    poppedEntries [.pruned entry] = [entry] := rfl

@[simp] theorem poppedEntries_finished (stats : Stats) :
    poppedEntries [(.finished stats : Step N K)] = [] := rfl

/-- What is expanded came out of the frontier. -/
theorem expandedEntries_sublist (steps : List (Step N K)) :
    (expandedEntries steps).Sublist (poppedEntries steps) := by
  induction steps with
  | nil => exact .slnil
  | cons step steps ih =>
    cases step with
    | expanded number entry children => exact ih.cons_cons entry
    | pruned entry => exact ih.cons entry
    | finished stats => exact ih

/-- Nothing else comes out if nothing is discarded. -/
theorem poppedEntries_eq_of_unpruned {steps : List (Step N K)} (none : prunedEntries steps = []) :
    poppedEntries steps = expandedEntries steps := by
  induction steps with
  | nil => rfl
  | cons step steps ih =>
    cases step with
    | expanded number entry children => exact congrArg (entry :: ·) (ih none)
    | pruned entry => cases none
    | finished stats => exact ih none

/-! ## Running -/

/-- The search has ended. -/
def Traversal.ended (t : Traversal F N) : Bool := t.stats.termination.isSome

@[simp] theorem Traversal.ended_finish (t : Traversal F N) (reason : Termination) :
    (t.finish (K := K) reason).2.ended = true := rfl

@[simp] theorem Traversal.ended_prune (t : Traversal F N) (entry : Entry N K) :
    (t.prune entry).2.ended = t.ended := rfl

variable [Frontier F N K]

@[simp] theorem Traversal.ended_expand (t : Traversal F N) (entry : Entry N K) :
    (t.expand entry).2.ended = t.ended := rfl

/-- What some rounds of a search did, in order, and the search after them. A search that has
ended does nothing more. -/
def Traversal.rounds (t : Traversal F N) : Nat → List (Step N K) × Traversal F N
  | 0 => ([], t)
  | n + 1 =>
    if (t.rounds n).2.ended then t.rounds n
    else ((t.rounds n).1 ++ [(t.rounds n).2.step.1], (t.rounds n).2.step.2)

variable {t : Traversal F N}

theorem Traversal.rounds_zero : t.rounds 0 = ([], t) := rfl

theorem Traversal.rounds_succ_of_ended {n : Nat} (ended : (t.rounds n).2.ended = true) :
    t.rounds (n + 1) = t.rounds n := by
  rw [Traversal.rounds, if_pos ended]

theorem Traversal.rounds_succ_of_live {n : Nat} (live : (t.rounds n).2.ended = false) :
    t.rounds (n + 1) =
      ((t.rounds n).1 ++ [(t.rounds n).2.step.1], (t.rounds n).2.step.2) := by
  rw [Traversal.rounds, live]
  rfl

/-- The rounds of a live search begin with its first round. -/
theorem Traversal.rounds_succ_eq_cons (live : t.ended = false) (n : Nat) :
    t.rounds (n + 1) = (t.step.1 :: (t.step.2.rounds n).1, (t.step.2.rounds n).2) := by
  induction n with
  | zero => exact Traversal.rounds_succ_of_live live
  | succ n ih =>
    cases last : (t.step.2.rounds n).2.ended with
    | true =>
      have stopped : (t.rounds (n + 1)).2.ended = true := by rw [ih]; exact last
      rw [Traversal.rounds_succ_of_ended stopped, ih, Traversal.rounds_succ_of_ended last]
    | false =>
      have going : (t.rounds (n + 1)).2.ended = false := by rw [ih]; exact last
      rw [Traversal.rounds_succ_of_live going, ih, Traversal.rounds_succ_of_live last]
      rfl

theorem Traversal.rounds_of_ended (ended : t.ended = true) (n : Nat) : t.rounds n = ([], t) := by
  induction n with
  | zero => rfl
  | succ n ih => rw [Traversal.rounds_succ_of_ended (by rw [ih]; exact ended), ih]

/-- Some rounds and then some more. -/
theorem Traversal.rounds_add (m n : Nat) :
    t.rounds (m + n) =
      ((t.rounds m).1 ++ ((t.rounds m).2.rounds n).1, ((t.rounds m).2.rounds n).2) := by
  induction n with
  | zero => simp [Traversal.rounds_zero]
  | succ n ih =>
    rw [← Nat.add_assoc]
    cases last : ((t.rounds m).2.rounds n).2.ended with
    | true =>
      have stopped : (t.rounds (m + n)).2.ended = true := by rw [ih]; exact last
      rw [Traversal.rounds_succ_of_ended stopped, ih, Traversal.rounds_succ_of_ended last]
    | false =>
      have going : (t.rounds (m + n)).2.ended = false := by rw [ih]; exact last
      rw [Traversal.rounds_succ_of_live going, ih, Traversal.rounds_succ_of_live last,
        List.append_assoc]

theorem Traversal.length_rounds_le (n : Nat) : (t.rounds n).1.length ≤ n := by
  induction n with
  | zero => exact Nat.le_refl 0
  | succ n ih =>
    cases last : (t.rounds n).2.ended with
    | true =>
      rw [Traversal.rounds_succ_of_ended last]
      exact Nat.le_succ_of_le ih
    | false =>
      rw [Traversal.rounds_succ_of_live last, List.length_append]
      exact Nat.succ_le_succ ih

theorem Traversal.length_expandedNodes_le (n : Nat) : (expandedNodes (t.rounds n).1).length ≤ n := by
  rw [expandedNodes, List.length_map]
  exact Nat.le_trans (List.length_filterMap_le _ _) (Traversal.length_rounds_le n)

/-- Further rounds do not change what was done. -/
theorem Traversal.rounds_prefix {m n : Nat} (le : m ≤ n) : (t.rounds m).1 <+: (t.rounds n).1 := by
  obtain ⟨more, rfl⟩ := Nat.exists_eq_add_of_le le
  rw [Traversal.rounds_add]
  exact List.prefix_append _ _

/-- An ended search stays as it is. -/
theorem Traversal.rounds_eq_of_ended {m n : Nat} (ended : (t.rounds m).2.ended = true)
    (le : m ≤ n) : t.rounds n = t.rounds m := by
  obtain ⟨more, rfl⟩ := Nat.exists_eq_add_of_le le
  rw [Traversal.rounds_add, Traversal.rounds_of_ended ended, List.append_nil]

/-! ## One round -/

/-- What a round can do: end the search, for one of two reasons, or take an entry out of the
frontier and discard or expand it. -/
theorem Traversal.step_cases (t : Traversal F N) :
    (t.limits.spent t.stats.expansions = true ∧ t.step = t.finish .expansionBudgetExceeded) ∨
    (t.limits.spent t.stats.expansions = false ∧ Frontier.pop? t.frontier = none ∧
      t.step = t.finish .frontierExhausted) ∨
    (∃ entry frontier, t.limits.spent t.stats.expansions = false ∧
      Frontier.pop? t.frontier = some (entry, frontier) ∧ t.limits.prunes entry.depth = true ∧
      t.step = Traversal.prune { t with frontier } entry) ∨
    (∃ entry frontier, t.limits.spent t.stats.expansions = false ∧
      Frontier.pop? t.frontier = some (entry, frontier) ∧ t.limits.prunes entry.depth = false ∧
      t.step = Traversal.expand { t with frontier } entry) := by
  unfold Traversal.step
  cases spent : t.limits.spent t.stats.expansions with
  | true => exact .inl ⟨rfl, rfl⟩
  | false =>
    cases next : Frontier.pop? t.frontier with
    | none => exact .inr (.inl ⟨rfl, rfl, rfl⟩)
    | some taken =>
      rcases taken with ⟨entry, frontier⟩
      cases deep : t.limits.prunes entry.depth with
      | true => exact .inr (.inr (.inl ⟨entry, frontier, rfl, rfl, deep, by simp [deep]⟩))
      | false => exact .inr (.inr (.inr ⟨entry, frontier, rfl, rfl, deep, by simp [deep]⟩))

/-- What a round can do, whatever ended the search. -/
theorem Traversal.step_outcome (t : Traversal F N) :
    (∃ reason, t.step = t.finish reason) ∨
    (∃ entry frontier, Frontier.pop? t.frontier = some (entry, frontier) ∧
      t.limits.prunes entry.depth = true ∧ t.step = Traversal.prune { t with frontier } entry) ∨
    (∃ entry frontier, Frontier.pop? t.frontier = some (entry, frontier) ∧
      t.limits.prunes entry.depth = false ∧
      t.step = Traversal.expand { t with frontier } entry) := by
  rcases t.step_cases with ⟨-, step⟩ | ⟨-, -, step⟩ | ⟨entry, frontier, -, taken⟩ |
    ⟨entry, frontier, -, taken⟩
  · exact .inl ⟨_, step⟩
  · exact .inl ⟨_, step⟩
  · exact .inr (.inl ⟨entry, frontier, taken⟩)
  · exact .inr (.inr ⟨entry, frontier, taken⟩)

/-- A search that may not expand another node ends. -/
theorem Traversal.step_of_spent (spent : t.limits.spent t.stats.expansions = true) :
    t.step = t.finish .expansionBudgetExceeded := by
  rw [Traversal.step, spent]
  rfl

/-- A search that has no node left ends. -/
theorem Traversal.step_of_none (unspent : t.limits.spent t.stats.expansions = false)
    (none : Frontier.pop? t.frontier = none) : t.step = t.finish .frontierExhausted := by
  rw [Traversal.step, unspent, none]
  rfl

/-- An entry that comes out is expanded unless its depth forbids it. -/
theorem Traversal.step_of_kept {entry : Entry N K} {frontier : F}
    (unspent : t.limits.spent t.stats.expansions = false)
    (popped : Frontier.pop? t.frontier = some (entry, frontier))
    (shallow : t.limits.prunes entry.depth = false) :
    t.step = Traversal.expand { t with frontier } entry := by
  rw [Traversal.step, unspent, popped]
  simp [shallow]

/-- What holds before the first round and is kept by every round of a live search holds after
any number of rounds. -/
theorem Traversal.rounds_induction {motive : List (Step N K) → Traversal F N → Prop}
    (start : motive [] t)
    (round : ∀ steps s, s.ended = false → motive steps s →
      motive (steps ++ [s.step.1]) s.step.2) (n : Nat) :
    motive (t.rounds n).1 (t.rounds n).2 := by
  induction n with
  | zero => exact start
  | succ n ih =>
    cases last : (t.rounds n).2.ended with
    | true => rw [Traversal.rounds_succ_of_ended last]; exact ih
    | false => rw [Traversal.rounds_succ_of_live last]; exact round _ _ last ih

/-- Every round of a search that has not ended expanded or discarded an entry. -/
theorem Traversal.length_entries_of_live {n : Nat} (live : (t.rounds n).2.ended = false) :
    (expandedEntries (t.rounds n).1).length + (prunedEntries (t.rounds n).1).length = n := by
  induction n with
  | zero => rfl
  | succ n ih =>
    cases before : (t.rounds n).2.ended with
    | true =>
      rw [Traversal.rounds_succ_of_ended before, before] at live
      cases live
    | false =>
      have count := ih before
      rw [Traversal.rounds_succ_of_live before] at live ⊢
      rcases (t.rounds n).2.step_outcome with ⟨reason, step⟩ | ⟨entry, frontier, -, -, step⟩ |
        ⟨entry, frontier, -, -, step⟩ <;> rw [step] at live ⊢
      · cases live
      · simp [Traversal.prune]
        omega
      · simp [Traversal.expand]
        omega

end GrammarSearch
