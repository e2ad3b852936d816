import GrammarSearch.Proofs.Search.Rounds

/-!
# Searches with a budget

A budget bounds the number of expansions of a search. While it lasts, a search
with a budget does what a search without one does, and when it is spent the
search ends. `Traversal.cutAt_rounds` compares the two round by round, whatever
the graph and the frontier are.
-/

namespace GrammarSearch

variable {F N K : Type}

/-- The search with this budget, or with none. -/
def Traversal.withBudget (t : Traversal F N) (budget : Option Nat) : Traversal F N :=
  { t with limits := { t.limits with maxExpansions := budget } }

@[simp] theorem expandedNodes_finish (t : Traversal F N) (steps : List (Step N K))
    (reason : Termination) :
    expandedNodes (steps ++ [(t.finish reason).1]) = expandedNodes steps := by
  simp [Traversal.finish, expandedNodes]

@[simp] theorem expandedNodes_prune (t : Traversal F N) (steps : List (Step N K))
    (entry : Entry N K) :
    expandedNodes (steps ++ [(t.prune entry).1]) = expandedNodes steps := by
  simp [Traversal.prune, expandedNodes]

variable [Frontier F N K] {t : Traversal F N}

/-- A round in which neither of two budgets is spent does not depend on which of them is given. -/
theorem Traversal.step_withBudget {budget : Option Nat}
    (unspent : t.limits.spent t.stats.expansions = false)
    (unspent' : (t.withBudget budget).limits.spent t.stats.expansions = false) :
    (t.withBudget budget).step = (t.step.1, t.step.2.withBudget budget) := by
  have expansions : (t.withBudget budget).stats.expansions = t.stats.expansions := rfl
  have frontier : (t.withBudget budget).frontier = t.frontier := rfl
  have prunes (depth : Nat) :
      (t.withBudget budget).limits.prunes depth = t.limits.prunes depth := rfl
  unfold Traversal.step
  rw [expansions, frontier, unspent, unspent']
  cases Frontier.pop? t.frontier with
  | none => rfl
  | some taken =>
    cases deep : t.limits.prunes taken.1.depth <;> simp only [prunes, deep] <;> rfl

/-- No round changes the limits. -/
theorem Traversal.limits_rounds (t : Traversal F N) (n : Nat) :
    (t.rounds n).2.limits = t.limits := by
  refine Traversal.rounds_induction (t := t) (motive := fun _ s => s.limits = t.limits) rfl ?_ n
  intro steps s _ same
  rcases s.step_outcome with ⟨reason, step⟩ | ⟨entry, frontier, -, -, step⟩ |
    ⟨entry, frontier, -, -, step⟩ <;> rw [step] <;> exact same

/-- Further rounds expand further nodes. -/
theorem expandedNodes_mono {steps more : List (Step N K)} (first : steps <+: more) :
    expandedNodes steps <+: expandedNodes more := by
  rcases first with ⟨rest, rfl⟩
  rw [expandedNodes_append]
  exact List.prefix_append _ _

@[simp] theorem expandedNodes_expand (t : Traversal F N) (steps : List (Step N K))
    (entry : Entry N K) :
    expandedNodes (steps ++ [(t.expand entry).1]) = expandedNodes steps ++ [entry.node] := by
  simp [Traversal.expand, expandedNodes]

/-- A search counts its expansions. -/
theorem Traversal.expansions_rounds (fresh : t.stats.expansions = 0) (n : Nat) :
    (t.rounds n).2.stats.expansions = (expandedNodes (t.rounds n).1).length := by
  refine Traversal.rounds_induction (t := t) (motive := fun steps s =>
    s.stats.expansions = (expandedNodes steps).length) fresh ?_ n
  intro steps s _ count
  rcases s.step_outcome with ⟨reason, step⟩ | ⟨entry, frontier, -, -, step⟩ |
    ⟨entry, frontier, -, -, step⟩ <;> rw [step]
  · rw [expandedNodes_finish]
    exact count
  · rw [expandedNodes_prune]
    exact count
  · rw [expandedNodes_expand, List.length_append, ← count]
    rfl

/-- A search that has spent its budget ends in the next round, without expanding a node. -/
theorem Traversal.rounds_succ_of_spent (fresh : t.stats.expansions = 0) {n : Nat}
    (spent : t.limits.maxExpansions = some (expandedNodes (t.rounds n).1).length) :
    expandedNodes (t.rounds (n + 1)).1 = expandedNodes (t.rounds n).1 ∧
      (t.rounds (n + 1)).2.ended = true := by
  cases last : (t.rounds n).2.ended with
  | true =>
    rw [Traversal.rounds_succ_of_ended last]
    exact ⟨rfl, last⟩
  | false =>
    have full : (t.rounds n).2.limits.spent (t.rounds n).2.stats.expansions = true := by
      rw [Traversal.limits_rounds, Limits.spent, spent, Traversal.expansions_rounds fresh]
      exact decide_eq_true (Nat.le_refl _)
    rw [Traversal.rounds_succ_of_live last, Traversal.step_of_spent full]
    exact ⟨expandedNodes_finish _ _ _, rfl⟩

/-! ## Side by side -/

/-- How far a search with a budget has come after as many rounds as one without a budget. -/
inductive CutAt (budget : Option Nat) (steps : List (Step N K)) (t : Traversal F N)
    (others : List (Step N K)) (free : Traversal F N) : Prop
  /-- Both did the same, and neither was stopped. -/
  | alongside (same : steps = others) (left : t = free.withBudget budget)
      (within : ∀ bound ∈ budget, (expandedNodes steps).length ≤ bound)
      (unstopped : free.stats.termination ≠ some .expansionBudgetExceeded)
      (room : free.ended = true → ∀ bound ∈ budget, (expandedNodes steps).length < bound)
  /-- The budget was spent, and the one search stopped there. -/
  | stopped (bound : Nat) (given : budget = some bound)
      (reached : (expandedNodes steps).length = bound)
      (among : expandedNodes steps <+: expandedNodes others)
      (reason : t.stats.termination = some .expansionBudgetExceeded)

/-- A search that has spent its budget is stopped in the next round. -/
theorem Traversal.cutAt_of_spent {bound : Nat} {steps : List (Step N K)} {free : Traversal F N}
    (spent : (free.withBudget (some bound)).limits.spent free.stats.expansions = true)
    (count : free.stats.expansions = (expandedNodes steps).length)
    (within : (expandedNodes steps).length ≤ bound) :
    CutAt (some bound) (steps ++ [(free.withBudget (some bound)).step.1])
      (free.withBudget (some bound)).step.2 (steps ++ [free.step.1]) free.step.2 := by
  have reached : bound ≤ free.stats.expansions := of_decide_eq_true spent
  rw [Traversal.step_of_spent spent]
  refine .stopped bound rfl ?_ ?_ rfl <;> rw [expandedNodes_finish]
  · omega
  · exact expandedNodes_mono (List.prefix_append _ _)

/-- Where neither search has spent its budget the next round of both is the same. -/
theorem Traversal.cutAt_of_unspent {budget : Option Nat} {steps : List (Step N K)}
    {free : Traversal F N} (live : free.ended = false)
    (unspent : free.limits.spent free.stats.expansions = false)
    (unspent' : (free.withBudget budget).limits.spent free.stats.expansions = false)
    (room : ∀ bound ∈ budget, (expandedNodes steps).length < bound) :
    CutAt budget (steps ++ [(free.withBudget budget).step.1]) (free.withBudget budget).step.2
      (steps ++ [free.step.1]) free.step.2 := by
  have within : ∀ bound ∈ budget, (expandedNodes steps).length ≤ bound :=
    fun bound given => Nat.le_of_lt (room bound given)
  have unstopped : free.stats.termination ≠ some .expansionBudgetExceeded := by
    intro stopped
    rw [Traversal.ended, stopped] at live
    cases live
  rw [Traversal.step_withBudget unspent unspent']
  rcases free.step_cases with ⟨spent, -⟩ | ⟨-, -, step⟩ | ⟨entry, frontier, -, -, -, step⟩ |
    ⟨entry, frontier, -, -, -, step⟩
  · rw [unspent] at spent
    cases spent
  · rw [step]
    refine .alongside rfl rfl ?_ ?_ fun _ => ?_
    · rw [expandedNodes_finish]
      exact within
    · simp [Traversal.finish]
    · rw [expandedNodes_finish]
      exact room
  · rw [step]
    refine .alongside rfl rfl ?_ unstopped fun ended => ?_
    · rw [expandedNodes_prune]
      exact within
    · exact absurd (ended.symm.trans live) (by decide)
  · rw [step]
    refine .alongside rfl rfl ?_ unstopped fun ended => ?_
    · rw [expandedNodes_expand, List.length_append]
      exact room
    · exact absurd (ended.symm.trans live) (by decide)

/-- The next round of two searches that have done the same. -/
theorem Traversal.cutAt_step {budget : Option Nat} {steps : List (Step N K)}
    {free : Traversal F N} (unlimited : free.limits.maxExpansions = none)
    (live : free.ended = false) (count : free.stats.expansions = (expandedNodes steps).length)
    (within : ∀ bound ∈ budget, (expandedNodes steps).length ≤ bound) :
    CutAt budget (steps ++ [(free.withBudget budget).step.1]) (free.withBudget budget).step.2
      (steps ++ [free.step.1]) free.step.2 := by
  have unspent : free.limits.spent free.stats.expansions = false := by
    rw [Limits.spent, unlimited]
  cases spent : (free.withBudget budget).limits.spent free.stats.expansions with
  | true =>
    rcases budget with _ | bound
    · cases spent
    · exact Traversal.cutAt_of_spent spent count (within bound rfl)
  | false =>
    apply Traversal.cutAt_of_unspent live unspent spent
    intro bound given
    cases given
    rw [← count]
    exact Nat.lt_of_not_le (of_decide_eq_false spent)

/-- What a search with a budget expands is what one without a budget expands, until the budget is
spent. -/
theorem Traversal.cutAt_rounds (budget : Option Nat) (unlimited : t.limits.maxExpansions = none)
    (fresh : t.stats = .initial) (n : Nat) :
    CutAt budget ((t.withBudget budget).rounds n).1 ((t.withBudget budget).rounds n).2
      (t.rounds n).1 (t.rounds n).2 := by
  have count := Traversal.expansions_rounds (t := t) (by rw [fresh]; rfl)
  -- The searches stay side by side until the one with a budget is stopped; then only the other
  -- goes on.
  induction n with
  | zero =>
    refine .alongside rfl rfl (fun _ _ => Nat.zero_le _) ?_ ?_ <;>
      simp [Traversal.rounds_zero, Traversal.ended, fresh, Stats.initial, Stats.zero]
  | succ n ih =>
    rcases ih with ⟨same, left, within, unstopped, room⟩ | ⟨bound, given, reached, among, reason⟩
    · cases last : (t.rounds n).2.ended with
      | true =>
        have stopped : ((t.withBudget budget).rounds n).2.ended = true := by
          rw [left]
          exact last
        rw [Traversal.rounds_succ_of_ended last, Traversal.rounds_succ_of_ended stopped]
        exact .alongside same left within unstopped room
      | false =>
        have going : ((t.withBudget budget).rounds n).2.ended = false := by
          rw [left]
          exact last
        rw [Traversal.rounds_succ_of_live last, Traversal.rounds_succ_of_live going]
        simp only [same, left] at within ⊢
        apply Traversal.cutAt_step _ last (count n) within
        rw [Traversal.limits_rounds]
        exact unlimited
    · have stopped : ((t.withBudget budget).rounds n).2.ended = true := by
        rw [Traversal.ended, reason]
        rfl
      rw [Traversal.rounds_succ_of_ended stopped]
      refine .stopped bound given reached (among.trans ?_) reason
      exact expandedNodes_mono (Traversal.rounds_prefix (Nat.le_succ n))

end GrammarSearch
