import GrammarSearch.Proofs.Search.Rounds
import GrammarSearch.Search.Strategy
import Mathlib.Algebra.GroupWithZero.Nat

/-!
# Courses of a search

A search is asked for one item after the other until it has ended.
`Traversal.Drained` is such a course, with any number of rounds allowed for
every item. Asking for items does not change what the rounds do: a course is the
run of the search without a goal, `Traversal.rounds`, and its items are the
verdicts of the goal predicate on the expanded nodes, in order (`testAll`). Only
the count of goals tells the two apart, see `Traversal.addGoals`.
-/

namespace GrammarSearch

variable {F N K E σ : Type}

/-! ## Verdicts -/

deriving instance DecidableEq for Item

/-- The items that a goal predicate makes of nodes in order, and its state afterwards. A node
that is no goal makes no item. -/
def testAll (goal : N → StateM σ (Except E Bool)) : List N → σ → List (Item N E) × σ
  | [], state => ([], state)
  | node :: nodes, state =>
    match (goal node).run state with
    | (.ok false, state) => testAll goal nodes state
    | (.ok true, state) => (.goal node :: (testAll goal nodes state).1, (testAll goal nodes state).2)
    | (.error e, state) => (.failed e :: (testAll goal nodes state).1, (testAll goal nodes state).2)

/-- An item that is a verdict on a node. -/
def Item.verdicts : Item N E → List (Item N E)
  | .goal node => [.goal node]
  | .failed e => [.failed e]
  | .ended | .unfinished => []

/-- How many goals an item hands out. -/
def Item.goals : Item N E → Nat
  | .goal _ => 1
  | .failed _ | .ended | .unfinished => 0

@[simp] theorem Item.sum_goals_verdicts (item : Item N E) :
    (item.verdicts.map Item.goals).sum = item.goals := by
  cases item <;> rfl

theorem testAll_append (goal : N → StateM σ (Except E Bool)) (nodes more : List N) (state : σ) :
    testAll goal (nodes ++ more) state =
      ((testAll goal nodes state).1 ++ (testAll goal more (testAll goal nodes state).2).1,
        (testAll goal more (testAll goal nodes state).2).2) := by
  induction nodes generalizing state with
  | nil => rfl
  | cons node nodes ih =>
    simp only [List.cons_append, testAll]
    split <;> simp [ih]

theorem testAll_prefix (goal : N → StateM σ (Except E Bool)) {nodes all : List N} (state : σ)
    (among : nodes <+: all) : (testAll goal nodes state).1 <+: (testAll goal all state).1 := by
  rcases among with ⟨more, rfl⟩
  rw [testAll_append]
  exact List.prefix_append _ _

theorem length_testAll_le (goal : N → StateM σ (Except E Bool)) (nodes : List N) (state : σ) :
    (testAll goal nodes state).1.length ≤ nodes.length := by
  induction nodes generalizing state with
  | nil => exact Nat.le_refl 0
  | cons node nodes ih =>
    rw [testAll, List.length_cons]
    split
    · exact Nat.le_succ_of_le (ih _)
    · exact Nat.succ_le_succ (ih _)
    · exact Nat.succ_le_succ (ih _)

/-- Only nodes that were tested are handed out. -/
theorem mem_of_goal_mem_testAll {goal : N → StateM σ (Except E Bool)} {nodes : List N} {state : σ}
    {node : N} (member : .goal node ∈ (testAll goal nodes state).1) : node ∈ nodes := by
  induction nodes generalizing state with
  | nil => cases member
  | cons head nodes ih =>
    rw [testAll] at member
    split at member
    · exact List.mem_cons_of_mem _ (ih member)
    · rcases List.mem_cons.1 member with here | later
      · cases here
        exact List.mem_cons_self
      · exact List.mem_cons_of_mem _ (ih later)
    · rcases List.mem_cons.1 member with here | later
      · cases here
      · exact List.mem_cons_of_mem _ (ih later)

/-- The item that an answer about a node makes, if it makes one. -/
def Item.ofAnswer? (answer : N → Except E Bool) (node : N) : Option (Item N E) :=
  match answer node with
  | .ok false => none
  | .ok true => some (.goal node)
  | .error e => some (.failed e)

/-- The items of a predicate whose answers do not depend on its state. -/
theorem testAll_of_answers {goal : N → StateM σ (Except E Bool)} {answer : N → Except E Bool}
    (answers : ∀ node state, ((goal node).run state).1 = answer node) (nodes : List N) (state : σ) :
    (testAll goal nodes state).1 = nodes.filterMap (Item.ofAnswer? answer) := by
  induction nodes generalizing state with
  | nil => rfl
  | cons node nodes ih =>
    rw [testAll, List.filterMap_cons, Item.ofAnswer?, ← answers node state]
    obtain ⟨verdict, after⟩ := (goal node).run state
    rcases verdict with e | _ | _ <;> simp [ih]

/-- Such a predicate hands out the nodes it accepts. -/
theorem goal_mem_testAll {goal : N → StateM σ (Except E Bool)} {answer : N → Except E Bool}
    (answers : ∀ node state, ((goal node).run state).1 = answer node) (nodes : List N) (state : σ)
    (node : N) :
    .goal node ∈ (testAll goal nodes state).1 ↔ node ∈ nodes ∧ answer node = .ok true := by
  rw [testAll_of_answers answers, List.mem_filterMap]
  constructor
  · rintro ⟨other, member, made⟩
    unfold Item.ofAnswer? at made
    split at made
    · cases made
    · next accepted =>
      cases made
      exact ⟨member, accepted⟩
    · cases made
  · rintro ⟨member, accepted⟩
    exact ⟨node, member, by rw [Item.ofAnswer?, accepted]⟩

/-! ## The count of goals -/

variable [Frontier F N K]

/-- A search that has handed out some goals more. -/
def Traversal.addGoals (t : Traversal F N) (k : Nat) : Traversal F N :=
  { t with stats := { t.stats with goalsYielded := t.stats.goalsYielded + k } }

/-- A record of a search that has handed out some goals more. -/
def Step.addGoals (k : Nat) : Step N K → Step N K
  | .expanded number entry children => .expanded number entry children
  | .pruned entry => .pruned entry
  | .finished stats => .finished { stats with goalsYielded := stats.goalsYielded + k }

@[simp] theorem Traversal.addGoals_addGoals (t : Traversal F N) (k l : Nat) :
    (t.addGoals k).addGoals l = t.addGoals (k + l) := by
  simp [Traversal.addGoals, Nat.add_assoc]

@[simp] theorem Traversal.ended_addGoals (t : Traversal F N) (k : Nat) :
    (t.addGoals k).ended = t.ended := rfl

@[simp] theorem expandedEntries_map_addGoals (k : Nat) (steps : List (Step N K)) :
    expandedEntries (steps.map (Step.addGoals k)) = expandedEntries steps := by
  unfold expandedEntries
  rw [List.filterMap_map]
  congr 1
  funext step
  cases step <;> rfl

@[simp] theorem prunedEntries_map_addGoals (k : Nat) (steps : List (Step N K)) :
    prunedEntries (steps.map (Step.addGoals k)) = prunedEntries steps := by
  unfold prunedEntries
  rw [List.filterMap_map]
  congr 1
  funext step
  cases step <;> rfl

@[simp] theorem poppedEntries_map_addGoals (k : Nat) (steps : List (Step N K)) :
    poppedEntries (steps.map (Step.addGoals k)) = poppedEntries steps := by
  unfold poppedEntries
  rw [List.filterMap_map]
  congr 1
  funext step
  cases step <;> rfl

@[simp] theorem expandedNodes_map_addGoals (k : Nat) (steps : List (Step N K)) :
    expandedNodes (steps.map (Step.addGoals k)) = expandedNodes steps := by
  simp [expandedNodes]

/-- A round does not depend on the count of goals. -/
theorem Traversal.step_addGoals (t : Traversal F N) (k : Nat) :
    (t.addGoals k).step = (t.step.1.addGoals k, t.step.2.addGoals k) := by
  unfold Traversal.step
  have limits : (t.addGoals k).limits = t.limits := rfl
  have expansions : (t.addGoals k).stats.expansions = t.stats.expansions := rfl
  have frontier : (t.addGoals k).frontier = t.frontier := rfl
  rw [limits, expansions, frontier]
  cases t.limits.spent t.stats.expansions with
  | true => rfl
  | false =>
    cases Frontier.pop? t.frontier with
    | none => rfl
    | some taken =>
      cases deep : t.limits.prunes taken.1.depth <;> simp only [deep] <;> rfl

theorem Traversal.rounds_addGoals (t : Traversal F N) (k n : Nat) :
    (t.addGoals k).rounds n =
      ((t.rounds n).1.map (Step.addGoals k), (t.rounds n).2.addGoals k) := by
  induction n with
  | zero => rfl
  | succ n ih =>
    cases last : (t.rounds n).2.ended with
    | true =>
      rw [Traversal.rounds_succ_of_ended last,
        Traversal.rounds_succ_of_ended (by rw [ih]; exact last), ih]
    | false =>
      rw [Traversal.rounds_succ_of_live last,
        Traversal.rounds_succ_of_live (by rw [ih]; exact last), ih, Traversal.step_addGoals]
      simp

/-! ## One item -/

/-- A pull is the first `n` rounds of a search, after which it has an item for one of the
reasons there are. -/
structure Traversal.Advances (goal : N → StateM σ (Except E Bool)) (t : Traversal F N) (state : σ)
    (steps : List (Step N K)) (pull : Pull F N K E σ) (n : Nat) : Prop where
  steps_eq : pull.steps = steps ++ (t.rounds n).1
  verdicts_eq : testAll goal (expandedNodes (t.rounds n).1) state = (pull.item.verdicts, pull.state)
  traversal_eq : pull.traversal = (t.rounds n).2.addGoals pull.item.goals
  ended_iff : (t.rounds n).2.ended = true ↔ pull.item = .ended

variable {goal : N → StateM σ (Except E Bool)} {t : Traversal F N} {state : σ}

theorem Traversal.Advances.zero (live : t.ended = false) (steps : List (Step N K)) :
    Traversal.Advances goal t state steps ⟨.unfinished, steps, t, state⟩ 0 where
  steps_eq := (List.append_nil steps).symm
  verdicts_eq := rfl
  traversal_eq := rfl
  ended_iff := by simp [Traversal.rounds_zero, live]

/-- A round may lead to an item. -/
theorem Traversal.Advances.one {item : Item N E} {after : σ} (live : t.ended = false)
    (steps : List (Step N K))
    (verdicts : testAll goal (expandedNodes [t.step.1]) state = (item.verdicts, after))
    (ended : t.step.2.ended = true ↔ item = .ended) :
    Traversal.Advances goal t state steps
      ⟨item, steps ++ [t.step.1], t.step.2.addGoals item.goals, after⟩ 1 := by
  have first := Traversal.rounds_succ_of_live (n := 0) live
  rw [Traversal.rounds_zero, List.nil_append] at first
  refine ⟨?_, ?_, ?_, ?_⟩ <;> rw [first]
  · exact verdicts
  · exact ended

/-- A round without an item comes before the rounds that lead to one. -/
theorem Traversal.Advances.cons {steps : List (Step N K)} {pull : Pull F N K E σ} {n : Nat}
    {after : σ} (live : t.ended = false)
    (passed : testAll goal (expandedNodes [t.step.1]) state = ([], after))
    (rest : Traversal.Advances goal t.step.2 after (steps ++ [t.step.1]) pull n) :
    Traversal.Advances goal t state steps pull (n + 1) := by
  have first := Traversal.rounds_succ_eq_cons live n
  refine ⟨?_, ?_, ?_, ?_⟩
  · rw [rest.steps_eq, first, List.append_assoc]
    rfl
  · have nodes : expandedNodes (t.rounds (n + 1)).1 =
        expandedNodes [t.step.1] ++ expandedNodes (t.step.2.rounds n).1 := by
      rw [first, ← expandedNodes_append]
      rfl
    rw [nodes, testAll_append, passed, rest.verdicts_eq]
    rfl
  · rw [first]
    exact rest.traversal_eq
  · rw [first]
    exact rest.ended_iff

/-- No item comes after the round that ends a search. -/
theorem Traversal.nextAfter_of_finished {stats : Stats} (step : t.step.1 = .finished stats)
    (rounds : Nat) (steps : List (Step N K)) :
    nextAfter goal (rounds + 1) t steps state =
      ⟨.ended, steps.reverse ++ [t.step.1], t.step.2, state⟩ := by
  rcases taken : t.step with ⟨first, after⟩
  rw [taken] at step
  subst step
  simp [nextAfter, taken]

theorem Traversal.nextAfter_of_pruned {entry : Entry N K} (step : t.step.1 = .pruned entry)
    (rounds : Nat) (steps : List (Step N K)) :
    nextAfter goal (rounds + 1) t steps state =
      nextAfter goal rounds t.step.2 (t.step.1 :: steps) state := by
  rcases taken : t.step with ⟨first, after⟩
  rw [taken] at step
  subst step
  simp [nextAfter, taken]

/-- Whether an item comes after the expansion of a node is up to the goal predicate. -/
theorem Traversal.nextAfter_of_expanded {number : Nat} {entry : Entry N K} {children : List N}
    (step : t.step.1 = .expanded number entry children) (rounds : Nat) (steps : List (Step N K)) :
    nextAfter goal (rounds + 1) t steps state =
      match (goal entry.node).run state with
      | (.ok false, after) => nextAfter goal rounds t.step.2 (t.step.1 :: steps) after
      | (.ok true, after) =>
        ⟨.goal entry.node, steps.reverse ++ [t.step.1], t.step.2.addGoals 1, after⟩
      | (.error e, after) => ⟨.failed e, steps.reverse ++ [t.step.1], t.step.2, after⟩ := by
  rcases taken : t.step with ⟨first, after⟩
  rw [taken] at step
  subst step
  simp only [nextAfter, taken, List.reverse_cons]
  rfl

/-- The next item comes after some rounds: after one at least if any are allowed, and after no
more than are allowed. If it has not come, all of them were taken. -/
theorem Traversal.nextAfter_advances (state : σ) (rounds : Nat) (live : t.ended = false)
    (steps : List (Step N K)) :
    ∃ n ≤ rounds, (0 < rounds → 0 < n) ∧
      ((nextAfter goal rounds t steps state).item = .unfinished → n = rounds) ∧
      Traversal.Advances goal t state steps.reverse (nextAfter goal rounds t steps state) n := by
  induction rounds generalizing t state steps with
  | zero => exact ⟨0, Nat.le_refl 0, id, fun _ => rfl, .zero live _⟩
  | succ rounds ih =>
    rcases t.step_outcome with ⟨reason, step⟩ | ⟨entry, frontier, -, -, step⟩ |
      ⟨entry, frontier, -, -, step⟩
    · rw [Traversal.nextAfter_of_finished (by rw [step]; rfl)]
      exact ⟨1, by omega, by omega, by simp,
        .one live _ (by rw [step]; rfl) (by rw [step]; simp)⟩
    · have live' : t.step.2.ended = false := by
        rw [step]
        exact live
      obtain ⟨n, le, -, unfinished, advances⟩ := ih state live' (t.step.1 :: steps)
      rw [Traversal.nextAfter_of_pruned (by rw [step]; rfl)]
      rw [List.reverse_cons] at advances
      exact ⟨n + 1, by omega, by omega, fun h => by rw [unfinished h],
        .cons live (by rw [step]; rfl) advances⟩
    · have live' : t.step.2.ended = false := by
        rw [step]
        exact live
      have answer : testAll goal (expandedNodes [t.step.1]) state =
          testAll goal [entry.node] state := by
        rw [step]
        rfl
      have expanded : t.step.1 = .expanded (t.stats.expansions + 1) entry
          (t.graph.expand entry.node) := by
        rw [step]
        rfl
      rw [Traversal.nextAfter_of_expanded expanded]
      rcases verdict : (goal entry.node).run state with ⟨e | _ | _, after⟩
      · exact ⟨1, by omega, by omega, by simp,
          .one live _ (by simp [answer, testAll, verdict, Item.verdicts]) (by simp [live'])⟩
      · obtain ⟨n, le, -, unfinished, advances⟩ := ih after live' (t.step.1 :: steps)
        rw [List.reverse_cons] at advances
        exact ⟨n + 1, by omega, by omega, fun h => by rw [unfinished h],
          .cons live (by simp [answer, testAll, verdict]) advances⟩
      · exact ⟨1, by omega, by omega, by simp,
          .one live _ (by simp [answer, testAll, verdict, Item.verdicts]) (by simp [live'])⟩

/-- An item of a live search. -/
theorem Traversal.next_advances (goal : N → StateM σ (Except E Bool)) (state : σ) (rounds : Nat)
    (live : t.ended = false) :
    ∃ n ≤ rounds, (0 < rounds → 0 < n) ∧
      ((t.next goal rounds state).item = .unfinished → n = rounds) ∧
      Traversal.Advances goal t state [] (t.next goal rounds state) n := by
  have asked : t.next goal rounds state = nextAfter goal rounds t [] state := by
    rw [next, ← Traversal.ended, live]
    rfl
  rw [asked]
  exact Traversal.nextAfter_advances state rounds live []

/-- A search that has ended has no more items. -/
theorem Traversal.next_of_ended (ended : t.ended = true) (rounds : Nat) :
    t.next goal rounds state = ⟨.ended, [], t, state⟩ := by
  rw [next, ← Traversal.ended, ended]
  rfl

/-- Every pull takes some rounds of the search; one of a search that has ended takes none. -/
theorem Traversal.exists_advances (goal : N → StateM σ (Except E Bool)) (t : Traversal F N)
    (state : σ) (rounds : Nat) :
    ∃ n, Traversal.Advances goal t state [] (t.next goal rounds state) n := by
  cases ended : t.ended with
  | false =>
    obtain ⟨n, -, -, -, advances⟩ := Traversal.next_advances goal state rounds ended
    exact ⟨n, advances⟩
  | true =>
    rw [Traversal.next_of_ended ended]
    exact ⟨0, rfl, rfl, rfl, by simp [Traversal.rounds_zero, ended]⟩

theorem Traversal.live_of_next {rounds : Nat} (more : (t.next goal rounds state).item ≠ .ended) :
    t.ended = false := by
  cases ended : t.ended with
  | false => rfl
  | true => exact absurd (by rw [Traversal.next_of_ended ended]) more

/-- With enough rounds a search hands out a goal, which is the only one that it has expanded. -/
theorem Traversal.next_hits {accepts : N → Bool}
    (answers : ∀ node state, ((goal node).run state).1 = .ok (accepts node))
    (live : t.ended = false) {n : Nat} {node : N} (hit : node ∈ expandedNodes (t.rounds n).1)
    (accepted : accepts node = true) {rounds : Nat} (enough : n ≤ rounds) (state : σ) :
    ∃ first k, (t.next goal rounds state).item = .goal first ∧
      ∀ other, other = first ↔ other ∈ expandedNodes (t.rounds k).1 ∧ accepts other = true := by
  obtain ⟨k, -, -, all, advances⟩ := Traversal.next_advances goal state rounds live
  have goals (other : N) : .goal other ∈ (t.next goal rounds state).item.verdicts ↔
      other ∈ expandedNodes (t.rounds k).1 ∧ accepts other = true := by
    have member := goal_mem_testAll answers (expandedNodes (t.rounds k).1) state other
    rw [advances.verdicts_eq] at member
    simpa using member
  have found (longer : expandedNodes (t.rounds n).1 ⊆ expandedNodes (t.rounds k).1) :
      .goal node ∈ (t.next goal rounds state).item.verdicts :=
    (goals node).2 ⟨longer hit, accepted⟩
  have prefixed (le : n ≤ k) : expandedNodes (t.rounds n).1 ⊆ expandedNodes (t.rounds k).1 := by
    obtain ⟨more, longer⟩ := Traversal.rounds_prefix (t := t) le
    rw [← longer, expandedNodes_append]
    exact List.subset_append_left _ _
  cases item : (t.next goal rounds state).item with
  | goal first =>
    refine ⟨first, k, rfl, fun other => ?_⟩
    rw [← goals other, item]
    simp [Item.verdicts]
  | failed e =>
    have member : .failed e ∈ (testAll goal (expandedNodes (t.rounds k).1) state).1 := by
      rw [advances.verdicts_eq, item]
      exact List.mem_singleton_self _
    rw [testAll_of_answers answers] at member
    obtain ⟨other, -, made⟩ := List.mem_filterMap.1 member
    cases verdict : accepts other <;> simp [Item.ofAnswer?, verdict] at made
  | ended =>
    have finished := advances.ended_iff.2 item
    have none := found (by
      rcases Nat.le_total n k with le | ge
      · exact prefixed le
      · rw [Traversal.rounds_eq_of_ended finished ge]
        exact List.Subset.refl _)
    rw [item] at none
    cases none
  | unfinished =>
    have none := found (prefixed (by rw [all item]; exact enough))
    rw [item] at none
    cases none

/-! ## Some items -/

/-- Two records tell of the same entries. -/
structure SameEntries (steps more : List (Step N K)) : Prop where
  expanded : expandedEntries steps = expandedEntries more
  pruned : prunedEntries steps = prunedEntries more
  popped : poppedEntries steps = poppedEntries more

theorem SameEntries.refl (steps : List (Step N K)) : SameEntries steps steps := ⟨rfl, rfl, rfl⟩

theorem SameEntries.append {steps more steps' more' : List (Step N K)}
    (first : SameEntries steps more) (second : SameEntries steps' more') :
    SameEntries (steps ++ steps') (more ++ more') where
  expanded := by rw [expandedEntries_append, expandedEntries_append, first.expanded, second.expanded]
  pruned := by rw [prunedEntries_append, prunedEntries_append, first.pruned, second.pruned]
  popped := by rw [poppedEntries_append, poppedEntries_append, first.popped, second.popped]

theorem SameEntries.expandedNodes_eq {steps more : List (Step N K)}
    (same : SameEntries steps more) : expandedNodes steps = expandedNodes more :=
  congrArg (List.map Entry.node) same.expanded

theorem SameEntries.of_map_addGoals {steps more : List (Step N K)} {k : Nat}
    (same : SameEntries steps (more.map (Step.addGoals k))) : SameEntries steps more where
  expanded := same.expanded.trans (expandedEntries_map_addGoals k more)
  pruned := same.pruned.trans (prunedEntries_map_addGoals k more)
  popped := same.popped.trans (poppedEntries_map_addGoals k more)

/-- A search was asked for items, one after the other: the items and the rounds that led to them,
in order, and what was left of the search. -/
inductive Traversal.Pulled (goal : N → StateM σ (Except E Bool)) :
    Traversal F N → σ → List (Item N E) → List (Step N K) → Traversal F N → σ → Prop
  | nothing (t : Traversal F N) (state : σ) : Pulled goal t state [] [] t state
  | more {t : Traversal F N} {state after : σ} {items : List (Item N E)}
      {steps : List (Step N K)} {last : Traversal F N} (rounds : Nat) :
    Pulled goal (t.next goal rounds state).traversal (t.next goal rounds state).state items steps
      last after →
    Pulled goal t state ((t.next goal rounds state).item.verdicts ++ items)
      ((t.next goal rounds state).steps ++ steps) last after

variable {items : List (Item N E)} {steps : List (Step N K)} {last : Traversal F N} {after : σ}

/-- Whatever was asked for, the search took some of its rounds, and its items are the verdicts on
the nodes that these rounds expand. -/
theorem Traversal.Pulled.exists_rounds (pulled : t.Pulled goal state items steps last after) :
    ∃ n, SameEntries steps (t.rounds n).1 ∧
      testAll goal (expandedNodes (t.rounds n).1) state = (items, after) ∧
      last = (t.rounds n).2.addGoals (items.map Item.goals).sum := by
  induction pulled with
  | nothing t state => exact ⟨0, .refl _, rfl, rfl⟩
  | @more t state after items steps last rounds _ ih =>
    obtain ⟨n, advances⟩ := Traversal.exists_advances goal t state rounds
    rcases ih with ⟨m, same, verdicts, stats⟩
    simp only [advances.traversal_eq, Traversal.rounds_addGoals,
      expandedNodes_map_addGoals] at same verdicts stats
    refine ⟨n + m, ?_, ?_, ?_⟩ <;> rw [Traversal.rounds_add]
    · rw [advances.steps_eq, List.nil_append]
      exact (SameEntries.refl _).append same.of_map_addGoals
    · rw [expandedNodes_append, testAll_append, advances.verdicts_eq, verdicts]
    · rw [stats, Traversal.addGoals_addGoals, List.map_append, List.sum_append,
        Item.sum_goals_verdicts]

/-- A search can be asked for items until it has taken any number of rounds. -/
theorem Traversal.exists_pulled (goal : N → StateM σ (Except E Bool)) (t : Traversal F N)
    (state : σ) (n : Nat) :
    ∃ items steps last after, t.Pulled goal state items steps last after ∧
      SameEntries steps (t.rounds n).1 ∧ last.ended = (t.rounds n).2.ended := by
  induction n generalizing t state with
  | zero => exact ⟨_, _, _, _, .nothing t state, .refl _, rfl⟩
  | succ n ih =>
    cases live : t.ended with
    | true =>
      rw [Traversal.rounds_of_ended live]
      exact ⟨_, _, _, _, .nothing t state, .refl _, rfl⟩
    | false =>
      obtain ⟨k, le, pos, -, advances⟩ := Traversal.next_advances goal state 1 live
      obtain rfl : k = 1 := by omega
      obtain ⟨items, steps, last, after, pulled, same, ended⟩ :=
        ih (t.next goal 1 state).traversal (t.next goal 1 state).state
      rw [advances.traversal_eq, Traversal.rounds_addGoals] at same ended
      refine ⟨_, _, _, _, .more 1 pulled, ?_, ?_⟩ <;> rw [Nat.add_comm n, Traversal.rounds_add]
      · rw [advances.steps_eq, List.nil_append]
        exact (SameEntries.refl _).append same.of_map_addGoals
      · exact ended

/-- A search that ends has no more items than it takes rounds. -/
theorem Traversal.Pulled.length_items_le (pulled : t.Pulled goal state items steps last after)
    {n : Nat} (ended : (t.rounds n).2.ended = true) : items.length ≤ n := by
  obtain ⟨m, -, verdicts, -⟩ := pulled.exists_rounds
  have few := length_testAll_le goal (expandedNodes (t.rounds m).1) state
  rw [verdicts] at few
  rcases Nat.le_total m n with less | more
  · exact Nat.le_trans few (Nat.le_trans (Traversal.length_expandedNodes_le m) less)
  · rw [Traversal.rounds_eq_of_ended ended more] at few
    exact Nat.le_trans few (Traversal.length_expandedNodes_le n)

/-- A search that ends answers whenever it is asked, if it may take as many rounds. -/
theorem Traversal.Pulled.next_ne_unfinished
    (pulled : t.Pulled goal state items steps last after) {n : Nat}
    (ended : (t.rounds n).2.ended = true) {rounds : Nat} (enough : n ≤ rounds) :
    (last.next goal rounds after).item ≠ .unfinished := by
  obtain ⟨m, -, -, left⟩ := pulled.exists_rounds
  cases live : last.ended with
  | true =>
    rw [Traversal.next_of_ended live]
    intro same
    cases same
  | false =>
    intro unfinished
    obtain ⟨k, -, -, all, advances⟩ := Traversal.next_advances goal after rounds live
    have stopped : (last.rounds k).2.ended = true := by
      rw [left, Traversal.rounds_addGoals, Traversal.ended_addGoals, all unfinished]
      have later := Traversal.rounds_add (t := t) m rounds
      rw [Traversal.rounds_eq_of_ended ended (by omega)] at later
      rw [← congrArg Prod.snd later]
      exact ended
    rw [advances.ended_iff.1 stopped] at unfinished
    cases unfinished

/-! ## All items -/

/-- A search was asked for items until it had ended: the items and the rounds of the course, in
order, and what was left of the search. -/
inductive Traversal.Drained (goal : N → StateM σ (Except E Bool)) :
    Traversal F N → σ → List (Item N E) → List (Step N K) → Traversal F N → σ → Prop
  | last {t : Traversal F N} {state : σ} (rounds : Nat) :
    (t.next goal rounds state).item = .ended →
    Drained goal t state [] (t.next goal rounds state).steps (t.next goal rounds state).traversal
      (t.next goal rounds state).state
  | item {t : Traversal F N} {state after : σ} {items : List (Item N E)}
      {steps : List (Step N K)} {last : Traversal F N} (rounds : Nat) :
    (t.next goal rounds state).item ≠ .ended →
    Drained goal (t.next goal rounds state).traversal (t.next goal rounds state).state items steps
      last after →
    Drained goal t state ((t.next goal rounds state).item.verdicts ++ items)
      ((t.next goal rounds state).steps ++ steps) last after

/-- To ask for all items is to ask for some until the search has ended. -/
theorem Traversal.Drained.pulled (course : t.Drained goal state items steps last after) :
    t.Pulled goal state items steps last after ∧ last.ended = true := by
  induction course with
  | @last t state rounds finished =>
    obtain ⟨n, advances⟩ := Traversal.exists_advances goal t state rounds
    refine ⟨?_, by rw [advances.traversal_eq, Traversal.ended_addGoals, advances.ended_iff, finished]⟩
    have pulled := Traversal.Pulled.more rounds (.nothing (t.next goal rounds state).traversal
      (t.next goal rounds state).state)
    rw [finished, List.append_nil, List.append_nil] at pulled
    exact pulled
  | item rounds _ _ ih => exact ⟨.more rounds ih.1, ih.2⟩

/-- A course takes the rounds of the search, and its items are the verdicts on the nodes that
these rounds expand. -/
theorem Traversal.Drained.exists_rounds (course : t.Drained goal state items steps last after) :
    ∃ n, (t.rounds n).2.ended = true ∧
      expandedEntries steps = expandedEntries (t.rounds n).1 ∧
      prunedEntries steps = prunedEntries (t.rounds n).1 ∧
      testAll goal (expandedNodes (t.rounds n).1) state = (items, after) ∧
      last = (t.rounds n).2.addGoals (items.map Item.goals).sum := by
  obtain ⟨pulled, ended⟩ := course.pulled
  obtain ⟨n, same, verdicts, stats⟩ := pulled.exists_rounds
  rw [stats, Traversal.ended_addGoals] at ended
  exact ⟨n, ended, same.expanded, same.pruned, verdicts, stats⟩

/-- A search that ends can be asked for all its items. -/
theorem Traversal.exists_drained (goal : N → StateM σ (Except E Bool)) (state : σ) {n : Nat}
    (ended : (t.rounds n).2.ended = true) :
    ∃ items steps last after, t.Drained goal state items steps last after := by
  induction n generalizing t state with
  | zero =>
    have stopped : t.ended = true := ended
    have finished : (t.next goal 0 state).item = .ended := by
      rw [Traversal.next_of_ended stopped]
    exact ⟨_, _, _, _, .last 0 finished⟩
  | succ n ih =>
    by_cases finished : (t.next goal 1 state).item = .ended
    · exact ⟨_, _, _, _, .last 1 finished⟩
    · obtain ⟨k, le, pos, -, advances⟩ := Traversal.next_advances goal state 1
        (Traversal.live_of_next finished)
      obtain rfl : k = 1 := by omega
      have rest : ((t.next goal 1 state).traversal.rounds n).2.ended = true := by
        rw [Nat.add_comm, Traversal.rounds_add] at ended
        rw [advances.traversal_eq, Traversal.rounds_addGoals]
        exact ended
      obtain ⟨items, steps, last, after, course⟩ := ih (t.next goal 1 state).state rest
      exact ⟨_, _, _, _, .item 1 finished course⟩

/-- A best-first search of a graph and a course of it, from a state of the goal predicate. -/
structure BestFirstCourse [Fingerprinted N] (graph : Graph N)
    (goal : N → StateM σ (Except E Bool)) where
  costs : Costs N
  policy : Policy
  start : Traversal (Costed N) N
  begun : bestFirst graph costs policy = .ok start
  state : σ
  items : List (Item N E)
  steps : List (Step N Key)
  last : Traversal (Costed N) N
  after : σ
  course : start.Drained goal state items steps last after

end GrammarSearch
